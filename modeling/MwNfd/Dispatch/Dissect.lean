import MwNfd.Dispatch.WorkerId
import MwNfd.Lib.Loop
import Mathlib.Data.List.AList
import Mathlib.Data.Fintype.Card
import Mathlib.Data.Finset.Prod

/-!
# `dissectNdnPacket` and `dcnReceivePacket` (`mw-nfd-global.cpp`)

An input thread hands every received packet to `dcnReceivePacket`, which asks
`dissectNdnPacket` for the packet's type and forwarding worker and then either declines the
packet (the transport passes it to the face's own link service, for the main forwarder), drops
it, or enqueues it on `g_dcnMoodyMQ[iwId][worker]` (an Interest) or
`g_dcnMoodyMQ[iwId + 1][worker]` (anything else).

`dissectNdnPacket(wire, size)` looks at the first octet. An `LpPacket` (`0x64`) is walked
element by element: the header fields `FragCount`, `FragIndex`, `Sequence` and `PitToken` are
copied into locals, `Fragment`, `Interest` and `Data` are entered (`continue`), `Name` is handed
to `computeWorkerId`, and any other element is skipped. After the walk the worker comes from the
PIT token, from `g_fragmentMap` for a non-first fragment, or from the name. Any other packet is
read as an outer TLV whose first inner element may be the Name.

The model reads memory as `computeWorkerId` does. `memcpy(&v, pos, length)` into a `uint64_t`
overwrites the first `length` octets of `v` (least significant first on the little-endian
hosts the code runs on); a `length` above 8 writes past `v`. The `int64_t` worker and the
`uint32_t` type are read back through an `int32_t` by `dcnReceivePacket`; the worker values the
code produces (-1, an octet, a worker index, `DCN_LOCALHOST_PREFIX`) all fit, the type does not.

`pos += length` is 64-bit pointer arithmetic: a TLV-LENGTH near 2^64 moves the walk back, and it
can come back to an element it has read and go round forever.

* `lpLoop_walkPasses`, `lpLoop_walkPasses_eq`: the `walkPasses` passes `dissectNdnPacket` gives
  the walk run out exactly when the walk of the source never ends, and otherwise give the result
  of every run that ends.
-/

namespace MwNfd

/-! ## Copying header values -/

/-- The eight octets of a `uint64_t` variable in memory, least significant first. -/
def wordOctets (v : UInt64) : List UInt8 := (Octets.beBytes 8 v.toNat).reverse

/-- `memcpy(&v, pos, length)` into a `uint64_t` `v`. -/
def memcpyWord (mem : List UInt8) (pos length : Nat) (v : UInt64) : Except Fault UInt64 := do
  let bs ← bytesAt mem pos length
  if 8 < length then .error .memcpyOverflow
  else return (Octets.leNat (bs ++ (wordOctets v).drop length)).toUInt64

/-- `boost::endian::big_to_native_inplace` on a little-endian host: the octets reversed. -/
def bigToNative (v : UInt64) : UInt64 := (Octets.leNat (Octets.beBytes 8 v.toNat)).toUInt64

/-- The read of `FragCount` and of `FragIndex`: a one-octet value is assigned, any other is
`memcpy`'d, and the value `big_to_native` returns is discarded. -/
def readFragNumber (mem : List UInt8) (pos length : Nat) (v : UInt64) : Except Fault UInt64 :=
  if length = 1 then (byteAt mem pos).map UInt8.toUInt64 else memcpyWord mem pos length v

/-! ## The LpPacket walk -/

/-- The locals of `dissectNdnPacket` that live across passes of the `LpPacket` loop. -/
structure DissectVars where
  worker : Int
  pitToken : Int
  packetType : Nat
  seq : UInt64
  index : UInt64
  count : UInt64
  isFrag : Bool
  deriving DecidableEq, Repr

/-- The locals before the loop, after `readType` has read the outer type into `packetType`. -/
def DissectVars.init (packetType : Nat) : DissectVars :=
  { worker := -1, pitToken := -1, packetType := packetType, seq := 0, index := 0, count := 0,
    isFrag := false }

/-- The four header `if`s of the loop body, for an element of type `type` whose value of
`length` octets starts at `pos`. -/
def readHeaderField (mem : List UInt8) (pos type length : Nat) (v : DissectVars) :
    Except Fault DissectVars :=
  if type = lp.tlv.fragCount then do
    let count ← readFragNumber mem pos length v.count
    return { v with count := count }
  else if type = lp.tlv.fragIndex then do
    let index ← readFragNumber mem pos length v.index
    return { v with index := index }
  else if type = lp.tlv.sequence then do
    let seq ← memcpyWord mem pos length v.seq
    return { v with seq := bigToNative seq, isFrag := true }
  else if type = lp.tlv.pitToken then do
    -- `ST_PIT_TOKEN::workerId` is the first octet of the value
    let workerId ← byteAt mem pos
    return { v with worker := workerId.toNat, pitToken := workerId.toNat }
  else return v

/-- How the loop ends: `return std::make_tuple(false, LpPacket, worker)` on a failed read, or
with the locals at a `break` or when `pos == end`. -/
inductive LpWalk where
  | malformed (worker : Int)
  | done (v : DissectVars)
  deriving DecidableEq, Repr

/-- The outcome of one pass of the loop body: leave the loop, or test `pos != end` and go on
from `pos` (both `continue` and the end of the body go to the test). -/
inductive LpStep where
  | exit (r : LpWalk)
  | next (pos : Nat) (v : DissectVars)
  deriving DecidableEq, Repr

/-- One pass of the `do { … } while (pos != end)` loop at `pos`. -/
def lpStep (cfg : DispatchConfig) (mem : List UInt8) (end_ pos : Nat) (v : DissectVars) :
    Except Fault LpStep := do
  let (type, pos) ← readType mem pos end_
  match type with
  | none => return .exit (.malformed v.worker)
  | some type =>
    let (length, pos) ← readVarNumber mem pos end_
    match length with
    | none => return .exit (.malformed v.worker)
    | some length =>
      let v ← readHeaderField mem pos type length v
      if type = lp.tlv.fragment then
        return if v.index ≠ 0 then .exit (.done v) else .next pos v
      else if type = tlv.name then
        let worker ← computeWorkerId cfg mem pos length
        return .exit (.done { v with worker := worker })
      else if type = tlv.interest ∨ type = tlv.data then
        return .next pos { v with packetType := type }
      else return .next (advancePointer mem pos length) v

/-- The loop, with `fuel` passes left. -/
def lpLoop (cfg : DispatchConfig) (mem : List UInt8) (end_ : Nat) :
    Nat → Nat → DissectVars → Except Fault LpWalk
  | 0, _, _ => .error .outOfFuel
  | fuel + 1, pos, v => do
    match ← lpStep cfg mem end_ pos v with
    | .exit r => return r
    | .next pos v => if pos = end_ then return .done v else lpLoop cfg mem end_ fuel pos v

/-- The passes `dissectNdnPacket` gives the loop: more than the states from which a pass goes on,
a position in the memory and locals the walk can hold (`walkStates`). -/
def walkPasses (mem : List UInt8) : Nat :=
  mem.length * (257 * (257 * (3 * (2 ^ 64 * (2 ^ 64 * (2 ^ 64 * 2)))))) + 1

/-- A walk that moves forward through the memory has passes to spare. -/
theorem length_lt_walkPasses (mem : List UInt8) : mem.length < walkPasses mem :=
  Nat.lt_succ_of_le (Nat.le_mul_of_pos_right _ (by decide))

/-! ## `g_fragmentMap` and the worker of a packet -/

/-- `g_fragmentMap`: a message identifier (`Sequence - FragIndex`) to the worker of the
message's first fragment. -/
abbrev FragmentMap := AList (fun _ : UInt64 => Int)

/-- `std::map::insert`, which keeps the entry already there. -/
def fragmentMapInsert (key : UInt64) (worker : Int) (fm : FragmentMap) : FragmentMap :=
  match fm.lookup key with
  | some _ => fm
  | none => fm.insert key worker

/-- The code after the loop: the worker of the packet and the map after it. A Data (anything
but an Interest) with a PIT token goes to the token's worker and registers its message when it
has a `FragCount`; a first fragment registers its message under the name's worker; a later
fragment looks its message up (`find(...)->second` with no test for `end()`) and the last one
erases it. -/
def fragmentDispatch (v : DissectVars) (fm : FragmentMap) : Except Fault (Int × FragmentMap) :=
  if v.packetType ≠ tlv.interest ∧ v.pitToken ≠ -1 then
    .ok (v.pitToken,
      if 0 < v.count then fragmentMapInsert (v.seq - v.index) v.pitToken fm else fm)
  else if v.isFrag then
    if v.index = 0 then .ok (v.worker, fragmentMapInsert (v.seq - v.index) v.worker fm)
    else
      match fm.lookup (v.seq - v.index) with
      | none => .error .mapEnd
      | some worker =>
        .ok (worker, if v.index = v.count - 1 then fm.erase (v.seq - v.index) else fm)
  else .ok (v.worker, fm)

/-- `dissectNdnPacket(wire, size)` on the readable memory `mem` from `wire`: the triple
`(isOk, packetType, worker)` and `g_fragmentMap` after the call. -/
def dissectNdnPacket (cfg : DispatchConfig) (fm : FragmentMap) (mem : List UInt8) (size : Nat) :
    Except Fault ((Bool × Nat × Int) × FragmentMap) := do
  let first ← byteAt mem 0
  if first = 0x64 then
    -- the results of the two reads are not checked
    let (packetType, pos) ← readType mem 0 size
    let (_, pos) ← readVarNumber mem pos size
    match ← lpLoop cfg mem size (walkPasses mem) pos (DissectVars.init (packetType.getD 0)) with
    | .malformed worker => return ((false, lp.tlv.lpPacket, worker), fm)
    | .done v =>
      let (worker, fm) ← fragmentDispatch v fm
      return ((true, v.packetType, worker), fm)
  else
    let (packetType, pos) ← readType mem 0 size
    let (outerLength, pos) ← readVarNumber mem pos size
    let (type, pos) ← readType mem pos size
    let (length, pos) ← readVarNumber mem pos size
    if type = some tlv.name then
      -- a failed read leaves `length` as the outer read set it, or never set
      match length.or outerLength with
      | none => .error .uninitialized
      | some length =>
        let worker ← computeWorkerId cfg mem pos length
        return ((true, packetType.getD 0, worker), fm)
    else return ((true, packetType.getD 0, -1), fm)

/-- What `dcnReceivePacket` does with a packet: `false` (`declined`), or `true` after enqueueing
it on `g_dcnMoodyMQ[queue][worker]` or without enqueueing it (`dropped`). -/
inductive Dispatch where
  | declined
  | dropped
  | enqueued (queue worker : Nat)
  deriving DecidableEq, Repr

/-- `dcnReceivePacket(pkt, len, face)` on the input thread `iwId`. Both overloads do the same
with the packet; they differ only in how the buffer is handed on. -/
def dcnReceivePacket (cfg : DispatchConfig) (iwId : Nat) (fm : FragmentMap) (mem : List UInt8)
    (len : Nat) : Except Fault (Dispatch × FragmentMap) := do
  let ((isOk, packetType, worker), fm) ← dissectNdnPacket cfg fm mem len
  if !isOk ∧ packetType = lp.tlv.lpPacket then return (.declined, fm)
  if worker = dcnLocalhostPrefix then return (.declined, fm)
  -- `packetType >= 0` on the `int32_t` the `uint32_t` type was read into
  if packetType < 2 ^ 31 ∧ 0 ≤ worker then
    return (.enqueued (if packetType = tlv.interest then iwId else iwId + 1) worker.toNat, fm)
  return (.dropped, fm)

/-! ## The walk ends exactly when the loop of the source does

A pass depends only on the position and the locals; a pass that goes on has read the octet at its
position, and the locals the walk can hold are finitely many. So a walk that makes `walkPasses`
passes has come back to a state, and goes round forever.
-/

section Termination

variable {cfg : DispatchConfig} {mem : List UInt8}

theorem readHeaderField_ne_outOfFuel {pos type length : Nat} {v : DissectVars} :
    readHeaderField mem pos type length v ≠ .error .outOfFuel := by
  -- the reads of the field values fault on memory only
  have hbyte : byteAt mem pos ≠ .error .outOfFuel := fun h => absurd (byteAt_error h) (by decide)
  have hcopy : ∀ old, memcpyWord mem pos length old ≠ .error .outOfFuel := fun old =>
    Except.bind_ne_error (fun h => absurd (bytesAt_error h) (by decide)) fun _ => by
      split <;> simp
  have hfrag : ∀ old, readFragNumber mem pos length old ≠ .error .outOfFuel := fun old => by
    unfold readFragNumber
    split
    · cases hb : byteAt mem pos with
      | error e => simp [Except.map, byteAt_error hb]
      | ok b => simp [Except.map]
    · exact hcopy old
  unfold readHeaderField
  split_ifs
  · exact Except.bind_ne_error (hfrag _) fun _ => by simp
  · exact Except.bind_ne_error (hfrag _) fun _ => by simp
  · exact Except.bind_ne_error (hcopy _) fun _ => by simp
  · exact Except.bind_ne_error hbyte fun _ => by simp
  · simp

/-- A pass faults on memory only: with `k ≥ 1`, the Name's `computeWorkerId` never runs out. -/
theorem lpStep_ne_outOfFuel (hk : 0 < cfg.prefixLength4Distribution) {end_ pos : Nat}
    {v : DissectVars} : lpStep cfg mem end_ pos v ≠ .error .outOfFuel := by
  unfold lpStep
  refine Except.bind_ne_error (fun h => absurd (readType_error h) (by decide)) ?_
  rintro ⟨_ | type, p₁⟩
  · simp
  refine Except.bind_ne_error (fun h => absurd (readVarNumber_error h) (by decide)) ?_
  rintro ⟨_ | length, p₂⟩
  · simp
  refine Except.bind_ne_error readHeaderField_ne_outOfFuel fun v₁ => ?_
  -- of the branches after the header field, only the Name's calls out
  split_ifs
  · simp
  · simp
  · exact Except.bind_ne_error (computeWorkerId_ne_outOfFuel hk mem p₂ length) fun _ => by simp
  all_goals simp

/-- A pass that goes on has read the octet at its position. -/
theorem lt_length_of_lpStep {end_ pos p : Nat} {v v' : DissectVars}
    (h : lpStep cfg mem end_ pos v = .ok (.next p v')) : pos < mem.length := by
  obtain ⟨⟨type, p₁⟩, hT, heq⟩ := Except.bind_eq_ok_iff.mp h
  cases type with
  | none => cases heq
  | some type => exact (readType_some hT).1

/-- The locals the walk can hold from a start with the packet type `p0`: the worker and the PIT
token are -1 or an octet, and the packet type is `p0`, an Interest's or a Data's. -/
def DissectVars.Valid (p0 : Nat) (v : DissectVars) : Prop :=
  -1 ≤ v.worker ∧ v.worker < 256 ∧ -1 ≤ v.pitToken ∧ v.pitToken < 256 ∧
    (v.packetType = p0 ∨ v.packetType = tlv.interest ∨ v.packetType = tlv.data)

theorem DissectVars.valid_init (p0 : Nat) : (DissectVars.init p0).Valid p0 := by
  simp [DissectVars.Valid, DissectVars.init]

/-- The header fields set the worker and the PIT token to an octet, and no packet type. -/
theorem DissectVars.Valid.readHeaderField {p0 pos type length : Nat} {v v' : DissectVars}
    (hv : v.Valid p0) (h : readHeaderField mem pos type length v = .ok v') : v'.Valid p0 := by
  obtain ⟨hw₀, hw₁, ht₀, ht₁, hp⟩ := hv
  unfold MwNfd.readHeaderField at h
  split_ifs at h
  · obtain ⟨count, -, h⟩ := Except.bind_eq_ok_iff.mp h
    cases h
    exact ⟨hw₀, hw₁, ht₀, ht₁, hp⟩
  · obtain ⟨index, -, h⟩ := Except.bind_eq_ok_iff.mp h
    cases h
    exact ⟨hw₀, hw₁, ht₀, ht₁, hp⟩
  · obtain ⟨seq, -, h⟩ := Except.bind_eq_ok_iff.mp h
    cases h
    exact ⟨hw₀, hw₁, ht₀, ht₁, hp⟩
  · -- `ST_PIT_TOKEN::workerId`, an octet
    obtain ⟨workerId, -, h⟩ := Except.bind_eq_ok_iff.mp h
    cases h
    have hlt := workerId.toNat_lt
    refine ⟨?_, ?_, ?_, ?_, hp⟩ <;> dsimp only <;> omega
  · cases h
    exact ⟨hw₀, hw₁, ht₀, ht₁, hp⟩

theorem DissectVars.Valid.lpStep {p0 end_ pos p : Nat} {v v' : DissectVars} (hv : v.Valid p0)
    (h : lpStep cfg mem end_ pos v = .ok (.next p v')) : v'.Valid p0 := by
  obtain ⟨⟨type, p₁⟩, -, h⟩ := Except.bind_eq_ok_iff.mp h
  cases type with
  | none => cases h
  | some type =>
    obtain ⟨⟨length, p₂⟩, -, h⟩ := Except.bind_eq_ok_iff.mp h
    cases length with
    | none => cases h
    | some length =>
      obtain ⟨v₁, hH, h⟩ := Except.bind_eq_ok_iff.mp h
      have hv₁ := hv.readHeaderField hH
      split at h
      · split at h
        · cases h
        · cases h
          exact hv₁
      split at h
      · obtain ⟨_, -, h⟩ := Except.bind_eq_ok_iff.mp h
        cases h
      split at h
      · -- an Interest or a Data sets the packet type to its own
        next htype =>
        cases h
        obtain ⟨hw₀, hw₁, ht₀, ht₁, -⟩ := hv₁
        exact ⟨hw₀, hw₁, ht₀, ht₁, .inr htype⟩
      · cases h
        exact hv₁

/-- One pass as a loop over the position and the locals: `none` when the walk leaves the
loop. -/
def lpNext (cfg : DispatchConfig) (mem : List UInt8) (end_ : Nat) (s : Nat × DissectVars) :
    Option (Nat × DissectVars) :=
  match lpStep cfg mem end_ s.1 s.2 with
  | .ok (.next p v) => if p = end_ then none else some (p, v)
  | _ => none

theorem lpNext_eq_some {end_ : Nat} {s t : Nat × DissectVars}
    (h : lpNext cfg mem end_ s = some t) : lpStep cfg mem end_ s.1 s.2 = .ok (.next t.1 t.2) := by
  unfold lpNext at h
  split at h
  · next p v hstep =>
    split at h
    · cases h
    · cases h
      exact hstep
  · cases h

/-- With `k ≥ 1`, the loop runs out of fuel exactly when all its passes go on. The induction is
on the fuel, one pass each. -/
theorem lpLoop_eq_outOfFuel_iff (hk : 0 < cfg.prefixLength4Distribution) {end_ fuel pos : Nat}
    {v : DissectVars} : lpLoop cfg mem end_ fuel pos v = .error .outOfFuel ↔
      (Loop.iterate (lpNext cfg mem end_) fuel (pos, v)).isSome := by
  induction fuel generalizing pos v with
  | zero => simp [lpLoop]
  | succ f ih =>
    rw [Loop.iterate_succ]
    unfold lpLoop lpNext
    cases hstep : lpStep cfg mem end_ pos v with
    | error e =>
      have he : e ≠ .outOfFuel := fun h => lpStep_ne_outOfFuel hk (h ▸ hstep)
      simp [he]
    | ok r =>
      cases r with
      | exit r => simp
      | next p v' =>
        simp only [Except.ok_bind']
        split_ifs with hend
        · simp
        · rw [Option.bind_some]
          exact ih

/-- The locals of every state the loop reaches are valid. -/
theorem valid_of_iterate {p0 end_ n pos : Nat} {v : DissectVars} {t : Nat × DissectVars}
    (hv : v.Valid p0) (h : Loop.iterate (lpNext cfg mem end_) n (pos, v) = some t) :
    t.2.Valid p0 := by
  induction n generalizing pos v with
  | zero =>
    cases h
    exact hv
  | succ n ih =>
    rw [Loop.iterate_succ] at h
    cases hnext : lpNext cfg mem end_ (pos, v) with
    | none => rw [hnext] at h; cases h
    | some s =>
      rw [hnext, Option.bind_some] at h
      exact ih (hv.lpStep (lpNext_eq_some hnext)) h

/-- The states from which a pass can go on, for a start with the packet type `p0`: a position in
the memory and valid locals, listed by their fields. -/
def walkStates (mem : List UInt8) (p0 : Nat) : Finset (Nat × DissectVars) :=
  (Finset.range mem.length ×ˢ Finset.range 257 ×ˢ Finset.range 257 ×ˢ Finset.range 3 ×ˢ
      Finset.range (2 ^ 64) ×ˢ Finset.range (2 ^ 64) ×ˢ Finset.range (2 ^ 64) ×ˢ
      (Finset.univ : Finset Bool)).image fun x =>
    (x.1, ⟨(x.2.1 : Int) - 1, (x.2.2.1 : Int) - 1, [p0, tlv.interest, tlv.data].getD x.2.2.2.1 p0,
      x.2.2.2.2.1.toUInt64, x.2.2.2.2.2.1.toUInt64, x.2.2.2.2.2.2.1.toUInt64, x.2.2.2.2.2.2.2⟩)

theorem card_walkStates_lt (p0 : Nat) : (walkStates mem p0).card < walkPasses mem :=
  Nat.lt_succ_of_le ((Finset.card_image_le).trans (by simp [Finset.card_product]))

theorem mem_walkStates {p0 pos : Nat} {v : DissectVars} (hpos : pos < mem.length)
    (hv : v.Valid p0) : (pos, v) ∈ walkStates mem p0 := by
  obtain ⟨worker, pitToken, packetType, seq, index, count, isFrag⟩ := v
  obtain ⟨hw₀, hw₁, ht₀, ht₁, hp⟩ := hv
  dsimp only at hw₀ hw₁ ht₀ ht₁ hp
  -- the packet type by its place in `[p0, Interest, Data]`
  obtain ⟨k, hk, hkp⟩ : ∃ k < 3, [p0, tlv.interest, tlv.data].getD k p0 = packetType := by
    rcases hp with h | h | h
    · exact ⟨0, by omega, h.symm⟩
    · exact ⟨1, by omega, h.symm⟩
    · exact ⟨2, by omega, h.symm⟩
  refine Finset.mem_image.mpr ⟨(pos, (worker + 1).toNat, (pitToken + 1).toNat, k, seq.toNat,
    index.toNat, count.toNat, isFrag), ?_, ?_⟩
  · simp only [Finset.mem_product, Finset.mem_range, Finset.mem_univ, and_true]
    exact ⟨hpos, by omega, by omega, hk, seq.toNat_lt, index.toNat_lt, count.toNat_lt⟩
  · simp only [hkp, Prod.mk.injEq, DissectVars.mk.injEq, true_and]
    refine ⟨by omega, by omega, ?_, ?_, ?_⟩ <;> simp

/-- `walkPasses` passes run out only on a walk that comes back to a state: one that runs out of
any number of passes, as the loop of the source never ends. -/
theorem lpLoop_walkPasses (hk : 0 < cfg.prefixLength4Distribution) {p0 end_ pos : Nat}
    {v : DissectVars} (hv : v.Valid p0)
    (h : lpLoop cfg mem end_ (walkPasses mem) pos v = .error .outOfFuel) (fuel : Nat) :
    lpLoop cfg mem end_ fuel pos v = .error .outOfFuel := by
  rw [lpLoop_eq_outOfFuel_iff hk] at h ⊢
  refine Loop.iterate_isSome_of_card_lt (S := walkStates mem p0) (fun n t ht hnext => ?_)
    (Loop.isSome_iterate_of_le h (card_walkStates_lt p0)) fuel
  -- a state from which a pass goes on: its position is in memory, its locals are valid
  obtain ⟨s, hs⟩ := Option.isSome_iff_exists.mp hnext
  exact mem_walkStates (lt_length_of_lpStep (lpNext_eq_some hs)) (valid_of_iterate hv ht)

/-- A walk that ends gives its result with any more passes. The induction is on the fuel. -/
theorem lpLoop_of_ne_outOfFuel {end_ fuel fuel' pos : Nat} {v : DissectVars}
    (h : lpLoop cfg mem end_ fuel pos v ≠ .error .outOfFuel) (hle : fuel ≤ fuel') :
    lpLoop cfg mem end_ fuel' pos v = lpLoop cfg mem end_ fuel pos v := by
  induction fuel generalizing fuel' pos v with
  | zero => exact absurd rfl h
  | succ f ih =>
    obtain ⟨f', rfl⟩ : ∃ f', fuel' = f' + 1 := ⟨fuel' - 1, by omega⟩
    unfold lpLoop at h ⊢
    cases hstep : lpStep cfg mem end_ pos v with
    | error e => rfl
    | ok r =>
      rw [hstep] at h
      cases r with
      | exit r => rfl
      | next p v' =>
        simp only [Except.ok_bind'] at h ⊢
        split_ifs with hend
        · rfl
        · rw [if_neg hend] at h
          exact ih h (by omega)

/-- Every run of the walk that ends gives the result that `walkPasses` passes give. -/
theorem lpLoop_walkPasses_eq (hk : 0 < cfg.prefixLength4Distribution) {p0 end_ fuel pos : Nat}
    {v : DissectVars} (hv : v.Valid p0) (h : lpLoop cfg mem end_ fuel pos v ≠ .error .outOfFuel) :
    lpLoop cfg mem end_ (walkPasses mem) pos v = lpLoop cfg mem end_ fuel pos v := by
  by_cases hle : fuel ≤ walkPasses mem
  · exact lpLoop_of_ne_outOfFuel h hle
  · have hw : lpLoop cfg mem end_ (walkPasses mem) pos v ≠ .error .outOfFuel :=
      fun hw => h (lpLoop_walkPasses hk hv hw fuel)
    exact (lpLoop_of_ne_outOfFuel hw (by omega)).symm

/-- An element of TLV-LENGTH `2^64 - 10` at offset 2, after an `LpPacket` header: its header
takes ten octets, and `pos += length` brings the walk back to its start. -/
theorem lpStep_wrap (v : DissectVars) :
    lpStep cfg [0x64, 0x0A, 0x20, 0xFF, 0xFF, 0xFF, 0xFF, 0xFF, 0xFF, 0xFF, 0xFF, 0xF6] 12 2 v =
      .ok (.next 2 v) := rfl

theorem lpLoop_wrap (v : DissectVars) (fuel : Nat) :
    lpLoop cfg [0x64, 0x0A, 0x20, 0xFF, 0xFF, 0xFF, 0xFF, 0xFF, 0xFF, 0xFF, 0xFF, 0xF6] 12 fuel 2
      v = .error .outOfFuel := by
  induction fuel with
  | zero => rfl
  | succ f ih =>
    unfold lpLoop
    rw [lpStep_wrap]
    exact ih

/-- The packet of `lpStep_wrap`: the walk starts at offset 2 and runs out of passes. Rewriting
step by step keeps Lean from running the walk itself, `walkPasses` passes of it. -/
theorem dissectNdnPacket_wrap (fm : FragmentMap) :
    dissectNdnPacket cfg fm
      [0x64, 0x0A, 0x20, 0xFF, 0xFF, 0xFF, 0xFF, 0xFF, 0xFF, 0xFF, 0xFF, 0xF6] 12 =
      .error .outOfFuel := by
  have htype : readType
      [0x64, 0x0A, 0x20, 0xFF, 0xFF, 0xFF, 0xFF, 0xFF, 0xFF, 0xFF, 0xFF, 0xF6] 0 12 =
      .ok (some 0x64, 1) := rfl
  have hlength : readVarNumber
      [0x64, 0x0A, 0x20, 0xFF, 0xFF, 0xFF, 0xFF, 0xFF, 0xFF, 0xFF, 0xFF, 0xF6] 1 12 =
      .ok (some 10, 2) := rfl
  rw [dissectNdnPacket, byteAt, List.getElem?_cons_zero, Except.ok_bind', if_pos rfl, htype,
    Except.ok_bind']
  dsimp only
  rw [hlength, Except.ok_bind']
  dsimp only
  rw [lpLoop_wrap, Except.error_bind']

end Termination

/-- Inputs on which the dispatcher leaves defined behaviour or the range of workers, with
`k = 1` and two workers: an empty packet (`wire[0]` is read), an outer TLV whose TLV-LENGTH is
cut off before a Name type (`length` is never set), a 9-octet `FragCount` (`memcpy` past
`count`), a non-first fragment of a message the map does not hold (`end()` is dereferenced), a
well-formed Data whose PIT token starts with 200 (queue `g_dcnMoodyMQ[1][200]`: no worker 200,
and past the 128 columns of the array), a Name component longer than the packet (the hash
reads past it), and an element whose TLV-LENGTH is `2^64 - 10` (the walk comes back to it and
never ends). -/
theorem dcnReceivePacket_unsafe_inputs :
    (dcnReceivePacket ⟨1, 2, by decide⟩ 0 ∅ [] 0).map Prod.fst = .error .segv ∧
    (dcnReceivePacket ⟨1, 2, by decide⟩ 0 ∅ [0x05, 0xFD, 0x07] 3).map Prod.fst =
      .error .uninitialized ∧
    (dcnReceivePacket ⟨1, 2, by decide⟩ 0 ∅
      [0x64, 0x0B, 0x53, 0x09, 0, 0, 0, 0, 0, 0, 0, 0, 1] 13).map Prod.fst =
      .error .memcpyOverflow ∧
    (dcnReceivePacket ⟨1, 2, by decide⟩ 0 ∅
      [0x64, 0x14, 0x51, 0x08, 0, 0, 0, 0, 0, 0, 0, 0x65, 0x52, 0x01, 0x01, 0x53, 0x01, 0x02,
        0x50, 0x02, 0x41, 0x42] 22).map Prod.fst = .error .mapEnd ∧
    (dcnReceivePacket ⟨1, 2, by decide⟩ 0 ∅
      [0x64, 0x0D, 0x62, 0x02, 200, 0x00, 0x50, 0x07, 0x06, 0x05, 0x07, 0x03, 0x08, 0x01,
        0x61] 15).map Prod.fst = .ok (.enqueued 1 200) ∧
    (dcnReceivePacket ⟨1, 2, by decide⟩ 0 ∅ [0x05, 0x05, 0x07, 0x03, 0x08, 0x05, 0x61] 7).map
      Prod.fst = .error .segv ∧
    (dcnReceivePacket ⟨1, 2, by decide⟩ 0 ∅
      [0x64, 0x0A, 0x20, 0xFF, 0xFF, 0xFF, 0xFF, 0xFF, 0xFF, 0xFF, 0xFF, 0xF6] 12).map Prod.fst =
      .error .outOfFuel ∧
    ∀ fuel, lpLoop ⟨1, 2, by decide⟩
      [0x64, 0x0A, 0x20, 0xFF, 0xFF, 0xFF, 0xFF, 0xFF, 0xFF, 0xFF, 0xFF, 0xF6] 12 fuel 2
      (DissectVars.init lp.tlv.lpPacket) = .error .outOfFuel := by
  refine ⟨?_, ?_, ?_, ?_, ?_, ?_, ?_, fun fuel => lpLoop_wrap _ fuel⟩
  rotate_right
  · rw [dcnReceivePacket, dissectNdnPacket_wrap]
    rfl
  all_goals decide

end MwNfd
