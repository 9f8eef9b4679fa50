import MwNfd.Tlv
import MwNfd.CityHash

/-!
# `computeWorkerId` (`mw-nfd-global.cpp`)

The input threads hash a name prefix to pick a forwarding worker. `computeWorkerId(wire, size)`
walks the name components at `wire` with `readType`/`readVarNumber`, returns
`DCN_LOCALHOST_PREFIX` as soon as the nine octets at a component's value spell `localhost`
(or no worker is configured), counts components up to `g_prefixLength4Distribution`, and
returns `CityHash64` of the octets of the first `k` components modulo `g_forwardingWorkers`,
or worker 0 when the name has fewer than `k` components.

The walk reads raw memory: `memcmpLocalhost` reads up to the first octet that differs from
`localhost` (the octet that decides `memcmp`'s result), and the loop moves `pos` by the
TLV-LENGTH, modulo 2^64 as pointer arithmetic does, without comparing it to `end`.

* `computeWorkerId_wireValue`: on the shortest encoding of a name, the result is the localhost
  test's verdict, else `CityHash64` of the first `k` components' encoding modulo `n`, else 0 for
  a name with fewer than `k` components.
-/

namespace MwNfd

/-- `DCN_LOCALHOST_PREFIX`: the worker id that leaves a packet to the main thread. -/
def dcnLocalhostPrefix : Int := 65535

/-- The configuration the input threads read: `g_prefixLength4Distribution` (set from a
`size_t`) and `g_forwardingWorkers`, an `int8_t` set from the number of worker cores. -/
structure DispatchConfig where
  prefixLength4Distribution : Nat
  forwardingWorkers : Nat
  forwardingWorkers_lt : forwardingWorkers < 128
  deriving DecidableEq

/-- The octets of `"localhost"`. -/
def localhostOctets : List UInt8 := [0x6c, 0x6f, 0x63, 0x61, 0x6c, 0x68, 0x6f, 0x73, 0x74]

/-- `!memcmp(pos, "localhost", 9)`, reading up to the first octet that differs. -/
def memcmpLocalhost (mem : List UInt8) : List UInt8 → Nat → Except Fault Bool
  | [], _ => .ok true
  | c :: cs, i => do
    let b ← byteAt mem i
    if b = c then memcmpLocalhost mem cs (i + 1) else return false

/-- The loop of `computeWorkerId`: from `pos`, with `cnt` components read and `tot_len` octets
covered. The result is `none` when it returns `DCN_LOCALHOST_PREFIX`, else the count and
`tot_len` at the `break` or when the count reaches `k`. `tot_len` is a `uint64_t`. -/
def componentLoop (cfg : DispatchConfig) (mem : List UInt8) (end_ : Nat) :
    Nat → Nat → Nat → Nat → Except Fault (Option (Nat × Nat))
  | 0, _, _, _ => .error .outOfFuel
  | fuel + 1, pos, cnt, totLen => do
    let curr := pos
    let (type, pos) ← readType mem pos end_
    if type.isNone then return some (cnt, totLen)
    let (length, pos) ← readVarNumber mem pos end_
    match length with
    | none => return some (cnt, totLen)
    | some length =>
      let isLocal ← memcmpLocalhost mem localhostOctets pos
      if isLocal ∨ cfg.forwardingWorkers = 0 then return none
      let cnt := cnt + 1
      let totLen := (totLen + (pos - curr) + length) % 2 ^ 64
      if cnt = cfg.prefixLength4Distribution then return some (cnt, totLen)
      componentLoop cfg mem end_ fuel (advancePointer mem pos length) cnt totLen

/-- `computeWorkerId(wire, size)` for the `size` octets at offset `wire` of `mem`. Each pass
counts a component, so with `k ≥ 1` the loop makes at most `k` passes. With `k = 0` the count
never stops it, and only the position decides the next pass: after `mem.length + 1` passes, each
at a readable position, a position has come back, and the loop goes round. -/
def computeWorkerId (cfg : DispatchConfig) (mem : List UInt8) (wire size : Nat) :
    Except Fault Int := do
  match ← componentLoop cfg mem (wire + size) (cfg.prefixLength4Distribution + mem.length + 1)
      wire 0 0 with
  | none => return dcnLocalhostPrefix
  | some (cnt, totLen) =>
    if cnt ≠ cfg.prefixLength4Distribution then return 0
    let octets ← bytesAt mem wire totLen
    return ((CityHash.cityHash64 octets).toNat % cfg.forwardingWorkers : Nat)

/-! ## Termination

Every pass of the loop counts a component and the loop stops at the `k`-th, so with `k ≥ 1` the
fuel never runs out, on any memory and any `size`.
-/

theorem memcmpLocalhost_error {mem : List UInt8} {cs : List UInt8} {i : Nat} {e : Fault}
    (h : memcmpLocalhost mem cs i = .error e) : e = .segv := by
  induction cs generalizing i with
  | nil => cases h
  | cons c cs ih =>
    rcases Except.bind_eq_error_iff.mp h with hb | ⟨b, -, hrest⟩
    · exact byteAt_error hb
    · split at hrest
      · exact ih hrest
      · cases hrest

theorem componentLoop_ne_outOfFuel {cfg : DispatchConfig} {mem : List UInt8} {end_ : Nat}
    {fuel pos cnt totLen : Nat} (hcnt : cnt < cfg.prefixLength4Distribution)
    (h : cfg.prefixLength4Distribution - cnt ≤ fuel) :
    componentLoop cfg mem end_ fuel pos cnt totLen ≠ .error .outOfFuel := by
  induction fuel generalizing pos cnt totLen with
  | zero => omega
  | succ f ih =>
    refine Except.bind_ne_error (fun h => absurd (readType_error h) (by decide)) ?_
    rintro ⟨_ | type, p₁⟩
    · simp
    refine Except.bind_ne_error (fun h => absurd (readVarNumber_error h) (by decide)) ?_
    rintro ⟨_ | length, p₂⟩
    · simp
    refine Except.bind_ne_error (fun h => absurd (memcmpLocalhost_error h) (by decide)) ?_
    intro isLocal
    split_ifs with hlocal
    · simp
    dsimp only
    split_ifs with hk
    · simp
    · -- the count has not reached `k`: one pass fewer is left for one component fewer
      exact ih (by omega) (by omega)

theorem computeWorkerId_ne_outOfFuel {cfg : DispatchConfig}
    (hk : 0 < cfg.prefixLength4Distribution) (mem : List UInt8) (wire size : Nat) :
    computeWorkerId cfg mem wire size ≠ .error .outOfFuel := by
  refine Except.bind_ne_error (componentLoop_ne_outOfFuel hk (by omega)) ?_
  rintro (_ | ⟨cnt, totLen⟩)
  · simp
  dsimp only
  split_ifs
  · simp
  · exact Except.bind_ne_error (fun h => absurd (bytesAt_error h) (by decide)) fun _ => by simp

/-- `computeWorkerId` returns a worker index or `DCN_LOCALHOST_PREFIX`, never a negative id. -/
theorem computeWorkerId_nonneg {cfg : DispatchConfig} {mem : List UInt8} {wire size : Nat}
    {w : Int} (h : computeWorkerId cfg mem wire size = .ok w) : 0 ≤ w := by
  obtain ⟨r, -, h⟩ := Except.bind_eq_ok_iff.mp h
  rcases r with _ | ⟨cnt, totLen⟩
  · cases h; decide
  · simp only at h
    split at h
    · cases h; exact le_refl 0
    · obtain ⟨o, -, h⟩ := Except.bind_eq_ok_iff.mp h
      cases h
      exact Int.natCast_nonneg _

/-! ## The walk over a shortest-encoded name -/

/-- The offset of a component's TLV-VALUE from the start of its element. -/
def Component.valueOffset (c : Component) : Nat :=
  (writeVarNumber c.type).length + (writeVarNumber c.value.length).length

/-- Whether the localhost test fires on one of the first components of a name: the test of
each component, in order, at its value in `mem` (`start` is the offset of the first
component). -/
def localhostScan (mem : List UInt8) : Nat → Name → Except Fault Bool
  | _, [] => .ok false
  | start, c :: cs => do
    let hit ← memcmpLocalhost mem localhostOctets (start + c.valueOffset)
    if hit then return true else localhostScan mem (start + c.wire.length) cs

/-- The worker of a name whose localhost test does not fire. -/
def nameWorker (cfg : DispatchConfig) (n : Name) : Int :=
  if n.length < cfg.prefixLength4Distribution then 0
  else ((CityHash.cityHash64 (Name.wireValue (n.take cfg.prefixLength4Distribution))).toNat %
    cfg.forwardingWorkers : Nat)

theorem nameWorker_lt {cfg : DispatchConfig} (hn : 0 < cfg.forwardingWorkers) (n : Name) :
    (nameWorker cfg n).toNat < cfg.forwardingWorkers := by
  unfold nameWorker
  split_ifs
  · exact hn
  · rw [Int.toNat_natCast]
    exact Nat.mod_lt _ hn

/-- Names whose first `k` components agree, and that both have `k` components or both have
fewer, have the same worker. -/
theorem nameWorker_eq_of_take {cfg : DispatchConfig} {n m : Name}
    (hlen : cfg.prefixLength4Distribution ≤ n.length ↔
      cfg.prefixLength4Distribution ≤ m.length)
    (htake : cfg.prefixLength4Distribution ≤ n.length →
      n.take cfg.prefixLength4Distribution = m.take cfg.prefixLength4Distribution) :
    nameWorker cfg n = nameWorker cfg m := by
  unfold nameWorker
  by_cases hn : cfg.prefixLength4Distribution ≤ n.length
  · rw [if_neg (by omega), if_neg (by have := hlen.mp hn; omega), htake hn]
  · rw [if_pos (by omega), if_pos (by have := mt hlen.mpr hn; omega)]

/-- A name has the worker of any longer name it is a prefix of, once it has `k` components. -/
theorem nameWorker_eq_of_prefix {cfg : DispatchConfig} {n m : Name} (hpre : n <+: m)
    (hlen : cfg.prefixLength4Distribution ≤ n.length) : nameWorker cfg n = nameWorker cfg m := by
  refine nameWorker_eq_of_take ⟨fun _ => le_trans hlen hpre.length_le, fun _ => hlen⟩
    fun _ => ?_
  conv_lhs => rw [List.prefix_iff_eq_take.mp hpre]
  rw [List.take_take, Nat.min_eq_left hlen]

section Walk

variable {cfg : DispatchConfig} {mem rest : List UInt8}

theorem length_wire (c : Component) : c.wire.length = c.valueOffset + c.value.length := by
  simp [Component.wire, encodeTlv, Component.valueOffset, Nat.add_assoc]

/-- The localhost test reads no further than the octets it compares: it does not fault when
they are in memory. -/
theorem memcmpLocalhost_ok {cs : List UInt8} {i : Nat} (h : i + cs.length ≤ mem.length) :
    ∃ hit, memcmpLocalhost mem cs i = .ok hit := by
  induction cs generalizing i with
  | nil => exact ⟨true, rfl⟩
  | cons c cs ih =>
    simp only [List.length_cons] at h
    have hi : i < mem.length := by omega
    obtain ⟨hit, hhit⟩ := @ih (i + 1) (by omega)
    by_cases hc : mem[i] = c
    · exact ⟨hit, by simp [memcmpLocalhost, byteAt, hi, hc, hhit]⟩
    · exact ⟨false, by simp [memcmpLocalhost, byteAt, hi, hc]⟩

/-- On a name followed in memory by at least nine octets, the localhost tests of all its
components stay in memory. The induction is on the components, one test each. -/
theorem localhostScan_ok (n : Name) {start : Nat} (hmem : mem.drop start = n.wireValue ++ rest)
    (hrest : 9 ≤ rest.length) : ∃ hit, localhostScan mem start n = .ok hit := by
  induction n generalizing start with
  | nil => exact ⟨false, rfl⟩
  | cons c cs ih =>
    have hlen : start + c.wire.length + (Name.wireValue cs).length + rest.length ≤
        mem.length := by
      have := congrArg List.length hmem
      simp only [List.length_drop, Name.wireValue_cons, List.length_append] at this
      omega
    -- the test compares the nine octets from the component's value on
    obtain ⟨hit, hhit⟩ := @memcmpLocalhost_ok mem localhostOctets (start + c.valueOffset)
      (by rw [length_wire] at hlen; simp only [localhostOctets, List.length_cons,
        List.length_nil]; omega)
    have hdrop : mem.drop (start + c.wire.length) = Name.wireValue cs ++ rest := by
      rw [← List.drop_drop, hmem, Name.wireValue_cons, List.append_assoc, List.drop_left]
    cases hit with
    | true => exact ⟨true, by simp [localhostScan, hhit]⟩
    | false =>
      obtain ⟨hit', hscan⟩ := ih hdrop
      exact ⟨hit', by simp [localhostScan, hhit, hscan]⟩

/-- The type and length of a component's element are read from the front of the memory at
`p`, before any further octets. -/
theorem read_component_header {p end_ : Nat} {c : Component}
    (hmem : mem.drop p = c.wire ++ rest) (hend : p + c.wire.length ≤ end_) :
    readType mem p end_ = .ok (some c.type, p + (writeVarNumber c.type).length) ∧
    readVarNumber mem (p + (writeVarNumber c.type).length) end_ =
      .ok (some c.value.length, p + c.valueOffset) := by
  have hw := length_wire c
  exact read_tlv_header hmem c.type_pos (by have := c.type_le; omega) c.value_fits
    (by unfold tlvHeaderLength; unfold Component.valueOffset at hw; omega)

/-- One pass of the loop of `computeWorkerId` over a component at `p`: the localhost test at
its value, then the count, `tot_len` and the position move past the element. -/
theorem componentLoop_component (hn : 0 < cfg.forwardingWorkers) {c : Component}
    {p end_ i T f : Nat} (hmem : mem.drop p = c.wire ++ rest) (hend : p + c.wire.length ≤ end_)
    (hT : T + c.wire.length < 2 ^ 64) :
    componentLoop cfg mem end_ (f + 1) p i T =
      (memcmpLocalhost mem localhostOctets (p + c.valueOffset) >>= fun isLocal =>
        if isLocal then .ok none
        else if i + 1 = cfg.prefixLength4Distribution then .ok (some (i + 1, T + c.wire.length))
        else componentLoop cfg mem end_ f (p + c.wire.length) (i + 1) (T + c.wire.length)) := by
  obtain ⟨hty, hlen⟩ := read_component_header hmem hend
  have hw := length_wire c
  have htot : (T + (p + c.valueOffset - p) + c.value.length) % 2 ^ 64 = T + c.wire.length := by
    rw [Nat.mod_eq_of_lt (by omega)]; omega
  have hpos : advancePointer mem (p + c.valueOffset) c.value.length = p + c.wire.length := by
    -- the element lies in memory, so the pointer does not wrap
    have hin := congrArg List.length hmem
    simp only [List.length_drop, List.length_append] at hin
    have hoff : 0 < c.valueOffset := by
      unfold Component.valueOffset
      have := length_writeVarNumber_pos c.type
      omega
    rw [advancePointer_of_le (by omega)]
    omega
  simp only [componentLoop, hty, Except.ok_bind', Option.isNone_some, Bool.false_eq_true,
    if_false, hlen, htot, hpos]
  cases memcmpLocalhost mem localhostOctets (p + c.valueOffset) with
  | error e => rfl
  | ok isLocal => cases isLocal <;> simp [Nat.ne_of_gt hn]

/-- The loop of `computeWorkerId` over the components `cs` at `p`, the name ending at `end`,
after `i < k` components covering `T` octets: it runs the localhost test on the components it
reads, and counts up to `k` components. The induction is on `cs`, one loop pass per
component. -/
theorem componentLoop_wireValue (hn : 0 < cfg.forwardingWorkers) (cs : Name)
    {p end_ i T fuel : Nat} (hmem : mem.drop p = Name.wireValue cs ++ rest)
    (hend : end_ = p + (Name.wireValue cs).length) (hi : i < cfg.prefixLength4Distribution)
    (hT : T + (Name.wireValue cs).length < 2 ^ 64)
    (hfuel : min (cfg.prefixLength4Distribution - i) cs.length < fuel) :
    componentLoop cfg mem end_ fuel p i T =
      (localhostScan mem p (cs.take (cfg.prefixLength4Distribution - i))).map fun hit =>
        if hit then none
        else some (i + min (cfg.prefixLength4Distribution - i) cs.length,
          T + (Name.wireValue (cs.take (cfg.prefixLength4Distribution - i))).length) := by
  induction cs generalizing p i T fuel with
  | nil =>
    -- the name is used up: `readType` finds `pos == end` and the loop breaks
    obtain ⟨f, rfl⟩ : ∃ f, fuel = f + 1 := ⟨fuel - 1, by omega⟩
    subst hend
    simp [componentLoop, readType, readVarNumber, localhostScan, Except.map]
  | cons c cs ih =>
    obtain ⟨f, rfl⟩ : ∃ f, fuel = f + 1 := ⟨fuel - 1, by omega⟩
    have hwc := length_wire c
    simp only [Name.wireValue_cons, List.length_append, List.append_assoc] at hmem hend hT
    have hmem' : mem.drop (p + c.wire.length) = Name.wireValue cs ++ rest := by
      rw [← List.drop_drop, hmem, List.drop_left]
    rw [componentLoop_component hn hmem (by omega) (by omega)]
    have hk : cfg.prefixLength4Distribution - i =
        (cfg.prefixLength4Distribution - (i + 1)) + 1 := by omega
    rw [hk, List.take_succ_cons]
    simp only [localhostScan]
    cases memcmpLocalhost mem localhostOctets (p + c.valueOffset) with
    | error e => rfl
    | ok hit =>
      cases hit
      · simp only [Except.ok_bind', Bool.false_eq_true, if_false]
        by_cases hlast : i + 1 = cfg.prefixLength4Distribution
        · -- the `k`-th component: the loop ends and the scan has nothing left to test
          rw [if_pos hlast, show cfg.prefixLength4Distribution - (i + 1) = 0 by omega]
          simp [localhostScan, Except.map]
        · -- more components to count: the rest of the loop is the induction hypothesis
          rw [if_neg hlast, ih hmem' (by omega) (by omega) (by omega)
            (by simp at hfuel ⊢; omega)]
          cases localhostScan mem (p + c.wire.length)
              (cs.take (cfg.prefixLength4Distribution - (i + 1))) with
          | error e => rfl
          | ok hit' =>
            cases hit'
            · simp [Except.map, Name.wireValue_cons]
              omega
            · rfl
      · rfl

theorem Name.wireValue_take_append_drop (n : Name) (k : Nat) :
    Name.wireValue n = Name.wireValue (n.take k) ++ Name.wireValue (n.drop k) := by
  rw [← Name.wireValue_append, List.take_append_drop]

/-- `computeWorkerId` on the shortest encoding of a name: the localhost test on its first `k`
components decides `DCN_LOCALHOST_PREFIX`; otherwise the worker is `nameWorker`, a function
of the decoded components alone. -/
theorem computeWorkerId_wireValue (hn : 0 < cfg.forwardingWorkers)
    (hk : 0 < cfg.prefixLength4Distribution) (n : Name) {wire : Nat}
    (hmem : mem.drop wire = n.wireValue ++ rest) (hfit : mem.length < 2 ^ 64) :
    computeWorkerId cfg mem wire n.wireValue.length =
      (localhostScan mem wire (n.take cfg.prefixLength4Distribution)).map fun hit =>
        if hit then dcnLocalhostPrefix else nameWorker cfg n := by
  have hlen : n.wireValue.length ≤ mem.length := by
    have := congrArg List.length hmem
    simp only [List.length_drop, List.length_append] at this
    omega
  have hloop := componentLoop_wireValue hn n hmem rfl hk (show 0 + n.wireValue.length < 2 ^ 64 by
    omega) (show min (cfg.prefixLength4Distribution - 0) n.length <
      cfg.prefixLength4Distribution + mem.length + 1 by omega)
  simp only [Nat.sub_zero, Nat.zero_add] at hloop
  rw [computeWorkerId, hloop]
  cases localhostScan mem wire (n.take cfg.prefixLength4Distribution) with
  | error e => rfl
  | ok hit =>
    cases hit
    · simp only [Except.map, Bool.false_eq_true, if_false, Except.ok_bind', nameWorker]
      by_cases hshort : n.length < cfg.prefixLength4Distribution
      · -- fewer than `k` components: the count falls short and the worker is 0
        rw [if_pos (by omega), if_pos hshort]
        rfl
      · -- `k` components: `CityHash64` of exactly their octets
        have hbytes := bytesAt_of_drop (show mem.drop wire =
            Name.wireValue (n.take cfg.prefixLength4Distribution) ++
              (Name.wireValue (n.drop cfg.prefixLength4Distribution) ++ rest) by
          rw [hmem, Name.wireValue_take_append_drop n cfg.prefixLength4Distribution,
            List.append_assoc])
        rw [if_neg (by omega), if_neg hshort, hbytes]
        rfl
    · rfl

end Walk

end MwNfd
