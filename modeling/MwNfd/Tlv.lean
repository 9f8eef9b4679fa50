import MwNfd.Lib.Bytes
import MwNfd.Lib.Run

/-!
# NDN-TLV in memory: VAR-NUMBER, TLV elements and names

ndn-cxx `encoding/tlv.hpp`: `readVarNumber` and `readType` advance a pointer `begin` towards
`end`, and `writeVarNumber` writes the shortest encoding. MW-NFD's dispatcher calls the readers
on raw packet memory, so they read from `mem`, the memory that is readable from the first octet
of the packet on; a read past it is a `segv`. The `end` the code passes may lie before the end
of `mem`: the readers never read at or past `end` themselves, but their callers move the
pointer past it.

A name component (`Name::Component`) is a TLV element whose TLV-TYPE is in [1, 65535], and a
digest component holds 32 octets; `Name.wireValue` is the shortest encoding of a name's
components. `parseElements` is `Block::parse`: it keeps each element's own octets, so a
non-shortest encoding of the same components decodes to the same name (`decodeName`).

* `readVarNumber_writeVarNumber`: the reader reads back the writer's encoding, from any offset,
  with any octets after it.
* `parseElements_wireValue`, `decodeName_wireValue`: the round trip for names.
-/

namespace MwNfd

/-- The ways a run of the dispatcher's pointer code leaves defined behaviour. -/
inductive Fault where
  /-- an octet read past the memory that is readable after the packet -/
  | segv
  /-- a `memcpy` of more octets than its destination variable holds -/
  | memcpyOverflow
  /-- dereferencing `std::map::end()` -/
  | mapEnd
  /-- reading a variable that was never assigned -/
  | uninitialized
  /-- a loop model ran out of passes: the callers pass as many as the loop can make before it
  comes back to a state, so the loop of the source never ends -/
  | outOfFuel
  deriving DecidableEq, Repr

/-! ## Reading memory -/

/-- The octet at offset `i` of the readable memory. -/
def byteAt (mem : List UInt8) (i : Nat) : Except Fault UInt8 :=
  match mem[i]? with
  | some b => .ok b
  | none => .error .segv

/-- The `n` octets at offset `i` (a `memcpy` source). -/
def bytesAt (mem : List UInt8) (i n : Nat) : Except Fault (List UInt8) :=
  if n = 0 ∨ i + n ≤ mem.length then .ok ((mem.drop i).take n) else .error .segv

theorem byteAt_of_drop {mem rest : List UInt8} {i : Nat} {b : UInt8}
    (h : mem.drop i = b :: rest) : byteAt mem i = .ok b := by
  have : mem[i]? = some b := by
    have : (mem.drop i)[0]? = mem[i + 0]? := List.getElem?_drop
    rw [h, Nat.add_zero] at this
    exact this.symm
  simp [byteAt, this]

theorem bytesAt_of_drop {mem bs rest : List UInt8} {i : Nat}
    (h : mem.drop i = bs ++ rest) : bytesAt mem i bs.length = .ok bs := by
  have hlen : bs.length = 0 ∨ i + bs.length ≤ mem.length := by
    rcases Nat.eq_zero_or_pos bs.length with h0 | h0
    · exact .inl h0
    · have := congrArg List.length h
      simp only [List.length_drop, List.length_append] at this
      exact .inr (by omega)
  rw [bytesAt, if_pos hlen, h, List.take_left]

/-- `pos += length` on a `const uint8_t*`, `pos` an offset from the packet: the address is
computed modulo 2^64, and so is the offset, on a memory that fits the address space. A list of
2^64 octets or more is the memory of no host; there the offset is not reduced. -/
def advancePointer (mem : List UInt8) (pos length : Nat) : Nat :=
  if mem.length < 2 ^ 64 then (pos + length) % 2 ^ 64 else pos + length

/-- Within the memory, the pointer moves by the length. -/
theorem advancePointer_of_le {mem : List UInt8} {pos length : Nat}
    (h : pos + length ≤ mem.length) : advancePointer mem pos length = pos + length := by
  unfold advancePointer
  split_ifs with hfit
  · exact Nat.mod_eq_of_lt (by omega)
  · rfl

/-! ## VAR-NUMBER -/

/-- `tlv::readVarNumber(begin, end, number)` on a pointer (`ReadNumberFast`): the first
component is the read number, `none` where the function returns `false` (then `number` is left
unchanged); the second is `begin` after the call. -/
def readVarNumber (mem : List UInt8) (pos end_ : Nat) : Except Fault (Option Nat × Nat) :=
  if pos = end_ then .ok (none, pos) else do
    let first ← byteAt mem pos
    if first.toNat < 253 then return (some first.toNat, pos + 1)
    let size := if first = 253 then 2 else if first = 254 then 4 else 8
    if end_ < pos + 1 + size then return (none, pos + 1)
    let value ← bytesAt mem (pos + 1) size
    return (some (Octets.beNat value), pos + 1 + size)

/-- `tlv::readType(begin, end, type)`: a VAR-NUMBER that is neither 0 nor above `2^32 - 1`. -/
def readType (mem : List UInt8) (pos end_ : Nat) : Except Fault (Option Nat × Nat) := do
  let (r, p) ← readVarNumber mem pos end_
  match r with
  | some n => if n = 0 ∨ 0xFFFFFFFF < n then return (none, p) else return (some n, p)
  | none => return (none, p)

/-- `tlv::writeVarNumber`: the shortest VAR-NUMBER encoding of `n < 2^64`. -/
def writeVarNumber (n : Nat) : List UInt8 :=
  if n < 253 then [n.toUInt8]
  else if n ≤ 0xFFFF then 253 :: Octets.beBytes 2 n
  else if n ≤ 0xFFFFFFFF then 254 :: Octets.beBytes 4 n
  else 255 :: Octets.beBytes 8 n

theorem writeVarNumber_ne_nil (n : Nat) : writeVarNumber n ≠ [] := by
  unfold writeVarNumber; split_ifs <;> simp

theorem length_writeVarNumber_pos (n : Nat) : 0 < (writeVarNumber n).length :=
  List.length_pos_iff.mpr (writeVarNumber_ne_nil n)

/-- A larger number never has a shorter encoding. -/
theorem length_writeVarNumber_le {a b : Nat} (h : a ≤ b) :
    (writeVarNumber a).length ≤ (writeVarNumber b).length := by
  unfold writeVarNumber
  split_ifs <;> simp <;> omega

/-- A number below 253 is its own one-octet encoding. -/
theorem writeVarNumber_of_lt {n : Nat} (h : n < 253) : writeVarNumber n = [n.toUInt8] := by
  simp [writeVarNumber, h]

/-- The reader reads back the writer's encoding, at any offset and before any further octets,
when the encoding ends at or before `end`. -/
theorem readVarNumber_writeVarNumber {mem rest : List UInt8} {pos end_ n : Nat}
    (hmem : mem.drop pos = writeVarNumber n ++ rest) (hn : n < 2 ^ 64)
    (hend : pos + (writeVarNumber n).length ≤ end_) :
    readVarNumber mem pos end_ = .ok (some n, pos + (writeVarNumber n).length) := by
  have hne : pos ≠ end_ := by have := length_writeVarNumber_pos n; omega
  -- the four encodings of `writeVarNumber`, each read back by its own branch of the reader
  rcases lt_or_ge n 253 with h1 | h1
  · rw [writeVarNumber_of_lt h1] at hmem ⊢
    have hb : (n.toUInt8).toNat = n := by simp [Nat.toUInt8]; omega
    simp [readVarNumber, hne, byteAt_of_drop hmem, hb, h1]
  -- a multi-octet encoding: the marker octet, then `w` octets in network order
  have multi : ∀ (m : UInt8) (w : Nat), writeVarNumber n = m :: Octets.beBytes w n →
      253 ≤ m.toNat → (if m = 253 then 2 else if m = 254 then 4 else 8) = w → n < 256 ^ w →
      readVarNumber mem pos end_ = .ok (some n, pos + (writeVarNumber n).length) := by
    intro m w hw hm hsize hfit
    rw [hw] at hmem hend ⊢
    have hv := bytesAt_of_drop
      (show mem.drop (pos + 1) = Octets.beBytes w n ++ rest by rw [← List.drop_drop, hmem]; rfl)
    simp only [List.length_cons, Octets.length_beBytes] at hv hend ⊢
    simp only [readVarNumber, hne, if_false, byteAt_of_drop hmem, Except.ok_bind',
      show ¬ m.toNat < 253 by omega, hsize, hv, Octets.beNat_beBytes_of_lt hfit,
      show ¬ end_ < pos + 1 + w by omega]
    simp [Nat.add_assoc, Nat.add_comm 1 w]
  rcases le_or_gt n 0xFFFF with h2 | h2
  · exact multi 253 2 (by simp [writeVarNumber, h2, show ¬ n < 253 by omega]) (by decide)
      (by decide) (by omega)
  rcases le_or_gt n 0xFFFFFFFF with h3 | h3
  · exact multi 254 4 (by simp [writeVarNumber, h3, show ¬ n < 253 by omega,
      show ¬ n ≤ 0xFFFF by omega]) (by decide) (by decide) (by omega)
  · exact multi 255 8 (by simp [writeVarNumber, show ¬ n < 253 by omega,
      show ¬ n ≤ 0xFFFF by omega, show ¬ n ≤ 0xFFFFFFFF by omega]) (by decide) (by decide)
      (by omega)

/-- `readType` reads back a valid TLV-TYPE. -/
theorem readType_writeVarNumber {mem rest : List UInt8} {pos end_ t : Nat}
    (hmem : mem.drop pos = writeVarNumber t ++ rest) (ht0 : 0 < t) (ht : t ≤ 0xFFFFFFFF)
    (hend : pos + (writeVarNumber t).length ≤ end_) :
    readType mem pos end_ = .ok (some t, pos + (writeVarNumber t).length) := by
  rw [readType, readVarNumber_writeVarNumber hmem (by omega) hend]
  simp [show ¬ (t = 0 ∨ 0xFFFFFFFF < t) by omega]


/-! ## What a read can do

A read either faults on an octet outside the readable memory, or leaves `pos` where it was
with no number, or reads the octet at `pos` and moves past it. These facts bound every loop of
the dispatcher.
-/

section Reads

variable {mem : List UInt8} {pos end_ i n p : Nat} {e : Fault}

theorem byteAt_lt {b : UInt8} (h : byteAt mem i = .ok b) : i < mem.length := by
  unfold byteAt at h
  split at h
  · rename_i hb
    exact (List.getElem?_eq_some_iff.mp hb).1
  · cases h

theorem byteAt_error (h : byteAt mem i = .error e) : e = .segv := by
  unfold byteAt at h
  split at h
  · cases h
  · cases h; rfl

theorem bytesAt_error {k : Nat} (h : bytesAt mem i k = .error e) : e = .segv := by
  unfold bytesAt at h
  split at h
  · cases h
  · cases h; rfl

/-- The outcomes of `readVarNumber`: nothing read at `end`, or the octet at `pos` read and
`pos` moved past it. -/
theorem readVarNumber_cases {r : Option Nat} (h : readVarNumber mem pos end_ = .ok (r, p)) :
    (r = none ∧ p = pos) ∨ (pos < mem.length ∧ pos < p) := by
  unfold readVarNumber at h
  split at h
  · cases h; exact .inl ⟨rfl, rfl⟩
  cases hb : byteAt mem pos with
  | error e => rw [hb] at h; cases h
  | ok first =>
    have hpos := byteAt_lt hb
    rw [hb, Except.ok_bind'] at h
    split at h
    · cases h; exact .inr ⟨hpos, by omega⟩
    -- a marker octet: the width of the number no longer matters
    dsimp only at h
    generalize (if first = 253 then 2 else if first = 254 then 4 else 8) = size at h
    split at h
    · cases h; exact .inr ⟨hpos, by omega⟩
    cases hv : bytesAt mem (pos + 1) size with
    | error e => rw [hv] at h; cases h
    | ok value => rw [hv] at h; cases h; exact .inr ⟨hpos, by omega⟩

theorem readVarNumber_error (h : readVarNumber mem pos end_ = .error e) : e = .segv := by
  unfold readVarNumber at h
  split at h
  · cases h
  cases hb : byteAt mem pos with
  | error e' => rw [hb] at h; cases h; exact byteAt_error hb
  | ok first =>
    rw [hb, Except.ok_bind'] at h
    split at h
    · cases h
    dsimp only at h
    generalize (if first = 253 then 2 else if first = 254 then 4 else 8) = size at h
    split at h
    · cases h
    cases hv : bytesAt mem (pos + 1) size with
    | error e' => rw [hv] at h; cases h; exact bytesAt_error hv
    | ok value => rw [hv] at h; cases h

theorem readVarNumber_some (h : readVarNumber mem pos end_ = .ok (some n, p)) :
    pos < mem.length ∧ pos < p := by
  rcases readVarNumber_cases h with ⟨h', -⟩ | h'
  · cases h'
  · exact h'

theorem readVarNumber_le {r : Option Nat} (h : readVarNumber mem pos end_ = .ok (r, p)) :
    pos ≤ p := by
  rcases readVarNumber_cases h with ⟨-, rfl⟩ | ⟨-, h'⟩
  · exact le_refl _
  · exact le_of_lt h'

/-- `readType` moves `pos` as `readVarNumber` does, and yields a type only where
`readVarNumber` yields a number. -/
theorem readType_cases {r : Option Nat} (h : readType mem pos end_ = .ok (r, p)) :
    ∃ r', readVarNumber mem pos end_ = .ok (r', p) ∧ (r.isSome → r'.isSome) := by
  unfold readType at h
  obtain ⟨⟨r', q⟩, hr, h⟩ := Except.bind_eq_ok_iff.mp h
  cases r' with
  | none => cases h; exact ⟨none, hr, id⟩
  | some m =>
    simp only at h
    split at h <;> (cases h; exact ⟨some m, hr, fun _ => rfl⟩)

theorem readType_some (h : readType mem pos end_ = .ok (some n, p)) :
    pos < mem.length ∧ pos < p := by
  obtain ⟨r', hr, hs⟩ := readType_cases h
  obtain ⟨m, rfl⟩ := Option.isSome_iff_exists.mp (hs rfl)
  exact readVarNumber_some hr

theorem readType_error (h : readType mem pos end_ = .error e) : e = .segv := by
  unfold readType at h
  rcases Except.bind_eq_error_iff.mp h with hr | ⟨⟨r, q⟩, -, h⟩
  · exact readVarNumber_error hr
  · cases r with
    | none => cases h
    | some m =>
      simp only at h
      split at h <;> cases h

end Reads

/-! ## TLV-TYPE numbers (`encoding/tlv.hpp`, `lp/tlv.hpp`) -/

namespace tlv

def interest : Nat := 5
def data : Nat := 6
def name : Nat := 7
def implicitSha256DigestComponent : Nat := 1
def parametersSha256DigestComponent : Nat := 2
def genericNameComponent : Nat := 8

end tlv

namespace lp.tlv

def lpPacket : Nat := 100
def fragment : Nat := 80
def sequence : Nat := 81
def fragIndex : Nat := 82
def fragCount : Nat := 83
def pitToken : Nat := 98
def nack : Nat := 800
def nextHopFaceId : Nat := 816
def cachePolicy : Nat := 820
def congestionMark : Nat := 832
def ack : Nat := 836
def txSequence : Nat := 840
def nonDiscovery : Nat := 844
def prefixAnnouncement : Nat := 848

end lp.tlv

/-! ## TLV elements and names -/

/-- The shortest encoding of a TLV element (`Block::encode`). -/
def encodeTlv (t : Nat) (v : List UInt8) : List UInt8 :=
  writeVarNumber t ++ writeVarNumber v.length ++ v

/-- The offset of an element's TLV-VALUE from the start of the element. -/
def tlvHeaderLength (t : Nat) (v : List UInt8) : Nat :=
  (writeVarNumber t).length + (writeVarNumber v.length).length

theorem length_encodeTlv (t : Nat) (v : List UInt8) :
    (encodeTlv t v).length = tlvHeaderLength t v + v.length := by
  simp [encodeTlv, tlvHeaderLength, Nat.add_assoc]

theorem tlvHeaderLength_pos (t : Nat) (v : List UInt8) : 1 < tlvHeaderLength t v := by
  have := length_writeVarNumber_pos t
  have := length_writeVarNumber_pos v.length
  unfold tlvHeaderLength
  omega

/-- The memory from an element's TLV-VALUE on. -/
theorem drop_tlv_value {mem rest : List UInt8} {p t : Nat} {v : List UInt8}
    (hmem : mem.drop p = encodeTlv t v ++ rest) :
    mem.drop (p + tlvHeaderLength t v) = v ++ rest := by
  rw [← List.drop_drop, hmem, encodeTlv, List.append_assoc, List.append_assoc]
  simp [tlvHeaderLength]

/-- At an element's TLV-VALUE, `pos += length` moves to the element's end: the element lies in
the memory, so the pointer does not wrap. -/
theorem advancePointer_tlv_value {mem rest : List UInt8} {p t : Nat} {v : List UInt8}
    (hmem : mem.drop p = encodeTlv t v ++ rest) :
    advancePointer mem (p + tlvHeaderLength t v) v.length = p + tlvHeaderLength t v + v.length := by
  apply advancePointer_of_le
  have hlen := congrArg List.length hmem
  rw [List.length_drop, List.length_append, length_encodeTlv] at hlen
  have := tlvHeaderLength_pos t v
  omega

/-- The TLV-TYPE and TLV-LENGTH of an element are read back from the front of the memory at
`p`, whatever follows, when the header ends at or before `end`. -/
theorem read_tlv_header {mem rest : List UInt8} {p end_ t : Nat} {v : List UInt8}
    (hmem : mem.drop p = encodeTlv t v ++ rest) (ht0 : 0 < t) (ht : t ≤ 0xFFFFFFFF)
    (hv : v.length < 2 ^ 64) (hend : p + tlvHeaderLength t v ≤ end_) :
    readType mem p end_ = .ok (some t, p + (writeVarNumber t).length) ∧
    readVarNumber mem (p + (writeVarNumber t).length) end_ =
      .ok (some v.length, p + tlvHeaderLength t v) := by
  unfold tlvHeaderLength at hend ⊢
  constructor
  · exact readType_writeVarNumber
      (show mem.drop p = writeVarNumber t ++ (writeVarNumber v.length ++ v ++ rest) by
        rw [hmem]; simp [encodeTlv])
      ht0 ht (by omega)
  · rw [← Nat.add_assoc]
    exact readVarNumber_writeVarNumber
      (show mem.drop (p + (writeVarNumber t).length) = writeVarNumber v.length ++ (v ++ rest) by
        rw [← List.drop_drop, hmem]; simp [encodeTlv])
      hv (by omega)

/-! ## Blocks -/

/-- A TLV element as a `Block` holds it: its TLV-TYPE, its TLV-VALUE and its own octets. -/
structure Block where
  type : Nat
  value : List UInt8
  wire : List UInt8
  deriving DecidableEq, Repr

/-- `Block::Block(buf, bufSize)`: the element at the front of the buffer. The block keeps the
`typeLengthSize + length` octets of the element and none of those after it; `none` where
`tlv::readType` or `tlv::readVarNumber` throws or the TLV-VALUE overruns the buffer. -/
def Block.ofBuffer (buf : List UInt8) : Option Block :=
  match readType buf 0 buf.length with
  | .ok (some type, pos) =>
    match readVarNumber buf pos buf.length with
    | .ok (some length, pos) =>
      if buf.length - pos < length then none
      else some ⟨type, (buf.drop pos).take length, buf.take (pos + length)⟩
    | _ => none
  | _ => none

/-- The block of a buffer that starts with an element is that element, whatever follows it. -/
theorem Block.ofBuffer_encodeTlv {t : Nat} {v : List UInt8} (ht0 : 0 < t) (ht : t ≤ 0xFFFFFFFF)
    (hv : v.length < 2 ^ 64) (rest : List UInt8) :
    Block.ofBuffer (encodeTlv t v ++ rest) = some ⟨t, v, encodeTlv t v⟩ := by
  have hlen := length_encodeTlv t v
  obtain ⟨hT, hL⟩ := @read_tlv_header (encodeTlv t v ++ rest) rest 0
    (encodeTlv t v ++ rest).length t v (List.drop_zero) ht0 ht hv
    (by simp only [List.length_append]; omega)
  simp only [Nat.zero_add] at hT hL
  have hval : (encodeTlv t v ++ rest).drop (tlvHeaderLength t v) = v ++ rest := by
    simpa using @drop_tlv_value (encodeTlv t v ++ rest) rest 0 t v List.drop_zero
  have hwire : (encodeTlv t v ++ rest).take (tlvHeaderLength t v + v.length) = encodeTlv t v := by
    rw [← hlen, List.take_left]
  simp only [Block.ofBuffer, hT, hL]
  rw [if_neg (by simp only [List.length_append]; omega), hval, List.take_left, hwire]

/-- The block of a network packet that is one element is the whole packet. -/
theorem Block.ofBuffer_encodeTlv_self {t : Nat} {v : List UInt8} (ht0 : 0 < t)
    (ht : t ≤ 0xFFFFFFFF) (hv : v.length < 2 ^ 64) :
    Block.ofBuffer (encodeTlv t v) = some ⟨t, v, encodeTlv t v⟩ := by
  simpa using Block.ofBuffer_encodeTlv ht0 ht hv []

/-- A name component: a TLV element whose TLV-TYPE is in [1, 65535]; an implicit or parameters
digest component (TLV-TYPE 1 or 2) holds a 32-octet SHA-256 digest. -/
structure Component where
  type : Nat
  value : List UInt8
  type_pos : 0 < type
  type_le : type ≤ 65535
  digest_length : type = 1 ∨ type = 2 → value.length = 32
  value_fits : value.length < 2 ^ 64
  deriving DecidableEq

/-- A name, as the list of its components. -/
abbrev Name := List Component

/-- `==` on names is `=`. -/
instance lawfulBEqName : LawfulBEq Name := inferInstance

namespace Component

/-- A `GenericNameComponent` (TLV-TYPE 8). -/
def generic (v : List UInt8) (h : v.length < 2 ^ 64 := by decide) : Component :=
  ⟨tlv.genericNameComponent, v, by decide, by decide,
    by intro h; simp [tlv.genericNameComponent] at h, h⟩

/-- The octets of a component's own TLV element. -/
def wire (c : Component) : List UInt8 := encodeTlv c.type c.value

/-- `Component::isImplicitSha256Digest`. -/
def isImplicitSha256Digest (c : Component) : Bool := c.type = tlv.implicitSha256DigestComponent

/-- `Component::ensureValid` on a parsed element. -/
def ofElement (t : Nat) (v : List UInt8) : Option Component :=
  if h : 0 < t ∧ t ≤ 65535 ∧ (t = 1 ∨ t = 2 → v.length = 32) ∧ v.length < 2 ^ 64 then
    some ⟨t, v, h.1, h.2.1, h.2.2.1, h.2.2.2⟩
  else none

theorem ofElement_self (c : Component) : ofElement c.type c.value = some c := by
  rw [ofElement, dif_pos ⟨c.type_pos, c.type_le, c.digest_length, c.value_fits⟩]

end Component

/-- The TLV-VALUE of a name's shortest encoding: its components' elements in order. -/
def Name.wireValue (n : Name) : List UInt8 := (n.map Component.wire).flatten

/-- `Name::wireEncode` of a name built from components. -/
def Name.wireEncode (n : Name) : List UInt8 := encodeTlv tlv.name n.wireValue

@[simp] theorem Name.wireValue_nil : Name.wireValue [] = [] := rfl

@[simp] theorem Name.wireValue_cons (c : Component) (n : Name) :
    Name.wireValue (c :: n) = c.wire ++ Name.wireValue n := rfl

theorem Name.wireValue_append (n m : Name) :
    Name.wireValue (n ++ m) = n.wireValue ++ m.wireValue := by
  simp [Name.wireValue]

/-- A prefix of a name has an encoding no longer than the name's. -/
theorem Name.length_wireEncode_le {n m : Name} (h : n <+: m) :
    n.wireEncode.length ≤ m.wireEncode.length := by
  obtain ⟨t, rfl⟩ := h
  have hv : n.wireValue.length ≤ (n ++ t).wireValue.length := by
    simp [Name.wireValue_append]
  have hw := length_writeVarNumber_le hv
  simp only [Name.wireEncode, length_encodeTlv, tlvHeaderLength]
  omega

/-- `Block::parse` on the octets of a TLV-VALUE: its elements as (TLV-TYPE, TLV-VALUE), or
`none` where `readType` or `readVarNumber` throws or an element overruns the value. `fuel`
bounds the number of elements; `bs.length` is always enough. -/
def parseElements : Nat → List UInt8 → Option (List (Nat × List UInt8))
  | _, [] => some []
  | 0, _ :: _ => none
  | fuel + 1, bs@(_ :: _) =>
    match readType bs 0 bs.length with
    | .ok (some t, p) =>
      match readVarNumber bs p bs.length with
      | .ok (some len, q) =>
        if bs.length - q < len then none
        else (parseElements fuel (bs.drop (q + len))).map ((t, (bs.drop q).take len) :: ·)
      | _ => none
    | _ => none

/-- `Name::wireDecode` of a TLV-VALUE, with `Name::get` validating each component. -/
def decodeName (v : List UInt8) : Option Name :=
  (parseElements v.length v).bind fun els => els.mapM fun e => Component.ofElement e.1 e.2

/-- One component's element is parsed from the front of a TLV-VALUE. -/
theorem parseElements_wire (c : Component) (rest : List UInt8) (fuel : Nat) :
    parseElements (fuel + 1) (c.wire ++ rest) =
      (parseElements fuel rest).map ((c.type, c.value) :: ·) := by
  set T := writeVarNumber c.type
  set L := writeVarNumber c.value.length
  have hw : c.wire ++ rest = T ++ (L ++ (c.value ++ rest)) := by
    simp [Component.wire, encodeTlv, T, L]
  have hT : readType (c.wire ++ rest) 0 (c.wire ++ rest).length = .ok (some c.type, T.length) := by
    have := readType_writeVarNumber
      (show (c.wire ++ rest).drop 0 = T ++ (L ++ (c.value ++ rest)) by rw [List.drop_zero, hw])
      c.type_pos (by have := c.type_le; omega)
      (show 0 + T.length ≤ (c.wire ++ rest).length by
        rw [hw]; simp only [List.length_append]; omega)
    simpa using this
  have hL : readVarNumber (c.wire ++ rest) T.length (c.wire ++ rest).length =
      .ok (some c.value.length, T.length + L.length) :=
    readVarNumber_writeVarNumber
      (show (c.wire ++ rest).drop T.length = L ++ (c.value ++ rest) by rw [hw, List.drop_left])
      c.value_fits (by rw [hw]; simp [L])
  have hv : (c.wire ++ rest).drop (T.length + L.length) = c.value ++ rest := by
    rw [hw, ← List.append_assoc, List.drop_left' (by simp)]
  have hlen : (c.wire ++ rest).length = T.length + L.length + c.value.length + rest.length := by
    rw [hw]; simp; omega
  obtain ⟨b, bs, hbs⟩ : ∃ b bs, c.wire ++ rest = b :: bs :=
    List.exists_cons_of_ne_nil (by rw [hw]; simp [T, writeVarNumber_ne_nil])
  rw [hbs] at hT hL hv hlen ⊢
  simp only [parseElements, hT, hL]
  have hd : (b :: bs).drop (T.length + L.length + c.value.length) = rest := by
    rw [← List.drop_drop, hv, List.drop_left]
  rw [if_neg (by omega), hd, hv, List.take_left]

theorem length_wire_pos (c : Component) : 0 < c.wire.length := by
  have := length_writeVarNumber_pos c.type
  simp only [Component.wire, encodeTlv, List.length_append]
  omega

theorem length_le_length_wireValue (n : Name) : n.length ≤ n.wireValue.length := by
  induction n with
  | nil => simp
  | cons c n ih =>
    have := length_wire_pos c
    simp only [List.length_cons, Name.wireValue_cons, List.length_append]
    omega

/-- The elements of a name's TLV-VALUE are its components, given enough fuel. -/
theorem parseElements_wireValue (n : Name) {fuel : Nat} (h : n.length ≤ fuel) :
    parseElements fuel n.wireValue = some (n.map fun c => (c.type, c.value)) := by
  induction n generalizing fuel with
  | nil => cases fuel <;> rfl
  | cons c n ih =>
    obtain ⟨fuel, rfl⟩ : ∃ f, fuel = f + 1 := ⟨fuel - 1, by simp at h; omega⟩
    rw [Name.wireValue_cons, parseElements_wire, ih (by simp at h; omega)]
    rfl

/-- The round trip for names: `Name::wireDecode` of the shortest encoding. -/
theorem decodeName_wireValue (n : Name) : decodeName n.wireValue = some n := by
  rw [decodeName, parseElements_wireValue n (length_le_length_wireValue n), Option.bind_some]
  induction n with
  | nil => rfl
  | cons c n ih => simp [List.mapM_cons, Component.ofElement_self, ih]

end MwNfd
