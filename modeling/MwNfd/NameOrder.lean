import Mathlib.Data.Prod.Lex
import MwNfd.Packet
import MwNfd.Lib.Lex

/-!
# The canonical order of names (`name-component.cpp`, `name.cpp`)

NDN orders name components by TLV-TYPE, then by TLV-LENGTH, then by TLV-VALUE octet by octet,
and names lexicographically by their components. Here that order is `Component.key` lifted to a
linear order, and names take Mathlib's lexicographic order on lists.

`Component::compare` computes it in two ways. When both components carry their wire encoding it
runs `memcmp` over the encodings, relying on "lexical order of TLV encoding happens to be the same
as canonical order of the value"; otherwise it subtracts the TLV-TYPEs and the TLV-LENGTHs as
unsigned numbers, keeps the low 32 bits as an `int`, and runs `memcmp` over the values.
`Name::compare` returns the first nonzero component comparison, or the difference of the
component counts, again kept in an `int`.

`Component::getSuccessor` increments the value as a big-endian number, extends it by an octet when
every octet overflows, and, for the two digest types, moves to the least value of the next type.

* `Component.wire_lt_iff`: the comment's claim: the encodings are in lexicographic order exactly
  when the components are in canonical order; and no encoding starts another.
* `Name.compare_eq_zero_iff`, `Name.compare_neg_iff`: both paths compute the canonical order, on
  names whose component counts and value lengths stay below `2^31`.
* `Component.covBy_getSuccessor`: no component lies between a component and its successor.
* `Name.prefix_iff_of_getSuccessor`: the names from a nonempty name up to its successor are the
  names it is a prefix of. So the successor is not the next name in canonical order, as
  `name.hpp` describes it: every longer name under the name lies between the two.
-/

namespace MwNfd

open Octets

/-! ## The order of VAR-NUMBER encodings -/

/-- The first octet of `writeVarNumber n`. -/
def varNumberHead (n : Nat) : Nat :=
  if n < 253 then n else if n ≤ 0xFFFF then 253 else if n ≤ 0xFFFFFFFF then 254 else 255

/-- The number of octets of `writeVarNumber n` after the first. -/
def varNumberWidth (n : Nat) : Nat :=
  if n < 253 then 0 else if n ≤ 0xFFFF then 2 else if n ≤ 0xFFFFFFFF then 4 else 8

theorem writeVarNumber_eq (n : Nat) :
    writeVarNumber n = (varNumberHead n).toUInt8 :: beBytes (varNumberWidth n) n := by
  unfold writeVarNumber varNumberHead varNumberWidth
  split_ifs <;> rfl

theorem toNat_varNumberHead (n : Nat) : (varNumberHead n).toUInt8.toNat = varNumberHead n := by
  have h : varNumberHead n < 256 := by unfold varNumberHead; split_ifs <;> omega
  simp [Nat.toUInt8, Nat.mod_eq_of_lt h]

theorem varNumberHead_mono {m n : Nat} (h : m ≤ n) : varNumberHead m ≤ varNumberHead n := by
  unfold varNumberHead
  split_ifs <;> omega

/-- The width is read off the first octet. -/
theorem varNumberWidth_eq_of_head {m n : Nat} (h : varNumberHead m = varNumberHead n) :
    varNumberWidth m = varNumberWidth n := by
  unfold varNumberHead at h
  unfold varNumberWidth
  split_ifs at h ⊢ <;> omega

/-- Under one first octet, the numbers compare as their network-order octets. -/
theorem mod_lt_mod_iff_of_head {m n : Nat} (hm : m < 2 ^ 64) (hn : n < 2 ^ 64)
    (h : varNumberHead m = varNumberHead n) :
    m % 256 ^ varNumberWidth n < n % 256 ^ varNumberWidth n ↔ m < n := by
  unfold varNumberHead at h
  unfold varNumberWidth
  split_ifs at h ⊢ <;> norm_num at hm hn ⊢ <;> omega

/-- The encodings of two numbers below `2^64` are in lexicographic order exactly when the
numbers are in order. -/
theorem writeVarNumber_lt_iff {m n : Nat} (hm : m < 2 ^ 64) (hn : n < 2 ^ 64) :
    (writeVarNumber m).map UInt8.toNat < (writeVarNumber n).map UInt8.toNat ↔ m < n := by
  rw [writeVarNumber_eq, writeVarNumber_eq, List.map_cons, List.map_cons, toNat_varNumberHead,
    toNat_varNumberHead, LexOrder.cons_lt_cons_iff]
  rcases Nat.lt_trichotomy (varNumberHead m) (varNumberHead n) with h | h | h
  · -- a smaller first octet belongs to a smaller number
    refine iff_of_true (.inl h) (Nat.lt_of_not_le fun hnm => ?_)
    exact absurd (varNumberHead_mono hnm) (Nat.not_le.mpr h)
  · rw [varNumberWidth_eq_of_head h, map_toNat_lt_iff (by simp), beNat_beBytes, beNat_beBytes,
      mod_lt_mod_iff_of_head hm hn h]
    simp [h]
  · refine iff_of_false ?_ (Nat.not_lt_of_le ?_)
    · rintro (h' | ⟨h', -⟩) <;> omega
    · by_contra hmn
      exact absurd (varNumberHead_mono (Nat.le_of_not_le hmn)) (Nat.not_le.mpr h)

theorem writeVarNumber_injective {m n : Nat} (hm : m < 2 ^ 64) (hn : n < 2 ^ 64)
    (h : writeVarNumber m = writeVarNumber n) : m = n := by
  rcases Nat.lt_trichotomy m n with hlt | heq | hgt
  · exact absurd ((writeVarNumber_lt_iff hm hn).mpr hlt) (by rw [h]; exact lt_irrefl _)
  · exact heq
  · exact absurd ((writeVarNumber_lt_iff hn hm).mpr hgt) (by rw [h]; exact lt_irrefl _)

/-- VAR-NUMBER is a prefix code: an encoding that starts another is the same encoding. -/
theorem eq_of_isPrefix_writeVarNumber {m n : Nat} (hm : m < 2 ^ 64) (hn : n < 2 ^ 64)
    (h : writeVarNumber m <+: writeVarNumber n) : m = n := by
  rw [writeVarNumber_eq, writeVarNumber_eq] at h
  have hhead : varNumberHead m = varNumberHead n := by
    have := congrArg UInt8.toNat (List.cons_prefix_cons.mp h).1
    rwa [toNat_varNumberHead, toNat_varNumberHead] at this
  have hlen : (writeVarNumber m).length = (writeVarNumber n).length := by
    simp [writeVarNumber_eq, varNumberWidth_eq_of_head hhead]
  rw [← writeVarNumber_eq, ← writeVarNumber_eq] at h
  exact writeVarNumber_injective hm hn (h.eq_of_length hlen)

/-- Of two encodings of numbers below `2^64`, one starts the other only when they are equal. -/
theorem writeVarNumber_eq_of_prefix_or {m n : Nat} (hm : m < 2 ^ 64) (hn : n < 2 ^ 64)
    (h : writeVarNumber m <+: writeVarNumber n ∨ writeVarNumber n <+: writeVarNumber m) :
    m = n := by
  rcases h with h | h
  · exact eq_of_isPrefix_writeVarNumber hm hn h
  · exact (eq_of_isPrefix_writeVarNumber hn hm h).symm

/-! ## The canonical order of components -/

namespace Component

theorem ext {c d : Component} (ht : c.type = d.type) (hv : c.value = d.value) : c = d := by
  cases c
  cases d
  cases ht
  cases hv
  rfl

/-- The canonical order as a key: TLV-TYPE, then TLV-LENGTH, then the TLV-VALUE as a
network-order number, which orders values of one length as their octets do
(`map_toNat_lt_iff`). -/
def key (c : Component) : Nat ×ₗ (Nat ×ₗ Nat) :=
  toLex (c.type, toLex (c.value.length, beNat c.value))

/-- A value is determined by its length and its network-order number. -/
theorem value_eq_of_beNat {v w : List UInt8} (hlen : v.length = w.length)
    (h : beNat v = beNat w) : v = w := by
  have hv := beBytes_leNat v.reverse
  have hw := beBytes_leNat w.reverse
  rw [leNat_reverse, List.length_reverse, List.reverse_reverse] at hv hw
  rw [← hv, ← hw, hlen, h]

theorem key_injective : Function.Injective key := by
  intro c d h
  simp only [key, toLex_inj, Prod.mk.injEq] at h
  exact ext h.1 (value_eq_of_beNat h.2.1 h.2.2)

/-- The canonical order. -/
instance : LinearOrder Component := LinearOrder.lift' key key_injective

theorem lt_iff_beNat {c d : Component} : c < d ↔ c.type < d.type ∨ c.type = d.type ∧
    (c.value.length < d.value.length ∨
      c.value.length = d.value.length ∧ beNat c.value < beNat d.value) := by
  show key c < key d ↔ _
  simp [key, Prod.Lex.toLex_lt_toLex]

/-- The canonical order as the packet format states it. -/
theorem lt_iff {c d : Component} : c < d ↔ c.type < d.type ∨ c.type = d.type ∧
    (c.value.length < d.value.length ∨
      c.value.length = d.value.length ∧ c.value.map UInt8.toNat < d.value.map UInt8.toNat) := by
  rw [lt_iff_beNat]
  constructor
  · rintro (h | ⟨ht, h | ⟨hl, hv⟩⟩)
    · exact .inl h
    · exact .inr ⟨ht, .inl h⟩
    · exact .inr ⟨ht, .inr ⟨hl, (map_toNat_lt_iff hl).mpr hv⟩⟩
  · rintro (h | ⟨ht, h | ⟨hl, hv⟩⟩)
    · exact .inl h
    · exact .inr ⟨ht, .inl h⟩
    · exact .inr ⟨ht, .inr ⟨hl, (map_toNat_lt_iff hl).mp hv⟩⟩

theorem type_lt_pow (c : Component) : c.type < 2 ^ 64 := by
  have := c.type_le
  omega

theorem wire_eq (c : Component) :
    c.wire = writeVarNumber c.type ++ (writeVarNumber c.value.length ++ c.value) := by
  simp [wire, encodeTlv]

theorem toNat_injective : Function.Injective UInt8.toNat := fun _ _ h => UInt8.toNat_inj.mp h

/-- No component's encoding starts another's: a TLV element is self-delimiting. -/
theorem not_isPrefix_wire {c d : Component} (hne : c ≠ d) : ¬ c.wire <+: d.wire := by
  intro h
  rw [wire_eq, wire_eq] at h
  have ht : c.type = d.type := writeVarNumber_eq_of_prefix_or (type_lt_pow c) (type_lt_pow d)
    (List.prefix_or_prefix_of_prefix ((List.prefix_append _ _).trans h) (List.prefix_append _ _))
  rw [ht, List.prefix_append_right_inj] at h
  have hl : c.value.length = d.value.length := writeVarNumber_eq_of_prefix_or c.value_fits
    d.value_fits
    (List.prefix_or_prefix_of_prefix ((List.prefix_append _ _).trans h) (List.prefix_append _ _))
  rw [hl, List.prefix_append_right_inj] at h
  exact hne (ext ht (h.eq_of_length hl))

/-- The claim of `Component::compare`'s comment: the lexicographic order of the encodings is the
canonical order. -/
theorem wire_lt_iff (c d : Component) :
    c.wire.map UInt8.toNat < d.wire.map UInt8.toNat ↔ c < d := by
  rw [lt_iff_beNat, wire_eq, wire_eq, List.map_append, List.map_append, List.map_append,
    List.map_append]
  by_cases ht : c.type = d.type
  · rw [ht, LexOrder.append_lt_append_left_iff]
    by_cases hl : c.value.length = d.value.length
    · rw [hl, LexOrder.append_lt_append_left_iff, map_toNat_lt_iff hl]
      simp
    · -- the TLV-LENGTHs differ, and decide
      have hne : ¬ (writeVarNumber c.value.length).map UInt8.toNat <+:
          (writeVarNumber d.value.length).map UInt8.toNat := fun h =>
        hl (eq_of_isPrefix_writeVarNumber c.value_fits d.value_fits
          ((List.prefix_map_iff_of_injective toNat_injective).mp h))
      have hne' : ¬ (writeVarNumber d.value.length).map UInt8.toNat <+:
          (writeVarNumber c.value.length).map UInt8.toNat := fun h =>
        hl (eq_of_isPrefix_writeVarNumber d.value_fits c.value_fits
          ((List.prefix_map_iff_of_injective toNat_injective).mp h)).symm
      rw [LexOrder.append_lt_append_of_not_prefix hne hne',
        writeVarNumber_lt_iff c.value_fits d.value_fits]
      simp [hl]
  · -- the TLV-TYPEs differ, and decide
    have hne : ¬ (writeVarNumber c.type).map UInt8.toNat <+:
        (writeVarNumber d.type).map UInt8.toNat := fun h =>
      ht (eq_of_isPrefix_writeVarNumber (type_lt_pow c) (type_lt_pow d)
        ((List.prefix_map_iff_of_injective toNat_injective).mp h))
    have hne' : ¬ (writeVarNumber d.type).map UInt8.toNat <+:
        (writeVarNumber c.type).map UInt8.toNat := fun h =>
      ht (eq_of_isPrefix_writeVarNumber (type_lt_pow d) (type_lt_pow c)
        ((List.prefix_map_iff_of_injective toNat_injective).mp h)).symm
    rw [LexOrder.append_lt_append_of_not_prefix hne hne', writeVarNumber_lt_iff (type_lt_pow c)
      (type_lt_pow d)]
    simp [ht]

/-! ## `Component::compare` -/

/-- A value short enough for the `int` difference of two TLV-LENGTHs to keep its sign. -/
def Fits (c : Component) : Prop := c.value.length < 2 ^ 31

instance (c : Component) : Decidable c.Fits := inferInstanceAs (Decidable (_ < _))

/-- `Component::compare`. With both wire encodings at hand (`viaWire`), `memcmp` of the encodings
over the shorter length. Otherwise the TLV-TYPEs, then the TLV-LENGTHs, are subtracted as unsigned
numbers and the difference converted to `int`, which keeps its low 32 bits; empty values of one
length compare equal, and other values of one length go to `memcmp`. -/
def compare (viaWire : Bool) (c d : Component) : Int :=
  if viaWire then memcmp c.wire d.wire (min c.wire.length d.wire.length)
  else
    let cmpType := Int.bmod ((c.type : Int) - d.type) (2 ^ 32)
    if cmpType ≠ 0 then cmpType
    else
      let cmpSize := Int.bmod ((c.value.length : Int) - d.value.length) (2 ^ 32)
      if cmpSize ≠ 0 then cmpSize
      else if c.value.length = 0 then 0
      else memcmp c.value d.value c.value.length

/-- The low 32 bits of the difference of two numbers below `2^31`, read as an `int`, are the
difference. -/
theorem bmod_sub {a b : Nat} (ha : a < 2 ^ 31) (hb : b < 2 ^ 31) :
    Int.bmod ((a : Int) - b) (2 ^ 32) = a - b := by
  apply Int.bmod_eq_of_le <;> norm_num at ha hb ⊢ <;> omega

theorem type_lt_two_pow (c : Component) : c.type < 2 ^ 31 := by
  have := c.type_le
  omega

@[simp] theorem compare_self (w : Bool) (c : Component) : Component.compare w c c = 0 := by
  unfold Component.compare
  split_ifs <;> simp_all

/-- The path through the encodings: `memcmp` decides at the first octet where they differ. -/
theorem isCompare_compare_true (c d : Component) :
    LexOrder.IsCompare (Component.compare true c d) c d := by
  by_cases h : c = d
  · exact .of_eq h (by rw [h, compare_self])
  · obtain ⟨hne, hneg⟩ :=
      memcmp_of_not_prefix (not_isPrefix_wire h) (not_isPrefix_wire (Ne.symm h))
    rw [wire_lt_iff] at hneg
    exact .of_ne h hne hneg

/-- The path through the fields, on values whose lengths fit the `int` difference. -/
theorem isCompare_compare_false {c d : Component} (hc : c.Fits) (hd : d.Fits) :
    LexOrder.IsCompare (Component.compare false c d) c d := by
  by_cases h : c = d
  · exact .of_eq h (by rw [h, compare_self])
  have hsize := bmod_sub hc hd
  simp only [Component.compare, Bool.false_eq_true, if_false,
    bmod_sub (type_lt_two_pow c) (type_lt_two_pow d), hsize]
  by_cases ht : c.type = d.type
  · have hl' : ¬ (((c.type : Int) - d.type) ≠ 0) := by omega
    rw [if_neg hl']
    by_cases hl : c.value.length = d.value.length
    · -- one TLV-LENGTH: the values differ, and `memcmp` runs over all of them
      have hv : c.value ≠ d.value := fun hv => h (ext ht hv)
      have hpos : c.value.length ≠ 0 := fun h0 =>
        hv ((List.length_eq_zero_iff.mp h0).trans (List.length_eq_zero_iff.mp (hl ▸ h0)).symm)
      obtain ⟨hne, hneg⟩ := memcmp_of_not_prefix (LexOrder.not_prefix_of_length_eq hl hv)
        (LexOrder.not_prefix_of_length_eq hl.symm (Ne.symm hv))
      rw [hl, min_self] at hne hneg
      rw [if_neg (by omega), if_neg hpos, hl]
      refine .of_ne h hne (hneg.trans ?_)
      rw [lt_iff]
      simp [ht, hl]
    · rw [if_pos (by omega)]
      refine .of_ne h (by omega) ?_
      rw [lt_iff]
      simp only [ht, lt_irrefl, false_or, true_and]
      omega
  · rw [if_pos (by omega)]
    refine .of_ne h (by omega) ?_
    rw [lt_iff]
    omega

/-- Both paths of `Component::compare` compute the canonical order. -/
theorem isCompare_compare (w : Bool) {c d : Component} (hc : c.Fits) (hd : d.Fits) :
    LexOrder.IsCompare (Component.compare w c d) c d := by
  cases w
  · exact isCompare_compare_false hc hd
  · exact isCompare_compare_true c d

end Component

/-! ## `Name::compare` -/

/-- A name whose component count and value lengths stay below `2^31`, so that the `int` results
of `Name::compare` keep their sign. -/
def Name.Fits (n : Name) : Prop := n.length < 2 ^ 31 ∧ ∀ c ∈ n, c.Fits

instance (n : Name) : Decidable n.Fits := inferInstanceAs (Decidable (_ ∧ _))

/-- The loop of `Name::compare`: the first nonzero comparison of the components at one position,
if any. -/
def compareComponents (viaWire : Bool) : Name → Name → Option Int
  | c :: cs, d :: ds =>
    let comp := Component.compare viaWire c d
    if comp ≠ 0 then some comp else compareComponents viaWire cs ds
  | _, _ => none

/-- `Name::npos`. -/
def Name.npos : Nat := 2 ^ 64 - 1

/-- `Name::compare(pos1, count1, other, pos2, count2)`: the counts are cut to what the names hold
from the positions on, the components compared in turn, and, when none differ, the difference of
the counts converted to `int`. -/
def Name.compareRange (viaWire : Bool) (a : Name) (pos1 count1 : Nat) (b : Name)
    (pos2 count2 : Nat) : Int :=
  let count1 := min count1 (a.length - pos1)
  let count2 := min count2 (b.length - pos2)
  (compareComponents viaWire ((a.drop pos1).take count1) ((b.drop pos2).take count2)).getD
    (Int.bmod ((count1 : Int) - count2) (2 ^ 32))

/-- `Name::compare(other)`. -/
def Name.compare (viaWire : Bool) (a b : Name) : Int :=
  Name.compareRange viaWire a 0 Name.npos b 0 Name.npos

section CompareComponents

variable {w : Bool} {a b : Name}

theorem compareComponents_self (a : Name) : compareComponents w a a = none := by
  induction a with
  | nil => rfl
  | cons c a ih => simp [compareComponents, ih]

/-- No differing position: one name starts the other. -/
theorem compareComponents_eq_none (ha : ∀ c ∈ a, c.Fits) (hb : ∀ c ∈ b, c.Fits)
    (h : compareComponents w a b = none) : a <+: b ∨ b <+: a := by
  induction a generalizing b with
  | nil => exact .inl List.nil_prefix
  | cons c a ih =>
    cases b with
    | nil => exact .inr List.nil_prefix
    | cons d b =>
      simp only [compareComponents] at h
      split_ifs at h with hcd
      -- a zero comparison: the components are equal
      have hcd : c = d := ((Component.isCompare_compare w (ha c (by simp))
        (hb d (by simp))).eq_zero_iff.mp (not_not.mp hcd))
      subst hcd
      rcases ih (fun x hx => ha x (by simp [hx])) (fun x hx => hb x (by simp [hx])) h with h' | h'
      · exact .inl ((List.prefix_cons_inj c).mpr h')
      · exact .inr ((List.prefix_cons_inj c).mpr h')

/-- A differing position: its comparison decides. -/
theorem compareComponents_eq_some {r : Int} (ha : ∀ c ∈ a, c.Fits) (hb : ∀ c ∈ b, c.Fits)
    (h : compareComponents w a b = some r) : r ≠ 0 ∧ (r < 0 ↔ a < b) := by
  induction a generalizing b with
  | nil => cases b <;> simp [compareComponents] at h
  | cons c a ih =>
    cases b with
    | nil => simp [compareComponents] at h
    | cons d b =>
      have hcmp := Component.isCompare_compare w (ha c (by simp)) (hb d (by simp))
      simp only [compareComponents] at h
      split_ifs at h with hcd
      · -- the first components differ
        cases h
        have hne : c ≠ d := fun h' => hcd (hcmp.eq_zero_iff.mpr h')
        refine ⟨hcd, hcmp.neg_iff.trans ?_⟩
        rw [LexOrder.cons_lt_cons_iff]
        simp [hne]
      · have hcd : c = d := hcmp.eq_zero_iff.mp (not_not.mp hcd)
        subst hcd
        rw [LexOrder.cons_lt_cons_self]
        exact ih (fun x hx => ha x (by simp [hx])) (fun x hx => hb x (by simp [hx])) h

end CompareComponents

/-- On names of fewer than `2^64` components, `compare(other)` is the loop over both names, then
the difference of their sizes. -/
theorem Name.compare_eq (w : Bool) {a b : Name} (ha : a.length ≤ Name.npos)
    (hb : b.length ≤ Name.npos) :
    Name.compare w a b =
      (compareComponents w a b).getD (Int.bmod ((a.length : Int) - b.length) (2 ^ 32)) := by
  simp [Name.compare, Name.compareRange, Nat.min_eq_right ha, Nat.min_eq_right hb]

theorem Name.Fits.length_le {n : Name} (h : n.Fits) : n.length ≤ Name.npos := by
  have := h.1
  unfold Name.npos
  omega

/-- Both paths of `Name::compare` compute the canonical order of names. -/
theorem Name.isCompare_compare (w : Bool) {a b : Name} (ha : a.Fits) (hb : b.Fits) :
    LexOrder.IsCompare (Name.compare w a b) a b := by
  rw [Name.compare_eq w ha.length_le hb.length_le]
  cases hcc : compareComponents w a b with
  | some r =>
    obtain ⟨hr, hneg⟩ := compareComponents_eq_some ha.2 hb.2 hcc
    refine .of_ne (fun hab => ?_) hr hneg
    rw [hab, compareComponents_self] at hcc
    cases hcc
  | none =>
    -- no component differs: the shorter name is a prefix of the other
    rw [Option.getD_none, Component.bmod_sub ha.1 hb.1]
    rcases compareComponents_eq_none ha.2 hb.2 hcc with hpre | hpre
    · refine ⟨⟨fun h => hpre.eq_of_length (by omega), fun h => by rw [h]; simp⟩, ?_⟩
      rw [LexOrder.lt_iff_length_lt_of_isPrefix hpre]
      omega
    · refine ⟨⟨fun h => (hpre.eq_of_length (by omega)).symm, fun h => by rw [h]; simp⟩, ?_⟩
      have hle := hpre.length_le
      exact iff_of_false (by omega) (LexOrder.not_lt_of_isPrefix hpre)

/-- `Name::compare` returns a result of one sign whether `Component::compare` runs `memcmp` over the
components' encodings or compares their fields. -/
theorem Name.sign_compare_eq (w w' : Bool) {a b : Name} (ha : a.Fits) (hb : b.Fits) :
    (Name.compare w a b).sign = (Name.compare w' a b).sign :=
  (Name.isCompare_compare w ha hb).sign_eq (Name.isCompare_compare w' ha hb)

/-- The names /a and /b of generic components, the first compared through its wire encoding
and the second field by field. -/
theorem Name.sign_compare_eq_ab :
    Name.Fits [Component.generic [0x61]] ∧ Name.Fits [Component.generic [0x62]] ∧
      (Name.compare true [Component.generic [0x61]] [Component.generic [0x62]]).sign =
        (Name.compare false [Component.generic [0x61]] [Component.generic [0x62]]).sign :=
  ⟨by decide, by decide, Name.sign_compare_eq true false (by decide) (by decide)⟩

/-! ## `getSuccessor` -/

theorem toNat_add_one (b : UInt8) : (b + 1).toNat = (b.toNat + 1) % 256 := by
  simp

theorem add_one_eq_zero_iff (b : UInt8) : b + 1 = 0 ↔ b.toNat = 255 := by
  have := b.toNat_lt
  rw [← UInt8.toNat_inj, toNat_add_one, UInt8.toNat_zero]
  omega

theorem beNat_replicate_zero (k : Nat) : beNat (List.replicate k 0) = 0 := by
  induction k with
  | zero => rfl
  | succ k ih => simp [List.replicate_succ, ih]

namespace Component

/-- The loop of `ComponentType::getSuccessorImpl`, over the value's octets from the last: each
octet is incremented modulo 256 while the increment of the one after it overflowed to 0. The
octets come back in the same order, last first, with whether the last increment overflowed. -/
def incrementFromLast : List UInt8 → Bool × List UInt8
  | [] => (true, [])
  | b :: rest =>
    let newValue := b + 1
    if newValue = 0 then
      let r := incrementFromLast rest
      (r.1, newValue :: r.2)
    else (false, newValue :: rest)

/-- `ComponentType::getSuccessorImpl` on a value: whether every octet overflowed, and the new
value, extended by a 0 octet in that case. -/
def successorImpl (v : List UInt8) : Bool × List UInt8 :=
  let r := incrementFromLast v.reverse
  (r.1, if r.1 then r.2.reverse ++ [0] else r.2.reverse)

/-- The TLV-TYPEs whose entry in the component type table is a `Sha256ComponentType`. -/
def isSha256Type (t : Nat) : Bool :=
  t = tlv.implicitSha256DigestComponent || t = tlv.parametersSha256DigestComponent

/-- `ComponentType::getMinValue`: 32 zero octets for a digest type, none for the others. -/
def minValue (t : Nat) : List UInt8 := if isSha256Type t then List.replicate 32 0 else []

/-- `Component::getSuccessor`. A digest type (`Sha256ComponentType::getSuccessor`) reports the
overflow of its 32 octets, and the successor is the least value of the next TLV-TYPE; the other
types (`ComponentType::getSuccessor`) keep the extended value. `none`: the `Component`
constructor throws. -/
def getSuccessor (c : Component) : Option Component :=
  let successor := successorImpl c.value
  if isSha256Type c.type && successor.1 then ofElement (c.type + 1) (minValue (c.type + 1))
  else ofElement c.type successor.2

theorem incrementFromLast_false {r r' : List UInt8} (h : incrementFromLast r = (false, r')) :
    r'.length = r.length ∧ leNat r' = leNat r + 1 := by
  induction r generalizing r' with
  | nil => simp [incrementFromLast] at h
  | cons b rest ih =>
    have hb := b.toNat_lt
    simp only [incrementFromLast] at h
    split_ifs at h with hz
    · -- the octet overflowed and the carry went on
      obtain ⟨h1, rfl⟩ := Prod.mk.inj h
      obtain ⟨hlen, hval⟩ := ih (Prod.ext h1 rfl)
      have h255 := (add_one_eq_zero_iff b).mp hz
      refine ⟨by simp [hlen], ?_⟩
      rw [leNat_cons, leNat_cons, hz, hval, UInt8.toNat_zero]
      omega
    · obtain ⟨-, rfl⟩ := Prod.mk.inj h
      have h255 := (add_one_eq_zero_iff b).not.mp hz
      refine ⟨rfl, ?_⟩
      rw [leNat_cons, leNat_cons, toNat_add_one]
      omega

theorem incrementFromLast_true {r r' : List UInt8} (h : incrementFromLast r = (true, r')) :
    r' = List.replicate r.length 0 ∧ leNat r + 1 = 256 ^ r.length := by
  induction r generalizing r' with
  | nil =>
    simp only [incrementFromLast, Prod.mk.injEq, true_and] at h
    simp [← h]
  | cons b rest ih =>
    have hb := b.toNat_lt
    simp only [incrementFromLast] at h
    split_ifs at h with hz
    · obtain ⟨h1, rfl⟩ := Prod.mk.inj h
      obtain ⟨hrep, hval⟩ := ih (Prod.ext h1 rfl)
      have h255 := (add_one_eq_zero_iff b).mp hz
      refine ⟨by simp only [hz, hrep, List.length_cons, List.replicate_succ], ?_⟩
      rw [leNat_cons, List.length_cons, pow_succ]
      omega
    · simp at h

/-- Without an overflow the value keeps its length and its number goes up by one. -/
theorem successorImpl_false {v w : List UInt8} (h : successorImpl v = (false, w)) :
    w.length = v.length ∧ beNat w = beNat v + 1 := by
  unfold successorImpl at h
  rcases hr : incrementFromLast v.reverse with ⟨o, r⟩
  simp only [hr, Prod.mk.injEq] at h
  obtain ⟨rfl, h⟩ := h
  obtain ⟨hlen, hval⟩ := incrementFromLast_false hr
  rw [if_neg Bool.false_ne_true] at h
  subst h
  rw [← leNat_reverse, List.reverse_reverse, hval, leNat_reverse]
  simpa using hlen

/-- An overflow: the value was all 0xFF octets (or empty), and it becomes one octet longer and
all zero. -/
theorem successorImpl_true {v w : List UInt8} (h : successorImpl v = (true, w)) :
    w = List.replicate (v.length + 1) 0 ∧ beNat v + 1 = 256 ^ v.length := by
  unfold successorImpl at h
  rcases hr : incrementFromLast v.reverse with ⟨o, r⟩
  simp only [hr, Prod.mk.injEq] at h
  obtain ⟨rfl, h⟩ := h
  obtain ⟨hrep, hval⟩ := incrementFromLast_true hr
  rw [if_pos rfl] at h
  rw [← leNat_reverse, ← List.length_reverse, hval]
  refine ⟨?_, rfl⟩
  rw [← h, hrep, List.reverse_replicate, List.length_reverse, List.replicate_succ']

theorem ofElement_eq_some {t : Nat} {v : List UInt8} {c : Component}
    (h : ofElement t v = some c) : c.type = t ∧ c.value = v := by
  unfold ofElement at h
  split at h
  · cases h
    exact ⟨rfl, rfl⟩
  · cases h

theorem isSha256Type_iff (t : Nat) : isSha256Type t = true ↔ t = 1 ∨ t = 2 := by
  unfold isSha256Type tlv.implicitSha256DigestComponent tlv.parametersSha256DigestComponent
  by_cases h1 : t = 1 <;> by_cases h2 : t = 2 <;> simp [h1, h2]

/-- What `getSuccessor` returns: the value one higher with the same length, the value extended
to all zeros after all 0xFF octets, or, for a digest type whose value overflowed, the least value
of the next TLV-TYPE. -/
theorem getSuccessor_cases {c s : Component} (h : c.getSuccessor = some s) :
    (s.type = c.type ∧ s.value.length = c.value.length ∧ beNat s.value = beNat c.value + 1) ∨
    (beNat c.value + 1 = 256 ^ c.value.length ∧ s.type = c.type ∧
      s.value.length = c.value.length + 1 ∧ beNat s.value = 0) ∨
    (beNat c.value + 1 = 256 ^ c.value.length ∧ isSha256Type c.type = true ∧
      s.type = c.type + 1 ∧ s.value = minValue (c.type + 1)) := by
  unfold getSuccessor at h
  rcases hw : successorImpl c.value with ⟨o, w⟩
  rw [hw] at h
  cases o with
  | false =>
    obtain ⟨hlen, hval⟩ := successorImpl_false hw
    obtain ⟨ht, hv⟩ := ofElement_eq_some (by simpa using h)
    exact .inl ⟨ht, hv ▸ hlen, hv ▸ hval⟩
  | true =>
    obtain ⟨rfl, hval⟩ := successorImpl_true hw
    by_cases hd : isSha256Type c.type = true
    · obtain ⟨ht, hv⟩ := ofElement_eq_some (by simpa [hd] using h)
      exact .inr (.inr ⟨hval, hd, ht, hv⟩)
    · obtain ⟨ht, hv⟩ := ofElement_eq_some (by simpa [hd] using h)
      exact .inr (.inl ⟨hval, ht, by simp [hv], by rw [hv, beNat_replicate_zero]⟩)

/-- A digest component holds 32 octets. -/
theorem length_of_isSha256Type {c : Component} (h : isSha256Type c.type = true) :
    c.value.length = 32 :=
  c.digest_length ((isSha256Type_iff _).mp h)

/-- A component's successor covers it: no component lies between them. -/
theorem covBy_getSuccessor {c s : Component} (h : c.getSuccessor = some s) : c ⋖ s := by
  have hc := beNat_lt c.value
  refine ⟨?_, fun e hce hes => ?_⟩
  · rw [lt_iff_beNat]
    rcases getSuccessor_cases h with ⟨ht, hl, hv⟩ | ⟨-, ht, hl, -⟩ | ⟨-, -, ht, -⟩ <;> omega
  have he := beNat_lt e.value
  rw [lt_iff_beNat] at hce hes
  rcases getSuccessor_cases h with ⟨ht, hl, hv⟩ | ⟨hmax, ht, hl, hv⟩ | ⟨hmax, hd, ht, hv⟩
  · -- one more on the same length leaves no room
    omega
  · -- between all 0xFF octets and the zeros one octet longer, only the same length is left
    have hle : e.value.length = c.value.length := by omega
    rw [hle] at he
    omega
  · -- a digest type: 32 octets of 0xFF, then the least value of the next type
    have hlc := length_of_isSha256Type hd
    rw [hlc] at hmax
    rcases (isSha256Type_iff _).mp hd with h1 | h2
    · have hs : s.value = List.replicate 32 0 := by
        rw [hv, h1]
        rfl
      have hle : e.value.length = 32 := length_of_isSha256Type ((isSha256Type_iff _).mpr
        (by rw [hs] at hes; simp at hes; omega))
      rw [hs, beNat_replicate_zero] at hes
      rw [hle] at he
      simp only [List.length_replicate] at hes
      omega
    · have hs : s.value = [] := by
        rw [hv, h2]
        rfl
      rw [hs] at hes
      simp only [List.length_nil, beNat_nil] at hes
      have hle : e.value.length = 32 := length_of_isSha256Type ((isSha256Type_iff _).mpr (by omega))
      rw [hle] at he
      omega

example : Component.getSuccessor (Component.generic [0xFE, 0xFF]) =
    some (Component.generic [0xFF, 0]) := by decide

theorem type_le_getSuccessor {c s : Component} (h : c.getSuccessor = some s) : c.type ≤ s.type := by
  have := lt_iff_beNat.mp (covBy_getSuccessor h).1
  omega

/-- The successor's value is at most one octet longer. -/
theorem length_getSuccessor_le {c s : Component} (h : c.getSuccessor = some s) :
    s.value.length ≤ c.value.length + 1 := by
  rcases getSuccessor_cases h with ⟨-, hl, -⟩ | ⟨-, -, hl, -⟩ | ⟨-, hd, -, hv⟩
  · omega
  · omega
  · -- the least value of the next type is no longer than the digest
    have hmin : (minValue (c.type + 1)).length ≤ 32 := by
      unfold minValue
      split_ifs <;> simp
    rw [hv]
    have := length_of_isSha256Type hd
    omega

theorem ofElement_isSome_iff (t : Nat) (v : List UInt8) : (ofElement t v).isSome ↔
    0 < t ∧ t ≤ 65535 ∧ (t = 1 ∨ t = 2 → v.length = 32) ∧ v.length < 2 ^ 64 := by
  unfold ofElement
  split
  · rename_i h
    simpa only [Option.isSome_some, true_iff] using h
  · rename_i h
    simpa only [Option.isSome_none, Bool.false_eq_true, false_iff] using h

/-- A component has a successor unless its value would outgrow `2^64` octets. -/
theorem getSuccessor_isSome {c : Component} (h : c.value.length + 1 < 2 ^ 64) :
    c.getSuccessor.isSome := by
  have hpos := c.type_pos
  have hle := c.type_le
  unfold getSuccessor
  rcases hw : successorImpl c.value with ⟨o, w⟩
  cases o with
  | false =>
    obtain ⟨hlen, -⟩ := successorImpl_false hw
    simp only [Bool.and_false, Bool.false_eq_true, if_false, ofElement_isSome_iff]
    exact ⟨hpos, hle, fun ht => hlen.trans (c.digest_length ht), by omega⟩
  | true =>
    obtain ⟨rfl, -⟩ := successorImpl_true hw
    by_cases hd : isSha256Type c.type = true
    · -- the next type after a digest type: 32 zeros for type 2, nothing for type 3
      simp only [hd, Bool.and_self, if_true, ofElement_isSome_iff]
      rcases (isSha256Type_iff _).mp hd with h1 | h2
      · rw [h1]
        decide
      · rw [h2]
        decide
    · have hnd : ¬ (c.type = 1 ∨ c.type = 2) := fun h' => hd ((isSha256Type_iff _).mpr h')
      simp only [hd, Bool.false_and, Bool.false_eq_true, if_false, ofElement_isSome_iff,
        List.length_replicate]
      exact ⟨hpos, hle, fun h' => absurd h' hnd, h⟩

end Component

/-- `Name::getSuccessor`. The empty name's successor is the least digest component; another
name's is the name with its last component replaced by that component's successor. -/
def Name.getSuccessor (n : Name) : Option Name :=
  match n.getLast? with
  | none => some [Component.ofDigest ⟨List.replicate 32 0, rfl⟩]
  | some last => (Component.getSuccessor last).map (n.dropLast ++ [·])

/-- The successor of a nonempty name: its last component's successor after the other
components. -/
theorem Name.getSuccessor_append (p : Name) (c : Component) :
    Name.getSuccessor (p ++ [c]) = (Component.getSuccessor c).map (p ++ [·]) := by
  simp [Name.getSuccessor]

theorem Name.exists_append_of_ne_nil {n : Name} (hn : n ≠ []) : ∃ p c, n = p ++ [c] :=
  ⟨n.dropLast, n.getLast hn, (List.dropLast_append_getLast hn).symm⟩

/-- The names from a nonempty name up to its successor are the names it is a prefix of: what
`Cs::findPrefixRange` and `StrategyChoice` rely on when they take `lower_bound` of the two. -/
theorem Name.prefix_iff_of_getSuccessor {n s : Name} (hn : n ≠ [])
    (h : Name.getSuccessor n = some s) (m : Name) : (n ≤ m ∧ m < s) ↔ n <+: m := by
  obtain ⟨p, c, rfl⟩ := Name.exists_append_of_ne_nil hn
  rw [Name.getSuccessor_append] at h
  obtain ⟨c', hc', rfl⟩ := Option.map_eq_some_iff.mp h
  exact LexOrder.prefix_iff_of_covBy (Component.covBy_getSuccessor hc') p m

-- The name /a/%FF, whose successor /a/%00%00 bounds the names under it, such as /a/%FF/b.
example :
    Name.getSuccessor [Component.generic [0x61], Component.generic [0xFF]] =
      some [Component.generic [0x61], Component.generic [0, 0]] ∧
    (([Component.generic [0x61], Component.generic [0xFF]] ≤
          [Component.generic [0x61], Component.generic [0xFF], Component.generic [0x62]] ∧
        [Component.generic [0x61], Component.generic [0xFF], Component.generic [0x62]] <
          [Component.generic [0x61], Component.generic [0, 0]]) ↔
      [Component.generic [0x61], Component.generic [0xFF]] <+:
        [Component.generic [0x61], Component.generic [0xFF], Component.generic [0x62]]) :=
  have h : Name.getSuccessor [Component.generic [0x61], Component.generic [0xFF]] =
      some [Component.generic [0x61], Component.generic [0, 0]] := by decide
  ⟨h, Name.prefix_iff_of_getSuccessor (by simp) h _⟩

theorem Name.isSome_getSuccessor {n : Name} (h : ∀ c ∈ n, c.value.length + 1 < 2 ^ 64) :
    (Name.getSuccessor n).isSome := by
  by_cases hn : n = []
  · rw [hn]
    rfl
  · obtain ⟨p, c, rfl⟩ := Name.exists_append_of_ne_nil hn
    rw [Name.getSuccessor_append, Option.isSome_map]
    exact Component.getSuccessor_isSome (h c (by simp))

/-- The successor of a name without a digest has none: its last component's TLV-TYPE only goes
up, and was not the digest's, the least there is. -/
theorem Name.isFullName_getSuccessor {n s : Name} (hn : n.isFullName = false)
    (h : Name.getSuccessor n = some s) (hne : n ≠ []) : s.isFullName = false := by
  obtain ⟨p, c, rfl⟩ := Name.exists_append_of_ne_nil hne
  rw [Name.getSuccessor_append] at h
  obtain ⟨c', hc', rfl⟩ := Option.map_eq_some_iff.mp h
  have hle := Component.type_le_getSuccessor hc'
  have hpos := c.type_pos
  simp only [Name.isFullName, List.getLast?_append_of_ne_nil _ (List.cons_ne_nil c' []),
    List.getLast?_append_of_ne_nil _ (List.cons_ne_nil c []), List.getLast?_singleton,
    Option.map_some, Option.getD_some, Component.isImplicitSha256Digest,
    decide_eq_false_iff_not] at hn ⊢
  unfold tlv.implicitSha256DigestComponent at hn ⊢
  omega

/-- The successor of a name whose values are more than an octet short of `2^31` fits. -/
theorem Name.fits_getSuccessor {n s : Name} (hl : n.length < 2 ^ 31)
    (hv : ∀ c ∈ n, c.value.length + 1 < 2 ^ 31) (h : Name.getSuccessor n = some s)
    (hne : n ≠ []) : s.Fits := by
  obtain ⟨p, c, rfl⟩ := Name.exists_append_of_ne_nil hne
  rw [Name.getSuccessor_append] at h
  obtain ⟨c', hc', rfl⟩ := Option.map_eq_some_iff.mp h
  refine ⟨by simpa using hl, fun e he => ?_⟩
  rcases List.mem_append.mp he with he | he
  · have := hv e (by simp [he])
    exact Nat.lt_of_succ_lt this
  · rw [List.mem_singleton.mp he]
    have := Component.length_getSuccessor_le hc'
    have := hv c (by simp)
    exact Nat.lt_of_le_of_lt ‹_› this

end MwNfd
