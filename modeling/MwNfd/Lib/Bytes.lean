import Mathlib.Tactic.Ring
import Mathlib.Tactic.Linarith
import MwNfd.Lib.Lex

/-!
# Octet strings as numbers

A multi-octet integer is read from memory either most significant octet first (network byte
order, `beNat`) or least significant octet first (the layout of an integer variable on a
little-endian host, `leNat`). `beBytes w n` is the `w`-octet network-order encoding of `n`.

These are the only facts about byte order the development uses: both readings of an
appended string, the bounds, that `beNat` inverts `beBytes` on numbers that fit, and that
`beBytes` of a little-endian reading reverses the octets. Octet strings of one length compare
lexicographically as their network-order numbers (`map_toNat_lt_iff`), and `memcmp` over the
shorter length of two strings neither of which starts the other gives the sign of that order
(`memcmp_of_not_prefix`).
-/

namespace Octets

/-- The number an octet string denotes in network byte order. -/
def beNat (bs : List UInt8) : Nat := bs.foldl (fun acc b => acc * 256 + b.toNat) 0

/-- The number an octet string denotes when stored least significant octet first. -/
def leNat : List UInt8 → Nat
  | [] => 0
  | b :: bs => b.toNat + 256 * leNat bs

/-- The `w`-octet network-order encoding of `n`, reduced modulo `256 ^ w`. -/
def beBytes : Nat → Nat → List UInt8
  | 0, _ => []
  | w + 1, n => beBytes w (n / 256) ++ [(n % 256).toUInt8]

@[simp] theorem beNat_nil : beNat [] = 0 := rfl

theorem beNat_foldl (bs : List UInt8) (a : Nat) :
    bs.foldl (fun acc b => acc * 256 + b.toNat) a = a * 256 ^ bs.length + beNat bs := by
  induction bs generalizing a with
  | nil => simp [beNat]
  | cons b bs ih =>
    simp only [List.foldl_cons, beNat, List.length_cons]
    rw [ih, ih (0 * 256 + b.toNat)]
    ring

@[simp] theorem beNat_append (xs ys : List UInt8) :
    beNat (xs ++ ys) = beNat xs * 256 ^ ys.length + beNat ys := by
  rw [beNat, List.foldl_append, beNat_foldl]
  rfl

@[simp] theorem beNat_cons (b : UInt8) (bs : List UInt8) :
    beNat (b :: bs) = b.toNat * 256 ^ bs.length + beNat bs := by
  have h : beNat [b] = b.toNat := by simp [beNat]
  rw [← h, ← beNat_append, List.singleton_append]

@[simp] theorem leNat_nil : leNat [] = 0 := rfl

@[simp] theorem leNat_cons (b : UInt8) (bs : List UInt8) :
    leNat (b :: bs) = b.toNat + 256 * leNat bs := rfl

theorem leNat_append (xs ys : List UInt8) :
    leNat (xs ++ ys) = leNat xs + 256 ^ xs.length * leNat ys := by
  induction xs with
  | nil => simp
  | cons x xs ih =>
    simp only [List.cons_append, leNat_cons, ih, List.length_cons, pow_succ]
    ring

theorem leNat_lt (bs : List UInt8) : leNat bs < 256 ^ bs.length := by
  induction bs with
  | nil => simp
  | cons b bs ih =>
    have hb : b.toNat < 256 := b.toNat_lt
    simp only [leNat_cons, List.length_cons, pow_succ]
    nlinarith

/-- The octets of a string read in the other order. -/
theorem leNat_reverse (bs : List UInt8) : leNat bs.reverse = beNat bs := by
  induction bs with
  | nil => rfl
  | cons b bs ih =>
    rw [List.reverse_cons, leNat_append, ih, List.length_reverse, beNat_cons]
    simp only [leNat_cons, leNat_nil, mul_zero, add_zero]
    ring

@[simp] theorem length_beBytes (w n : Nat) : (beBytes w n).length = w := by
  induction w generalizing n with
  | zero => rfl
  | succ w ih => simp [beBytes, ih]

theorem beNat_beBytes (w n : Nat) : beNat (beBytes w n) = n % 256 ^ w := by
  induction w generalizing n with
  | zero => simp [beBytes, Nat.mod_one]
  | succ w ih =>
    have hlow : ((n % 256).toUInt8).toNat = n % 256 := by
      simp [Nat.toUInt8]
    rw [beBytes, beNat_append, ih, List.length_singleton, pow_one, beNat_cons, hlow]
    simp only [List.length_nil, pow_zero, mul_one, beNat_nil, add_zero]
    rw [pow_succ', Nat.mod_mul]
    ring

theorem beNat_lt (bs : List UInt8) : beNat bs < 256 ^ bs.length := by
  rw [← leNat_reverse, ← List.length_reverse]
  exact leNat_lt _

/-- A leading octet outweighs everything after it. -/
theorem lt_of_digit_lt {x y p a b : Nat} (hxy : x < y) (ha : a < p) : x * p + a < y * p + b :=
  calc x * p + a < (x + 1) * p := by rw [Nat.succ_mul]; omega
    _ ≤ y * p := Nat.mul_le_mul_right p hxy
    _ ≤ y * p + b := Nat.le_add_right _ _

/-- Octet strings of one length are in lexicographic order exactly when their network-order
numbers are. -/
theorem map_toNat_lt_iff {a b : List UInt8} (h : a.length = b.length) :
    a.map UInt8.toNat < b.map UInt8.toNat ↔ beNat a < beNat b := by
  induction a generalizing b with
  | nil =>
    cases b with
    | nil => simp
    | cons y b => simp at h
  | cons x a ih =>
    cases b with
    | nil => simp at h
    | cons y b =>
      have hlen : a.length = b.length := by simpa using h
      have ha := beNat_lt a
      have hb := beNat_lt b
      rw [List.map_cons, List.map_cons, LexOrder.cons_lt_cons_iff, ih hlen, beNat_cons, beNat_cons,
        hlen]
      rw [hlen] at ha
      constructor
      · rintro (hxy | ⟨hxy, hab⟩)
        · exact lt_of_digit_lt hxy ha
        · rw [hxy]
          omega
      · intro hlt
        rcases Nat.lt_trichotomy x.toNat y.toNat with hxy | hxy | hxy
        · exact .inl hxy
        · rw [hxy] at hlt
          exact .inr ⟨hxy, by omega⟩
        · exact absurd hlt (Nat.lt_asymm (lt_of_digit_lt hxy hb))

/-- Reading back a network-order encoding of a number that fits. -/
theorem beNat_beBytes_of_lt {w n : Nat} (h : n < 256 ^ w) : beNat (beBytes w n) = n := by
  rw [beNat_beBytes, Nat.mod_eq_of_lt h]

/-- The network-order encoding of a string read least significant octet first is the string
reversed: a byte swap. -/
theorem beBytes_leNat (bs : List UInt8) : beBytes bs.length (leNat bs) = bs.reverse := by
  induction bs with
  | nil => rfl
  | cons b bs ih =>
    have hb : b.toNat < 256 := b.toNat_lt
    have hdiv : (b.toNat + 256 * leNat bs) / 256 = leNat bs := by omega
    have hmod : ((b.toNat + 256 * leNat bs) % 256).toUInt8 = b := by
      rw [show (b.toNat + 256 * leNat bs) % 256 = b.toNat by omega]
      exact UInt8.ofNat_toNat
    rw [List.length_cons, beBytes, leNat_cons, hdiv, hmod, ih, List.reverse_cons]

/-- A number below 256 widened from its octet is the number widened directly. -/
theorem toUInt64_toUInt8_of_lt {n : Nat} (h : n < 256) : (n.toUInt8).toUInt64 = n.toUInt64 := by
  apply UInt64.toNat_inj.mp
  simp
  omega

/-! ## `memcmp` -/

/-- `std::memcmp(p, q, n)`: among the first `n` octets, the difference of the first two that
differ, read as `unsigned char`, and 0 when none differ. Only its sign is specified, and only
its sign is used. -/
def memcmp : List UInt8 → List UInt8 → Nat → Int
  | a :: as, b :: bs, n + 1 => if a = b then memcmp as bs n else (a.toNat : Int) - b.toNat
  | _, _, _ => 0

@[simp] theorem memcmp_self (a : List UInt8) (n : Nat) : memcmp a a n = 0 := by
  induction a generalizing n with
  | nil => cases n <;> rfl
  | cons x a ih => cases n <;> simp [memcmp, ih]

/-- Over the shorter length, `memcmp` of two strings neither of which is a prefix of the other is
not zero, and it is negative exactly when the first comes first. -/
theorem memcmp_of_not_prefix {a b : List UInt8} (hab : ¬ a <+: b) (hba : ¬ b <+: a) :
    memcmp a b (min a.length b.length) ≠ 0 ∧
      (memcmp a b (min a.length b.length) < 0 ↔ a.map UInt8.toNat < b.map UInt8.toNat) := by
  induction a generalizing b with
  | nil => exact absurd List.nil_prefix hab
  | cons x a ih =>
    cases b with
    | nil => exact absurd List.nil_prefix hba
    | cons y b =>
      rw [List.length_cons, List.length_cons, Nat.succ_min_succ, memcmp, List.map_cons,
        List.map_cons, LexOrder.cons_lt_cons_iff]
      by_cases hxy : x = y
      · subst hxy
        have hab' : ¬ a <+: b := fun h => hab (List.prefix_cons_inj x |>.mpr h)
        have hba' : ¬ b <+: a := fun h => hba (List.prefix_cons_inj x |>.mpr h)
        simpa using ih hab' hba'
      · -- the first octets differ, and decide both sides
        have hne : x.toNat ≠ y.toNat := fun h => hxy (UInt8.toNat_inj.mp h)
        rw [if_neg hxy]
        constructor
        · omega
        · simp only [hne, false_and, or_false]
          omega

end Octets
