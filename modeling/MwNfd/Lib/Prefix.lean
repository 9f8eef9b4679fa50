import Mathlib.Data.List.Find
import Mathlib.Data.List.Infix

/-!
# Longest prefix match with a depth limit

A table keyed by lists is searched for the longest of its keys that is a prefix of a lookup key,
the way a name tree does it: the prefixes of the lookup key are tried from the longest allowed
length down to the empty one, and the first one the table selects is the match.

* `mem_prefixesDesc`: the candidates are exactly the prefixes of the key within the depth.
* `longestPrefixMatch_congr`: the match depends only on which of those candidates the table
  selects, so two tables that select the same prefixes of a key give the same match.
* `longestPrefixMatch_eq_none_of_imp`: a table that selects fewer prefixes than one without a
  match has none either.
-/

namespace PrefixMatch

variable {α : Type*}

/-- The prefixes of `key` with at most `depth` elements, longest first. -/
def prefixesDesc (depth : Nat) (key : List α) : List (List α) :=
  (List.range (min key.length depth + 1)).reverse.map key.take

/-- The first prefix of `key`, from `depth` elements down to none, that `sel` selects. -/
def longestPrefixMatch (sel : List α → Bool) (depth : Nat) (key : List α) : Option (List α) :=
  (prefixesDesc depth key).find? sel

theorem mem_prefixesDesc {depth : Nat} {key p : List α} :
    p ∈ prefixesDesc depth key ↔ p <+: key ∧ p.length ≤ depth := by
  simp only [prefixesDesc, List.mem_map, List.mem_reverse, List.mem_range]
  constructor
  · rintro ⟨i, hi, rfl⟩
    exact ⟨List.take_prefix i key, by rw [List.length_take]; omega⟩
  · rintro ⟨hp, hl⟩
    have hk := hp.length_le
    exact ⟨p.length, by omega, (List.prefix_iff_eq_take.mp hp).symm⟩

theorem longestPrefixMatch_congr {sel sel' : List α → Bool} {depth : Nat} {key : List α}
    (h : ∀ p, p <+: key → p.length ≤ depth → sel p = sel' p) :
    longestPrefixMatch sel depth key = longestPrefixMatch sel' depth key :=
  List.find?_congr fun p hp => h p (mem_prefixesDesc.mp hp).1 (mem_prefixesDesc.mp hp).2

/-- The match is a prefix the table selects. -/
theorem sel_of_longestPrefixMatch_eq_some {sel : List α → Bool} {depth : Nat} {key p : List α}
    (h : longestPrefixMatch sel depth key = some p) : sel p = true :=
  List.find?_some h

/-- A table that selects no more prefixes than one without a match has no match either. -/
theorem longestPrefixMatch_eq_none_of_imp {sel sel' : List α → Bool} {depth : Nat}
    {key : List α} (himp : ∀ p, sel' p = true → sel p = true)
    (h : longestPrefixMatch sel depth key = none) :
    longestPrefixMatch sel' depth key = none := by
  unfold longestPrefixMatch at h ⊢
  rw [List.find?_eq_none] at h ⊢
  intro p hp hsel
  exact h p hp (himp p hsel)

/-- The numbers from `m` down to `0` meet first the greatest one that passes. -/
theorem find?_range_reverse_eq_some {P : Nat → Bool} {m i : Nat} :
    (List.range (m + 1)).reverse.find? P = some i ↔
      i ≤ m ∧ P i = true ∧ ∀ j, i < j → j ≤ m → P j = false := by
  induction m with
  | zero =>
    rw [List.range_one, List.reverse_singleton, List.find?_singleton]
    constructor
    · intro h
      split at h
      · cases h
        exact ⟨le_rfl, ‹_›, fun j hj hj' => by omega⟩
      · cases h
    · rintro ⟨hi, hP, -⟩
      obtain rfl : i = 0 := by omega
      simp [hP]
  | succ m ih =>
    rw [List.range_succ, List.reverse_append, List.reverse_singleton, List.singleton_append,
      List.find?_cons]
    by_cases hm : P (m + 1) = true
    · -- `m + 1` passes: it is the greatest
      rw [hm]
      constructor
      · rintro ⟨⟩
        exact ⟨le_rfl, hm, fun j hj hj' => by omega⟩
      · rintro ⟨hi, hP, hj⟩
        rcases Nat.lt_or_ge i (m + 1) with hlt | hge
        · have := hj (m + 1) hlt le_rfl
          rw [hm] at this
          cases this
        · rw [show i = m + 1 by omega]
    · rw [Bool.not_eq_true] at hm
      rw [hm, ih]
      constructor
      · rintro ⟨hi, hP, hj⟩
        refine ⟨by omega, hP, fun j h1 h2 => ?_⟩
        rcases Nat.lt_or_ge j (m + 1) with h | h
        · exact hj j h1 (by omega)
        · rw [show j = m + 1 by omega]
          exact hm
      · rintro ⟨hi, hP, hj⟩
        have hne : i ≠ m + 1 := by
          rintro rfl
          rw [hP] at hm
          cases hm
        exact ⟨by omega, hP, fun j h1 h2 => hj j h1 (by omega)⟩

/-- The match is the longest prefix within the depth that the table selects. -/
theorem longestPrefixMatch_eq_some_iff {sel : List α → Bool} {depth : Nat} {key p : List α} :
    longestPrefixMatch sel depth key = some p ↔
      p <+: key ∧ p.length ≤ depth ∧ sel p = true ∧
        ∀ q, q <+: key → q.length ≤ depth → p.length < q.length → sel q = false := by
  unfold longestPrefixMatch prefixesDesc
  rw [List.find?_map, Option.map_eq_some_iff]
  constructor
  · rintro ⟨i, hi, rfl⟩
    obtain ⟨him, hsel, hmax⟩ := find?_range_reverse_eq_some.mp hi
    have hlen : (key.take i).length = i := by
      rw [List.length_take]
      omega
    refine ⟨List.take_prefix i key, by omega, hsel, fun q hq hqd hlt => ?_⟩
    rw [List.prefix_iff_eq_take.mp hq]
    exact hmax q.length (by omega) (by have := hq.length_le; omega)
  · rintro ⟨hp, hpd, hsel, hmax⟩
    have hp' := List.prefix_iff_eq_take.mp hp
    refine ⟨p.length, find?_range_reverse_eq_some.mpr ⟨?_, ?_, fun j hj hjm => ?_⟩, hp'.symm⟩
    · have := hp.length_le
      omega
    · rw [Function.comp_apply, ← hp']
      exact hsel
    · exact hmax (key.take j) (List.take_prefix j key) (by rw [List.length_take]; omega)
        (by rw [List.length_take]; omega)

/-- There is no match when the table selects no prefix within the depth. -/
theorem longestPrefixMatch_eq_none_iff {sel : List α → Bool} {depth : Nat} {key : List α} :
    longestPrefixMatch sel depth key = none ↔
      ∀ q, q <+: key → q.length ≤ depth → sel q = false := by
  unfold longestPrefixMatch
  rw [List.find?_eq_none]
  constructor
  · intro h q hq hqd
    simpa using h q (mem_prefixesDesc.mpr ⟨hq, hqd⟩)
  · intro h q hq
    obtain ⟨hpre, hd⟩ := mem_prefixesDesc.mp hq
    simp [h q hpre hd]

/-- When no prefix of `key` longer than its prefix `p` is selected, `key` has the match of
`p`. -/
theorem longestPrefixMatch_eq_of_isPrefix {sel : List α → Bool} {depth : Nat} {key p : List α}
    (hp : p <+: key)
    (h : ∀ q, q <+: key → q.length ≤ depth → p.length < q.length → sel q = false) :
    longestPrefixMatch sel depth key = longestPrefixMatch sel depth p := by
  refine Option.ext fun r => ?_
  rw [longestPrefixMatch_eq_some_iff, longestPrefixMatch_eq_some_iff]
  constructor
  · rintro ⟨hr, hrd, hsel, hmax⟩
    -- the match of `key` is no longer than `p`, so it is a prefix of `p`
    have hrp : r.length ≤ p.length := by
      by_contra hlt
      have := h r hr hrd (by omega)
      rw [hsel] at this
      cases this
    exact ⟨List.prefix_of_prefix_length_le hr hp hrp, hrd, hsel,
      fun q hq hqd hlt => hmax q (hq.trans hp) hqd hlt⟩
  · rintro ⟨hr, hrd, hsel, hmax⟩
    refine ⟨hr.trans hp, hrd, hsel, fun q hq hqd hlt => ?_⟩
    rcases Nat.lt_or_ge p.length q.length with hpq | hqp
    · exact h q hq hqd hpq
    · exact hmax q (List.prefix_of_prefix_length_le hq hp hqp) hqd hlt

/-- A table that selects the empty key gives every key a match. -/
theorem longestPrefixMatch_isSome {sel : List α → Bool} (h : sel [] = true) (depth : Nat)
    (key : List α) : (longestPrefixMatch sel depth key).isSome := by
  rw [Option.isSome_iff_ne_none]
  intro hnone
  unfold longestPrefixMatch at hnone
  exact absurd h (by
    rw [List.find?_eq_none] at hnone
    simpa using hnone [] (mem_prefixesDesc.mpr ⟨List.nil_prefix, Nat.zero_le _⟩))

/-- A table that selects more keys keeps the match of a smaller one when it selects it. -/
theorem longestPrefixMatch_eq_of_imp {sel sel' : List α → Bool} {depth : Nat} {key q : List α}
    (himp : ∀ r, sel r = true → sel' r = true) (h : longestPrefixMatch sel' depth key = some q)
    (hq : sel q = true) : longestPrefixMatch sel depth key = some q := by
  obtain ⟨hpre, hd, -, hmax⟩ := longestPrefixMatch_eq_some_iff.mp h
  refine longestPrefixMatch_eq_some_iff.mpr ⟨hpre, hd, hq, fun r hr hrd hlt => ?_⟩
  cases hsel : sel r
  · rfl
  · have := hmax r hr hrd hlt
    rw [himp r hsel] at this
    exact this

/-- A selected key within the depth is its own match. -/
theorem longestPrefixMatch_self {sel : List α → Bool} {depth : Nat} {p : List α}
    (h : sel p = true) (hd : p.length ≤ depth) : longestPrefixMatch sel depth p = some p :=
  longestPrefixMatch_eq_some_iff.mpr
    ⟨List.prefix_rfl, hd, h, fun _ hq _ hlt => absurd hq.length_le (by omega)⟩

end PrefixMatch
