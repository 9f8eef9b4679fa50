import Mathlib.Data.List.Lex
import Mathlib.Order.Cover

/-!
# Lexicographic order on lists

Mathlib orders `List α` lexicographically when `α` is linearly ordered. This module adds what
ordered containers keyed by lists need:

* two lists that share a head compare as their tails, and two lists whose heads are not prefixes
  of each other compare as their heads (`append_lt_append_left_iff`,
  `append_lt_append_of_not_prefix`);
* the lists with a prefix `p ++ [a]` form the interval from `p ++ [a]` up to `p ++ [b]`, for `b`
  the element that covers `a` (`prefix_iff_of_covBy`);
* a three-way comparison returns an `Int` whose sign says how two elements compare
  (`IsCompare`);
* in a list sorted by a key, the elements between the first positions whose key is not below
  `t₁` and not below `t₂` are those with a key from `t₁` up to `t₂` (`drop_take_findIdx`);
* inserting into a list kept in the order of a three-way comparison keeps it sorted
  (`pairwise_setInsert`) and, the key being injective, is `List.insert` up to order
  (`perm_setInsert`).
-/

namespace LexOrder

section Prefix

variable {α : Type*}

/-- Lists of the same length are prefixes of each other only when equal. -/
theorem not_prefix_of_length_eq {u v : List α} (hlen : u.length = v.length) (hne : u ≠ v) :
    ¬ u <+: v :=
  fun h => hne (h.eq_of_length hlen)

/-- The last of the first `i` elements, for `i` at most the length. -/
theorem getLast?_take_of_le {l : List α} {i : Nat} (h : i ≤ l.length) :
    (l.take i).getLast? = if i = 0 then none else l[i - 1]? := by
  rw [List.getLast?_take]
  split_ifs with h0
  · rfl
  · rw [List.getElem?_eq_getElem (by omega)]
    rfl

/-- When every element of `B` passes a test and none of `A` does, the last element of `A ++ B`
passes it exactly when `B` has one. -/
theorem getLast?_append_filter {P : α → Bool} {A B : List α} (hA : ∀ a ∈ A, P a = false)
    (hB : ∀ b ∈ B, P b = true) : (A ++ B).getLast?.filter P = B.getLast? := by
  rw [List.getLast?_append]
  cases hb : B.getLast? with
  | some b => simp [hB b (List.mem_of_getLast? hb)]
  | none =>
    cases ha : A.getLast? with
    | none => rfl
    | some a => simp [hA a (List.mem_of_getLast? ha)]

/-- A test that the first element passes whenever any element does finds the first element. -/
theorem head?_filter_of_first {P : α → Bool} {l : List α}
    (h : ∀ x ∈ l.head?, ∀ y ∈ l, P y = true → P x = true) :
    l.head?.filter P = (l.filter P).head? := by
  cases l with
  | nil => rfl
  | cons x rest =>
    by_cases hx : P x = true
    · simp [hx]
    · have hnone : rest.filter P = [] := List.filter_eq_nil_iff.mpr fun y hy hPy =>
        hx (h x rfl y (List.mem_cons_of_mem x hy) hPy)
      simp [hx, hnone]

end Prefix

section Order

variable {α : Type*} [LinearOrder α]

theorem cons_lt_cons_iff {a b : α} {l₁ l₂ : List α} :
    a :: l₁ < b :: l₂ ↔ a < b ∨ a = b ∧ l₁ < l₂ :=
  List.cons_lex_cons_iff

theorem cons_lt_cons_self {a : α} {l₁ l₂ : List α} : a :: l₁ < a :: l₂ ↔ l₁ < l₂ := by
  rw [cons_lt_cons_iff]
  simp

theorem nil_lt_cons (a : α) (l : List α) : [] < a :: l := List.Lex.nil

theorem not_lt_nil (l : List α) : ¬ l < [] := List.not_lex_nil

theorem append_lt_append_left_iff (s : List α) {t₁ t₂ : List α} :
    s ++ t₁ < s ++ t₂ ↔ t₁ < t₂ := by
  induction s with
  | nil => rfl
  | cons a s ih => rw [List.cons_append, List.cons_append, cons_lt_cons_self, ih]

/-- Two lists whose heads are not prefixes of each other compare as their heads. -/
theorem append_lt_append_of_not_prefix {u v : List α} (huv : ¬ u <+: v) (hvu : ¬ v <+: u)
    (x y : List α) : u ++ x < v ++ y ↔ u < v := by
  induction u generalizing v with
  | nil => exact absurd List.nil_prefix huv
  | cons a u ih =>
    cases v with
    | nil => exact absurd List.nil_prefix hvu
    | cons b v =>
      rw [List.cons_append, List.cons_append, cons_lt_cons_iff, cons_lt_cons_iff]
      by_cases hab : a = b
      · subst hab
        have huv' : ¬ u <+: v := fun h => huv (List.prefix_cons_inj a |>.mpr h)
        have hvu' : ¬ v <+: u := fun h => hvu (List.prefix_cons_inj a |>.mpr h)
        rw [ih huv' hvu']
      · simp [hab]

/-- A list comes before the lists it is a proper prefix of. -/
theorem lt_iff_length_lt_of_isPrefix {u v : List α} (h : u <+: v) :
    u < v ↔ u.length < v.length := by
  obtain ⟨t, rfl⟩ := h
  nth_rewrite 1 [← List.append_nil u]
  rw [append_lt_append_left_iff, List.length_append]
  cases t with
  | nil => simp
  | cons a t => simp

theorem not_lt_of_isPrefix {u v : List α} (h : v <+: u) : ¬ u < v := by
  obtain ⟨t, rfl⟩ := h
  nth_rewrite 2 [← List.append_nil v]
  rw [append_lt_append_left_iff]
  exact not_lt_nil t

/-- The lists that start with `p ++ [a]` are those from `p ++ [a]` up to `p ++ [b]`, where `b`
covers `a`. -/
theorem prefix_iff_of_covBy {a b : α} (hab : a ⋖ b) (p m : List α) :
    (p ++ [a] ≤ m ∧ m < p ++ [b]) ↔ p ++ [a] <+: m := by
  constructor
  · rintro ⟨hle, hlt⟩
    induction p generalizing m with
    | nil =>
      cases m with
      | nil => exact absurd hle (not_le.mpr (nil_lt_cons a []))
      | cons c m =>
        -- `a ≤ c < b` leaves `c = a`, as nothing lies strictly between `a` and `b`
        have hca : ¬ c < a := fun h => (not_lt.mpr hle) (cons_lt_cons_iff.mpr (.inl h))
        have hcb : c < b := by
          rcases cons_lt_cons_iff.mp hlt with h | ⟨_, h⟩
          · exact h
          · exact absurd h (not_lt_nil m)
        have hc : c = a := by
          by_contra hne
          exact hab.2 (lt_of_le_of_ne (not_lt.mp hca) (Ne.symm hne)) hcb
        subst hc
        exact List.prefix_cons_inj c |>.mpr List.nil_prefix
    | cons d p ih =>
      cases m with
      | nil => exact absurd hle (not_le.mpr (nil_lt_cons _ _))
      | cons c m =>
        rw [List.cons_append] at hle hlt ⊢
        have hdc : ¬ c < d := fun h => (not_lt.mpr hle) (cons_lt_cons_iff.mpr (.inl h))
        rcases cons_lt_cons_iff.mp hlt with hcd | ⟨hcd, hm⟩
        · exact absurd hcd hdc
        · subst hcd
          have hle' : p ++ [a] ≤ m := not_lt.mp fun h => (not_lt.mpr hle) (cons_lt_cons_self.mpr h)
          exact List.prefix_cons_inj c |>.mpr (ih m hle' hm)
  · rintro ⟨t, rfl⟩
    refine ⟨not_lt.mp (List.prefix_append _ t).le, ?_⟩
    rw [List.append_assoc, append_lt_append_left_iff, List.singleton_append]
    exact cons_lt_cons_iff.mpr (.inl hab.1)

/-- The lists that start with `p` form an interval: a list between two of them starts with `p`. -/
theorem isPrefix_of_le_of_le {p a b c : List α} (ha : p <+: a) (hc : p <+: c) (hab : a ≤ b)
    (hbc : b ≤ c) : p <+: b := by
  induction p generalizing a b c with
  | nil => exact List.nil_prefix
  | cons x p ih =>
    cases a with
    | nil => exact absurd (List.prefix_nil.mp ha) (List.cons_ne_nil x p)
    | cons y a =>
    cases c with
    | nil => exact absurd (List.prefix_nil.mp hc) (List.cons_ne_nil x p)
    | cons y' c =>
    obtain ⟨rfl, ha'⟩ := List.cons_prefix_cons.mp ha
    obtain ⟨rfl, hc'⟩ := List.cons_prefix_cons.mp hc
    cases b with
    | nil => exact absurd hab (not_le.mpr (nil_lt_cons x a))
    | cons z b =>
      -- the head of `b` can be neither below nor above `x`
      have hz : z = x := by
        rcases lt_trichotomy z x with h | h | h
        · exact absurd hab (not_le.mpr (cons_lt_cons_iff.mpr (.inl h)))
        · exact h
        · exact absurd hbc (not_le.mpr (cons_lt_cons_iff.mpr (.inl h)))
      subst hz
      rw [← not_lt, cons_lt_cons_self, not_lt] at hab hbc
      exact List.prefix_cons_inj z |>.mpr (ih ha' hc' hab hbc)

end Order

section Compare

variable {α : Type*} [LinearOrder α]

/-- `r` is a three-way comparison of `a` with `b`: zero exactly when they are equal, negative
exactly when `a` comes first. -/
structure IsCompare (r : Int) (a b : α) : Prop where
  eq_zero_iff : r = 0 ↔ a = b
  neg_iff : r < 0 ↔ a < b

theorem IsCompare.of_eq {r : Int} {a b : α} (h : a = b) (hr : r = 0) : IsCompare r a b :=
  ⟨iff_of_true hr h, by subst h; simp [hr]⟩

theorem IsCompare.of_ne {r : Int} {a b : α} (h : a ≠ b) (hr : r ≠ 0) (hneg : r < 0 ↔ a < b) :
    IsCompare r a b :=
  ⟨iff_of_false hr h, hneg⟩

theorem IsCompare.pos_iff {r : Int} {a b : α} (h : IsCompare r a b) : 0 < r ↔ b < a := by
  rw [← not_le, le_iff_lt_or_eq, h.neg_iff, h.eq_zero_iff, ← le_iff_lt_or_eq, not_le]

/-- Two three-way comparisons of the same elements have the same sign. -/
theorem IsCompare.sign_eq {r r' : Int} {a b : α} (h : IsCompare r a b) (h' : IsCompare r' a b) :
    r.sign = r'.sign := by
  rcases lt_trichotomy a b with hab | hab | hab
  · rw [Int.sign_eq_neg_one_of_neg (h.neg_iff.mpr hab),
      Int.sign_eq_neg_one_of_neg (h'.neg_iff.mpr hab)]
  · rw [h.eq_zero_iff.mpr hab, h'.eq_zero_iff.mpr hab]
  · rw [Int.sign_eq_one_of_pos (h.pos_iff.mpr hab), Int.sign_eq_one_of_pos (h'.pos_iff.mpr hab)]

end Compare

section Sorted

variable {α β : Type*} [LinearOrder β] (f : α → β)

omit [LinearOrder β] in
theorem findIdx_congr {p q : α → Bool} {l : List α} (h : ∀ x ∈ l, p x = q x) :
    l.findIdx p = l.findIdx q := by
  induction l with
  | nil => rfl
  | cons x l ih =>
    simp [List.findIdx_cons, h x (by simp), ih fun y hy => h y (by simp [hy])]

/-- A test that accepts exactly the elements whose key is below `t` stops where the comparison
with `t` does. -/
theorem findIdx_not_eq_of_iff {p : α → Bool} {l : List α} {t : β}
    (h : ∀ x ∈ l, p x = true ↔ f x < t) :
    l.findIdx (fun x => !p x) = l.findIdx fun x => !decide (f x < t) :=
  findIdx_congr fun x hx =>
    congrArg (!·) (Bool.eq_iff_iff.mpr ((h x hx).trans decide_eq_true_iff.symm))

/-- In a sorted list the first element's key is the least. -/
theorem le_of_mem_cons {x y : α} {l : List α} (hl : (x :: l).Pairwise fun x y => f x ≤ f y)
    (hy : y ∈ x :: l) : f x ≤ f y := by
  rcases List.mem_cons.mp hy with rfl | hy
  · exact le_rfl
  · exact List.rel_of_pairwise_cons hl hy

/-- After an element whose key is not below `t`, a list sorted by `f` has no key below `t`. -/
theorem filter_lt_eq_nil {x : α} {l : List α} (hl : (x :: l).Pairwise fun x y => f x ≤ f y)
    {t : β} (hxt : ¬ f x < t) : (l.filter fun y => f y < t) = [] :=
  List.filter_eq_nil_iff.mpr fun _ hy hyt =>
    hxt (lt_of_le_of_lt (List.rel_of_pairwise_cons hl hy) (of_decide_eq_true hyt))

/-- In a list sorted by `f`, the first position whose key is not below `t` counts the elements
whose key is below `t`. -/
theorem findIdx_eq_length_filter {l : List α} (hl : l.Pairwise fun x y => f x ≤ f y) (t : β) :
    l.findIdx (fun x => !decide (f x < t)) = (l.filter fun x => f x < t).length := by
  induction l with
  | nil => rfl
  | cons x l ih =>
    by_cases hxt : f x < t
    · simp [List.findIdx_cons, hxt, ih hl.of_cons]
    · simp [List.findIdx_cons, hxt, filter_lt_eq_nil f hl hxt]

/-- The elements before the first position whose key is not below `t` are those below `t`. -/
theorem take_length_filter {l : List α} (hl : l.Pairwise fun x y => f x ≤ f y) (t : β) :
    l.take (l.filter fun x => f x < t).length = l.filter fun x => f x < t := by
  induction l with
  | nil => rfl
  | cons x l ih =>
    by_cases hxt : f x < t
    · simp [hxt, ih hl.of_cons]
    · simp [hxt, filter_lt_eq_nil f hl hxt]

/-- The elements of a list sorted by `f` from the first position whose key is not below `t₁` up
to the first whose key is not below `t₂` are the elements whose key is from `t₁` up to `t₂`. -/
theorem drop_take_findIdx {l : List α} (hl : l.Pairwise fun x y => f x ≤ f y) (t₁ t₂ : β) :
    (l.drop (l.findIdx fun x => !decide (f x < t₁))).take
        (l.findIdx (fun x => !decide (f x < t₂)) - l.findIdx fun x => !decide (f x < t₁)) =
      l.filter fun x => t₁ ≤ f x ∧ f x < t₂ := by
  induction l with
  | nil => simp
  | cons x l ih =>
    by_cases h₁ : f x < t₁
    · have hi₁ : (x :: l).findIdx (fun y => !decide (f y < t₁)) =
          l.findIdx (fun y => !decide (f y < t₁)) + 1 := by simp [List.findIdx_cons, h₁]
      by_cases h₂ : f x < t₂
      · have hi₂ : (x :: l).findIdx (fun y => !decide (f y < t₂)) =
            l.findIdx (fun y => !decide (f y < t₂)) + 1 := by simp [List.findIdx_cons, h₂]
        have hx : ¬ (t₁ ≤ f x ∧ f x < t₂) := fun h => not_le.mpr h₁ h.1
        rw [hi₁, hi₂, List.drop_succ_cons, Nat.add_sub_add_right,
          List.filter_cons_of_neg (by simpa using hx)]
        exact ih hl.of_cons
      · -- `t₂ ≤ f x`: no key of the list is below `t₂`
        have hi₂ : (x :: l).findIdx (fun y => !decide (f y < t₂)) = 0 := by
          simp [List.findIdx_cons, h₂]
        have hnone : (x :: l).filter (fun y => t₁ ≤ f y ∧ f y < t₂) = [] :=
          List.filter_eq_nil_iff.mpr fun y hy hyt =>
            h₂ (lt_of_le_of_lt (le_of_mem_cons f hl hy) (of_decide_eq_true hyt).2)
        rw [hi₂, Nat.zero_sub, List.take_zero, hnone]
    · -- `t₁ ≤ f x`: every key of the list is at least `t₁`
      have hfilter : (x :: l).filter (fun y => t₁ ≤ f y ∧ f y < t₂) =
          (x :: l).filter fun y => f y < t₂ :=
        List.filter_congr fun y hy => by simp [(not_lt.mp h₁).trans (le_of_mem_cons f hl hy)]
      have hfind : (x :: l).findIdx (fun y => !decide (f y < t₁)) = 0 := by
        simp [List.findIdx_cons, h₁]
      rw [hfind, List.drop_zero, Nat.sub_zero, hfilter, findIdx_eq_length_filter f hl t₂]
      exact take_length_filter f hl t₂

/-- The elements of a list sorted by `f` from the first position whose key is not below `t` on are
those whose key is not below `t`. -/
theorem drop_findIdx {l : List α} (hl : l.Pairwise fun x y => f x ≤ f y) (t : β) :
    l.drop (l.findIdx fun x => !decide (f x < t)) = l.filter fun x => t ≤ f x := by
  induction l with
  | nil => rfl
  | cons x l ih =>
    by_cases hxt : f x < t
    · have hi : (x :: l).findIdx (fun y => !decide (f y < t)) =
          l.findIdx (fun y => !decide (f y < t)) + 1 := by simp [List.findIdx_cons, hxt]
      rw [hi, List.drop_succ_cons, ih hl.of_cons,
        List.filter_cons_of_neg (by simpa using hxt)]
    · -- from `x` on every key is at least `t`
      have hi : (x :: l).findIdx (fun y => !decide (f y < t)) = 0 := by
        simp [List.findIdx_cons, hxt]
      rw [hi, List.drop_zero]
      exact (List.filter_eq_self.mpr fun y hy =>
        decide_eq_true ((not_lt.mp hxt).trans (le_of_mem_cons f hl hy))).symm

/-- In a list sorted by `f`, the keys below `t₂` are those below `t₁ ≤ t₂`, then those from `t₁`
up to `t₂`. -/
theorem filter_lt_eq_append {l : List α} (hl : l.Pairwise fun x y => f x ≤ f y) {t₁ t₂ : β}
    (h : t₁ ≤ t₂) :
    l.filter (fun x => f x < t₂) =
      l.filter (fun x => f x < t₁) ++ l.filter fun x => t₁ ≤ f x ∧ f x < t₂ := by
  induction l with
  | nil => rfl
  | cons x l ih =>
    by_cases h₁ : f x < t₁
    · have h₂ : f x < t₂ := lt_of_lt_of_le h₁ h
      rw [List.filter_cons_of_pos (by simpa using h₂), List.filter_cons_of_pos (by simpa using h₁),
        List.filter_cons_of_neg (by simp [not_le.mpr h₁]), ih hl.of_cons, List.cons_append]
    · -- from `x` on no key is below `t₁`
      have hnone : (x :: l).filter (fun y => f y < t₁) = [] := by
        rw [List.filter_cons_of_neg (by simpa using h₁), filter_lt_eq_nil f hl h₁]
      rw [hnone, List.nil_append]
      exact List.filter_congr fun y hy => by
        simp [(not_lt.mp h₁).trans (le_of_mem_cons f hl hy)]

end Sorted

section SetInsert

variable {α β : Type*} [LinearOrder β] {f : α → β} {cmp : α → α → Int} {x : α}

/-- `std::set::emplace` of `x` into a list in the order of the three-way comparison `cmp`: the
list as it is when an element compares equal to `x`, else `x` before the first element above it. -/
def setInsert (cmp : α → α → Int) (x : α) : List α → List α
  | [] => [x]
  | y :: l =>
    if cmp x y < 0 then x :: y :: l
    else if cmp x y = 0 then y :: l
    else y :: setInsert cmp x l

omit [LinearOrder β] in
theorem mem_setInsert {l : List α} {z : α} (hz : z ∈ setInsert cmp x l) : z = x ∨ z ∈ l := by
  induction l with
  | nil => simpa [setInsert] using hz
  | cons y l ih =>
    unfold setInsert at hz
    split_ifs at hz
    · simpa using hz
    · exact .inr hz
    · rcases List.mem_cons.mp hz with rfl | hz
      · exact .inr (List.mem_cons_self ..)
      · exact (ih hz).imp_right (List.mem_cons_of_mem y)

/-- Where `cmp` compares `x` with each element as `f` orders them, the insertion keeps the list
sorted by `f`. -/
theorem pairwise_setInsert {l : List α} (hl : l.Pairwise fun a b => f a < f b)
    (hcmp : ∀ y ∈ l, IsCompare (cmp x y) (f x) (f y)) :
    (setInsert cmp x l).Pairwise fun a b => f a < f b := by
  induction l with
  | nil => simp [setInsert]
  | cons y l ih =>
    rw [List.pairwise_cons] at hl
    have hy := hcmp y (List.mem_cons_self ..)
    unfold setInsert
    split_ifs with hneg hzero
    · -- `x` goes first: it is below `y`, and so below everything after `y`
      have hxy := hy.neg_iff.mp hneg
      refine List.Pairwise.cons (fun z hz => ?_) (List.Pairwise.cons hl.1 hl.2)
      rcases List.mem_cons.mp hz with rfl | hz
      · exact hxy
      · exact hxy.trans (hl.1 z hz)
    · exact List.Pairwise.cons hl.1 hl.2
    · -- `y` is below `x`, which goes further on
      have hyx : f y < f x := hy.pos_iff.mp (by omega)
      refine List.Pairwise.cons (fun z hz => ?_)
        (ih hl.2 fun z hz => hcmp z (List.mem_cons_of_mem y hz))
      rcases mem_setInsert hz with rfl | hz
      · exact hyx
      · exact hl.1 z hz

/-- An element already in a sorted list is not inserted again. -/
theorem setInsert_of_mem {l : List α} (hl : l.Pairwise fun a b => f a < f b)
    (hcmp : ∀ y ∈ l, IsCompare (cmp x y) (f x) (f y)) (hx : x ∈ l) : setInsert cmp x l = l := by
  induction l with
  | nil => cases hx
  | cons y l ih =>
    rw [List.pairwise_cons] at hl
    have hy := hcmp y (List.mem_cons_self ..)
    unfold setInsert
    rcases List.mem_cons.mp hx with rfl | hx
    · rw [if_neg (fun h => lt_irrefl _ (hy.neg_iff.mp h)), if_pos (hy.eq_zero_iff.mpr rfl)]
    · -- `y` comes before `x` in the list, so `x` compares above it
      have hyx := hl.1 x hx
      rw [if_neg (fun h => lt_asymm hyx (hy.neg_iff.mp h)),
        if_neg (fun h => (ne_of_lt hyx) (hy.eq_zero_iff.mp h).symm),
        ih hl.2 (fun z hz => hcmp z (List.mem_cons_of_mem y hz)) hx]

/-- With `f` injective, an element not in the list is inserted: the list gains it. -/
theorem perm_setInsert_of_not_mem (hf : Function.Injective f) {l : List α}
    (hcmp : ∀ y ∈ l, IsCompare (cmp x y) (f x) (f y)) (hx : x ∉ l) :
    (setInsert cmp x l).Perm (x :: l) := by
  induction l with
  | nil => simp [setInsert]
  | cons y l ih =>
    have hy := hcmp y (List.mem_cons_self ..)
    have hxl : x ∉ l := fun h => hx (List.mem_cons_of_mem y h)
    unfold setInsert
    split_ifs with hneg hzero
    · exact List.Perm.refl _
    · exact absurd (List.mem_cons.mpr (.inl (hf (hy.eq_zero_iff.mp hzero)))) hx
    · exact ((ih (fun z hz => hcmp z (List.mem_cons_of_mem y hz)) hxl).cons y).trans
        (List.Perm.swap x y l)

/-- On a sorted list, with `f` injective, the insertion is `List.insert` up to order. -/
theorem perm_setInsert [DecidableEq α] (hf : Function.Injective f) {l : List α}
    (hl : l.Pairwise fun a b => f a < f b) (hcmp : ∀ y ∈ l, IsCompare (cmp x y) (f x) (f y)) :
    (setInsert cmp x l).Perm (l.insert x) := by
  by_cases hx : x ∈ l
  · rw [setInsert_of_mem hl hcmp hx, List.insert_of_mem hx]
  · rw [List.insert_of_not_mem hx]
    exact perm_setInsert_of_not_mem hf hcmp hx

end SetInsert

end LexOrder
