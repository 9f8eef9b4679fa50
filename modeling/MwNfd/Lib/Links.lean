import Mathlib.Logic.Function.Basic
import Mathlib.Data.List.Nodup

/-!
# Parent and children links

Nodes named by keys, each with at most one parent and a list of children, as a tree keeps them
when the child records its parent and the parent its children. `setParent` links a child under
a parent, at the end of the parent's children; `unsetParent` takes a child out of its parent's
children. `Consistent` says the two records agree: a key is among a parent's children, once,
exactly when its parent is that parent.

* `Consistent.setParent`, `Consistent.unsetParent`: each edit keeps the records in agreement.
* `mem_select_iff`, `nodup_select`: the pre-order list of the keys a selector picks below a key
  holds a key when the selector wants it and wants the children of every key on the way down to
  it, and holds it once when ranks grow along the links.

Nothing here mentions a particular system.
-/

/-- Each key's parent and its children, in the order they were linked. -/
structure Links (κ : Type _) where
  parent : κ → Option κ
  children : κ → List κ

namespace Links

variable {κ : Type _}

/-- No key has a parent or children. -/
def empty : Links κ := ⟨fun _ => none, fun _ => []⟩

/-- The parent and children records agree, and no key is a child twice. -/
structure Consistent (L : Links κ) : Prop where
  nodup : ∀ p, (L.children p).Nodup
  mem_children : ∀ c p, c ∈ L.children p ↔ L.parent c = some p

theorem consistent_empty : (empty : Links κ).Consistent :=
  ⟨fun _ => List.nodup_nil, fun c p => by simp [empty]⟩

/-! ## Selecting keys in pre-order -/

section Select

variable (L : Links κ)

/-- The key `k` parent links above `x`. -/
def ancestor : Nat → κ → Option κ
  | 0, x => some x
  | k + 1, x => (L.parent x).bind (ancestor k)

/-- The keys below `e`, `e` included, that the selector `f` picks, in pre-order: `e` when
`(f e).1` holds, then, when `(f e).2` holds, each child's keys in the order of the children.
`fuel` bounds the depth. -/
def select (f : κ → Bool × Bool) : Nat → κ → List κ
  | 0, _ => []
  | fuel + 1, e =>
    (if (f e).1 then [e] else []) ++
      (if (f e).2 then (L.children e).flatMap (select f fuel) else [])

/-- A rank that grows by one along each parent link. -/
def Ranked (rank : κ → Nat) : Prop :=
  ∀ c p, L.parent c = some p → rank c = rank p + 1

variable {L}

theorem ancestor_succ' (k : Nat) (x : κ) :
    L.ancestor (k + 1) x = (L.ancestor k x).bind L.parent := by
  induction k generalizing x with
  | zero => simp [ancestor]
  | succ k ih =>
    have h : L.ancestor (k + 1) = fun y => (L.ancestor k y).bind L.parent := funext ih
    rw [show L.ancestor (k + 1 + 1) x = (L.parent x).bind (L.ancestor (k + 1)) from rfl,
      show L.ancestor (k + 1) x = (L.parent x).bind (L.ancestor k) from rfl, Option.bind_assoc, h]

theorem Ranked.ancestor {rank : κ → Nat} (hr : L.Ranked rank) {k : Nat} {x a : κ}
    (h : L.ancestor k x = some a) : rank x = rank a + k := by
  induction k generalizing x with
  | zero =>
    cases h
    rfl
  | succ k ih =>
    rw [Links.ancestor, Option.bind_eq_some_iff] at h
    obtain ⟨p, hp, hk⟩ := h
    rw [hr x p hp, ih hk]
    omega

variable (hL : L.Consistent) (f : κ → Bool × Bool)
include hL

/-- A key is selected below `e` when the selector wants it, it lies below `e` within the fuel,
and the selector wants the children of `e` and of each key between `e` and it. -/
theorem mem_select_iff {fuel : Nat} {e x : κ} :
    x ∈ L.select f fuel e ↔ (f x).1 ∧ ∃ k < fuel, L.ancestor k x = some e ∧
      ∀ j < k, ∀ a, L.ancestor (j + 1) x = some a → (f a).2 := by
  induction fuel generalizing e with
  | zero => simp [select]
  | succ fuel ih =>
    simp only [select, List.mem_append, List.mem_ite_nil_right, List.mem_singleton,
      List.mem_flatMap, ih]
    constructor
    · rintro (⟨hf, rfl⟩ | ⟨hf, c, hc, hx, k, hk, hkc, hpath⟩)
      · exact ⟨hf, 0, Nat.zero_lt_succ _, rfl, fun j hj => absurd hj (Nat.not_lt_zero _)⟩
      · have hce : L.parent c = some e := (hL.mem_children c e).mp hc
        refine ⟨hx, k + 1, by omega, by rw [ancestor_succ', hkc, Option.bind_some, hce], ?_⟩
        intro j hj a ha
        rcases Nat.lt_succ_iff_lt_or_eq.mp hj with hj | rfl
        · exact hpath j hj a ha
        · rw [ancestor_succ', hkc, Option.bind_some, hce, Option.some.injEq] at ha
          exact ha ▸ hf
    · rintro ⟨hx, k, hk, hke, hpath⟩
      cases k with
      | zero =>
        cases hke
        exact .inl ⟨hx, rfl⟩
      | succ k =>
        rw [ancestor_succ', Option.bind_eq_some_iff] at hke
        obtain ⟨c, hkc, hce⟩ := hke
        have hfe : (f e).2 := hpath k (Nat.lt_succ_self k) e (by rw [ancestor_succ', hkc]; exact hce)
        exact .inr ⟨hfe, c, (hL.mem_children c e).mpr hce, hx, k, by omega, hkc,
          fun j hj => hpath j (by omega)⟩

/-- With ranks growing along the links, every key is selected at most once. -/
theorem nodup_select {rank : κ → Nat} (hr : L.Ranked rank) (fuel : Nat) (e : κ) :
    (L.select f fuel e).Nodup := by
  induction fuel generalizing e with
  | zero => exact List.nodup_nil
  | succ fuel ih =>
    -- a key selected below `c` has `c` as its ancestor at the difference of the ranks
    have hanc : ∀ {c x}, x ∈ L.select f fuel c → L.ancestor (rank x - rank c) x = some c := by
      intro c x hx
      obtain ⟨-, k, -, hk, -⟩ := (mem_select_iff hL f).mp hx
      rwa [hr.ancestor hk, Nat.add_sub_cancel_left]
    have hchild : ∀ c ∈ L.children e, rank c = rank e + 1 :=
      fun c hc => hr c e ((hL.mem_children c e).mp hc)
    rw [select, List.nodup_append]
    refine ⟨?_, ?_, ?_⟩
    · split <;> simp
    · split
      · refine List.nodup_flatMap.mpr ⟨fun c _ => ih c, ?_⟩
        refine (hL.nodup e).pairwise_of_forall_ne fun c hc d hd hcd x hxc hxd => hcd ?_
        have hc' := hanc hxc
        have hd' := hanc hxd
        rw [hchild c hc, ← hchild d hd] at hc'
        exact Option.some.inj (hc'.symm.trans hd')
      · exact List.nodup_nil
    · intro a ha b hb hab
      subst hab
      split at ha
      · split at hb
        · obtain ⟨c, hc, hac⟩ := List.mem_flatMap.mp hb
          obtain ⟨-, k, -, hk, -⟩ := (mem_select_iff hL f).mp hac
          have := hr.ancestor hk
          rw [List.mem_singleton.mp ha, hchild c hc] at this
          omega
        · simp at hb
      · simp at ha

end Select

variable [DecidableEq κ]

/-- The child `c` gets the parent `p`, and goes last among `p`'s children. -/
def setParent (L : Links κ) (c p : κ) : Links κ :=
  ⟨Function.update L.parent c (some p), Function.update L.children p (L.children p ++ [c])⟩

/-- The child `c` leaves its parent's children, and has no parent. -/
def unsetParent (L : Links κ) (c : κ) : Links κ :=
  match L.parent c with
  | some p =>
    ⟨Function.update L.parent c none, Function.update L.children p ((L.children p).erase c)⟩
  | none => L

@[simp] theorem parent_setParent (L : Links κ) (c p k : κ) :
    (L.setParent c p).parent k = if k = c then some p else L.parent k := by
  simp [setParent, Function.update_apply]

@[simp] theorem children_setParent (L : Links κ) (c p k : κ) :
    (L.setParent c p).children k = if k = p then L.children p ++ [c] else L.children k := by
  simp only [setParent, Function.update_apply]

theorem parent_unsetParent (L : Links κ) (c k : κ) :
    (L.unsetParent c).parent k = if k = c then none else L.parent k := by
  unfold unsetParent
  split
  · simp [Function.update_apply]
  · next hnone =>
    split
    · next hk => rw [hk, hnone]
    · rfl

theorem children_unsetParent_of_parent {L : Links κ} {c p : κ} (h : L.parent c = some p)
    (k : κ) :
    (L.unsetParent c).children k = if k = p then (L.children p).erase c else L.children k := by
  simp only [unsetParent, h, Function.update_apply]

theorem unsetParent_of_parent_eq_none {L : Links κ} {c : κ} (h : L.parent c = none) :
    L.unsetParent c = L := by
  simp [unsetParent, h]

/-- Unlinking a child only when it has a parent is unlinking it. -/
theorem ite_isSome_unsetParent (L : Links κ) (c : κ) :
    (if (L.parent c).isSome then L.unsetParent c else L) = L.unsetParent c := by
  split
  · rfl
  · next h => exact (unsetParent_of_parent_eq_none (Option.not_isSome_iff_eq_none.mp h)).symm

variable {L : Links κ}

/-- Linking a child that has no parent keeps the records in agreement. -/
theorem Consistent.setParent (hL : L.Consistent) {c : κ} (hc : L.parent c = none) (p : κ) :
    (L.setParent c p).Consistent := by
  -- `c` was nobody's child, so it joins `p`'s children once
  have hnot : ∀ q, c ∉ L.children q := fun q hq => by
    rw [hL.mem_children, hc] at hq
    exact absurd hq (by simp)
  constructor
  · intro q
    rw [children_setParent]
    split
    · next hq =>
      subst hq
      exact (hL.nodup q).append (List.nodup_singleton c) (by simpa using hnot q)
    · exact hL.nodup q
  · intro k q
    rw [children_setParent, parent_setParent]
    by_cases hk : k = c
    · subst hk
      by_cases hq : q = p
      · simp [hq]
      · simp [hq, hnot q, Ne.symm hq]
    · by_cases hq : q = p
      · subst hq
        simp [hk, hL.mem_children]
      · simp [hk, hq, hL.mem_children]

/-- Unlinking a child keeps the records in agreement. -/
theorem Consistent.unsetParent (hL : L.Consistent) (c : κ) : (L.unsetParent c).Consistent := by
  cases hc : L.parent c with
  | none => rwa [unsetParent_of_parent_eq_none hc]
  | some p =>
    constructor
    · intro q
      rw [children_unsetParent_of_parent hc]
      split
      · exact (hL.nodup p).erase c
      · exact hL.nodup q
    · intro k q
      rw [children_unsetParent_of_parent hc, parent_unsetParent]
      by_cases hk : k = c
      · subst hk
        rw [if_pos rfl]
        split
        · next hq =>
          subst hq
          simp [(hL.nodup _).mem_erase_iff]
        · next hq =>
          -- `k` was a child of `p` only
          refine iff_of_false (fun hmem => hq ?_) (by simp)
          have := (hL.mem_children k q).mp hmem
          rw [hc] at this
          exact (Option.some.inj this).symm
      · split
        · next hq =>
          subst hq
          rw [(hL.nodup _).mem_erase_iff, hL.mem_children]
          simp [hk]
        · simp [hL.mem_children]

end Links
