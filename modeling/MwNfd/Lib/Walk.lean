import Mathlib

/-!
# Loops that walk a list, and the order of a multimap

`Walk.run next` is a loop that visits an element and goes on to `next` of it until there is
none; `fuel` bounds the rounds. When `next x` is the first element after `x` in a list that a
test passes, the loop started at the first one that passes visits the list filtered by the
test (`run_find?`).

`Multimap.emplace` is the insertion of `std::multimap`: after every entry whose key is not
greater. The entries stay sorted by key (`Sorted.emplace`), and they are the entries inserted
(`perm_emplace`).
-/

namespace Walk

variable {α : Type _} [DecidableEq α]

/-- The elements after the first occurrence of `x`. -/
def after (x : α) (l : List α) : List α := (l.dropWhile (· ≠ x)).drop 1

/-- A loop from `start`: each round visits the current element and moves to `next` of it;
`none` when `fuel` runs out first. -/
def run (next : α → Option α) : Nat → Option α → Option (List α)
  | 0, _ => none
  | _ + 1, none => some []
  | fuel + 1, some x => (run next fuel (next x)).map (x :: ·)

variable {x : α} {l₁ l₂ : List α}

theorem after_append_of_not_mem (hx : x ∉ l₁) : after x (l₁ ++ l₂) = after x l₂ := by
  have h : l₁.dropWhile (fun y => decide (y ≠ x)) = [] :=
    List.dropWhile_eq_nil_iff.mpr fun y hy => by
      simpa using fun h : y = x => hx (h ▸ hy)
  simp only [after, List.dropWhile_append, h, List.isEmpty_nil, if_true]

theorem after_append_of_mem (hx : x ∈ l₁) : after x (l₁ ++ l₂) = after x l₁ ++ l₂ := by
  have hne : l₁.dropWhile (fun y => decide (y ≠ x)) ≠ [] := by
    intro h
    have := List.dropWhile_eq_nil_iff.mp h x hx
    simp at this
  have hne' : (l₁.dropWhile (fun y => decide (y ≠ x))).isEmpty = false :=
    List.isEmpty_eq_false_iff.mpr hne
  simp only [after, List.dropWhile_append, hne', Bool.false_eq_true, if_false]
  exact List.drop_append_of_le_length (List.length_pos_iff.mpr hne)

theorem after_cons_self (l : List α) : after x (x :: l) = l := by
  simp [after]

variable {p : α → Bool} {next : α → Option α}

/-- The first element of a list that passes the test is followed, among the elements that pass,
by the first one after it. -/
theorem after_of_find? {t : List α} {y : α} (h : t.find? p = some y) :
    ∃ a, t = a ++ y :: after y t ∧ ∀ z ∈ a, p z = false := by
  obtain ⟨a, b, rfl, hpa⟩ : ∃ a b, t = a ++ y :: b ∧ ∀ z ∈ a, p z = false := by
    obtain ⟨-, a, b, heq, hpa⟩ := List.find?_eq_some_iff_append.mp h
    exact ⟨a, b, heq, fun z hz => by simpa using hpa z hz⟩
  have hy : y ∉ a := fun hy => by simpa [List.find?_some h] using hpa y hy
  exact ⟨a, by rw [after_append_of_not_mem hy, after_cons_self], hpa⟩

/-- The loop started at the first element that passes, moving each time to the first one after
the current that passes, visits exactly the elements that pass, in order. The induction is on
the fuel; the elements before the first that passes are skipped by the search. -/
theorem run_find? {t : List α} (hnd : t.Nodup)
    (hnext : ∀ x ∈ t, p x → next x = (after x t).find? p) {fuel : Nat}
    (hfuel : t.length < fuel) : run next fuel (t.find? p) = some (t.filter p) := by
  induction fuel generalizing t with
  | zero => omega
  | succ fuel ih =>
  cases hfind : t.find? p with
  | none =>
    rw [List.find?_eq_none] at hfind
    simp only [run, Option.some.injEq]
    exact (List.filter_eq_nil_iff.mpr fun z hz => by simpa using hfind z hz).symm
  | some y =>
    obtain ⟨a, heq, hpa⟩ := after_of_find? hfind
    have hpy : p y = true := List.find?_some hfind
    set b := after y t with hb
    have hnd' : (a ++ [y] ++ b).Nodup := by simpa using heq ▸ hnd
    have hfa : a.filter p = [] := List.filter_eq_nil_iff.mpr fun z hz => by simp [hpa z hz]
    have hlen : b.length < t.length := by
      conv_rhs => rw [heq]
      simp only [List.length_append, List.length_cons]
      omega
    have hb' : b.Nodup := (List.nodup_append.mp hnd').2.1
    have hnext' : ∀ x ∈ b, p x → next x = (after x b).find? p := by
      intro x hx hpx
      have hxa : x ∉ a ++ [y] := fun h => (List.nodup_append.mp hnd').2.2 x h x hx rfl
      rw [hnext x (heq ▸ by simp [hx]) hpx, heq, show a ++ y :: b = a ++ [y] ++ b by simp,
        after_append_of_not_mem hxa]
    rw [heq, List.filter_append, hfa, List.filter_cons_of_pos hpy, List.nil_append, run,
      hnext y (heq ▸ by simp) hpy, ← hb, ih hb' hnext' (by omega)]
    rfl

end Walk

namespace Multimap

variable {κ β : Type _} [LinearOrder κ]

/-- `std::multimap::emplace(k, v)`: the entry goes after every entry whose key is not greater. -/
def emplace (m : List (κ × β)) (k : κ) (v : β) : List (κ × β) :=
  m.takeWhile (fun e => decide (e.1 ≤ k)) ++ (k, v) :: m.dropWhile (fun e => decide (e.1 ≤ k))

/-- The entries are in key order. -/
def Sorted (m : List (κ × β)) : Prop := m.Pairwise fun a b => a.1 ≤ b.1

variable {m : List (κ × β)} {k : κ} {v : β}

theorem perm_emplace : (emplace m k v).Perm ((k, v) :: m) := by
  conv_rhs => rw [← List.takeWhile_append_dropWhile (p := fun e => decide (e.1 ≤ k)) (l := m)]
  exact List.perm_middle

theorem Sorted.emplace (h : Sorted m) : Sorted (emplace m k v) := by
  have hsplit := List.takeWhile_append_dropWhile (p := fun e : κ × β => decide (e.1 ≤ k)) (l := m)
  rw [Sorted, ← hsplit, List.pairwise_append] at h
  obtain ⟨htake, hdrop, hcross⟩ := h
  -- the first entry left after the equal range has a greater key, and the rest follow it
  have hgt : ∀ e ∈ m.dropWhile (fun e => decide (e.1 ≤ k)), k ≤ e.1 := by
    intro e he
    cases hd : m.dropWhile (fun e => decide (e.1 ≤ k)) with
    | nil => simp [hd] at he
    | cons d rest =>
      have hdk : k < d.1 := by
        have := @List.head_dropWhile_not _ (fun e : κ × β => decide (e.1 ≤ k)) m (by simp [hd])
        simpa [hd] using this
      rw [hd] at he hdrop
      rcases List.mem_cons.mp he with rfl | he
      · exact hdk.le
      · exact hdk.le.trans (List.rel_of_pairwise_cons hdrop he)
  unfold Multimap.emplace Sorted
  refine List.pairwise_append.mpr ⟨htake, List.pairwise_cons.mpr ⟨hgt, hdrop⟩, ?_⟩
  intro a ha b hb
  rcases List.mem_cons.mp hb with rfl | hb
  · simpa using (List.mem_takeWhile_imp ha)
  · exact hcross a ha b hb

end Multimap
