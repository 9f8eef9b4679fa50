import Mathlib.Data.List.AList
import Mathlib.Data.List.Range

/-!
# Parts collected in slots, and a table of partial messages

A message of `c` parts that may arrive in any order is collected in `c` slots, slot `i` holding
part `i` once it has come. `Slots.received c v ks` is the slots after the parts with indices
`ks` have come, part `i` being `v i`. The messages being collected are kept in an association
list by key, and a complete message leaves it.

* `Slots.received_set`: filling the slot of a new part gives the slots with that part received.
* `Slots.received_of_forall_mem`: once every part has come, each slot holds its part.
* `Slots.length_add_one_of_forall_ne`: distinct parts that are all but one of the `c` are
  `c - 1`; with one of them missing they are fewer than `c` (`Slots.length_lt_of_not_mem`).
* `AList.erase_insert_of_notMem`: a message that enters and leaves the table leaves it as it
  was.
-/

namespace Slots

variable {α : Type*}

/-- The `c` slots after the parts `ks` have come, part `i` being `v i`. -/
def received (c : Nat) (v : Nat → α) (ks : List Nat) : List (Option α) :=
  (List.range c).map fun i => if i ∈ ks then some (v i) else none

theorem received_nil (c : Nat) (v : Nat → α) : received c v [] = List.replicate c none := by
  simp [received]

theorem getElem?_received {c i : Nat} (v : Nat → α) (ks : List Nat) (hi : i < c) :
    (received c v ks)[i]? = some (if i ∈ ks then some (v i) else none) := by
  simp [received, hi]

/-- Filling the slot of part `i` with it. -/
theorem received_set {c i : Nat} (v : Nat → α) (ks : List Nat) :
    (received c v ks).set i (some (v i)) = received c v (ks ++ [i]) := by
  apply List.ext_getElem (by simp [received])
  intro j h₁ h₂
  simp only [received, List.getElem_set, List.getElem_map, List.getElem_range, List.mem_append,
    List.mem_singleton]
  by_cases hj : i = j
  · subst hj
    simp
  · simp [hj, Ne.symm hj]

theorem received_of_forall_mem {c : Nat} (v : Nat → α) {ks : List Nat}
    (h : ∀ i < c, i ∈ ks) :
    received c v ks = (List.range c).map (some ∘ v) := by
  unfold received
  apply List.map_congr_left
  intro i hi
  rw [if_pos (h i (List.mem_range.mp hi))]
  rfl

/-- Distinct parts among the `c`, one of which has not come, are fewer than `c`. -/
theorem length_lt_of_not_mem {c j : Nat} {ks : List Nat} (hnd : ks.Nodup)
    (hlt : ∀ i ∈ ks, i < c) (hj : j < c) (hnot : j ∉ ks) : ks.length + 1 ≤ c := by
  have hsub : ks ⊆ (List.range c).erase j := fun i hi =>
    (List.nodup_range.mem_erase_iff).mpr ⟨ne_of_mem_of_not_mem hi hnot, List.mem_range.mpr (hlt i hi)⟩
  have hle := hnd.length_le_of_subset hsub
  rw [List.length_erase_of_mem (List.mem_range.mpr hj), List.length_range] at hle
  omega

/-- Distinct parts that are all the `c` but one are `c - 1`. -/
theorem length_add_one_of_forall_ne {c j : Nat} {ks : List Nat} (hnd : ks.Nodup)
    (hlt : ∀ i ∈ ks, i < c) (hj : j < c) (hnot : j ∉ ks) (hall : ∀ i < c, i ≠ j → i ∈ ks) :
    ks.length + 1 = c := by
  have hsub : (List.range c).erase j ⊆ ks := fun i hi => by
    obtain ⟨hne, hi⟩ := (List.nodup_range.mem_erase_iff).mp hi
    exact hall i (List.mem_range.mp hi) hne
  have hge := (List.nodup_range.erase j).length_le_of_subset hsub
  rw [List.length_erase_of_mem (List.mem_range.mpr hj), List.length_range] at hge
  have hle := length_lt_of_not_mem hnd hlt hj hnot
  omega

end Slots

namespace AList

variable {α : Type*} {β : α → Type*} [DecidableEq α]

theorem erase_of_notMem {a : α} {s : AList β} (h : a ∉ s) : s.erase a = s := by
  apply AList.ext
  exact List.kerase_of_notMem_keys h

/-- An entry put in under a new key and then erased leaves the table as it was. -/
theorem erase_insert_of_notMem {a : α} (b : β a) {s : AList β} (h : a ∉ s) :
    (s.insert a b).erase a = s := by
  apply AList.ext
  show ((s.insert a b).entries.kerase a) = s.entries
  rw [AList.entries_insert, List.kerase_cons_eq (rfl : a = (⟨a, b⟩ : Sigma β).fst)]
  exact List.kerase_of_notMem_keys h

end AList
