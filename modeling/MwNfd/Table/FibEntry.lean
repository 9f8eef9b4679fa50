import Mathlib.Data.List.Sort
import MwNfd.Tlv

/-!
# The nexthops of a FIB entry (`fib-entry.cpp`, `fib.cpp`)

A FIB entry keeps its nexthops in a vector that `sortNextHops` orders by cost with `std::sort`.
`fib::Entry::addOrUpdateNextHop(face, cost)` finds the face's nexthop or appends a new one, sets
its cost, sorts the vector and returns an iterator taken before the sort. `std::sort` moves
elements and leaves iterators at their positions, so the iterator designates whatever nexthop
the sort put there. `Fib::addOrUpdateNextHop` emits `afterNewNextHop` with that nexthop when the
face is new, and the forwarder hands it to the strategy (`startProcessNewNextHop`).

`std::sort` only promises a permutation sorted by the comparator; the order of nexthops of equal
cost is unspecified. `CostSort` is any function that keeps that promise, and every result here
holds for all of them.

* `addOrUpdateNextHop_sorted`, `nodup_faces_addOrUpdateNextHop`,
  `mem_addOrUpdateNextHop_self`, `mem_addOrUpdateNextHop_of_ne`: the list part of the contract.
* `addOrUpdateNextHop_isNew`: the flag says whether the face had no nexthop.
-/

namespace MwNfd

/-- `fib::NextHop`: a face, by its id, and a cost (`uint64_t`, compared only). -/
structure NextHop where
  face : Nat
  cost : Nat
  deriving DecidableEq, Repr

/-- What `std::sort` with the comparator `a.getCost() < b.getCost()` guarantees: a permutation of
the vector, sorted by cost. -/
structure CostSort where
  sort : List NextHop → List NextHop
  perm : ∀ l, (sort l).Perm l
  sorted : ∀ l, (sort l).Pairwise fun a b => a.cost ≤ b.cost

/-- A `CostSort`: the stable merge sort. -/
def CostSort.merge : CostSort where
  sort l := l.mergeSort fun a b => decide (a.cost ≤ b.cost)
  perm l := List.mergeSort_perm l _
  sorted l := by
    have h := @List.pairwise_mergeSort _ (fun a b : NextHop => decide (a.cost ≤ b.cost))
      (fun a b c hab hbc => by simp only [decide_eq_true_eq] at *; omega)
      (fun a b => by simp only [Bool.or_eq_true, decide_eq_true_eq]; omega) l
    simpa using h

/-- A FIB entry: its prefix and its nexthops in vector order. -/
structure FibEntry where
  prefix_ : Name
  nextHops : List NextHop

namespace FibEntry

/-- `fib::Entry::findNextHop`: the position of the face's nexthop (`std::find_if`). -/
def findNextHop (nhs : List NextHop) (face : Nat) : Option Nat :=
  nhs.findIdx? (·.face = face)

/-- `fib::Entry::addOrUpdateNextHop(face, cost)`: the nexthops after the call, the position of
the returned iterator, and `isNew`. -/
def addOrUpdateNextHop (s : CostSort) (nhs : List NextHop) (face cost : Nat) :
    List NextHop × Nat × Bool :=
  match findNextHop nhs face with
  | some i => (s.sort (nhs.set i ⟨face, cost⟩), i, false)
  -- `emplace_back`, and the iterator to the last element
  | none => (s.sort (nhs ++ [⟨face, cost⟩]), nhs.length, true)

theorem findNextHop_some {nhs : List NextHop} {face i : Nat} (h : findNextHop nhs face = some i) :
    ∃ hi : i < nhs.length, nhs[i].face = face := by
  obtain ⟨hi, hp, -⟩ := List.findIdx?_eq_some_iff_getElem.mp h
  exact ⟨hi, by simpa using hp⟩

theorem findNextHop_eq_none {nhs : List NextHop} {face : Nat} :
    findNextHop nhs face = none ↔ ∀ nh ∈ nhs, nh.face ≠ face := by
  simp [findNextHop, List.findIdx?_eq_none_iff]

section Update

variable (s : CostSort) (nhs : List NextHop) (face cost : Nat)

/-- What the call does: it sets the cost of the face's nexthop where it is, or appends a new
one, and sorts. -/
theorem addOrUpdateNextHop_cases :
    (∃ i, ∃ hi : i < nhs.length, nhs[i].face = face ∧
      addOrUpdateNextHop s nhs face cost = (s.sort (nhs.set i ⟨face, cost⟩), i, false)) ∨
    ((∀ nh ∈ nhs, nh.face ≠ face) ∧
      addOrUpdateNextHop s nhs face cost =
        (s.sort (nhs ++ [⟨face, cost⟩]), nhs.length, true)) := by
  unfold addOrUpdateNextHop
  cases h : findNextHop nhs face with
  | some i =>
    obtain ⟨hi, hf⟩ := findNextHop_some h
    exact .inl ⟨i, hi, hf, rfl⟩
  | none => exact .inr ⟨findNextHop_eq_none.mp h, rfl⟩

theorem addOrUpdateNextHop_sorted :
    (addOrUpdateNextHop s nhs face cost).1.Pairwise fun a b => a.cost ≤ b.cost := by
  rcases addOrUpdateNextHop_cases s nhs face cost with ⟨i, -, -, h⟩ | ⟨-, h⟩
  · rw [h]
    exact s.sorted _
  · rw [h]
    exact s.sorted _

/-- The face's nexthop is in the list, with the new cost. -/
theorem mem_addOrUpdateNextHop_self :
    ⟨face, cost⟩ ∈ (addOrUpdateNextHop s nhs face cost).1 := by
  rcases addOrUpdateNextHop_cases s nhs face cost with ⟨i, hi, -, h⟩ | ⟨-, h⟩
  · rw [h, (s.perm _).mem_iff]
    exact List.mem_set hi _
  · rw [h, (s.perm _).mem_iff]
    exact List.mem_append_right _ (List.mem_singleton_self _)

/-- The nexthops of the other faces are those that were there. -/
theorem mem_addOrUpdateNextHop_of_ne {nh : NextHop} (hne : nh.face ≠ face) :
    nh ∈ (addOrUpdateNextHop s nhs face cost).1 ↔ nh ∈ nhs := by
  rcases addOrUpdateNextHop_cases s nhs face cost with ⟨i, hi, hf, h⟩ | ⟨-, h⟩
  · rw [h, (s.perm _).mem_iff]
    constructor
    · intro hm
      rcases List.mem_or_eq_of_mem_set hm with hm | rfl
      · exact hm
      · exact absurd rfl hne
    · intro hm
      obtain ⟨j, hj, rfl⟩ := List.getElem_of_mem hm
      -- the face's own slot `i` is not the slot of another face's nexthop
      have hij : i ≠ j := by
        rintro rfl
        exact hne hf
      have hmem := List.getElem_mem (show j < (nhs.set i ⟨face, cost⟩).length by simpa using hj)
      rwa [List.getElem_set_ne hij] at hmem
  · rw [h, (s.perm _).mem_iff, List.mem_append, List.mem_singleton]
    constructor
    · rintro (hm | rfl)
      · exact hm
      · exact absurd rfl hne
    · exact .inl

/-- Distinct faces stay distinct. -/
theorem nodup_faces_addOrUpdateNextHop (hnd : (nhs.map NextHop.face).Nodup) :
    ((addOrUpdateNextHop s nhs face cost).1.map NextHop.face).Nodup := by
  rcases addOrUpdateNextHop_cases s nhs face cost with ⟨i, hi, hf, h⟩ | ⟨hnew, h⟩
  · rw [h]
    apply ((s.perm _).map NextHop.face).nodup_iff.mpr
    -- the updated nexthop keeps its face at its position
    have hset : (nhs.set i ⟨face, cost⟩).map NextHop.face = nhs.map NextHop.face := by
      apply List.ext_getElem (by simp)
      intro j h₁ h₂
      by_cases hij : i = j
      · subst hij
        simp [hf]
      · simp [List.getElem_set_ne hij]
    rwa [hset]
  · rw [h]
    apply ((s.perm _).map NextHop.face).nodup_iff.mpr
    rw [List.map_append, List.nodup_append]
    refine ⟨hnd, List.nodup_singleton _, ?_⟩
    intro a ha b hb
    obtain ⟨nh, hnh, rfl⟩ := List.mem_map.mp ha
    simp only [List.map_cons, List.map_nil, List.mem_singleton] at hb
    rw [hb]
    exact hnew nh hnh

/-- The flag is true exactly when the face had no nexthop. -/
theorem addOrUpdateNextHop_isNew :
    (addOrUpdateNextHop s nhs face cost).2.2 = true ↔ ∀ nh ∈ nhs, nh.face ≠ face := by
  rcases addOrUpdateNextHop_cases s nhs face cost with ⟨i, hi, hf, h⟩ | ⟨hnew, h⟩
  · rw [h]
    simp only [Bool.false_eq_true, false_iff, not_forall, not_not]
    exact ⟨nhs[i], List.getElem_mem hi, hf⟩
  · rw [h]
    exact ⟨fun _ => hnew, fun _ => rfl⟩

end Update

end FibEntry

/-- The last nexthop of a list sorted by cost costs at least as much as any other. -/
theorem cost_le_getElem_last {l : List NextHop} (hs : l.Pairwise fun a b => a.cost ≤ b.cost)
    {n : Nat} (hn : n < l.length) (hlast : n + 1 = l.length) {x : NextHop} (hx : x ∈ l) :
    x.cost ≤ l[n].cost := by
  obtain ⟨j, hj, rfl⟩ := List.getElem_of_mem hx
  by_cases hjn : j = n
  · subst hjn
    exact le_refl _
  · exact List.pairwise_iff_getElem.mp hs j n hj hn (by omega)

/-- `Fib::addOrUpdateNextHop`: the entry after the call, and `afterNewNextHop(prefix, *it)`
when the face is new. -/
def Fib.addOrUpdateNextHop (s : CostSort) (entry : FibEntry) (face cost : Nat) :
    FibEntry × Option (Name × NextHop) :=
  let (nhs, it, isNew) := FibEntry.addOrUpdateNextHop s entry.nextHops face cost
  (⟨entry.prefix_, nhs⟩, if isNew then nhs[it]?.map (entry.prefix_, ·) else none)

/-- A new face whose cost is below that of a nexthop already there: `afterNewNextHop` is emitted
with another face's nexthop, the one the sort left at the end of the vector, where the new one
had been appended. -/
theorem Fib.afterNewNextHop_other_face (s : CostSort) (entry : FibEntry) {face cost : Nat}
    (hnew : ∀ nh ∈ entry.nextHops, nh.face ≠ face)
    (hlow : ∃ nh ∈ entry.nextHops, cost < nh.cost) :
    ∃ nh ∈ entry.nextHops, nh.face ≠ face ∧
      (Fib.addOrUpdateNextHop s entry face cost).2 = some (entry.prefix_, nh) := by
  have h : FibEntry.addOrUpdateNextHop s entry.nextHops face cost =
      (s.sort (entry.nextHops ++ [⟨face, cost⟩]), entry.nextHops.length, true) := by
    rcases FibEntry.addOrUpdateNextHop_cases s entry.nextHops face cost with
      ⟨i, hi, hf, -⟩ | ⟨-, h⟩
    · exact absurd hf (hnew _ (List.getElem_mem hi))
    · exact h
  set l := s.sort (entry.nextHops ++ [⟨face, cost⟩]) with hl
  have hlen : l.length = entry.nextHops.length + 1 := by
    rw [(s.perm _).length_eq, List.length_append, List.length_singleton]
  have hn : entry.nextHops.length < l.length := by omega
  -- the nexthop the iterator designates after the sort is not the new one: a dearer one is
  -- there, and the last place holds the dearest
  obtain ⟨dear, hdear, hcost⟩ := hlow
  have hdear' : dear ∈ l := (s.perm _).mem_iff.mpr (List.mem_append_left _ hdear)
  have hle := cost_le_getElem_last (s.sorted _) hn hlen.symm hdear'
  have hne : l[entry.nextHops.length] ≠ ⟨face, cost⟩ := by
    intro heq
    rw [heq] at hle
    exact absurd hle (by simpa using hcost)
  have hmem : l[entry.nextHops.length] ∈ entry.nextHops := by
    have hm := (s.perm _).mem_iff.mp (List.getElem_mem hn)
    rw [List.mem_append, List.mem_singleton] at hm
    exact hm.resolve_right hne
  refine ⟨l[entry.nextHops.length], hmem, hnew _ hmem, ?_⟩
  simp only [Fib.addOrUpdateNextHop, h, if_true, List.getElem?_eq_getElem hn, Option.map_some]

/-- Face 2 at cost 5, added to an entry whose only nexthop is face 1 at cost 10. -/
theorem Fib.afterNewNextHop_other_face_a :
    ∃ nh ∈ [(⟨1, 10⟩ : NextHop)], nh.face ≠ 2 ∧
      (Fib.addOrUpdateNextHop CostSort.merge
        ⟨[Component.generic [0x61]], [⟨1, 10⟩]⟩ 2 5).2 =
        some ([Component.generic [0x61]], nh) :=
  Fib.afterNewNextHop_other_face CostSort.merge
    ⟨[Component.generic [0x61]], [⟨1, 10⟩]⟩
    (by decide) ⟨⟨1, 10⟩, List.mem_singleton_self _, by decide⟩

end MwNfd
