import Mathlib.Data.List.Perm.Basic
import Mathlib.Data.List.Nodup

/-!
# A table with a least-recently-used queue

A cache keeps its entries in a table (a set: here a list without duplicates) and beside it a
queue of the same entries, from least to most recently used. A use moves an entry to the back,
an insertion puts a new one there, and an eviction loop pops the front and erases that entry
from the table while the table, together with `others` entries it cannot evict, is over a bound.

* `Tracks`: the queue holds exactly the table's entries, each once.
* `Tracks.insert`, `Tracks.erase`, `Tracks.removeAll`: the table operations keep it; erasing
  entries one at a time is removing them together (`removeAll_erase`).
* `Tracks.evict`: a loop that returns keeps it, and leaves the table within the bound; it only
  takes entries out (`evict_sublist`).
* `evict_eq_none_iff`: the loop pops an empty queue exactly when the `others` alone are over
  the bound.
-/

namespace LruQueue

variable {κ : Type*} [DecidableEq κ]

/-- Put an entry at the back of the queue: moved there if it is in the queue, added if not. -/
def touch (queue : List κ) (i : κ) : List κ := queue.erase i ++ [i]

/-- While the table's entries and `others` are more than `bound`, pop the front of the queue and
erase that entry from the table. `none` where the loop pops an empty queue. -/
def evict (bound others : Nat) (table : List κ) : List κ → Option (List κ × List κ)
  | [] => if bound < table.length + others then none else some (table, [])
  | i :: queue =>
    if bound < table.length + others then evict bound others (table.erase i) queue
    else some (table, i :: queue)

/-- The queue holds the table's entries, each once. -/
def Tracks (table queue : List κ) : Prop := table.Nodup ∧ queue.Perm table

omit [DecidableEq κ] in
theorem Tracks.nil : Tracks ([] : List κ) [] := ⟨List.nodup_nil, List.Perm.refl _⟩

/-- An insertion into the table, with the entry put at the back of the queue. -/
theorem Tracks.insert {table queue : List κ} (h : Tracks table queue) (i : κ) :
    Tracks (table.insert i) (touch queue i) := by
  obtain ⟨hnd, hp⟩ := h
  by_cases hi : i ∈ table
  · -- a use: the queue is reordered, the table is unchanged
    rw [List.insert_of_mem hi]
    refine ⟨hnd, ?_⟩
    have hq : i ∈ queue := hp.mem_iff.mpr hi
    -- the entry leaves its place and comes back at the end: the same entries
    exact (List.perm_append_singleton _ _).trans ((List.perm_cons_erase hq).symm.trans hp)
  · rw [List.insert_of_not_mem hi]
    refine ⟨List.nodup_cons.mpr ⟨hi, hnd⟩, ?_⟩
    have hq : i ∉ queue := fun hm => hi (hp.mem_iff.mp hm)
    unfold touch
    rw [List.erase_of_not_mem hq]
    exact (List.perm_append_singleton _ _).trans (hp.cons i)

omit [DecidableEq κ] in
/-- The table is a set: its order does not matter. -/
theorem Tracks.perm {table table' queue : List κ} (h : Tracks table queue)
    (hp : table'.Perm table) : Tracks table' queue :=
  ⟨hp.nodup_iff.mpr h.1, h.2.trans hp.symm⟩

/-- A use of an entry of the table: the queue is reordered, the table is unchanged. -/
theorem Tracks.touch {table queue : List κ} (h : Tracks table queue) {i : κ} (hi : i ∈ table) :
    Tracks table (touch queue i) := by
  have ht := h.insert i
  rwa [List.insert_of_mem hi] at ht

theorem Tracks.erase {table queue : List κ} (h : Tracks table queue) (i : κ) :
    Tracks (table.erase i) (queue.erase i) :=
  ⟨h.1.erase i, h.2.erase i⟩

omit [DecidableEq κ] in
theorem Tracks.removeAll [BEq κ] {table queue : List κ} (h : Tracks table queue)
    (victims : List κ) :
    Tracks (table.removeAll victims) (queue.removeAll victims) :=
  ⟨h.1.filter _, h.2.filter _⟩

omit [DecidableEq κ] in
/-- Erasing an entry from a list without duplicates, then a batch, removes the entry with the
batch. -/
theorem removeAll_erase [BEq κ] [LawfulBEq κ] {l : List κ} (h : l.Nodup) (a : κ) (vs : List κ) :
    (l.erase a).removeAll vs = l.removeAll (a :: vs) := by
  rw [h.erase_eq_filter, List.removeAll, List.removeAll, List.filter_filter]
  refine List.filter_congr fun x _ => ?_
  by_cases hx : x = a <;> simp [hx]

/-- The loop keeps the queue tracking the table, and stops only within the bound. The
induction is on the queue, one pop per element. -/
theorem Tracks.evict {bound others : Nat} {table queue table' queue' : List κ}
    (h : Tracks table queue) (he : evict bound others table queue = some (table', queue')) :
    Tracks table' queue' ∧ table'.length + others ≤ bound := by
  induction queue generalizing table with
  | nil =>
    unfold LruQueue.evict at he
    split_ifs at he with hover
    cases he
    exact ⟨h, by omega⟩
  | cons i queue ih =>
    unfold LruQueue.evict at he
    split_ifs at he with hover
    · -- the front is popped: the rest of the queue tracks the table without it
      have hrest : Tracks (table.erase i) queue := by
        simpa using h.erase i
      exact ih hrest he
    · cases he
      exact ⟨h, by omega⟩

/-- With the queue tracking the table, the loop pops an empty queue exactly when the entries it
cannot evict are over the bound by themselves. -/
theorem evict_eq_none_iff {bound others : Nat} {table queue : List κ}
    (h : Tracks table queue) : evict bound others table queue = none ↔ bound < others := by
  induction queue generalizing table with
  | nil =>
    -- an empty queue tracks an empty table
    have ht : table = [] := List.Perm.eq_nil h.2.symm
    subst ht
    unfold LruQueue.evict
    split_ifs with hover <;> simp_all
  | cons i queue ih =>
    unfold LruQueue.evict
    split_ifs with hover
    · exact ih (by simpa using h.erase i)
    · simp only [false_iff]
      omega

/-- The loop only takes entries out of the table. -/
theorem evict_sublist {bound others : Nat} {table queue table' queue' : List κ}
    (he : evict bound others table queue = some (table', queue')) : table'.Sublist table := by
  induction queue generalizing table with
  | nil =>
    unfold LruQueue.evict at he
    split_ifs at he
    cases he
    exact List.Sublist.refl _
  | cons i queue ih =>
    unfold LruQueue.evict at he
    split_ifs at he
    · exact (ih he).trans (List.erase_sublist ..)
    · cases he
      exact List.Sublist.refl _

end LruQueue
