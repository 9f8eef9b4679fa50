import Mathlib.Data.List.Nodup

/-!
# Ordered maps as sorted association lists, and vectors of handles to their entries

An ordered map is a list of entries whose keys strictly increase (`Sorted`). Its operations are
those of `std::map`: `find?`, `emplace` (the entry goes in at its place, unless the key has one
already, and then nothing changes), `erase` (the key's entry goes), `next` (the key after the
key's entry: the iterator `erase` returns), `modify` (the value of a key changes) and `first?`
(the key at `begin()`, `none` at `end()`).

An entry is named by its key, so a vector of handles to entries (iterators) is a list of keys.
`List.replace` overwrites the first occurrence of a handle (`*std::find(b, e, h) = h'`), and
`swapRemove` overwrites it with the last handle and pops the last one
(`*it = v.back(); v.pop_back()`). Both permute the list with the handle removed
(`perm_replace`, `perm_swapRemove`).
-/

namespace SortedMap

variable {κ α : Type _}

/-- The keys of the entries, in map order. -/
def keys (m : List (κ × α)) : List κ := m.map Prod.fst

/-- The key of the first entry, `none` for the empty map. -/
def first? (m : List (κ × α)) : Option κ := m.head?.map Prod.fst

@[simp] theorem keys_nil : keys ([] : List (κ × α)) = [] := rfl

@[simp] theorem keys_cons (e : κ × α) (m : List (κ × α)) : keys (e :: m) = e.1 :: keys m := rfl

@[simp] theorem keys_append (m m' : List (κ × α)) : keys (m ++ m') = keys m ++ keys m' :=
  List.map_append

@[simp] theorem first?_nil : first? ([] : List (κ × α)) = none := rfl

@[simp] theorem first?_cons (e : κ × α) (m : List (κ × α)) : first? (e :: m) = some e.1 := rfl

theorem mem_keys {m : List (κ × α)} {k : κ} : k ∈ keys m ↔ ∃ v, (k, v) ∈ m := by
  simp [keys]

theorem mem_keys_of_mem {m : List (κ × α)} {e : κ × α} (h : e ∈ m) : e.1 ∈ keys m :=
  List.mem_map_of_mem h

theorem first?_eq_none_iff {m : List (κ × α)} : first? m = none ↔ m = [] := by
  cases m <;> simp

theorem mem_keys_of_first?_eq_some {m : List (κ × α)} {k : κ} (h : first? m = some k) :
    k ∈ keys m := by
  cases m with
  | nil => simp at h
  | cons e m =>
    simp only [first?_cons, Option.some.injEq] at h
    simp [h]

theorem first?_append_of_ne_nil {m : List (κ × α)} (h : m ≠ []) (m' : List (κ × α)) :
    first? (m ++ m') = first? m := by
  cases m with
  | nil => exact absurd rfl h
  | cons e m => rfl

/-- Values changed in place, keys kept. -/
@[simp] theorem keys_map_val {β : Type _} (m : List (κ × α)) (g : κ × α → β) :
    keys (m.map fun e => (e.1, g e)) = keys m := by
  simp [keys, List.map_map, Function.comp_def]

@[simp] theorem first?_map_val {β : Type _} (m : List (κ × α)) (g : κ × α → β) :
    first? (m.map fun e => (e.1, g e)) = first? m := by
  cases m <;> rfl

section Erase

variable [DecidableEq κ]

/-- `std::map::erase` of the key's entry. -/
def erase (m : List (κ × α)) (k : κ) : List (κ × α) := m.filter fun e => e.1 != k

/-- The key of the entry after the key's entry, `none` if it is the last: what `erase` of the
key's iterator returns. -/
def next (m : List (κ × α)) (k : κ) : Option κ :=
  first? ((m.dropWhile fun e => e.1 != k).drop 1)

/-- The value of the key's entry changed by `f`: an assignment through its iterator. -/
def modify (m : List (κ × α)) (k : κ) (f : α → α) : List (κ × α) :=
  m.map fun e => if e.1 = k then (e.1, f e.2) else e

/-- `std::map::find`: the value of the key's entry. -/
def find? (m : List (κ × α)) (k : κ) : Option α := m.lookup k

theorem mem_of_find?_eq_some {m : List (κ × α)} {k : κ} {v : α} (h : find? m k = some v) :
    (k, v) ∈ m := by
  obtain ⟨l₁, l₂, rfl, -⟩ := List.lookup_eq_some_iff.mp h
  simp

theorem find?_eq_none {m : List (κ × α)} {k : κ} (hk : k ∉ keys m) : find? m k = none := by
  rw [Option.eq_none_iff_forall_ne_some]
  intro v hv
  exact hk (mem_keys.mpr ⟨v, mem_of_find?_eq_some hv⟩)

theorem mem_erase {m : List (κ × α)} {k : κ} {e : κ × α} : e ∈ erase m k ↔ e ∈ m ∧ e.1 ≠ k := by
  simp [erase]

theorem mem_keys_erase {m : List (κ × α)} {k k' : κ} :
    k' ∈ keys (erase m k) ↔ k' ∈ keys m ∧ k' ≠ k := by
  simp only [mem_keys, mem_erase]
  constructor
  · rintro ⟨v, hv, hne⟩
    exact ⟨⟨v, hv⟩, hne⟩
  · rintro ⟨⟨v, hv⟩, hne⟩
    exact ⟨v, hv, hne⟩

theorem erase_sublist (m : List (κ × α)) (k : κ) : (erase m k).Sublist m := List.filter_sublist

theorem erase_cons_of_ne {k k' : κ} (v : α) (m : List (κ × α)) (hne : k' ≠ k) :
    erase ((k', v) :: m) k = (k', v) :: erase m k := by
  simp [erase, hne]

theorem erase_of_not_mem {m : List (κ × α)} {k : κ} (h : k ∉ keys m) : erase m k = m := by
  refine List.filter_eq_self.mpr fun e he => ?_
  have hne : e.1 ≠ k := fun heq => h (heq ▸ mem_keys_of_mem he)
  simpa using hne

theorem next_cons_self (k : κ) (v : α) (m : List (κ × α)) : next ((k, v) :: m) k = first? m := by
  simp [next]

theorem modify_append_of_not_mem {m : List (κ × α)} {k : κ} (v : α) (f : α → α)
    (hk : k ∉ keys m) : modify (m ++ [(k, v)]) k f = m ++ [(k, f v)] := by
  have hm : (m.map fun e => if e.1 = k then (e.1, f e.2) else e) = m := by
    conv_rhs => rw [← List.map_id m]
    refine List.map_congr_left fun e he => ?_
    have hne : e.1 ≠ k := fun heq => hk (heq ▸ mem_keys_of_mem he)
    simp [hne]
  simp [modify, hm]

end Erase

section Ordered

variable [LT κ]

/-- Keys in strictly increasing order. -/
def Sorted (m : List (κ × α)) : Prop := m.Pairwise fun a b => a.1 < b.1

theorem Sorted.sublist {m m' : List (κ × α)} (h : Sorted m) (hsub : m'.Sublist m) : Sorted m' :=
  List.Pairwise.sublist hsub h

theorem Sorted.append_single {m : List (κ × α)} {k : κ} (h : Sorted m)
    (hk : ∀ k' ∈ keys m, k' < k) (v : α) : Sorted (m ++ [(k, v)]) := by
  refine List.pairwise_append.mpr ⟨h, List.pairwise_singleton _ _, ?_⟩
  intro a ha b hb
  rw [List.mem_singleton] at hb
  subst hb
  exact hk a.1 (mem_keys_of_mem ha)

theorem Sorted.map_val {β : Type _} {m : List (κ × α)} (h : Sorted m) (g : κ × α → β) :
    Sorted (m.map fun e => (e.1, g e)) :=
  List.pairwise_map.mpr h

/-- The first key is the least. -/
theorem Sorted.first?_le {m : List (κ × α)} (h : Sorted m) {k k' : κ} (hk : first? m = some k)
    (hk' : k' ∈ keys m) : k = k' ∨ k < k' := by
  cases m with
  | nil => simp at hk
  | cons e m =>
    simp only [first?_cons, Option.some.injEq] at hk
    subst hk
    simp only [keys_cons, List.mem_cons] at hk'
    rcases hk' with rfl | hk'
    · exact .inl rfl
    · obtain ⟨v, hv⟩ := mem_keys.mp hk'
      exact .inr (List.rel_of_pairwise_cons h hv)

theorem sorted_erase [DecidableEq κ] {m : List (κ × α)} (h : Sorted m) (k : κ) :
    Sorted (erase m k) :=
  h.sublist (erase_sublist m k)

variable [Std.Asymm (α := κ) (· < ·)]

theorem ne_of_lt' {a b : κ} (h : a < b) : a ≠ b := by
  rintro rfl
  exact Std.Asymm.asymm a a h h

theorem Sorted.nodup_keys {m : List (κ × α)} (h : Sorted m) : (keys m).Nodup :=
  List.pairwise_map.mpr (h.imp ne_of_lt')

theorem Sorted.eq_of_mem {m : List (κ × α)} (h : Sorted m) {k : κ} {v w : α} (hv : (k, v) ∈ m)
    (hw : (k, w) ∈ m) : v = w :=
  (Prod.mk.inj (List.inj_on_of_nodup_map h.nodup_keys hv hw rfl)).2

section Find

variable [DecidableEq κ]

theorem Sorted.find?_eq_some {m : List (κ × α)} (h : Sorted m) {k : κ} {v : α}
    (hv : (k, v) ∈ m) : find? m k = some v := by
  induction m with
  | nil => simp at hv
  | cons e m ih =>
    obtain ⟨k', v'⟩ := e
    by_cases hk : k = k'
    · subst hk
      have hvv : v = v' := h.eq_of_mem hv List.mem_cons_self
      simp [find?, hvv]
    · have hv' : (k, v) ∈ m := by simpa [hk] using hv
      have hb : (k == k') = false := by simpa using hk
      simp only [find?, List.lookup_cons, hb]
      exact ih h.of_cons hv'

theorem Sorted.erase_cons_self {k : κ} {v : α} {m : List (κ × α)} (h : Sorted ((k, v) :: m)) :
    erase ((k, v) :: m) k = m := by
  have hk : k ∉ keys m := fun hk => by
    obtain ⟨w, hw⟩ := mem_keys.mp hk
    exact ne_of_lt' (List.rel_of_pairwise_cons h hw) rfl
  simp only [erase, List.filter_cons, bne_self_eq_false, Bool.false_eq_true, if_false]
  exact erase_of_not_mem hk

end Find

variable [DecidableEq κ] [DecidableLT κ]

/-- `std::map::emplace` (a hint changes only the cost): the entry goes in before the first
greater key, unless the key has an entry, and then nothing changes. -/
def emplace (m : List (κ × α)) (k : κ) (v : α) : List (κ × α) :=
  match m with
  | [] => [(k, v)]
  | (k', v') :: rest =>
    if k < k' then (k, v) :: (k', v') :: rest
    else if k = k' then (k', v') :: rest
    else (k', v') :: emplace rest k v

/-- A key above every key goes in last. -/
theorem emplace_of_lt {m : List (κ × α)} {k : κ} (v : α) (hk : ∀ k' ∈ keys m, k' < k) :
    emplace m k v = m ++ [(k, v)] := by
  induction m with
  | nil => rfl
  | cons e m ih =>
    obtain ⟨k', v'⟩ := e
    have hlt : k' < k := hk k' (by simp)
    have hnlt : ¬ k < k' := Std.Asymm.asymm k' k hlt
    have hne : k ≠ k' := (ne_of_lt' hlt).symm
    simp only [emplace, hnlt, hne, if_false, List.cons_append]
    rw [ih fun k'' hk'' => hk k'' (by simp [hk''])]

end Ordered

section Handles

variable {β : Type _} [DecidableEq β]

/-- The first occurrence of `a` overwritten by the last element, and the last element dropped:
`*std::find(v.begin(), v.end(), a) = v.back(); v.pop_back()`. -/
def swapRemove (l : List β) (a : β) : List β := (l.set (l.idxOf a) (l.getLastD a)).dropLast

theorem swapRemove_cons_of_ne {x a : β} {xs : List β} (hx : x ≠ a) (ha : a ∈ xs) :
    swapRemove (x :: xs) a = x :: swapRemove xs a := by
  obtain ⟨y, ys, rfl⟩ := List.exists_cons_of_ne_nil (List.ne_nil_of_mem ha)
  have hset : (y :: ys).set (List.idxOf a (y :: ys)) (ys.getLastD y) ≠ [] := by
    simp [List.set_eq_nil_iff]
  simp only [swapRemove, List.idxOf_cons_ne _ hx, List.getLastD_cons, List.set_cons_succ]
  exact List.dropLast_cons_of_ne_nil hset

theorem perm_swapRemove {l : List β} {a : β} (h : a ∈ l) : (swapRemove l a).Perm (l.erase a) := by
  induction l with
  | nil => simp at h
  | cons x xs ih =>
    by_cases hx : x = a
    · subst hx
      -- the handle is first: the last one takes its place, and the last place is dropped
      rcases List.eq_nil_or_concat xs with rfl | ⟨ys, z, rfl⟩
      · simp [swapRemove]
      · rw [List.concat_eq_append]
        have hlast : (x :: (ys ++ [z])).getLastD x = z := by
          rw [List.getLastD_cons, List.getLastD_eq_getLast?]
          simp
        simp only [swapRemove, List.idxOf_cons_self, hlast, List.set_cons_zero,
          List.erase_cons_head]
        rw [← List.cons_append, List.dropLast_concat]
        exact (List.perm_append_singleton z ys).symm
    · have ha : a ∈ xs := (List.mem_cons.mp h).resolve_left (Ne.symm hx)
      rw [swapRemove_cons_of_ne hx ha, List.erase_cons_tail (by simpa using hx)]
      exact (ih ha).cons x

theorem perm_replace {l : List β} {a : β} (b : β) (h : a ∈ l) :
    (l.replace a b).Perm (b :: l.erase a) := by
  induction l with
  | nil => simp at h
  | cons x xs ih =>
    by_cases hx : x = a
    · subst hx
      simp
    · have ha : a ∈ xs := (List.mem_cons.mp h).resolve_left (Ne.symm hx)
      have hxa : (a == x) = false := by simpa using Ne.symm hx
      rw [List.replace_cons, hxa, List.erase_cons_tail (by simpa using hx)]
      exact ((ih ha).cons x).trans (List.Perm.swap b x _)

end Handles

end SortedMap
