import Mathlib.Data.Finset.Card

/-!
# Loops over a finite set of states

A loop whose pass either goes on to a new state or stops is a partial function
`next : σ → Option σ`; `iterate next n s` is the state after `n` passes from `s`, or `none` once
a pass has stopped. A loop that comes back to a state goes round forever, and a loop whose states
lie in a finite set `S` and that makes more passes than `S` has elements has come back to one
(the pigeonhole principle). So running such a loop for `S.card + 1` passes decides whether it
stops.

* `Loop.iterate_isSome_of_cycle`: from a state the loop comes back to, it never stops.
* `Loop.iterate_isSome_of_card_lt`: a loop that makes more passes than its states number never
  stops.
-/

namespace Loop

variable {σ : Type*} (next : σ → Option σ)

/-- The state after `n` passes of the loop from `s`, or `none` when a pass stops. -/
def iterate : Nat → σ → Option σ
  | 0, s => some s
  | n + 1, s => (next s).bind (iterate n)

variable {next}

@[simp] theorem iterate_zero (s : σ) : iterate next 0 s = some s := rfl

theorem iterate_succ (n : Nat) (s : σ) : iterate next (n + 1) s = (next s).bind (iterate next n) :=
  rfl

/-- Passes compose: `m + n` passes are `m` passes, then `n` from where they end. -/
theorem iterate_add (m n : Nat) (s : σ) :
    iterate next (m + n) s = (iterate next m s).bind (iterate next n) := by
  induction m generalizing s with
  | zero => simp
  | succ m ih =>
    rw [Nat.add_right_comm, iterate_succ, iterate_succ, Option.bind_assoc]
    cases next s with
    | none => rfl
    | some t => exact ih t

/-- A loop that goes on for `n` passes went on for each fewer number of passes. -/
theorem isSome_iterate_of_le {m n : Nat} {s : σ} (h : (iterate next n s).isSome) (hmn : m ≤ n) :
    (iterate next m s).isSome := by
  obtain ⟨k, rfl⟩ := Nat.exists_eq_add_of_le hmn
  rw [iterate_add] at h
  cases hm : iterate next m s with
  | none => rw [hm] at h; cases h
  | some t => rfl

/-- From a state the loop comes back to after `p` passes, it never stops. The induction is on
the number of passes, `p` at a time. -/
theorem iterate_isSome_of_cycle {s : σ} {p : Nat} (hp : 0 < p) (hcyc : iterate next p s = some s)
    (n : Nat) : (iterate next n s).isSome := by
  induction n using Nat.strong_induction_on with
  | _ n ih =>
    by_cases hn : n < p
    · exact isSome_iterate_of_le (by rw [hcyc]; rfl) hn.le
    · -- one round brings the loop back to `s`, with `n - p` passes left
      obtain ⟨k, rfl⟩ := Nat.exists_eq_add_of_le (not_lt.mp hn)
      rw [iterate_add, hcyc, Option.bind_some]
      exact ih k (by omega)

/-- The pigeonhole principle for loops: when every state from which a pass goes on lies in `S`,
a loop that goes on for `S.card + 1` passes has come back to a state, and never stops. -/
theorem iterate_isSome_of_card_lt {S : Finset σ} {s : σ}
    (hS : ∀ n t, iterate next n s = some t → (next t).isSome → t ∈ S)
    (h : (iterate next (S.card + 1) s).isSome) (n : Nat) : (iterate next n s).isSome := by
  -- the states before each of the first `S.card + 1` passes
  let state : Nat → σ := fun i => (iterate next i s).getD s
  have hstate : ∀ i ≤ S.card + 1, iterate next i s = some (state i) := fun i hi => by
    obtain ⟨t, ht⟩ := Option.isSome_iff_exists.mp (isSome_iterate_of_le h hi)
    simp [state, ht]
  have hmaps : ∀ i ∈ Finset.range (S.card + 1), state i ∈ S := fun i hi => by
    rw [Finset.mem_range] at hi
    refine hS i (state i) (hstate i hi.le) ?_
    have hnext := hstate (i + 1) hi
    rw [iterate_add, hstate i hi.le, Option.bind_some, iterate_succ] at hnext
    cases hn : next (state i) with
    | none => rw [hn] at hnext; cases hnext
    | some t => rfl
  obtain ⟨i, hi, j, hj, hne, heq⟩ := Finset.exists_ne_map_eq_of_card_lt_of_maps_to
    (by simp : S.card < (Finset.range (S.card + 1)).card) hmaps
  rw [Finset.mem_range] at hi hj
  -- two passes start from the same state: the loop goes round from there
  have hround : ∀ {a b}, a < b → b < S.card + 1 → state a = state b →
      ∀ n, (iterate next n s).isSome := fun {a b} hab hb hsame n => by
    obtain ⟨c, rfl⟩ := Nat.exists_eq_add_of_le hab.le
    have hcyc : iterate next c (state a) = some (state a) := by
      have hb' := hstate (a + c) hb.le
      rw [iterate_add, hstate a (by omega), Option.bind_some] at hb'
      rw [hb', hsame]
    by_cases hn : n ≤ a
    · exact isSome_iterate_of_le (by rw [hstate a (by omega)]; rfl) hn
    · obtain ⟨k, rfl⟩ := Nat.exists_eq_add_of_le (not_le.mp hn).le
      rw [iterate_add, hstate a (by omega), Option.bind_some]
      exact iterate_isSome_of_cycle (by omega) hcyc k
  rcases Nat.lt_or_gt_of_ne hne with hij | hji
  · exact hround hij hj heq n
  · exact hround hji hi heq.symm n

end Loop
