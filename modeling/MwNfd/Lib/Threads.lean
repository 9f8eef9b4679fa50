import Mathlib.Data.List.Permutation

/-!
# Threads of atomic steps over one shared state

A configuration is a shared state and a list of threads, each with the instructions it still has
to run and its own local state. A schedule names, step by step, the thread that runs its next
instruction; `exec` gives the meaning of one instruction. A schedule is serial when it runs whole
threads one after another, and a configuration is linearizable when every schedule that runs all
threads to their end leaves the shared state that some serial order leaves.

* `run_replicate`: a thread scheduled alone runs its whole program, as `execAll` folds it.
* `shared_run_serial`: a serial schedule leaves the state of the threads' programs composed in
  its order (`serialShared`).
* `not_linearizable`: one complete schedule that no order of the threads reproduces refutes
  linearizability.

Nothing here mentions a particular system.
-/

namespace Threads

variable {σ τ ι : Type _}

/-- Threads over one shared state: each with its instructions still to run and its local
state. -/
structure Config (σ τ ι : Type _) where
  shared : σ
  threads : List (List ι × τ)

/-- The instructions of one thread run to their end, each atomically, from a shared and a
local state. -/
def execAll (exec : ι → σ × τ → σ × τ) (prog : List ι) (sl : σ × τ) : σ × τ :=
  prog.foldl (fun sl x => exec x sl) sl

/-- One step of the thread numbered `i`: its next instruction runs on the shared state and its
own. A thread that has ended, or is not there, does nothing. -/
def step (exec : ι → σ × τ → σ × τ) (c : Config σ τ ι) (i : Nat) : Config σ τ ι :=
  match c.threads[i]? with
  | some (x :: rest, l) =>
    let sl := exec x (c.shared, l)
    ⟨sl.1, c.threads.set i (rest, sl.2)⟩
  | _ => c

/-- The steps of a schedule, one after another. -/
def run (exec : ι → σ × τ → σ × τ) (c : Config σ τ ι) (schedule : List Nat) : Config σ τ ι :=
  schedule.foldl (step exec) c

/-- Every thread has run to its end. -/
def Done (c : Config σ τ ι) : Prop :=
  ∀ t ∈ c.threads, t.1 = []

/-- The number of instructions thread `i` has. -/
def Config.length (c : Config σ τ ι) (i : Nat) : Nat :=
  (c.threads[i]?.map fun t => t.1.length).getD 0

/-- The schedule that runs whole threads one after another, in the order `order`. -/
def serial (c : Config σ τ ι) (order : List Nat) : List Nat :=
  order.flatMap fun i => List.replicate (c.length i) i

/-- The shared state the threads' programs leave when composed in the order `order`. -/
def serialShared (exec : ι → σ × τ → σ × τ) (c : Config σ τ ι) (order : List Nat) : σ :=
  order.foldl (fun s i =>
    match c.threads[i]? with
    | some (prog, l) => (execAll exec prog (s, l)).1
    | none => s) c.shared

/-- Every schedule that runs all threads to their end leaves the shared state of some serial
order of them. -/
def Linearizable (exec : ι → σ × τ → σ × τ) (c : Config σ τ ι) : Prop :=
  ∀ schedule, Done (run exec c schedule) →
    ∃ order, order.Perm (List.range c.threads.length) ∧
      (run exec c schedule).shared = (run exec c (serial c order)).shared

variable (exec : ι → σ × τ → σ × τ)

@[simp] theorem run_nil (c : Config σ τ ι) : run exec c [] = c := rfl

@[simp] theorem run_cons (c : Config σ τ ι) (i : Nat) (schedule : List Nat) :
    run exec c (i :: schedule) = run exec (step exec c i) schedule := rfl

theorem run_append (c : Config σ τ ι) (s₁ s₂ : List Nat) :
    run exec c (s₁ ++ s₂) = run exec (run exec c s₁) s₂ :=
  List.foldl_append

@[simp] theorem execAll_nil (sl : σ × τ) : execAll exec [] sl = sl := rfl

@[simp] theorem execAll_cons (x : ι) (prog : List ι) (sl : σ × τ) :
    execAll exec (x :: prog) sl = execAll exec prog (exec x sl) := rfl

variable {exec}

theorem step_of_getElem? {c : Config σ τ ι} {i : Nat} {x : ι} {rest : List ι} {l : τ}
    (h : c.threads[i]? = some (x :: rest, l)) :
    step exec c i = ⟨(exec x (c.shared, l)).1, c.threads.set i (rest, (exec x (c.shared, l)).2)⟩ :=
  by simp [step, h]

/-- A thread scheduled alone for as many steps as it has instructions runs its whole program;
the other threads are left as they were. -/
theorem run_replicate {c : Config σ τ ι} {i : Nat} {prog : List ι} {l : τ}
    (h : c.threads[i]? = some (prog, l)) :
    run exec c (List.replicate prog.length i) =
      ⟨(execAll exec prog (c.shared, l)).1,
        c.threads.set i ([], (execAll exec prog (c.shared, l)).2)⟩ := by
  -- the thread's program shrinks by one instruction a step; the list of threads is set at `i`
  -- every time, so only the last setting remains
  induction prog generalizing c l with
  | nil =>
    obtain ⟨hlen, hget⟩ := List.getElem?_eq_some_iff.mp h
    have hset : c.threads.set i ([], l) = c.threads := by
      rw [← hget, List.set_getElem_self]
    simp [hset]
  | cons x rest ih =>
    have hstep : step exec c i = _ := step_of_getElem? h
    have hi : (step exec c i).threads[i]? = some (rest, (exec x (c.shared, l)).2) := by
      have hlen : i < c.threads.length := (List.getElem?_eq_some_iff.mp h).1
      simp [hstep, hlen]
    rw [List.length_cons, List.replicate_succ, run_cons, ih hi, hstep]
    simp

theorem getElem?_run_replicate_of_ne {c : Config σ τ ι} {i j : Nat} {prog : List ι} {l : τ}
    (h : c.threads[i]? = some (prog, l)) (hij : i ≠ j) :
    (run exec c (List.replicate prog.length i)).threads[j]? = c.threads[j]? := by
  rw [run_replicate h, List.getElem?_set_ne hij]

/-- Composing the threads' programs from a shared state. -/
theorem serialShared_cons (c : Config σ τ ι) (i : Nat) (order : List Nat) :
    serialShared exec c (i :: order) =
      serialShared exec ⟨serialShared exec c [i], c.threads⟩ order := rfl

@[simp] theorem serialShared_nil (c : Config σ τ ι) : serialShared exec c [] = c.shared := rfl

/-- Two threads composed in the order `[i, j]`. -/
theorem serialShared_pair {s : σ} {ts : List (List ι × τ)} {i j : Nat} {tᵢ tⱼ : List ι × τ}
    (hi : ts[i]? = some tᵢ) (hj : ts[j]? = some tⱼ) :
    serialShared exec ⟨s, ts⟩ [i, j] =
      (execAll exec tⱼ.1 ((execAll exec tᵢ.1 (s, tᵢ.2)).1, tⱼ.2)).1 := by
  simp [serialShared, hi, hj]

/-- A serial schedule runs the threads' programs one after another. The run may start from any
configuration that still has the programs of the threads in the order; the threads are named
once each. -/
theorem shared_run_serial_of_agree (c : Config σ τ ι) :
    ∀ (order : List Nat) (c' : Config σ τ ι), order.Nodup →
      (∀ j ∈ order, c'.threads[j]? = c.threads[j]?) →
      (run exec c' (serial c order)).shared =
        serialShared exec ⟨c'.shared, c.threads⟩ order := by
  intro order
  induction order with
  | nil => intro c' _ _; rfl
  | cons i order ih =>
    intro c' hnodup hagree
    obtain ⟨hi, hnodup⟩ := List.nodup_cons.mp hnodup
    have hci := hagree i List.mem_cons_self
    rw [serial, List.flatMap_cons, ← serial, run_append, serialShared_cons]
    cases hthread : c.threads[i]? with
    | none =>
      -- a thread that is not there has no steps and changes nothing
      have hlen : c.length i = 0 := by simp [Config.length, hthread]
      rw [hlen, List.replicate_zero, run_nil]
      simpa [serialShared, hthread] using
        ih c' hnodup fun j hj => hagree j (List.mem_cons_of_mem i hj)
    | some t =>
      obtain ⟨prog, l⟩ := t
      have hc'i : c'.threads[i]? = some (prog, l) := hci.trans hthread
      have hlen : c.length i = prog.length := by simp [Config.length, hthread]
      have hrest : ∀ j ∈ order,
          (run exec c' (List.replicate prog.length i)).threads[j]? = c.threads[j]? := by
        intro j hj
        have hij : i ≠ j := fun hij => hi (hij ▸ hj)
        rw [getElem?_run_replicate_of_ne hc'i hij]
        exact hagree j (List.mem_cons_of_mem i hj)
      rw [hlen, ih _ hnodup hrest, run_replicate hc'i]
      simp [serialShared, hthread]

theorem shared_run_serial {c : Config σ τ ι} {order : List Nat} (h : order.Nodup) :
    (run exec c (serial c order)).shared = serialShared exec c order :=
  shared_run_serial_of_agree c order c h fun _ _ => rfl

/-- To refute linearizability it is enough to give one schedule that runs every thread to its
end and leaves a shared state that no order of the threads' whole programs leaves. -/
theorem not_linearizable {c : Config σ τ ι} {schedule : List Nat}
    (hdone : Done (run exec c schedule))
    (hne : ∀ order, order.Perm (List.range c.threads.length) →
      (run exec c schedule).shared ≠ serialShared exec c order) :
    ¬ Linearizable exec c := by
  intro hlin
  obtain ⟨order, hperm, heq⟩ := hlin schedule hdone
  have hnodup : order.Nodup := hperm.nodup_iff.mpr List.nodup_range
  exact hne order hperm (heq.trans (shared_run_serial hnodup))

/-- The orders of two threads. -/
theorem perm_range_two {order : List Nat} (h : order.Perm (List.range 2)) :
    order = [0, 1] ∨ order = [1, 0] := by
  have hlen : order.length = 2 := by simpa using h.length_eq
  have hnodup : order.Nodup := h.nodup_iff.mpr List.nodup_range
  have hmem : ∀ a ∈ order, a < 2 := fun a ha => List.mem_range.mp (h.subset ha)
  obtain ⟨a, b, rfl⟩ := List.length_eq_two.mp hlen
  have ha := hmem a (by simp)
  have hb := hmem b (by simp)
  have hab : a ≠ b := by simpa using hnodup
  simp only [List.cons.injEq, and_true]
  omega

end Threads
