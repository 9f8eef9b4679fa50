import Mathlib.Logic.Relation

/-!
# Fallible computations and runs of a step function

The bind rules of `Except` that symbolic execution of a fallible model needs (the core library
has none tagged for `simp`), postconditions of fallible computations with the rule of
sequencing (`Except.Post.bind`), and the runs of a partial step function `σ → α → Option σ`:
`runSteps` folds a list of actions, `Reachable` is the closure of the initial state under steps,
and `Reachable.induction_on` is the inductive-invariant rule. Nothing here mentions a particular
system.
-/

namespace Except

variable {ε α β : Type _}

@[simp] theorem ok_bind' (a : α) (f : α → Except ε β) : (Except.ok a >>= f) = f a := rfl

@[simp] theorem error_bind' (e : ε) (f : α → Except ε β) :
    (Except.error e >>= f) = Except.error e := rfl

@[simp] theorem pure_eq_ok (a : α) : (pure a : Except ε α) = Except.ok a := rfl

/-- Peeling one bind off a successful computation. -/
theorem bind_eq_ok_iff {x : Except ε α} {f : α → Except ε β} {b : β} :
    (x >>= f) = .ok b ↔ ∃ a, x = .ok a ∧ f a = .ok b := by
  cases x with
  | error e => simp
  | ok a => simp

/-- Peeling one bind off a failed computation. -/
theorem bind_eq_error_iff {x : Except ε α} {f : α → Except ε β} {e : ε} :
    (x >>= f) = .error e ↔ x = .error e ∨ ∃ a, x = .ok a ∧ f a = .error e := by
  cases x with
  | error e' => simp
  | ok a => simp

/-- A bind fails with `e` only where one of its parts does. -/
theorem bind_ne_error {x : Except ε α} {f : α → Except ε β} {e : ε} (hx : x ≠ .error e)
    (hf : ∀ a, f a ≠ .error e) : (x >>= f) ≠ .error e := by
  intro h
  rcases bind_eq_error_iff.mp h with h | ⟨a, -, h⟩
  · exact hx h
  · exact hf a h

/-- What a fallible computation ends in: a value with `P`, or an error with `E`. -/
def Post (E : ε → Prop) (P : α → Prop) : Except ε α → Prop
  | .ok a => P a
  | .error e => E e

@[simp] theorem post_ok {E : ε → Prop} {P : α → Prop} {a : α} :
    (Except.ok a : Except ε α).Post E P ↔ P a := Iff.rfl

@[simp] theorem post_error {E : ε → Prop} {P : α → Prop} {e : ε} :
    (Except.error e : Except ε α).Post E P ↔ E e := Iff.rfl

section Post

variable {E : ε → Prop} {P : α → Prop} {Q : β → Prop} {x : Except ε α}

/-- The rule of sequencing: what the first computation ends in is what the second starts from. -/
theorem Post.bind {f : α → Except ε β} (hx : x.Post E P) (hf : ∀ a, P a → (f a).Post E Q) :
    (x >>= f).Post E Q := by
  cases x with
  | error e => exact hx
  | ok a => exact hf a hx

theorem Post.imp {P' : α → Prop} (hx : x.Post E P) (h : ∀ a, P a → P' a) : x.Post E P' := by
  cases x with
  | error e => exact hx
  | ok a => exact h a hx

theorem Post.map {f : α → β} (hx : x.Post E P) (h : ∀ a, P a → Q (f a)) :
    (x.map f).Post E Q := by
  cases x with
  | error e => exact hx
  | ok a => exact h a hx

end Post

end Except

namespace Steps

variable {σ α : Type _}

/-- The state after the actions of a list, or `none` as soon as one of them is refused. -/
def runSteps (step : σ → α → Option σ) : σ → List α → Option σ
  | s, [] => some s
  | s, a :: as => (step s a).bind fun s' => runSteps step s' as

@[simp] theorem runSteps_nil (step : σ → α → Option σ) (s : σ) :
    runSteps step s [] = some s :=
  rfl

@[simp] theorem runSteps_cons (step : σ → α → Option σ) (s : σ) (a : α) (as : List α) :
    runSteps step s (a :: as) = (step s a).bind fun s' => runSteps step s' as := rfl

/-- The states a run of `step` reaches from `init`. -/
inductive Reachable (step : σ → α → Option σ) (init : σ) : σ → Prop
  | init : Reachable step init init
  | step {s s' : σ} (a : α) :
      Reachable step init s → step s a = some s' → Reachable step init s'

/-- The inductive-invariant rule: a predicate of the initial state that every step preserves
holds of every reachable state. -/
theorem Reachable.induction_on {step : σ → α → Option σ} {init s : σ} {I : σ → Prop}
    (h : Reachable step init s) (h₀ : I init)
    (hstep : ∀ s a s', I s → step s a = some s' → I s') : I s := by
  induction h with
  | init => exact h₀
  | step a _ hs ih => exact hstep _ a _ ih hs

/-- A run that is not refused ends in a reachable state. -/
theorem Reachable.of_runSteps {step : σ → α → Option σ} {init s s' : σ} {as : List α}
    (hs : Reachable step init s) (hrun : runSteps step s as = some s') :
    Reachable step init s' := by
  induction as generalizing s with
  | nil =>
    simp only [runSteps_nil, Option.some.injEq] at hrun
    exact hrun ▸ hs
  | cons a as ih =>
    simp only [runSteps_cons, Option.bind_eq_some_iff] at hrun
    obtain ⟨s₁, h₁, hrest⟩ := hrun
    exact ih (Reachable.step a hs h₁) hrest

end Steps
