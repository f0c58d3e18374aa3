import Mathlib.Tactic

/-!
# State machines with guarded steps

A machine has initial states, a guard that says which actions may be taken where, and a partial
step function: `none` means that the action does not complete. `Reach` is reachability along steps
that complete. The rules below carry an invariant along every run, pull it back along a simulation,
and cut a machine down to the runs whose steps all meet an extra condition.
-/

namespace X86Os

structure Machine (S A : Type*) where
  init : S → Prop
  enabled : S → A → Prop
  step : S → A → Option S

namespace Machine

variable {S A S' A' : Type*} (M : Machine S A)

inductive Reach : S → Prop
  | init {s : S} (h : M.init s) : Reach s
  | step {s s' : S} {a : A} (h : Reach s) (he : M.enabled s a) (hs : M.step s a = some s') :
      Reach s'

/-- A run from a state, with its actions and the states they lead to. -/
inductive Path : S → List (A × S) → Prop
  | nil (s : S) : Path s []
  | cons {s s' : S} {a : A} {tr : List (A × S)} (he : M.enabled s a) (hs : M.step s a = some s')
      (h : Path s' tr) : Path s ((a, s') :: tr)

/-- The state a run from `s` ends in. -/
def final (s : S) : List (A × S) → S
  | [] => s
  | x :: tr => final x.2 tr

variable {M}

theorem Reach.final {s : S} {tr : List (A × S)} (h : M.Reach s) (hp : M.Path s tr) :
    M.Reach (final s tr) := by
  induction hp with
  | nil s => exact h
  | cons he hs _ ih => exact ih (.step h he hs)

/-- What holds initially and is kept by every step holds in every reachable state. -/
theorem Reach.invariant {I : S → Prop} (hinit : ∀ s, M.init s → I s)
    (hstep : ∀ s a s', I s → M.enabled s a → M.step s a = some s' → I s')
    {s : S} (h : M.Reach s) : I s := by
  induction h with
  | init h => exact hinit _ h
  | step _ he hs ih => exact hstep _ _ _ ih he hs

/-- As `Reach.invariant`, where a step may also use that its start is reachable. -/
theorem Reach.invariant' {I : S → Prop} (hinit : ∀ s, M.init s → I s)
    (hstep : ∀ s a s', M.Reach s → I s → M.enabled s a → M.step s a = some s' → I s')
    {s : S} (h : M.Reach s) : I s := by
  induction h with
  | init h => exact hinit _ h
  | step hr he hs ih => exact hstep _ _ _ hr ih he hs

/-- The runs of `M` whose steps all meet the condition `C`. -/
def restrict (M : Machine S A) (C : S → A → Prop) : Machine S A where
  init := M.init
  enabled s a := M.enabled s a ∧ C s a
  step := M.step

theorem Reach.of_restrict {C : S → A → Prop} {s : S} (h : (M.restrict C).Reach s) : M.Reach s := by
  induction h with
  | init h => exact .init h
  | step _ he hs ih => exact .step ih he.1 hs

end Machine

end X86Os
