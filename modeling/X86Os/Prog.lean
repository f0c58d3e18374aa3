import Mathlib.Tactic

/-!
# Programs that may halt

A program takes a state to a value and a new state, or halts for good, as after a failed assertion or
a page fault. `Along R` says that every run which does not halt moves along the preorder `R`. The rules
follow the ways of building programs.
-/

set_option linter.unusedSectionVars false

namespace X86Os

def Prog (S A : Type) : Type := S → Option (A × S)

namespace Prog

variable {S A B : Type}

instance : Monad (Prog S) where
  pure a := fun s => some (a, s)
  bind f g := fun s => (f s).bind fun r => g r.1 r.2

def halt : Prog S A := fun _ => none

/-- Read from the state. -/
def gets (f : S → A) : Prog S A := fun s => some (f s, s)

def modify (f : S → S) : Prog S Unit := fun s => some ((), f s)

/-- Go on only if `p` holds. -/
def require (p : Prop) [Decidable p] : Prog S Unit := if p then pure () else halt

/-- The rounds `first, first + 1, …` of a loop, at most `n` of them; a round that returns a value
leaves the loop with it. -/
def loop (body : ℕ → Prog S (Option B)) : ℕ → ℕ → Prog S (Option B)
  | 0, _ => pure none
  | n + 1, first => do
    match ← body first with
    | some b => pure (some b)
    | none => loop body n (first + 1)

/-- The same for a loop with a local variable, to which a round that goes on gives its next value. -/
def loopWith (body : ℕ → A → Prog S (B ⊕ A)) : ℕ → ℕ → A → Prog S (B ⊕ A)
  | 0, _, a => pure (.inr a)
  | n + 1, first, a => do
    match ← body first a with
    | .inl b => pure (.inl b)
    | .inr a' => loopWith body n (first + 1) a'

/-- Run a program on a part of the state. -/
def zoom {S' : Type} (get : S' → S) (set : S → S' → S') (f : Prog S A) : Prog S' A :=
  fun s => (f (get s)).map fun r => (r.1, set r.2 s)

/-! ## Evaluation -/

variable {s s' s'' : S}

@[simp] theorem pure_apply (a : A) : (pure a : Prog S A) s = some (a, s) := rfl

@[simp] theorem halt_apply : (halt : Prog S A) s = none := rfl

@[simp] theorem gets_apply (f : S → A) : gets f s = some (f s, s) := rfl

@[simp] theorem modify_apply (f : S → S) : modify f s = some ((), f s) := rfl

theorem bind_apply (f : Prog S A) (g : A → Prog S B) :
    (f >>= g) s = (f s).bind fun r => g r.1 r.2 := rfl

/-- A run has one result. -/
theorem result_unique {f : Prog S A} {a b : A} (h : f s = some (a, s')) (h' : f s = some (b, s'')) :
    a = b ∧ s' = s'' :=
  Prod.mk.inj (Option.some.inj (h.symm.trans h'))

theorem bind_of_eq {f : Prog S A} {g : A → Prog S B} {a : A} (h : f s = some (a, s')) :
    (f >>= g) s = g a s' := by
  rw [bind_apply, h]
  rfl

theorem bind_of_none {f : Prog S A} {g : A → Prog S B} (h : f s = none) : (f >>= g) s = none := by
  rw [bind_apply, h]
  rfl

theorem bind_eq_some {f : Prog S A} {g : A → Prog S B} {b : B} :
    (f >>= g) s = some (b, s'') ↔ ∃ a s', f s = some (a, s') ∧ g a s' = some (b, s'') := by
  rw [bind_apply, Option.bind_eq_some_iff]
  constructor
  · rintro ⟨⟨a, s'⟩, hf, hg⟩
    exact ⟨a, s', hf, hg⟩
  · rintro ⟨a, s', hf, hg⟩
    exact ⟨(a, s'), hf, hg⟩

theorem gets_bind (f : S → A) (g : A → Prog S B) : (gets f >>= g) s = g (f s) s := rfl

theorem modify_bind (f : S → S) (g : Unit → Prog S B) : (modify f >>= g) s = g () (f s) := rfl

theorem pure_bind (a : A) (g : A → Prog S B) : (pure a >>= g) s = g a s := rfl

theorem require_of {p : Prop} [Decidable p] (h : p) : (require p : Prog S Unit) s = some ((), s) := by
  simp [require, h]

theorem require_eq_some {p : Prop} [Decidable p] {u : Unit} :
    (require p : Prog S Unit) s = some (u, s') ↔ p ∧ s' = s := by
  by_cases h : p
  · simp [require, h, eq_comm]
  · simp [require, h]

theorem pure_eq_some {a b : A} : (pure a : Prog S A) s = some (b, s') ↔ b = a ∧ s' = s := by
  simp [eq_comm]

theorem gets_eq_some {f : S → A} {a : A} : gets f s = some (a, s') ↔ a = f s ∧ s' = s := by
  simp [eq_comm]

theorem modify_eq_some {f : S → S} {u : Unit} : modify f s = some (u, s') ↔ s' = f s := by
  simp [eq_comm]

theorem zoom_eq_some {S' : Type} {get : S' → S} {set : S → S' → S'} {f : Prog S A} {t t' : S'}
    {a : A} : zoom get set f t = some (a, t') ↔ ∃ r, f (get t) = some (a, r) ∧ t' = set r t := by
  simp only [zoom, Option.map_eq_some_iff, Prod.exists, Prod.mk.injEq]
  constructor
  · rintro ⟨b, r, h, rfl, rfl⟩
    exact ⟨r, h, rfl⟩
  · rintro ⟨r, h, rfl⟩
    exact ⟨a, r, h, rfl, rfl⟩

theorem zoom_of_eq {S' : Type} {get : S' → S} {set : S → S' → S'} {f : Prog S A} {t : S'} {r : S}
    {a : A} (h : f (get t) = some (a, r)) : zoom get set f t = some (a, set r t) :=
  zoom_eq_some.mpr ⟨r, h, rfl⟩

theorem loop_next {body : ℕ → Prog S (Option B)} {n i : ℕ} (h : body i s = some (none, s')) :
    loop body (n + 1) i s = loop body n (i + 1) s' := by
  rw [loop, bind_of_eq h]

theorem loop_leave {body : ℕ → Prog S (Option B)} {n i : ℕ} {b : B}
    (h : body i s = some (some b, s')) : loop body (n + 1) i s = some (some b, s') := by
  rw [loop, bind_of_eq h]
  rfl

theorem loop_halt {body : ℕ → Prog S (Option B)} {n i : ℕ} (h : body i s = none) :
    loop body (n + 1) i s = none := by
  rw [loop, bind_of_none h]

/-- The rounds of a loop after some that did not leave it. -/
theorem loop_append {body : ℕ → Prog S (Option B)} {n i : ℕ} (k : ℕ)
    (h : loop body n i s = some (none, s')) :
    loop body (n + k) i s = loop body k (i + n) s' := by
  induction n generalizing i s with
  | zero =>
      obtain ⟨-, rfl⟩ := pure_eq_some.mp h
      rw [Nat.zero_add, Nat.add_zero]
  | succ n ih =>
      obtain ⟨r, s₁, hr, hrest⟩ := bind_eq_some.mp h
      cases r with
      | some b => cases (pure_eq_some.mp hrest).1
      | none =>
          rw [Nat.succ_add, loop_next hr, ih hrest, Nat.add_assoc, Nat.add_comm 1 n]

/-- The first rounds of a loop that was not left, and the others. -/
theorem loop_split {body : ℕ → Prog S (Option B)} {n k i : ℕ}
    (h : loop body (n + k) i s = some (none, s'')) :
    ∃ s', loop body n i s = some (none, s') ∧ loop body k (i + n) s' = some (none, s'') := by
  induction n generalizing i s with
  | zero =>
      rw [Nat.zero_add] at h
      exact ⟨s, rfl, h⟩
  | succ n ih =>
      rw [Nat.succ_add] at h
      obtain ⟨r, s₁, hr, hrest⟩ := bind_eq_some.mp h
      cases r with
      | some b => cases (pure_eq_some.mp hrest).1
      | none =>
          obtain ⟨s', h₁, h₂⟩ := ih hrest
          rw [Nat.add_right_comm i 1 n] at h₂
          exact ⟨s', (loop_next hr).trans h₁, h₂⟩

/-- Another loop does the same rounds, counted from elsewhere. -/
theorem loop_shift {body body' : ℕ → Prog S (Option B)} {n k i : ℕ}
    (hbody : ∀ j t t', body (k + j) t = some (none, t') → body' j t = some (none, t'))
    (h : loop body n (k + i) s = some (none, s')) : loop body' n i s = some (none, s') := by
  induction n generalizing i s with
  | zero => exact h
  | succ n ih =>
      obtain ⟨r, s₁, hr, hrest⟩ := bind_eq_some.mp h
      cases r with
      | some b => cases (pure_eq_some.mp hrest).1
      | none => exact (loop_next (hbody i s s₁ hr)).trans (ih hrest)

/-- A loop none of whose rounds leaves it, for an invariant indexed by the round. -/
theorem loop_total {body : ℕ → Prog S (Option B)} {I : ℕ → S → Prop} {n i : ℕ}
    (hbody : ∀ j s, i ≤ j → j < i + n → I j s → ∃ s', body j s = some (none, s') ∧ I (j + 1) s')
    (h : I i s) : ∃ s', loop body n i s = some (none, s') ∧ I (i + n) s' := by
  induction n generalizing i s with
  | zero => exact ⟨s, rfl, h⟩
  | succ n ih =>
      obtain ⟨s₁, hs₁, h₁⟩ := hbody i s le_rfl (by omega) h
      obtain ⟨s₂, hs₂, h₂⟩ := ih (i := i + 1) (fun j s hj hn => hbody j s (by omega) (by omega)) h₁
      exact ⟨s₂, (loop_next hs₁).trans hs₂, by rwa [Nat.add_right_comm] at h₂⟩

/-- A loop that ends, for an invariant indexed by the round and a condition at which it is left. -/
theorem loop_cases {body : ℕ → Prog S (Option B)} {I : ℕ → S → Prop} {Q : B → S → Prop} {n i : ℕ}
    {r : Option B}
    (hbody : ∀ j s r s', i ≤ j → j < i + n → I j s → body j s = some (r, s') →
      r.elim (I (j + 1) s') fun b => Q b s')
    (h : I i s) (hrun : loop body n i s = some (r, s')) :
    r.elim (I (i + n) s') fun b => Q b s' := by
  induction n generalizing i s with
  | zero =>
      obtain ⟨rfl, rfl⟩ := pure_eq_some.mp hrun
      exact h
  | succ n ih =>
      obtain ⟨q, s₁, hq, hrest⟩ := bind_eq_some.mp hrun
      have h₁ := hbody i s q s₁ le_rfl (by omega) h hq
      cases q with
      | some b =>
          obtain ⟨rfl, rfl⟩ := pure_eq_some.mp hrest
          exact h₁
      | none =>
          have hih := ih (fun j s r s' hj hn => hbody j s r s' (by omega) (by omega)) h₁ hrest
          rwa [Nat.add_assoc, Nat.add_comm 1 n] at hih

/-- A loop with a local variable none of whose rounds leaves it. -/
theorem loopWith_total {body : ℕ → A → Prog S (B ⊕ A)} {I : ℕ → S → Prop} {n i : ℕ} (a : A)
    (hbody : ∀ j a s, i ≤ j → j < i + n → I j s →
      ∃ a' s', body j a s = some (.inr a', s') ∧ I (j + 1) s')
    (h : I i s) : ∃ a' s', loopWith body n i a s = some (.inr a', s') ∧ I (i + n) s' := by
  induction n generalizing i s a with
  | zero => exact ⟨a, s, rfl, h⟩
  | succ n ih =>
      obtain ⟨a₁, s₁, hs₁, h₁⟩ := hbody i a s le_rfl (by omega) h
      obtain ⟨a₂, s₂, hs₂, h₂⟩ :=
        ih (i := i + 1) a₁ (fun j a s hj hn => hbody j a s (by omega) (by omega)) h₁
      refine ⟨a₂, s₂, ?_, by rwa [Nat.add_right_comm] at h₂⟩
      rw [loopWith, bind_of_eq hs₁]
      exact hs₂

/-- A loop with a local variable that ends, for an invariant and a condition at which it is left. -/
theorem loopWith_cases {body : ℕ → A → Prog S (B ⊕ A)} {I : ℕ → S → Prop} {Q : B → S → Prop}
    {n i : ℕ} {a : A} {r : B ⊕ A}
    (hbody : ∀ j a s r s', i ≤ j → j < i + n → I j s → body j a s = some (r, s') →
      r.elim (fun b => Q b s') fun _ => I (j + 1) s')
    (h : I i s) (hrun : loopWith body n i a s = some (r, s')) :
    r.elim (fun b => Q b s') fun _ => I (i + n) s' := by
  induction n generalizing i s a with
  | zero =>
      obtain ⟨rfl, rfl⟩ := pure_eq_some.mp hrun
      exact h
  | succ n ih =>
      obtain ⟨q, s₁, hq, hrest⟩ := bind_eq_some.mp hrun
      have h₁ := hbody i a s q s₁ le_rfl (by omega) h hq
      cases q with
      | inl b =>
          obtain ⟨rfl, rfl⟩ := pure_eq_some.mp hrest
          exact h₁
      | inr a₁ =>
          have hih := ih (fun j a s r s' hj hn => hbody j a s r s' (by omega) (by omega)) h₁ hrest
          rwa [Nat.add_assoc, Nat.add_comm 1 n] at hih

/-! ## Runs along a preorder -/

def Along (R : S → S → Prop) (f : Prog S A) : Prop := ∀ s a s', f s = some (a, s') → R s s'

section Along

variable {R : S → S → Prop} [IsPreorder S R]

theorem along_pure (a : A) : Along R (pure a : Prog S A) := by
  intro s b s' h
  obtain ⟨-, rfl⟩ := Prod.mk.inj (Option.some.inj h)
  exact refl s

theorem along_gets (f : S → A) : Along R (gets f) := by
  intro s b s' h
  obtain ⟨-, rfl⟩ := Prod.mk.inj (Option.some.inj h)
  exact refl s

theorem along_halt : Along R (halt : Prog S A) := fun _ _ _ h => nomatch h

theorem along_require (p : Prop) [Decidable p] : Along R (require p : Prog S Unit) := by
  intro s u s' h
  obtain ⟨-, rfl⟩ := require_eq_some.mp h
  exact refl s'

theorem along_zoom {S' : Type} {get : S → S'} {set : S' → S → S} {f : Prog S' A}
    (h : ∀ r t, R t (set r t)) : Along R (zoom get set f) := by
  intro s a s' hs
  obtain ⟨r, -, rfl⟩ := zoom_eq_some.mp hs
  exact h r s

theorem along_modify {f : S → S} (h : ∀ s, R s (f s)) : Along R (modify f) := by
  intro s b s' hs
  obtain ⟨-, rfl⟩ := Prod.mk.inj (Option.some.inj hs)
  exact h s

theorem Along.bind {f : Prog S A} {g : A → Prog S B} (hf : Along R f) (hg : ∀ a, Along R (g a)) :
    Along R (f >>= g) := by
  intro s b s'' h
  obtain ⟨a, s', h1, h2⟩ := bind_eq_some.mp h
  exact IsTrans.trans s s' s'' (hf s a s' h1) (hg a s' b s'' h2)

theorem Along.ite {p : Prop} [Decidable p] {f g : Prog S A} (hf : Along R f) (hg : Along R g) :
    Along R (if p then f else g) := by
  split_ifs
  · exact hf
  · exact hg

/-- The rounds that a loop can reach decide. -/
theorem Along.loop_lt {body : ℕ → Prog S (Option B)} {n i : ℕ}
    (h : ∀ j, i ≤ j → j < i + n → Along R (body j)) : Along R (loop body n i) := by
  induction n generalizing i with
  | zero => exact along_pure none
  | succ n ih =>
      refine (h i le_rfl (by omega)).bind fun r => ?_
      cases r with
      | none => exact ih fun j hj hn => h j (by omega) (by omega)
      | some b => exact along_pure (some b)

theorem Along.loop {body : ℕ → Prog S (Option B)} (h : ∀ i, Along R (body i)) (n i : ℕ) :
    Along R (loop body n i) :=
  .loop_lt fun j _ _ => h j

theorem Along.loopWith {body : ℕ → A → Prog S (B ⊕ A)} (h : ∀ i a, Along R (body i a)) (n i : ℕ)
    (a : A) : Along R (loopWith body n i a) := by
  induction n generalizing i a with
  | zero => exact along_pure _
  | succ n ih =>
      refine (h i a).bind fun r => ?_
      cases r with
      | inl b => exact along_pure _
      | inr a' => exact ih (i + 1) a'

/-- Running on a part of the state moves that part. -/
theorem Along.zoom {S' : Type} {get : S' → S} {set : S → S' → S'} {f : Prog S A}
    (hget : ∀ r t, get (set r t) = r) (hf : Along R f) :
    Along (Order.Preimage get R) (zoom get set f) := by
  intro t a t' h
  obtain ⟨r, hr, rfl⟩ := zoom_eq_some.mp h
  have hr' := hf _ _ _ hr
  rwa [← hget r t] at hr'

end Along

end Prog

end X86Os
