import X86Os.Prog

/-!
# Programs cut into steps

A program that can be interrupted stops at places: a step takes it from one place to the next or to its
result. `Splits` says what is left of the program at every place, of which the step there is the
beginning. Taken one after the other, the steps are the program.
-/

namespace X86Os

namespace Prog

variable {S A B C : Type}

instance : LawfulMonad (Prog S) :=
  LawfulMonad.mk' (Prog S)
    (fun f => by
      funext s
      show (f s).bind (fun r => some (r.1, r.2)) = f s
      simp)
    (fun _ _ => rfl)
    (fun f g h => by
      funext s
      exact Option.bind_assoc (f s) _ _)

/-- What a program leaves as it is can be read before it or after it. -/
theorem gets_late {f : Prog S A} {g : S → B} (hf : Along (fun s s' => g s' = g s) f)
    (k : A → B → Prog S C) :
    (f >>= fun a => gets g >>= k a) = gets g >>= fun b => f >>= fun a => k a b := by
  funext s
  rw [gets_bind, bind_apply, bind_apply]
  cases hs : f s with
  | none => rfl
  | some r =>
      show k r.1 (g r.2) r.2 = k r.1 (g s) r.2
      rw [hf s r.1 r.2 hs]

variable {S' : Type} {get : S' → S} {set : S → S' → S'}

theorem zoom_bind (hget : ∀ r t, get (set r t) = r) (hset : ∀ r r' t, set r' (set r t) = set r' t)
    (f : Prog S A) (g : A → Prog S B) :
    zoom get set (f >>= g) = zoom get set f >>= fun a => zoom get set (g a) := by
  funext t
  simp only [zoom, bind_apply]
  cases hs : f (get t) with
  | none => rfl
  | some r => simp [hget, hset]

theorem zoom_pure (hset : ∀ t, set (get t) t = t) (a : A) :
    zoom get set (pure a : Prog S A) = pure a := by
  funext t
  simp [zoom, hset]

end Prog

/-- A step from every place. -/
abbrev Cut (S P A : Type) : Type := P → Prog S (P ⊕ A)

namespace Cut

variable {S P A : Type} {step : Cut S P A} {rest : P → Prog S A} {s s' : S} {p : P} {a : A}

/-- At the place `p` the program `rest p` is left. -/
def Splits (step : Cut S P A) (rest : P → Prog S A) : Prop :=
  ∀ p, rest p = step p >>= Sum.elim rest pure

/-- The steps from a place to a result, nothing between them. -/
inductive Finishes (step : Cut S P A) : P → S → A → S → Prop
  | last {p : P} {s : S} {a : A} {s' : S} (h : step p s = some (.inr a, s')) : Finishes step p s a s'
  | next {p q : P} {s s₁ : S} {a : A} {s' : S} (h : step p s = some (.inl q, s₁))
      (hq : Finishes step q s₁ a s') : Finishes step p s a s'

theorem Splits.of_finishes (h : Splits step rest) (hf : Finishes step p s a s') :
    rest p s = some (a, s') := by
  induction hf with
  | last hlast => rw [h, Prog.bind_of_eq hlast]; rfl
  | next hnext _ ih => rw [h, Prog.bind_of_eq hnext]; exact ih

/-- If every step makes some measure smaller, the steps come to the result of the program. -/
theorem Splits.finishes (h : Splits step rest) (μ : P → ℕ)
    (hμ : ∀ p s q s', step p s = some (.inl q, s') → μ q < μ p) (hrest : rest p s = some (a, s')) :
    Finishes step p s a s' := by
  induction hn : μ p using Nat.strong_induction_on generalizing p s with
  | _ n ih =>
      rw [h] at hrest
      obtain ⟨r, s₁, hstep, hr⟩ := Prog.bind_eq_some.mp hrest
      cases r with
      | inl q => exact .next hstep (ih _ (hn ▸ hμ p s q s₁ hstep) hr rfl)
      | inr b =>
          obtain ⟨rfl, rfl⟩ := Prog.pure_eq_some.mp hr
          exact .last hstep

theorem Splits.finishes_iff (h : Splits step rest) (μ : P → ℕ)
    (hμ : ∀ p s q s', step p s = some (.inl q, s') → μ q < μ p) :
    Finishes step p s a s' ↔ rest p s = some (a, s') :=
  ⟨h.of_finishes, h.finishes μ hμ⟩

end Cut

end X86Os
