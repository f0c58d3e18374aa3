import X86Os.Prog

/-!
# Programs in growing worlds

What is known of a state may refer to a world: which page serves as what, which name stands for what. A
program may only add to the world. `Ensures I w f post` says that from every later world on, whenever
the invariant holds and the program does not halt, the invariant holds in a still later world, of which the
result is as `post` says. Knowledge that grows with the world is never lost, so the rules below pass it
along a program without asking for it again.
-/

namespace X86Os

namespace Prog

variable {W S A B : Type} [Preorder W] {I : W → S → Prop} {w w' : W}

def Ensures (I : W → S → Prop) (w : W) (f : Prog S A) (post : W → A → Prop) : Prop :=
  ∀ w', w ≤ w' → ∀ s a s', I w' s → f s = some (a, s') → ∃ w'', w' ≤ w'' ∧ I w'' s' ∧ post w'' a

/-- Nothing is asked of the result. -/
abbrev Keeps (I : W → S → Prop) (w : W) (f : Prog S A) : Prop := Ensures I w f fun _ _ => True

variable {f : Prog S A} {g : A → Prog S B} {post post' : W → A → Prop} {post₂ : W → B → Prop}

theorem Ensures.later (h : Ensures I w f post) (hw : w ≤ w') : Ensures I w' f post :=
  fun w'' hw'' => h w'' (hw.trans hw'')

theorem Ensures.weaken (h : Ensures I w f post) (hpost : ∀ w', w ≤ w' → ∀ a, post w' a → post' w' a) :
    Ensures I w f post' := by
  intro w' hw' s a s' hs hrun
  obtain ⟨w'', hw'', hs', ha⟩ := h w' hw' s a s' hs hrun
  exact ⟨w'', hw'', hs', hpost w'' (hw'.trans hw'') a ha⟩

theorem Ensures.keeps (h : Ensures I w f post) : Keeps I w f := h.weaken fun _ _ _ _ => trivial

theorem ensures_pure {a : A} (h : ∀ w', w ≤ w' → post w' a) : Ensures I w (pure a : Prog S A) post := by
  intro w' hw' s b s' hs hrun
  obtain ⟨rfl, rfl⟩ := pure_eq_some.mp hrun
  exact ⟨w', le_rfl, hs, h w' hw'⟩

theorem keeps_pure (a : A) : Keeps I w (pure a : Prog S A) := ensures_pure fun _ _ => trivial

theorem ensures_of_none (h : ∀ w', w ≤ w' → ∀ s, I w' s → f s = none) : Ensures I w f post := by
  intro w' hw' s a s' hs hrun
  rw [h w' hw' s hs] at hrun
  cases hrun

/-- A program that changes nothing. -/
theorem ensures_of_eq (hf : Along Eq f) (h : ∀ w', w ≤ w' → ∀ s a s', I w' s → f s = some (a, s') →
    post w' a) : Ensures I w f post := by
  intro w' hw' s a s' hs hrun
  obtain rfl : s = s' := hf s a s' hrun
  exact ⟨w', le_rfl, hs, h w' hw' s a s hs hrun⟩

theorem keeps_of_eq (hf : Along Eq f) : Keeps I w f := ensures_of_eq hf fun _ _ _ _ _ _ _ => trivial

theorem keeps_require (p : Prop) [Decidable p] : Ensures I w (require p : Prog S Unit) fun _ _ => p := by
  intro w' hw' s u s' hs hrun
  obtain ⟨hp, rfl⟩ := require_eq_some.mp hrun
  exact ⟨w', le_rfl, hs, hp⟩

theorem Ensures.bind (hf : Ensures I w f post)
    (hg : ∀ w', w ≤ w' → ∀ a, post w' a → Ensures I w' (g a) post₂) : Ensures I w (f >>= g) post₂ := by
  intro w₀ hw₀ s b s₂ hs hrun
  obtain ⟨a, s₁, hfrun, hgrun⟩ := bind_eq_some.mp hrun
  obtain ⟨w₁, hw₁, hs₁, ha⟩ := hf w₀ hw₀ s a s₁ hs hfrun
  obtain ⟨w₂, hw₂, hs₂, hb⟩ := hg w₁ (hw₀.trans hw₁) a ha w₁ le_rfl s₁ b s₂ hs₁ hgrun
  exact ⟨w₂, hw₁.trans hw₂, hs₂, hb⟩

/-- A program whose result does not matter to what follows. -/
theorem Keeps.bind (hf : Keeps I w f) (hg : ∀ a, Ensures I w (g a) post₂) : Ensures I w (f >>= g) post₂ :=
  Ensures.bind hf fun _ hw a _ => (hg a).later hw

theorem Ensures.ite {p : Prop} [Decidable p] {f' : Prog S A} (hf : p → Ensures I w f post)
    (hf' : ¬ p → Ensures I w f' post) : Ensures I w (if p then f else f') post := by
  split_ifs with hp
  · exact hf hp
  · exact hf' hp

/-- The rounds of a loop, for a condition on the number of the round. -/
theorem keeps_loop {body : ℕ → Prog S (Option B)} {P : ℕ → Prop} (n i : ℕ) (hi : P i)
    (h : ∀ j, P j → Ensures I w (body j) fun _ r => r = none → P (j + 1)) :
    Keeps I w (loop body n i) := by
  induction n generalizing i with
  | zero => exact keeps_pure none
  | succ n ih =>
      refine (h i hi).bind fun w' hw' r hr => ?_
      cases r with
      | none => exact (ih (i + 1) (hr rfl)).later hw'
      | some b => exact keeps_pure (some b)

/-- A program on a part of the state. -/
theorem Ensures.zoom {S' : Type} {I' : W → S' → Prop} {get : S' → S} {set : S → S' → S'}
    (hf : Ensures I w f post) (hget : ∀ w' t, I' w' t → I w' (get t))
    (hset : ∀ w' w'' r t, w' ≤ w'' → I' w' t → I w'' r → I' w'' (set r t)) :
    Ensures I' w (Prog.zoom get set f) post := by
  intro w' hw' t a t' ht hrun
  obtain ⟨r, hr, rfl⟩ := zoom_eq_some.mp hrun
  obtain ⟨w'', hw'', hs, ha⟩ := hf w' hw' _ a r (hget w' t ht) hr
  exact ⟨w'', hw'', hset w' w'' r t hw'' ht hs, ha⟩

end Prog

end X86Os
