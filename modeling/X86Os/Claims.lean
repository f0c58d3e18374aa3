import Mathlib.Tactic

/-!
# Claims on the slots of a table

Callers take free slots of a table. A caller finds a slot that has no name, names it, puts it on a list
and starts it, or gives up before it has a name. What makes this safe is that nobody searches while a
slot is found and not yet named. A ledger is the other half: it says which of the marked resources
belongs to which slot.
-/

namespace X86Os

/-- How far a claim has come. -/
inductive Stage
  | found | named | listed
deriving DecidableEq, Repr

/-- A table of slots and the callers that claim them. -/
@[ext]
structure Claims (P T : Type*) where
  claim : P → Option (T × Stage)
  named : Set T
  listed : List T
  started : List T

namespace Claims

variable {P T : Type*} {c c' : Claims P T} {p q : P} {t u : T} {a b : Stage}

/-- The moves of the caller `p`. A search finds a slot without a name, and happens only while no slot
is found without being named. -/
inductive Step [DecidableEq P] (p : P) (c : Claims P T) : Claims P T → Prop
  | find (t : T) (hp : c.claim p = none) (ht : t ∉ c.named)
      (hfree : ∀ q u, c.claim q ≠ some (u, .found)) :
      Step p c { c with claim := Function.update c.claim p (some (t, .found)) }
  | name (t : T) (hp : c.claim p = some (t, .found)) :
      Step p c { c with
        claim := Function.update c.claim p (some (t, .named))
        named := insert t c.named }
  | list (t : T) (hp : c.claim p = some (t, .named)) :
      Step p c { c with
        claim := Function.update c.claim p (some (t, .listed))
        listed := t :: c.listed }
  | start (t : T) (hp : c.claim p = some (t, .listed)) :
      Step p c { c with
        claim := Function.update c.claim p none
        started := t :: c.started }
  | drop (t : T) (hp : c.claim p = some (t, .found)) :
      Step p c { c with claim := Function.update c.claim p none }

/-- The slot `t` is as far as the stage says. -/
def Fits (c : Claims P T) (t : T) : Stage → Prop
  | .found => t ∉ c.named
  | .named => t ∈ c.named ∧ t ∉ c.listed
  | .listed => t ∈ c.named ∧ t ∈ c.listed ∧ t ∉ c.started

/-- A slot is named before it is listed and listed before it is started, each of them once. -/
structure InOrder (c : Claims P T) : Prop where
  named : ∀ t ∈ c.listed, t ∈ c.named
  listed : ∀ t ∈ c.started, t ∈ c.listed
  listed_nodup : c.listed.Nodup
  started_nodup : c.started.Nodup

/-- No slot is claimed twice, only one is found, and every claim is as far as its stage says. -/
structure Sound (c : Claims P T) : Prop where
  exclusive : ∀ p q t a b, c.claim p = some (t, a) → c.claim q = some (t, b) → p = q
  single : ∀ p q t u, c.claim p = some (t, .found) → c.claim q = some (u, .found) → p = q
  fits : ∀ p t a, c.claim p = some (t, a) → c.Fits t a
  inOrder : c.InOrder

namespace Sound

theorem of_none (hc : ∀ p, c.claim p = none) (ho : c.InOrder) : c.Sound where
  exclusive p _ _ _ _ hp := by simp [hc p] at hp
  single p _ _ _ hp := by simp [hc p] at hp
  fits p _ _ hp := by simp [hc p] at hp
  inOrder := ho

theorem notMem_started (h : c.Sound) (hp : c.claim p = some (t, a)) : t ∉ c.started := by
  intro ht
  have hl := h.inOrder.listed t ht
  have hf := h.fits p t a hp
  cases a with
  | found => exact hf (h.inOrder.named t hl)
  | named => exact hf.2 hl
  | listed => exact hf.2.2 ht

/-- A claimed slot that has no name is found. -/
theorem stage_of_notMem (h : c.Sound) (hp : c.claim p = some (t, a)) (ht : t ∉ c.named) :
    a = .found := by
  have hf := h.fits p t a hp
  cases a with
  | found => rfl
  | named => exact absurd hf.1 ht
  | listed => exact absurd hf.1 ht

/-- A move of `p` that concerns no slot but `t`, which nobody else claims. -/
theorem change [DecidableEq P] (h : c.Sound) {x : Option (T × Stage)}
    (hclaim : c'.claim = Function.update c.claim p x) (hx : ∀ u b, x = some (u, b) → u = t ∧ c'.Fits t b)
    (hother : ∀ q, q ≠ p → ∀ b, c.claim q ≠ some (t, b))
    (hfound : x = some (t, .found) → ∀ q, q ≠ p → ∀ u, c.claim q ≠ some (u, .found))
    (hsame : ∀ u, u ≠ t → (u ∈ c'.named ↔ u ∈ c.named) ∧ (u ∈ c'.listed ↔ u ∈ c.listed) ∧
      (u ∈ c'.started ↔ u ∈ c.started))
    (ho : c'.InOrder) : c'.Sound := by
  have hself : c'.claim p = x := by rw [hclaim, Function.update_self]
  have hne : ∀ q, q ≠ p → c'.claim q = c.claim q := fun q hq => by
    rw [hclaim, Function.update_of_ne hq]
  refine ⟨fun q r u a b hq hr => ?_, fun q r u v hq hr => ?_, fun q u a hq => ?_, ho⟩
  · by_cases hqp : q = p
    · by_cases hrp : r = p
      · rw [hqp, hrp]
      · rw [hqp, hself] at hq
        rw [hne r hrp, (hx u a hq).1] at hr
        exact absurd hr (hother r hrp b)
    · by_cases hrp : r = p
      · rw [hrp, hself] at hr
        rw [hne q hqp, (hx u b hr).1] at hq
        exact absurd hq (hother q hqp a)
      · rw [hne q hqp] at hq
        rw [hne r hrp] at hr
        exact h.exclusive q r u a b hq hr
  · by_cases hqp : q = p
    · by_cases hrp : r = p
      · rw [hqp, hrp]
      · rw [hqp, hself] at hq
        rw [hne r hrp] at hr
        exact absurd hr (hfound ((hx u _ hq).1 ▸ hq) r hrp v)
    · by_cases hrp : r = p
      · rw [hrp, hself] at hr
        rw [hne q hqp] at hq
        exact absurd hq (hfound ((hx v _ hr).1 ▸ hr) q hqp u)
      · rw [hne q hqp] at hq
        rw [hne r hrp] at hr
        exact h.single q r u v hq hr
  · by_cases hqp : q = p
    · rw [hqp, hself] at hq
      exact (hx u a hq).1 ▸ (hx u a hq).2
    · rw [hne q hqp] at hq
      have hut : u ≠ t := by
        rintro rfl
        exact hother q hqp a hq
      obtain ⟨hn, hl, hs⟩ := hsame u hut
      have hf := h.fits q u a hq
      cases a with
      | found => exact fun hu => hf (hn.mp hu)
      | named => exact ⟨hn.mpr hf.1, fun hu => hf.2 (hl.mp hu)⟩
      | listed => exact ⟨hn.mpr hf.1, hl.mpr hf.2.1, fun hu => hf.2.2 (hs.mp hu)⟩

/-- What nobody but `p` claims, as `p` claims it. -/
theorem other (h : c.Sound) (hp : c.claim p = some (t, a)) (q : P) (hq : q ≠ p) (b : Stage) :
    c.claim q ≠ some (t, b) := fun hq' => hq (h.exclusive q p t b a hq' hp)

/-- Every move keeps the table in order. -/
theorem step [DecidableEq P] (h : c.Sound) (hs : Step p c c') : c'.Sound := by
  have ho := h.inOrder
  cases hs with
  | find t hp ht hfree =>
      refine h.change (t := t) rfl (fun u b hx => ?_) (fun q hq b hclaim => ?_)
        (fun _ q _ u => hfree q u)
        (fun u _ => ⟨.rfl, .rfl, .rfl⟩) ⟨ho.named, ho.listed, ho.listed_nodup, ho.started_nodup⟩
      · obtain ⟨rfl, rfl⟩ := Prod.mk.inj (Option.some.inj hx)
        exact ⟨rfl, ht⟩
      · obtain rfl := h.stage_of_notMem hclaim ht
        exact hfree q t hclaim
  | name t hp =>
      have hfit : t ∉ c.named := h.fits p t _ hp
      refine h.change rfl (fun u b hx => ?_) (h.other hp) (by simp) (fun u hu => ?_)
        ⟨fun u hu => .inr (ho.named u hu), ho.listed, ho.listed_nodup, ho.started_nodup⟩
      · obtain ⟨rfl, rfl⟩ := Prod.mk.inj (Option.some.inj hx)
        exact ⟨rfl, .inl rfl, fun hl => hfit (ho.named t hl)⟩
      · exact ⟨by simp [hu], .rfl, .rfl⟩
  | list t hp =>
      obtain ⟨hn, hl⟩ : t ∈ c.named ∧ t ∉ c.listed := h.fits p t _ hp
      have hst := h.notMem_started hp
      refine h.change rfl (fun u b hx => ?_) (h.other hp) (by simp) (fun u hu => ?_)
        ⟨fun u hu => ?_, fun u hu => List.mem_cons_of_mem t (ho.listed u hu),
          List.nodup_cons.mpr ⟨hl, ho.listed_nodup⟩, ho.started_nodup⟩
      · obtain ⟨rfl, rfl⟩ := Prod.mk.inj (Option.some.inj hx)
        exact ⟨rfl, hn, List.mem_cons_self, hst⟩
      · exact ⟨.rfl, by simp [hu], .rfl⟩
      · rcases List.mem_cons.mp hu with rfl | hu
        · exact hn
        · exact ho.named u hu
  | start t hp =>
      obtain ⟨hn, hl, hst⟩ : t ∈ c.named ∧ t ∈ c.listed ∧ t ∉ c.started := h.fits p t _ hp
      refine h.change rfl (by simp) (h.other hp) (by simp) (fun u hu => ?_)
        ⟨ho.named, fun u hu => ?_, ho.listed_nodup, List.nodup_cons.mpr ⟨hst, ho.started_nodup⟩⟩
      · exact ⟨.rfl, .rfl, by simp [hu]⟩
      · rcases List.mem_cons.mp hu with rfl | hu
        · exact hl
        · exact ho.listed u hu
  | drop t hp =>
      exact h.change rfl (by simp) (h.other hp) (by simp) (fun u _ => ⟨.rfl, .rfl, .rfl⟩)
        ⟨ho.named, ho.listed, ho.listed_nodup, ho.started_nodup⟩

end Sound

end Claims

/-! ## Ledgers -/

/-- What a holder holds is marked, and nobody else holds it. -/
structure Ledger {H R : Type*} (holds : H → R → Prop) (marked : R → Prop) : Prop where
  marked : ∀ h r, holds h r → marked r
  exclusive : ∀ h k r, holds h r → holds k r → h = k

namespace Ledger

variable {H R : Type*} {holds holds' : H → R → Prop} {marked marked' : R → Prop} {h : H}

/-- The account of `h` changes; what it holds afterwards is marked and was held by nobody else. -/
theorem replace (hl : Ledger holds marked) (hother : ∀ k, k ≠ h → ∀ r, holds' k r → holds k r)
    (hkeep : ∀ k, k ≠ h → ∀ r, holds k r → marked r → marked' r)
    (hself : ∀ r, holds' h r → marked' r ∧ ∀ k, k ≠ h → ¬ holds k r) : Ledger holds' marked' where
  marked k r hk := by
    by_cases he : k = h
    · exact (hself r (he ▸ hk)).1
    · exact hkeep k he r (hother k he r hk) (hl.marked k r (hother k he r hk))
  exclusive k l r hk hl' := by
    by_cases hkh : k = h
    · by_cases hlh : l = h
      · rw [hkh, hlh]
      · exact absurd (hother l hlh r hl') ((hself r (hkh ▸ hk)).2 l hlh)
    · by_cases hlh : l = h
      · exact absurd (hother k hkh r hk) ((hself r (hlh ▸ hl')).2 k hkh)
      · exact hl.exclusive k l r (hother k hkh r hk) (hother l hlh r hl')

/-- A resource that was not marked goes to `h`. -/
theorem take (hl : Ledger holds marked) {x : R} (hx : ¬ marked x) (hx' : marked' x)
    (hother : ∀ k, k ≠ h → ∀ r, holds' k r → holds k r)
    (hself : ∀ r, holds' h r → holds h r ∨ r = x) (hkeep : ∀ r, marked r → marked' r) :
    Ledger holds' marked' := by
  refine hl.replace hother (fun _ _ r _ => hkeep r) fun r hr => ?_
  rcases hself r hr with hold | rfl
  · exact ⟨hkeep r (hl.marked h r hold), fun k hk hk' => hk (hl.exclusive k h r hk' hold)⟩
  · exact ⟨hx', fun k _ hk => hx (hl.marked k r hk)⟩

/-- Nobody gets anything. -/
theorem keep (hl : Ledger holds marked) (hsub : ∀ k r, holds' k r → holds k r)
    (hkeep : ∀ k r, holds' k r → marked r → marked' r) : Ledger holds' marked' where
  marked k r hk := hkeep k r hk (hl.marked k r (hsub k r hk))
  exclusive k l r hk hl' := hl.exclusive k l r (hsub k r hk) (hsub l r hl')

end Ledger

end X86Os
