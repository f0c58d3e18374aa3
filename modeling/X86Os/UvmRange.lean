import X86Os.Uvm

/-!
# Mapping a range

What `memory_alloc_for_page_dir` does to a space that owns its pages when enough pages are left: every
page of the range gets a fresh frame, and nothing else changes.
-/

namespace X86Os

variable {sp : Space} {n : ℕ} {s : Vm} {v perm c : ℕ}

/-- The space `sp'` has the entries of `sp` and the first `c` pages from `v` on. -/
structure RangeMapped (sp : Space) (n : ℕ) (s : Vm) (v perm c : ℕ) (sp' : Space) (s' : Vm) :
    Prop where
  owned : sp'.Owned n s'
  dir : sp'.dir = sp.dir
  cr3 : s'.cr3 = s.cr3
  clear : s'.alloc.clearPages ⊆ s.alloc.clearPages
  room : s.alloc.clearPages.card ≤ s'.alloc.clearPages.card + 2 * c
  out : ∀ x, ¬ InUserPdes sp.dir x → (∀ i t, sp.table i = some t → ¬ InPage t x) →
    (∀ p ∈ s.alloc.clearPages, ¬ InPage p x) → s'.mem x = s.mem x
  page : ∀ x p, sp'.page x = some p → sp.page x = some p ∨ p ∈ s.alloc.clearPages
  mapped : ∀ k < c, ∃ p, KernelPage p ∧ sp'.entry (pdeIndex (v + k * memPageSize))
    (pteIndex (v + k * memPageSize)) = some (p + perm)
  old : ∀ i j, (∀ k < c, ¬ (i = pdeIndex (v + k * memPageSize) ∧
    j = pteIndex (v + k * memPageSize))) → sp'.entry i j = sp.entry i j

theorem RangeMapped.refl (h : sp.Owned n s) (v perm : ℕ) : RangeMapped sp n s v perm 0 sp s where
  owned := h
  dir := rfl
  cr3 := rfl
  clear := Finset.Subset.refl _
  room := le_rfl
  out _ _ _ _ := rfl
  page _ _ := .inl
  mapped := nofun
  old _ _ _ := rfl

/-- Different pages have different indices. -/
theorem pageIndices_inj {v k k' : ℕ} (hi : pdeIndex (v + k * memPageSize) =
    pdeIndex (v + k' * memPageSize)) (hj : pteIndex (v + k * memPageSize) =
    pteIndex (v + k' * memPageSize)) : k = k' := by
  unfold pdeIndex pteIndex memPageSize at *
  omega

/-- A round takes a page for its frame, and one more if the directory has no table at `i`. -/
def TookPages (i : ℕ) (sp : Space) (s : Vm) (sp' : Space) (s' : Vm) : Prop :=
  (sp.table i ≠ none ∧ sp'.table = sp.table ∧
    s.alloc.clearPages.card = s'.alloc.clearPages.card + 1) ∨
  ∃ t, sp.table i = none ∧ sp'.table = Function.update sp.table i (some t) ∧
    s.alloc.clearPages.card = s'.alloc.clearPages.card + 2

theorem RangeMapped.round {sp₀ sp : Space} {s₀ s : Vm} (h : RangeMapped sp₀ n s₀ v perm c sp s)
    (hv : memoryTaskBase ≤ v) (hend : v + c * memPageSize < 2 ^ 32)
    (hnone : sp₀.entry (pdeIndex (v + c * memPageSize)) (pteIndex (v + c * memPageSize)) = none)
    (hne : s.alloc.clearPages.Nonempty)
    (hroom : sp.table (pdeIndex (v + c * memPageSize)) = none → 2 ≤ s.alloc.clearPages.card)
    (hperm : Present perm) (hperm' : perm < memPageSize) :
    ∃ sp' s', memoryAllocRound sp₀.dir v perm c s = some (none, s') ∧
      RangeMapped sp₀ n s₀ v perm (c + 1) sp' s' ∧
      TookPages (pdeIndex (v + c * memPageSize)) sp s sp' s' := by
  obtain ⟨p, hp, s₁, hs₁, hm₁, hclear₁, hmem₁, hcr₁⟩ := allocPage_spec h.owned.managed hne
  have hkp := h.owned.clear p hp
  have hcard := Finset.card_erase_add_one hp
  have hfresh : ∀ x, sp.page x ≠ some p := fun x hx => h.owned.apart x p hx hp
  have hentry : sp.entry (pdeIndex (v + c * memPageSize)) (pteIndex (v + c * memPageSize)) = none := by
    rw [h.old _ _ fun k hk heq => ?_, hnone]
    have := pageIndices_inj heq.1 heq.2
    omega
  have ho₁ := h.owned.take hmem₁ hm₁ hclear₁
  obtain ⟨sp₁, s₂, t, hs₂, ho₂, hgrown, ht, hcr₂, hout₂⟩ := ho₁.mapPage (v := v + c * memPageSize)
    (by omega) hend hentry (fun ht => Finset.card_pos.mp (by have := hroom ht; rw [hclear₁]; omega)) hkp
    (by rw [hclear₁]; exact Finset.notMem_erase _ _) hfresh hperm hperm'
  rw [hclear₁] at hgrown
  have hsub : s₂.alloc.clearPages ⊆ s.alloc.clearPages :=
    (Space.Owned.grown_subset hgrown).trans (Finset.erase_subset _ _)
  have hgrown_page : ∀ x q, sp₁.page x = some q → sp₀.page x = some q ∨ q ∈ s₀.alloc.clearPages := by
    intro x q hx
    rcases Space.Owned.grown_page hgrown hx with hx | hq
    · exact h.page x q hx
    · exact .inr (h.clear (Finset.mem_of_mem_erase hq))
  refine ⟨_, s₂, ?_, ⟨ho₂, (Space.Owned.grown_dir hgrown).trans h.dir,
    hcr₂.trans (hcr₁.trans h.cr3), hsub.trans h.clear, ?_, fun x hx hx' hx'' => ?_,
    fun x q hx => ?_, fun k hk => ?_, fun i j hij => ?_⟩, ?_⟩
  · have hwrap : u32 (v + c * memPageSize) = v + c * memPageSize := u32_of_lt hend
    rw [memoryAllocRound, Prog.bind_of_eq hs₁, Prog.bind_of_eq (Prog.require_of hkp.ne_zero), hwrap,
      ← h.dir, Prog.bind_of_eq hs₂, if_neg (by norm_num)]
    rfl
  · have hcard₂ : (s.alloc.clearPages.erase p).card ≤ s₂.alloc.clearPages.card + 1 := by
      rcases hgrown with ⟨-, -, hclear⟩ | ⟨u, hu, -, -, hclear⟩
      · rw [hclear]
        omega
      · rw [hclear, Finset.card_erase_add_one hu]
    have hold := h.room
    omega
  · have htable : ¬ InPage t x := by
      rcases hgrown_page (.table _) t ht with hold | hclear
      · exact hx' _ t hold
      · exact hx'' t hclear
    rw [hout₂ x (by rwa [h.dir]) htable, hmem₁, h.out x hx hx' hx'']
  · rcases Space.addEntry_page hx with ⟨-, rfl⟩ | ⟨-, hx⟩
    · rw [entryPaddr_add hkp.aligned hperm']
      exact .inr (h.clear hp)
    · exact hgrown_page x q hx
  · by_cases he : k = c
    · subst k
      exact ⟨p, hkp, Space.addEntry_entry_self⟩
    · obtain ⟨q, hq, hmapped⟩ := h.mapped k (by omega)
      refine ⟨q, hq, ?_⟩
      rw [Space.addEntry_entry_of_ne, Space.Owned.grown_entry hgrown, hmapped]
      exact fun heq => he (pageIndices_inj heq.1 heq.2)
  · rw [Space.addEntry_entry_of_ne (hij c (by omega)), Space.Owned.grown_entry hgrown,
      h.old i j fun k hk => hij k (by omega)]
  · rcases hgrown with ⟨htable, rfl, hclear⟩ | ⟨u, hu, htable, rfl, hclear⟩
    · exact .inl ⟨htable, rfl, by rw [hclear]; exact hcard.symm⟩
    · refine .inr ⟨u, htable, rfl, ?_⟩
      have hcard₂ := Finset.card_erase_add_one hu
      rw [hclear]
      omega

/-- A range of unmapped user pages for which the clear pages suffice is mapped. -/
theorem memoryAllocForPageDir_spec {size : ℕ} (h : sp.Owned n s) (hv : memoryTaskBase ≤ v)
    (hend : v + up2 size memPageSize ≤ 2 ^ 32) (hnone : ∀ k < up2 size memPageSize / memPageSize,
      sp.entry (pdeIndex (v + k * memPageSize)) (pteIndex (v + k * memPageSize)) = none)
    (hroom : 2 * (up2 size memPageSize / memPageSize) ≤ s.alloc.clearPages.card)
    (hperm : Present perm) (hperm' : perm < memPageSize) :
    ∃ sp' s', memoryAllocForPageDir sp.dir v size perm s = some (0, s') ∧
      RangeMapped sp n s v perm (up2 size memPageSize / memPageSize) sp' s' := by
  have hcount : up2 size memPageSize / memPageSize * memPageSize ≤ up2 size memPageSize :=
    Nat.div_mul_le_self _ _
  have hround : ∀ c s₁, 0 ≤ c → c < 0 + up2 size memPageSize / memPageSize →
      (∃ sp₁, RangeMapped sp n s v perm c sp₁ s₁) →
      ∃ s₂, memoryAllocRound sp.dir v perm c s₁ = some (none, s₂) ∧
        ∃ sp₂, RangeMapped sp n s v perm (c + 1) sp₂ s₂ := by
    rintro c s₁ - hc ⟨sp₁, h₁⟩
    have hlt : c * memPageSize < up2 size memPageSize / memPageSize * memPageSize :=
      Nat.mul_lt_mul_of_pos_right (by omega) (by decide)
    have hcard := h₁.room
    obtain ⟨sp₂, s₂, hs₂, h₂, -⟩ := h₁.round hv (by omega) (hnone c (by omega))
      (Finset.card_pos.mp (by omega)) (fun _ => by omega) hperm hperm'
    exact ⟨s₂, hs₂, sp₂, h₂⟩
  obtain ⟨s', hrun, sp', hmapped⟩ := Prog.loop_total (i := 0) hround ⟨sp, .refl h v perm⟩
  rw [Nat.zero_add] at hmapped
  refine ⟨sp', s', ?_, hmapped⟩
  rw [memoryAllocForPageDir, Prog.bind_of_eq hrun]
  rfl

end X86Os
