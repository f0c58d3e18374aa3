import X86Os.AddressSpace

/-!
# Building address spaces

What `find_pte`, `memory_create_map` and `memory_create_uvm` do to a space that owns its pages while
clear pages remain: the entry asked for appears, at most one page is taken for a table, and memory
outside the directory and that table is untouched.
-/

namespace X86Os

namespace Space

/-- The space at memory and allocator: its pages are taken, and every clear page is usable. -/
structure Owned (sp : Space) (n : ℕ) (s : Vm) : Prop where
  shape : sp.At s.mem
  managed : s.alloc.Managed n
  clear : ∀ p ∈ s.alloc.clearPages, KernelPage p
  apart : ∀ x p, sp.page x = some p → p ∉ s.alloc.clearPages

end Space

variable {sp : Space} {n : ℕ} {s : Vm} {v p i t perm : ℕ}

theorem allocPage_spec (hm : s.alloc.Managed n) (h : s.alloc.clearPages.Nonempty) :
    ∃ p ∈ s.alloc.clearPages, ∃ s', allocPage s = some (p, s') ∧ s'.alloc.Managed n ∧
      s'.alloc.clearPages = s.alloc.clearPages.erase p ∧ s'.mem = s.mem ∧ s'.cr3 = s.cr3 := by
  obtain ⟨p, hp, hret, hclear⟩ := AddrAlloc.exists_allocPage hm h
  refine ⟨p, hp, { s with alloc := (addrAllocPage s.alloc 1).2 }, ?_, hm.allocPage 1, hclear, rfl,
    rfl⟩
  show some ((addrAllocPage s.alloc 1).1, _) = _
  rw [hret]

/-- An aligned word of a kernel page. -/
theorem KernelPage.word (hp : KernelPage p) (hi : i < 1024) :
    Identity (p + 4 * i) ∧ (p + 4 * i) % 4 = 0 ∧ u32 (p + 4 * i) = p + 4 * i := by
  have hal := hp.aligned
  have hlt := hp.identity.lt
  refine ⟨hp.identity.add hal (by unfold memPageSize; omega), ?_, u32_of_lt (by omega)⟩
  unfold memPageSize at hal
  omega

theorem KernelPage.load32 (hp : KernelPage p) (hi : i < 1024) :
    load32 (u32 (p + 4 * i)) s = some (s.mem.read32 (p + 4 * i), s) := by
  obtain ⟨hid, hal, hwrap⟩ := hp.word hi
  rw [hwrap, load32_of_identity hid hal]

theorem KernelPage.store32 (hp : KernelPage p) (hi : i < 1024) (x : ℕ) :
    store32 (u32 (p + 4 * i)) x s = some ((), { s with mem := s.mem.write32 (p + 4 * i) x }) := by
  obtain ⟨hid, -, hwrap⟩ := hp.word hi
  rw [hwrap, store32_of_identity hid]

/-- The entries of a directory for the user half. -/
def InUserPdes (d x : ℕ) : Prop := d + 4 * userPdeStart ≤ x ∧ x < d + memPageSize

theorem pdeIndex_user (hv : memoryTaskBase ≤ v) (hv' : v < 2 ^ 32) :
    userPdeStart ≤ pdeIndex v ∧ pdeIndex v < pdeCnt := by
  unfold userPdeStart pdeIndex memoryTaskBase pdeCnt at *
  omega

namespace Space.Tables

variable {lo : ℕ}

theorem findPte_table (h : sp.Tables lo s.mem) (ht : sp.table (pdeIndex v) = some t)
    (alloc : Bool) : findPte sp.dir v alloc s = some (t + 4 * pteIndex v, s) := by
  obtain ⟨hi, hi'⟩ := h.range _ t ht
  have htp := (h.tablePage _ t ht).1
  have hal := htp.aligned
  have hpres : Present (t + 7) := by
    unfold Present memPageSize at *
    omega
  have hword : s.mem.read32 (sp.dir + 4 * pdeIndex v) = t + 7 := by
    rw [h.pde _ hi hi', ht]
    rfl
  rw [findPte, Prog.bind_of_eq (h.dirPage.load32 hi'), hword, if_pos hpres,
    entryPaddr_add hal (show 7 < memPageSize by unfold memPageSize; norm_num),
    (htp.word (pteIndex_lt v)).2.2]
  rfl

theorem findPte_none (h : sp.Tables lo s.mem) (hm : s.alloc.Managed n)
    (hclear : ∀ p ∈ s.alloc.clearPages, KernelPage p) (hi : lo ≤ pdeIndex v)
    (hi' : pdeIndex v < pdeCnt) (ht : sp.table (pdeIndex v) = none)
    (hroom : s.alloc.clearPages.Nonempty) :
    ∃ t ∈ s.alloc.clearPages, ∃ s', findPte sp.dir v true s = some (t + 4 * pteIndex v, s') ∧
      s'.mem = (s.mem.write32 (sp.dir + 4 * pdeIndex v) (t + 7)).fill t 0 memPageSize ∧
      s'.alloc.Managed n ∧ s'.alloc.clearPages = s.alloc.clearPages.erase t ∧ s'.cr3 = s.cr3 := by
  obtain ⟨t, htc, s₁, hs₁, hm₁, hclear₁, hmem₁, hcr₁⟩ := allocPage_spec hm hroom
  have htp := hclear t htc
  have hal := htp.aligned
  have hword : s.mem.read32 (sp.dir + 4 * pdeIndex v) = 0 := by
    rw [h.pde _ hi hi', ht]
    rfl
  have hor : t ||| pteP ||| pteW ||| pdeU = t + 7 := by
    rw [Nat.or_assoc, Nat.or_assoc]
    exact or_eq_add hal (by decide)
  let m₂ := (s.mem.write32 (sp.dir + 4 * pdeIndex v) (t + 7)).fill t 0 memPageSize
  refine ⟨t, htc, { s₁ with mem := m₂ }, ?_, rfl, hm₁, hclear₁, hcr₁⟩
  have hnot : ¬ Present 0 := by simp [Present]
  rw [findPte, Prog.bind_of_eq (h.dirPage.load32 hi'), hword, if_neg hnot, if_pos rfl,
    Prog.bind_of_eq hs₁, if_neg htp.ne_zero, hor, Prog.bind_of_eq (h.dirPage.store32 hi' _),
    Prog.bind_of_eq (memset_page htp.identity hal htp.ne_zero 0),
    (htp.word (pteIndex_lt v)).2.2, hmem₁]
  rfl

end Space.Tables

/-- A new table changes only its own page and the entry of the directory. -/
theorem newTable_out {m : Mem} {d x : ℕ} (hi : i < 1024) (hx : ¬ InPage d x) (hx' : ¬ InPage t x) :
    ((m.write32 (d + 4 * i) (t + 7)).fill t 0 memPageSize) x = m x := by
  unfold InPage at *
  rw [Mem.fill_apply_of_out x (by omega), Mem.write32_apply_of_out x (by unfold memPageSize at *; omega)]

namespace Space.Owned

theorem dirPage (h : sp.Owned n s) : KernelPage sp.dir := h.shape.kernelPage .dir _ rfl

theorem tablePage (h : sp.Owned n s) (ht : sp.table i = some t) : KernelPage t :=
  h.shape.kernelPage (.table i) t ht

theorem findPte_none (h : sp.Owned n s) (hv : memoryTaskBase ≤ v) (hv' : v < 2 ^ 32)
    (ht : sp.table (pdeIndex v) = none) (hroom : s.alloc.clearPages.Nonempty) :
    ∃ t ∈ s.alloc.clearPages, ∃ s', findPte sp.dir v true s = some (t + 4 * pteIndex v, s') ∧
      (sp.addTable (pdeIndex v) t).Owned n s' ∧
      s'.alloc.clearPages = s.alloc.clearPages.erase t ∧ s'.cr3 = s.cr3 ∧
      ∀ x, ¬ InUserPdes sp.dir x → ¬ InPage t x → s'.mem x = s.mem x := by
  obtain ⟨hi, hi'⟩ := pdeIndex_user hv hv'
  obtain ⟨t, htc, s', hs', hmem, hm, hclear, hcr⟩ :=
    h.shape.tables.findPte_none h.managed h.clear hi hi' ht hroom
  have htp := h.clear t htc
  have hfresh : ∀ x, sp.page x ≠ some t := fun x hx => h.apart x t hx htc
  have hdir := h.dirPage.aligned
  refine ⟨t, htc, s', hs', ⟨?_, hm, ?_, ?_⟩, hclear, hcr, ?_⟩
  · rw [hmem]
    exact h.shape.addTable hi hi' ht htp hfresh
  · intro q hq
    exact h.clear q (Finset.mem_of_mem_erase (hclear ▸ hq))
  · intro x q hx hq
    obtain ⟨hne, hq⟩ := Finset.mem_erase.mp (show q ∈ s.alloc.clearPages.erase t from hclear ▸ hq)
    rcases Space.addTable_page hx with ⟨-, rfl⟩ | ⟨-, hx⟩
    · exact hne rfl
    · exact h.apart x q hx hq
  · intro x hx hx'
    rw [hmem]
    unfold InUserPdes at hx
    unfold InPage at hx'
    have hout : (s.mem.write32 (sp.dir + 4 * pdeIndex v) (t + 7)) x = s.mem x := by
      apply Mem.write32_apply_of_out
      unfold memPageSize pdeCnt at *
      omega
    rw [← hout]
    exact Mem.fill_apply_of_out x (by omega)

/-- The space with a table for the index `i`: either it was there, or a clear page became it. -/
def Grown (sp : Space) (i : ℕ) (clear : Finset ℕ) (sp' : Space) (clear' : Finset ℕ) : Prop :=
  (sp.table i ≠ none ∧ sp' = sp ∧ clear' = clear) ∨
    ∃ t ∈ clear, sp.table i = none ∧ sp' = sp.addTable i t ∧ clear' = clear.erase t

theorem findPte_spec (h : sp.Owned n s) (hv : memoryTaskBase ≤ v) (hv' : v < 2 ^ 32)
    (hroom : sp.table (pdeIndex v) = none → s.alloc.clearPages.Nonempty) :
    ∃ sp' s' t, findPte sp.dir v true s = some (t + 4 * pteIndex v, s') ∧ sp'.Owned n s' ∧
      Grown sp (pdeIndex v) s.alloc.clearPages sp' s'.alloc.clearPages ∧
      sp'.table (pdeIndex v) = some t ∧ s'.cr3 = s.cr3 ∧
      ∀ x, ¬ InUserPdes sp.dir x → ¬ InPage t x → s'.mem x = s.mem x := by
  cases ht : sp.table (pdeIndex v) with
  | some t =>
      exact ⟨sp, s, t, h.shape.tables.findPte_table ht true, h, .inl ⟨by simp [ht], rfl, rfl⟩, ht, rfl,
        fun _ _ _ => rfl⟩
  | none =>
      obtain ⟨t, htc, s', hs', ho, hclear, hcr, hmem⟩ := h.findPte_none hv hv' ht (hroom ht)
      exact ⟨_, s', t, hs', ho, .inr ⟨t, htc, ht, rfl, hclear⟩, by simp [Space.addTable], hcr, hmem⟩

theorem grown_dir {clear clear' : Finset ℕ} {sp' : Space} (h : Grown sp i clear sp' clear') :
    sp'.dir = sp.dir := by
  rcases h with ⟨-, rfl, -⟩ | ⟨t, -, -, rfl, -⟩
  · rfl
  · rfl

theorem grown_entry {clear clear' : Finset ℕ} {sp' : Space} (h : Grown sp i clear sp' clear') :
    sp'.entry = sp.entry := by
  rcases h with ⟨-, rfl, -⟩ | ⟨t, -, -, rfl, -⟩
  · rfl
  · rfl

theorem grown_subset {clear clear' : Finset ℕ} {sp' : Space} (h : Grown sp i clear sp' clear') :
    clear' ⊆ clear := by
  rcases h with ⟨-, -, rfl⟩ | ⟨t, -, -, -, rfl⟩
  · exact Finset.Subset.refl _
  · exact Finset.erase_subset t _

/-- The pages of the grown space are those it had, and perhaps a clear one. -/
theorem grown_page {clear clear' : Finset ℕ} {sp' : Space} (h : Grown sp i clear sp' clear')
    {x : Slot} (hx : sp'.page x = some p) : sp.page x = some p ∨ p ∈ clear := by
  rcases h with ⟨-, rfl, -⟩ | ⟨t, ht, -, rfl, -⟩
  · exact .inl hx
  · rcases Space.addTable_page hx with ⟨-, rfl⟩ | ⟨-, hx⟩
    · exact .inr ht
    · exact .inl hx

/-- A fresh page is mapped at an address of the user half that was not mapped. -/
theorem mapPage (h : sp.Owned n s) (hv : memoryTaskBase ≤ v) (hv' : v < 2 ^ 32)
    (hnone : sp.entry (pdeIndex v) (pteIndex v) = none)
    (hroom : sp.table (pdeIndex v) = none → s.alloc.clearPages.Nonempty) (hp : KernelPage p)
    (hpc : p ∉ s.alloc.clearPages) (hfresh : ∀ x, sp.page x ≠ some p)
    (hperm : Present perm) (hperm' : perm < memPageSize) :
    ∃ sp' s' t, memoryCreateMap sp.dir perm 1 v p s = some (0, s') ∧
      (sp'.addEntry (pdeIndex v) (pteIndex v) (p + perm)).Owned n s' ∧
      Grown sp (pdeIndex v) s.alloc.clearPages sp' s'.alloc.clearPages ∧
      sp'.table (pdeIndex v) = some t ∧ s'.cr3 = s.cr3 ∧
      ∀ x, ¬ InUserPdes sp.dir x → ¬ InPage t x → s'.mem x = s.mem x := by
  obtain ⟨sp', s₁, t, hs₁, ho, hgrown, ht, hcr, hmem⟩ := h.findPte_spec hv hv' hroom
  have hj := pteIndex_lt v
  have htp := ho.tablePage ht
  have hentry : sp'.entry (pdeIndex v) (pteIndex v) = none := by rw [grown_entry hgrown, hnone]
  have hword : s₁.mem.read32 (t + 4 * pteIndex v) = 0 := by
    rw [ho.shape.pte _ t ht _ hj, hentry]
    rfl
  have hwrap := (htp.word hj).2.2
  have hor : p ||| perm ||| pteP = p + perm := by
    rw [Nat.or_assoc, or_pteP_of_present hperm, or_eq_add hp.aligned hperm']
  have hfresh' : ∀ x, sp'.page x ≠ some (entryPaddr (p + perm)) := by
    rw [entryPaddr_add hp.aligned hperm']
    exact fun x hx => (grown_page hgrown hx).elim (hfresh x) hpc
  have hpres : Present (p + perm) := by
    have := hp.aligned
    unfold Present memPageSize at *
    omega
  have hlt : p + perm < 2 ^ 32 := by
    have := hp.identity.lt
    unfold memPageSize at hperm'
    omega
  have hshape := ho.shape.addEntry ht hj hpres hlt
    (by rwa [entryPaddr_add hp.aligned hperm']) hfresh'
  refine ⟨sp', { s₁ with mem := s₁.mem.write32 (t + 4 * pteIndex v) (p + perm) }, t, ?_,
    ⟨hshape, ho.managed, ho.clear, ?_⟩, hgrown, ht, hcr, ?_⟩
  · have hload := htp.load32 (s := s₁) hj
    have hstore := htp.store32 (s := s₁) hj (p + perm)
    rw [hwrap] at hload hstore
    rw [memoryCreateMap, Prog.bind_of_eq hs₁, if_neg (by have := htp.ne_zero; omega),
      Prog.bind_of_eq hload, hword, Prog.bind_of_eq (Prog.require_of (by simp [Present])), hor,
      Prog.bind_of_eq hstore]
    rfl
  · intro x q hx hq
    rcases Space.addEntry_page hx with ⟨-, rfl⟩ | ⟨-, hx⟩
    · rw [entryPaddr_add hp.aligned hperm'] at hq
      exact hpc (grown_subset hgrown hq)
    · exact ho.apart x q hx hq
  · intro x hx hx'
    rw [← hmem x hx hx']
    apply Mem.write32_apply_of_out
    unfold InPage memPageSize at *
    omega

end Space.Owned

namespace Space.Owned

/-- A page is taken for something else. -/
theorem take (h : sp.Owned n s) {s' : Vm} (hmem : s'.mem = s.mem) (hm : s'.alloc.Managed n)
    (hclear : s'.alloc.clearPages = s.alloc.clearPages.erase p) : sp.Owned n s' where
  shape := hmem ▸ h.shape
  managed := hm
  clear q hq := h.clear q (Finset.mem_of_mem_erase (hclear ▸ hq))
  apart x q hx hq := h.apart x q hx (Finset.mem_of_mem_erase (hclear ▸ hq))

/-- The contents of a frame do not matter to the space. -/
theorem writeFrame (h : sp.Owned n s) {j : ℕ} (hp : sp.page (.frame i j) = some p) {m' : Mem}
    (hout : ∀ x, ¬ InPage p x → m' x = s.mem x) : sp.Owned n { s with mem := m' } := by
  have hpal := (h.shape.kernelPage _ _ hp).aligned
  have hother : ∀ y q, sp.page y = some q → y ≠ .frame i j → ∀ x, InPage q x → m' x = s.mem x := by
    intro y q hy hne x hx
    refine hout x fun hin => hne ?_
    have hq := (h.shape.kernelPage y q hy).aligned
    exact h.shape.distinct y _ p (InPage.unique hq hpal hx hin ▸ hy) hp
  refine ⟨h.shape.congr ?_ ?_, h.managed, h.clear, h.apart⟩
  · exact hother .dir sp.dir rfl (by simp)
  · intro k t ht
    exact hother (.table k) t ht (by simp)

end Space.Owned

/-- The space of a directory without user tables. -/
def Space.empty (d : ℕ) : Space where
  dir := d
  table _ := none
  entry _ _ := none

theorem Space.empty_page {d : ℕ} {x : Slot} (h : (Space.empty d).page x = some p) :
    x = .dir ∧ p = d := by
  cases x with
  | dir => exact ⟨rfl, (Option.some.inj h).symm⟩
  | table i => cases h
  | frame i j => cases h

/-- What `memory_create_uvm` has written after `i` rounds of its loop. -/
structure Created (L : Layout) (s s₁ : Vm) (d i : ℕ) (s' : Vm) : Prop where
  alloc : s'.alloc = s₁.alloc
  cr3 : s'.cr3 = s₁.cr3
  out : ∀ x, ¬ InPage d x → s'.mem x = s.mem x
  word : ∀ k < pdeCnt, s'.mem.read32 (d + 4 * k) =
    if k < i then s.mem.read32 (L.kernelPageDir + 4 * k) else 0

theorem Created.round {L : Layout} {s₁ s₂ : Vm} {d k : ℕ} (h : Created L s s₁ d k s₂)
    (hk : k < pdeCnt) (hd : KernelPage d) (hL : KernelPage L.kernelPageDir)
    (hne : L.kernelPageDir ≠ d) :
    ∃ s₃, copyKernelPdes L d k s₂ = some (none, s₃) ∧ Created L s s₁ d (k + 1) s₃ := by
  obtain ⟨halloc, hcr, hout, hword⟩ := h
  obtain ⟨hid, hal, -⟩ := hL.word hk
  have hsame : ∀ m' : ℕ, m' < pdeCnt → s₂.mem.read32 (L.kernelPageDir + 4 * m') =
      s.mem.read32 (L.kernelPageDir + 4 * m') := by
    intro m' hm'
    refine Mem.read32_congr fun x hx hx' => hout x fun hin => hne ?_
    refine hL.aligned |> fun h1 => InPage.unique h1 hd.aligned ?_ hin
    unfold InPage memPageSize pdeCnt at *
    omega
  let v := s.mem.read32 (L.kernelPageDir + 4 * k)
  refine ⟨{ s₂ with mem := s₂.mem.write32 (d + 4 * k) v }, ?_, halloc, hcr, fun x hx => ?_,
    fun j hj => ?_⟩
  · rw [copyKernelPdes, Prog.bind_of_eq (load32_of_identity hid hal), hsame k hk,
      Prog.bind_of_eq (hd.store32 hk _)]
    rfl
  · rw [← hout x hx]
    apply Mem.write32_apply_of_out
    unfold InPage memPageSize pdeCnt at *
    omega
  · by_cases he : j = k
    · subst j
      rw [if_pos (by omega)]
      exact Mem.read32_write32_self (Mem.read32_lt _ _)
    · have hiff : j < k + 1 ↔ j < k := by omega
      simp only [hiff, ← hword j hj]
      exact Mem.read32_write32_of_apart (by omega)

theorem memoryCreateUvm_spec {L : Layout} (hm : s.alloc.Managed n)
    (hclear : ∀ p ∈ s.alloc.clearPages, KernelPage p) (hL : KernelPage L.kernelPageDir)
    (hLc : L.kernelPageDir ∉ s.alloc.clearPages) (hroom : s.alloc.clearPages.Nonempty) :
    ∃ d ∈ s.alloc.clearPages, ∃ s', memoryCreateUvm L s = some (d, s') ∧
      (Space.empty d).Owned n s' ∧ s'.alloc.clearPages = s.alloc.clearPages.erase d ∧
      s'.cr3 = s.cr3 ∧ (∀ x, ¬ InPage d x → s'.mem x = s.mem x) ∧
      ∀ k < userPdeStart, s'.mem.read32 (d + 4 * k) = s.mem.read32 (L.kernelPageDir + 4 * k) := by
  obtain ⟨d, hd, s₁, hs₁, hm₁, hclear₁, hmem₁, hcr₁⟩ := allocPage_spec hm hroom
  have hdp := hclear d hd
  have hne : L.kernelPageDir ≠ d := fun he => hLc (he ▸ hd)
  let s₂ : Vm := { s₁ with mem := s₁.mem.fill d 0 memPageSize }
  have hinit : Created L s s₁ d 0 s₂ := by
    refine ⟨rfl, rfl, fun x hx => ?_, fun k hk => ?_⟩
    · rw [← hmem₁]
      apply Mem.fill_apply_of_out
      unfold InPage at hx
      omega
    · rw [if_neg (by omega)]
      apply Mem.read32_fill_zero (by omega)
      unfold memPageSize pdeCnt at *
      omega
  obtain ⟨s₃, hs₃, halloc, hcr, hout, hword⟩ :=
    Prog.loop_total (I := Created L s s₁ d) (n := userPdeStart) (i := 0)
      (fun j t _ hj ht => ht.round (by unfold userPdeStart pdeIndex memoryTaskBase pdeCnt at *; omega)
        hdp hL hne) hinit
  have hcreate : memoryCreateUvm L s = some (d, s₃) := by
    rw [memoryCreateUvm, Prog.bind_of_eq hs₁, if_neg hdp.ne_zero,
      Prog.bind_of_eq (memset_page hdp.identity hdp.aligned hdp.ne_zero 0), Prog.bind_of_eq hs₃]
    rfl
  have hclear₃ : s₃.alloc.clearPages = s.alloc.clearPages.erase d := by rw [halloc, hclear₁]
  refine ⟨d, hd, s₃, hcreate, ⟨⟨?_, ?_, ?_, nofun, nofun, nofun⟩, halloc ▸ hm₁, ?_, ?_⟩, hclear₃,
    hcr.trans hcr₁, hout, fun k hk => ?_⟩
  · intro x p hx
    exact (Space.empty_page hx).2 ▸ hdp
  · intro x y p hx hy
    rw [(Space.empty_page hx).1, (Space.empty_page hy).1]
  · intro k hk hk'
    have hw := hword k hk'
    rw [if_neg (by omega)] at hw
    exact hw
  · intro p hp
    exact hclear p (Finset.mem_of_mem_erase (hclear₃ ▸ hp))
  · intro x p hx
    rw [(Space.empty_page hx).2, hclear₃]
    exact Finset.notMem_erase _ _
  · have hw := hword k (by unfold userPdeStart pdeIndex memoryTaskBase pdeCnt at *; omega)
    rw [if_pos (by omega)] at hw
    exact hw

end X86Os
