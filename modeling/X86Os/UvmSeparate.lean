import X86Os.UvmCopy

/-!
# The copy is separate

The rounds of `memory_copy_uvm` put together: while clear pages cover the need of the source, the call
succeeds, its result maps the same pages with the same bytes, and no page serves both spaces.
-/

namespace X86Os

variable {L : Layout} {n d : ℕ} {s₀ : Vm} {dir : ℕ}

/-- The copy with directory `d` after `pos` positions. -/
def CopyingTo (L : Layout) (n : ℕ) (s₀ : Vm) (dir d pos : ℕ) (s : Vm) : Prop :=
  ∃ sp : Space, sp.dir = d ∧ Copying L n s₀ dir pos sp s

theorem CopyingTo.page (hs : CopySource L n s₀ dir) {i j : ℕ} {s : Vm}
    (h : CopyingTo L n s₀ dir d (i * pteCnt + j) s) (hi : userPdeStart ≤ i) (hi' : i < pdeCnt)
    (hj : j < pteCnt) (hpres : Present (s₀.mem.read32 (dir + 4 * i))) :
    ∃ s', copyPage (entryPaddr (s₀.mem.read32 (dir + 4 * i))) d i j s = some (none, s') ∧
      CopyingTo L n s₀ dir d (i * pteCnt + j + 1) s' := by
  obtain ⟨sp, rfl, hcopy⟩ := h
  cases he : s₀.mem.userEntry dir i j with
  | some e =>
      obtain ⟨p, t, sp₁, s', hrun, hc⟩ := hcopy.run hs hi hi' hj he hpres
      have hdir : sp₁.dir = sp.dir := Space.Owned.grown_dir hc.grown
      exact ⟨s', hrun, sp₁.addEntry i j (p + e % 2 ^ 9), hdir, hc.next hs hcopy hi hi' hj he⟩
  | none =>
      have hpage : entryPaddr (s₀.mem.read32 (dir + 4 * i)) ∈ dirPages s₀.mem dir :=
        .inr ⟨i, hi, hi', hpres, rfl⟩
      have hcongr := userEntry_congr hi hi' hj fun p hp =>
        hs.read_pde hcopy.out p (dirPages_subset hp)
      have hentry := hcongr.2.trans he
      simp only [Mem.userEntry, hcongr.1, if_pos hpres] at hentry
      refine ⟨s, ?_, sp, rfl, hcopy.advance (Nat.le_succ _) fun i' j' _ _ hj' hle hlt => ?_⟩
      · rw [copyPage, Prog.bind_of_eq ((hs.table i hi hi' hpres).load32 hj)]
        split_ifs at hentry with hnot
        rw [if_neg hnot]
        rfl
      · by_cases heq : i' = i ∧ j' = j
        · rw [heq.1, heq.2, he]
        · have := position_lt hj' hj hlt heq
          omega

theorem CopyingTo.table (hs : CopySource L n s₀ dir) {i : ℕ} {s : Vm}
    (h : CopyingTo L n s₀ dir d (i * pteCnt) s) (hi : userPdeStart ≤ i) (hi' : i < pdeCnt) :
    ∃ s', copyTable dir d i s = some (none, s') ∧
      CopyingTo L n s₀ dir d ((i + 1) * pteCnt) s' := by
  obtain ⟨sp, hsp, hcopy⟩ := h
  have hpde : s.mem.read32 (dir + 4 * i) = s₀.mem.read32 (dir + 4 * i) :=
    (userEntry_congr (j := 0) hi hi' (by decide) fun p hp =>
      hs.read_pde hcopy.out p (dirPages_subset hp)).1
  have hload := hs.dirPage.load32 (s := s) hi'
  by_cases hpres : Present (s₀.mem.read32 (dir + 4 * i))
  · have hzero : CopyingTo L n s₀ dir d (i * pteCnt + 0) s := by
      rw [Nat.add_zero]
      exact ⟨sp, hsp, hcopy⟩
    have hround : ∀ j s₁, 0 ≤ j → j < 0 + pteCnt → CopyingTo L n s₀ dir d (i * pteCnt + j) s₁ →
        ∃ s₂, copyPage (entryPaddr (s₀.mem.read32 (dir + 4 * i))) d i j s₁ = some (none, s₂) ∧
          CopyingTo L n s₀ dir d (i * pteCnt + (j + 1)) s₂ := by
      intro j s₁ _ hj h₁
      rw [Nat.zero_add] at hj
      rw [← Nat.add_assoc]
      exact h₁.page hs hi hi' hj hpres
    obtain ⟨s', hrun, hend⟩ := Prog.loop_total
      (I := fun j s => CopyingTo L n s₀ dir d (i * pteCnt + j) s) hround hzero
    refine ⟨s', ?_, ?_⟩
    · rw [copyTable, Prog.bind_of_eq hload, hpde, if_pos hpres]
      exact hrun
    · rw [Nat.add_mul, Nat.one_mul]
      rwa [Nat.zero_add] at hend
  · refine ⟨s, ?_, sp, hsp, hcopy.advance (Nat.mul_le_mul_right _ (Nat.le_succ i))
      fun i' j' _ _ hj' hle hlt => ?_⟩
    · rw [copyTable, Prog.bind_of_eq hload, hpde, if_neg hpres]
      rfl
    · have heq : i' = i := by
        unfold pteCnt at *
        omega
      subst i'
      rw [Mem.userEntry, if_neg hpres]

theorem CopySource.start (hs : CopySource L n s₀ dir)
    (hroom : copyNeed s₀.mem dir ≤ s₀.alloc.clearPages.card) :
    ∃ d ∈ s₀.alloc.clearPages, ∃ s, memoryCreateUvm L s₀ = some (d, s) ∧
      CopyingTo L n s₀ dir d (userPdeStart * pteCnt) s := by
  unfold copyNeed at hroom
  obtain ⟨d, hd, s, hs₁, howned, hclear, hcr, hout, hword⟩ := memoryCreateUvm_spec hs.managed
    hs.usable hs.kernelDir hs.kernelDir_unused (Finset.card_pos.mp (by omega))
  refine ⟨d, hd, s, hs₁, Space.empty d, rfl, howned, hcr.trans hs.current, ?_, fun x p hx => ?_,
    fun x hx => hout x (hx d hd), hword, fun _ _ _ _ _ _ => rfl, fun i j e hi hi' hj hlt => ?_,
    fun _ _ _ _ => rfl, ?_⟩
  · rw [hclear]
    exact Finset.erase_subset _ _
  · exact (Space.empty_page hx).2 ▸ hd
  · have hle : userPdeStart * pteCnt ≤ i * pteCnt := Nat.mul_le_mul_right _ hi
    omega
  · have hframes : (framesLeft s₀.mem dir (userPdeStart * pteCnt)).card ≤
        (mappedPages s₀.mem dir).card := Finset.card_le_card (Finset.filter_subset _ _)
    have htables : (tablesLeft s₀.mem dir (Space.empty d)).card ≤
        ((mappedPages s₀.mem dir).image Prod.fst).card :=
      Finset.card_le_card (Finset.filter_subset _ _)
    have herase := Finset.card_erase_add_one hd
    rw [hclear]
    omega

/-- Every user page of an owned space has a slot. -/
theorem Space.Owned.userPages_page {sp : Space} {s : Vm} (h : sp.Owned n s) {p : ℕ}
    (hp : p ∈ userPages s.mem sp.dir) : ∃ x, sp.page x = some p := by
  rcases hp with rfl | ⟨i, hi, hi', hpres, rfl⟩ | ⟨i, j, e, hi, hi', hj, he, rfl⟩
  · exact ⟨.dir, rfl⟩
  · rw [h.shape.pde i hi hi'] at hpres ⊢
    cases ht : sp.table i with
    | none => simp [ht, Present] at hpres
    | some t =>
        have hal := (h.tablePage ht).aligned
        refine ⟨.table i, ?_⟩
        rw [Option.map_some, Option.getD_some,
          entryPaddr_add hal (show 7 < memPageSize by unfold memPageSize; norm_num)]
        exact ht
  · rw [h.shape.userEntry_eq hi hi' hj] at he
    exact ⟨.frame i j, by rw [Space.page, he]; rfl⟩

/-- Spaces that own their pages can be copied. -/
theorem Space.Owned.copySource {sp : Space} {s : Vm} (h : sp.Owned n s) (hcr : s.cr3 = sp.dir)
    (hk : KernelPage L.kernelPageDir) (hku : L.kernelPageDir ∉ s.alloc.clearPages)
    (hhalf : ∀ k < userPdeStart,
      s.mem.read32 (sp.dir + 4 * k) = s.mem.read32 (L.kernelPageDir + 4 * k)) :
    CopySource L n s sp.dir where
  managed := h.managed
  current := hcr
  dirPage := h.dirPage
  table i hi hi' hpres := by
    rw [h.shape.pde i hi hi'] at hpres ⊢
    cases ht : sp.table i with
    | none => simp [ht, Present] at hpres
    | some t =>
        have hal := (h.tablePage ht).aligned
        rw [Option.map_some, Option.getD_some,
          entryPaddr_add hal (show 7 < memPageSize by unfold memPageSize; norm_num)]
        exact h.tablePage ht
  kernelDir := hk
  usable := h.clear
  kernelDir_unused := hku
  unused p hp := by
    obtain ⟨x, hx⟩ := h.userPages_page hp
    exact h.apart x p hx
  kernelHalf := hhalf

/-- After the last position the copy is complete. -/
theorem Copying.finish (hs : CopySource L n s₀ dir) {sp : Space} {s : Vm}
    (h : Copying L n s₀ dir (pdeCnt * pteCnt) sp s) : UvmCopied L s₀ s dir sp.dir := by
  have hkeep := hs.read_pde h.out
  have hentry : ∀ i j, userPdeStart ≤ i → i < pdeCnt → j < pteCnt →
      s.mem.userEntry sp.dir i j = sp.entry i j :=
    fun i j hi hi' hj => h.owned.shape.userEntry_eq hi hi' hj
  have hdone : ∀ i j e, userPdeStart ≤ i → i < pdeCnt → j < pteCnt →
      s₀.mem.userEntry dir i j = some e → ∃ e', sp.entry i j = some e' ∧ e' % 2 ^ 9 = e % 2 ^ 9 ∧
        ∀ k < memPageSize, s.mem (entryPaddr e' + k) = s₀.mem (entryPaddr e + k) := by
    intro i j e hi hi' hj he
    refine h.done i j e hi hi' hj ?_ he
    unfold pdeCnt pteCnt at *
    omega
  have hfresh : userPages s.mem sp.dir ⊆ s₀.alloc.clearPages := by
    intro p hp
    obtain ⟨x, hx⟩ := h.owned.userPages_page hp
    exact h.pages x p hx
  refine ⟨fun i j hi hi' hj => ?_, fun i j e e' hi hi' hj he he' => ?_, hfresh, ?_, hkeep, h.kernel,
    fun k hk => ?_⟩
  · rw [hentry i j hi hi' hj]
    constructor
    · intro hnone
      cases he : s₀.mem.userEntry dir i j with
      | none => rfl
      | some e =>
          obtain ⟨e', he', -⟩ := hdone i j e hi hi' hj he
          rw [he'] at hnone
          cases hnone
    · exact h.missing i j hi hi' hj
  · obtain ⟨e'', he'', hrest⟩ := hdone i j e hi hi' hj he
    rw [hentry i j hi hi' hj, he''] at he'
    exact Option.some.inj he' ▸ hrest
  · exact Set.disjoint_left.mpr fun p hp hp' => hs.unused p hp' (hfresh hp)
  · rw [h.kernel k hk, ← hs.kernelHalf k hk]
    refine (Mem.read32_congr fun x hx hx' => ?_).symm
    have hbyte := hkeep dir (.inl rfl) (x - dir) (by
      unfold userPdeStart pdeIndex memoryTaskBase memPageSize at *
      omega)
    rwa [show dir + (x - dir) = x by omega] at hbyte

/-- The pages of both spaces stay apart as long as their directories and tables do not change. -/
theorem isolated_of_apart {m : Mem} {d d' : ℕ} (hd : d % memPageSize = 0)
    (hd' : d' % memPageSize = 0) (hapart : Disjoint (userPages m d') (userPages m d)) :
    Isolated m d d' := by
  intro m' hsame v w b hv hv' hw hw'
  have hpages : userPages m' d = userPages m d := userPages_congr fun p hp => hsame p (.inl hp)
  have hpages' : userPages m' d' = userPages m d' := userPages_congr fun p hp => hsame p (.inr hp)
  rw [← hpages, ← hpages'] at hapart
  exact ⟨userWrite_seen hd hd' hapart.symm hv hv' hw hw' b,
    userWrite_seen hd' hd hapart hv hv' hw hw' b⟩

/-- A copy for which the clear pages suffice succeeds. -/
theorem memoryCopyUvm_copying (hs : CopySource L n s₀ dir)
    (hroom : copyNeed s₀.mem dir ≤ s₀.alloc.clearPages.card) (residue : ℕ) :
    ∃ sp s, memoryCopyUvm L residue dir s₀ = some (sp.dir, s) ∧ KernelPage sp.dir ∧
      Copying L n s₀ dir (pdeCnt * pteCnt) sp s := by
  obtain ⟨d, hd, s₁, hs₁, hstart⟩ := hs.start hroom
  have hdp := hs.usable d hd
  obtain ⟨s₂, hs₂, hend⟩ := Prog.loop_total (n := pdeCnt - userPdeStart) (i := userPdeStart)
    (I := fun i s => CopyingTo L n s₀ dir d (i * pteCnt) s)
    (fun i s hi hi' h => h.table hs hi (by
      unfold pdeCnt userPdeStart pdeIndex memoryTaskBase at *
      omega)) hstart
  have hlast : userPdeStart + (pdeCnt - userPdeStart) = pdeCnt := by decide
  rw [hlast] at hend
  obtain ⟨sp, rfl, hcopy⟩ := hend
  refine ⟨sp, s₂, ?_, hdp, hcopy⟩
  rw [memoryCopyUvm, Prog.bind_of_eq hs₁, if_neg hdp.ne_zero, Prog.bind_of_eq hs₂]
  rfl

/-- The copy of a source whose clear pages suffice is separate from it. -/
theorem memory_copy_uvm_separate (hs : CopySource L n s₀ dir)
    (hroom : copyNeed s₀.mem dir ≤ s₀.alloc.clearPages.card) (residue : ℕ) :
    ∃ dest s, memoryCopyUvm L residue dir s₀ = some (dest, s) ∧ dest ≠ 0 ∧ s.cr3 = dir ∧
      UvmCopied L s₀ s dir dest ∧ Isolated s.mem dir dest := by
  obtain ⟨sp, s, hrun, hdp, hcopy⟩ := memoryCopyUvm_copying hs hroom residue
  have hdone := hcopy.finish hs
  have hpages := userPages_congr fun p hp => hdone.unchanged p (dirPages_subset hp)
  refine ⟨sp.dir, s, hrun, hdp.ne_zero, hcopy.cr3, hdone,
    isolated_of_apart hs.dirPage.aligned hdp.aligned ?_⟩
  rw [hpages]
  exact hdone.apart

/-- A source stays one while its pages and the kernel's directory keep their bytes. -/
theorem CopySource.congr (hs : CopySource L n s₀ dir) {s : Vm} (hm : s.alloc.Managed n)
    (hsub : s.alloc.clearPages ⊆ s₀.alloc.clearPages) (hcr : s.cr3 = s₀.cr3)
    (hpages : ∀ p ∈ userPages s₀.mem dir, ∀ k < memPageSize, s.mem (p + k) = s₀.mem (p + k))
    (hkernel : ∀ k < memPageSize, s.mem (L.kernelPageDir + k) = s₀.mem (L.kernelPageDir + k)) :
    CopySource L n s dir ∧ copyNeed s.mem dir = copyNeed s₀.mem dir := by
  have hdir : ∀ p ∈ dirPages s₀.mem dir, ∀ k < memPageSize, s.mem (p + k) = s₀.mem (p + k) :=
    fun p hp => hpages p (dirPages_subset hp)
  have hword : ∀ {a : ℕ}, (∀ k < memPageSize, s.mem (a + k) = s₀.mem (a + k)) → ∀ k < 1024,
      s.mem.read32 (a + 4 * k) = s₀.mem.read32 (a + 4 * k) := by
    intro a ha k hk
    refine Mem.read32_congr fun x hx hx' => ?_
    have hbyte := ha (x - a) (by unfold memPageSize; omega)
    rwa [show a + (x - a) = x by omega] at hbyte
  have hlow : ∀ k < userPdeStart, k < 1024 := by
    intro k hk
    unfold userPdeStart pdeIndex memoryTaskBase at hk
    omega
  constructor
  · refine ⟨hm, hcr.trans hs.current, hs.dirPage, fun i hi hi' => ?_, hs.kernelDir,
      fun p hp => hs.usable p (hsub hp), fun h => hs.kernelDir_unused (hsub h), fun p hp h => ?_,
      fun k hk => ?_⟩
    · rw [(userEntry_congr (j := 0) hi hi' (by decide) hdir).1]
      exact hs.table i hi hi'
    · rw [userPages_congr hdir] at hp
      exact hs.unused p hp (hsub h)
    · rw [hword (hdir dir (.inl rfl)) k (hlow k hk), hword hkernel k (hlow k hk)]
      exact hs.kernelHalf k hk
  · have hmapped : mappedPages s.mem dir = mappedPages s₀.mem dir := by
      ext x
      rw [mem_mappedPages, mem_mappedPages]
      refine and_congr_right fun hx => and_congr_right fun hi => ?_
      rw [(userEntry_congr hi hx.1 hx.2 hdir).2]
    rw [copyNeed, hmapped, copyNeed]

/-! ## A space with one page -/

/-- The directory at `0x200000` maps the first user page to `0x202000`. -/
def onePage : Space := ((Space.empty 0x200000).addTable 512 0x201000).addEntry 512 0 0x202007

def onePageVm : Vm where
  mem := ((Mem.zero.write32 (0x200000 + 4 * 512) (0x201000 + 7)).fill 0x201000 0
    memPageSize).write32 (0x201000 + 4 * 0) 0x202007
  alloc := addrAllocInit (fun _ => 0) 0x300000 0x8000 memPageSize
  cr3 := 0x200000
  frees := []

theorem Space.empty_at {d' : ℕ} (hd : KernelPage d') : (Space.empty d').At Mem.zero where
  kernelPage x p hx := (Space.empty_page hx).2 ▸ hd
  distinct x y p hx hy := by rw [(Space.empty_page hx).1, (Space.empty_page hy).1]
  pde i _ _ := Mem.read32_zero _
  pte := nofun
  present := nofun
  range := nofun

theorem onePage_page {x : Slot} {p : ℕ} (h : onePage.page x = some p) :
    p = 0x200000 ∨ p = 0x201000 ∨ p = 0x202000 := by
  rcases Space.addEntry_page h with ⟨-, rfl⟩ | ⟨-, h⟩
  · exact .inr (.inr (by decide))
  · rcases Space.addTable_page h with ⟨-, rfl⟩ | ⟨-, h⟩
    · exact .inr (.inl rfl)
    · exact .inl (Space.empty_page h).2

theorem onePageVm_clear {p : ℕ} (h : p ∈ onePageVm.alloc.clearPages) :
    ∃ k < 8, p = 0x300000 + k * 4096 := by
  have hm : onePageVm.alloc.Managed (0x8000 / memPageSize) :=
    AddrAlloc.managed_init (by norm_num) (by norm_num)
  obtain ⟨k, hk, -, rfl⟩ := (AddrAlloc.mem_clearPages hm).mp h
  have hk' : k < 8 := hk
  refine ⟨k, hk', ?_⟩
  show u32 (0x300000 + k * 4096) = 0x300000 + k * 4096
  exact u32_of_lt (by omega)

theorem onePage_owned : onePage.Owned 8 onePageVm := by
  have hpage : ∀ p, p % memPageSize = 0 → memExtStart ≤ p → p < memExtLimit → KernelPage p := by
    intro p h1 h2 h3
    refine ⟨h1, .inr ⟨h2, h3⟩, ?_⟩
    unfold memExtStart at h2
    omega
  refine ⟨?_, AddrAlloc.managed_init (by norm_num) (by norm_num), fun p hp => ?_, fun x p hx hp => ?_⟩
  · have hd : KernelPage 0x200000 := hpage _ (by decide) (by decide) (by decide)
    have ht : KernelPage 0x201000 := hpage _ (by decide) (by decide) (by decide)
    have hf : KernelPage (entryPaddr 0x202007) := hpage _ (by decide) (by decide) (by decide)
    have hfresh : ∀ x, (Space.empty 0x200000).page x ≠ some 0x201000 := by
      intro x hx
      have := (Space.empty_page hx).2
      omega
    have htable := (Space.empty_at hd).addTable (i := 512) (by decide) (by decide) rfl ht hfresh
    refine htable.addEntry Space.addTable_table_self (by decide) (by decide) (by decide) hf ?_
    intro x hx
    rcases Space.addTable_page hx with ⟨-, h⟩ | ⟨-, h⟩
    · exact absurd h (by decide)
    · exact absurd (Space.empty_page h).2 (by decide)
  · obtain ⟨k, hk, rfl⟩ := onePageVm_clear hp
    refine hpage _ ?_ ?_ ?_
    · unfold memPageSize
      omega
    · unfold memExtStart
      omega
    · unfold memExtLimit
      omega
  · obtain ⟨k, hk, rfl⟩ := onePageVm_clear hp
    have := onePage_page hx
    omega

/-- The memory below the user entries of the directory. -/
theorem onePageVm_zero {a : ℕ} (ha : a + 4 ≤ 0x200800) : onePageVm.mem.read32 a = 0 := by
  refine (Mem.read32_congr fun x hx hx' => ?_).trans (Mem.read32_zero a)
  simp only [onePageVm]
  rw [Mem.write32_apply_of_out x (by omega), Mem.fill_apply_of_out x (by omega),
    Mem.write32_apply_of_out x (by omega)]

theorem onePage_source : CopySource sampleLayout 8 onePageVm 0x200000 := by
  refine onePage_owned.copySource rfl ⟨by decide, by decide, by decide⟩ ?_ fun k hk => ?_
  · intro h
    obtain ⟨k, hk, h⟩ := onePageVm_clear h
    have h' : 0x20000 = 0x300000 + k * 4096 := h
    omega
  · have hk' : k < 512 := hk
    rw [onePageVm_zero (show onePage.dir + 4 * k + 4 ≤ 0x200800 by
        show 0x200000 + 4 * k + 4 ≤ 0x200800
        omega),
      onePageVm_zero (show sampleLayout.kernelPageDir + 4 * k + 4 ≤ 0x200800 by
        show 0x20000 + 4 * k + 4 ≤ 0x200800
        omega)]

theorem onePageVm_card : onePageVm.alloc.clearPages.card = 8 :=
  (AddrAlloc.card_clearPages_init (by norm_num) (by norm_num)).trans (by decide)

/-- A copy takes a directory, a table and a frame. -/
theorem onePage_copyNeed : copyNeed onePageVm.mem 0x200000 ≤ 3 := by
  have hsub : mappedPages onePageVm.mem 0x200000 ⊆ {(512, 0)} := by
    intro x hx
    obtain ⟨⟨hi, hj⟩, hi', hsome⟩ := mem_mappedPages.mp hx
    rw [show (0x200000 : ℕ) = onePage.dir from rfl,
      onePage_owned.shape.userEntry_eq hi' hi hj] at hsome
    by_cases heq : x.1 = 512 ∧ x.2 = 0
    · rw [Finset.mem_singleton]
      exact Prod.ext heq.1 heq.2
    · rw [onePage, Space.addEntry_entry_of_ne heq] at hsome
      cases hsome
  have hcard := Finset.card_le_card hsub
  have himage := Finset.card_image_le (f := Prod.fst) (s := mappedPages onePageVm.mem 0x200000)
  rw [Finset.card_singleton] at hcard
  rw [copyNeed]
  omega

theorem onePage_need : copyNeed onePageVm.mem 0x200000 ≤ onePageVm.alloc.clearPages.card := by
  rw [onePageVm_card]
  exact onePage_copyNeed.trans (by norm_num)

theorem memory_copy_uvm_separate_onePage : ∃ dest s,
    memoryCopyUvm sampleLayout 0 0x200000 onePageVm = some (dest, s) ∧ dest ≠ 0 ∧ s.cr3 = 0x200000 ∧
      UvmCopied sampleLayout onePageVm s 0x200000 dest ∧ Isolated s.mem 0x200000 dest :=
  memory_copy_uvm_separate onePage_source onePage_need 0

end X86Os
