import X86Os.Heap

/-!
# Freeing a page

`memory_free_page` after the functions that allocate. In the user half its assertion asks for a null
pointer from `find_pte`, which a mapped page never gives. In the kernel half `addr_free_page` takes the
distance in bytes for the index of the page, which is right for the first page only.
-/

namespace X86Os

namespace Kernel

variable {n dir v perm : ℕ} {t : TaskId} {s s₁ s₂ : Kernel}

/-- The user page `v` is unmapped and its frame is clear again; everything else is as before. -/
structure UserPageFreed (dir v : ℕ) (s s₁ s₂ : Kernel) : Prop where
  unmapped : s₂.vm.mem.entryAt dir v = none
  frame : ∀ e, s₁.vm.mem.entryAt dir v = some e →
    s₂.vm.alloc.clearPages = insert (entryPaddr e) s₁.vm.alloc.clearPages
  others : ∀ w, UserAddr w → w / memPageSize ≠ v / memPageSize →
    s₂.vm.mem.entryAt dir w = s.vm.mem.entryAt dir w

/-- Allocating the user page `v` and freeing it goes through and is undone. -/
def FreesUserPage (dir v perm : ℕ) (s : Kernel) : Prop :=
  ∃ s₁ s₂, memoryAllocPageFor v memPageSize perm s = some (0, s₁) ∧
    memoryFreePage v s₁ = some ((), s₂) ∧ UserPageFreed dir v s s₁ s₂

/-- Freeing the page that `memory_alloc_page` returns restores the bitmap. -/
def RestoresPage (s : Kernel) : Prop :=
  ∀ p s₁, onVm memoryAllocPage s = some (p, s₁) → p ≠ 0 →
    ∃ s₂, memoryFreePage p s₁ = some ((), s₂) ∧ s₂.vm.alloc.used = s.vm.alloc.used

theorem currentPageDir_of (hcurr : s.sched.currTask = some t) :
    currentPageDir s = (s.task t).tss.cr3 := by
  rw [currentPageDir, hcurr]

/-- A mapped user page cannot be freed: the pointer to its entry is not null. -/
theorem memoryFreePage_mapped {vm : Vm} (hd : Directory vm.mem dir) (hv : UserAddr v)
    (hp : Present (vm.mem.pde dir (pdeIndex v))) : X86Os.memoryFreePage dir v vm = none := by
  have htp := (hd.tablePage _ hv.indices.2 hp).1
  have hne := htp.ne_zero
  rw [X86Os.memoryFreePage, if_neg (Nat.not_lt.mpr hv.1),
    Prog.bind_of_eq (findPte_present hd.dirPage hv.2 hp htp false)]
  refine Prog.bind_of_none ?_
  rw [Prog.require, if_neg (by omega)]
  rfl

/-- After a successful allocation the directory has a table for the page. -/
theorem memoryAllocPageFor_table (hcurr : s.sched.currTask = some t)
    (hdir : (s.task t).tss.cr3 = dir) (hg : Growable n dir s.vm) (hv : UserAddr v)
    (hperm : perm < memPageSize) (hrun : memoryAllocPageFor v memPageSize perm s = some (0, s₁)) :
    s₁.sched = s.sched ∧ s₁.task = s.task ∧ Directory s₁.vm.mem dir ∧
      Present (s₁.vm.mem.pde dir (pdeIndex v)) := by
  rw [memoryAllocPageFor, Prog.bind_of_eq (taskCurrent_eq hcurr), Prog.gets_bind, hdir] at hrun
  obtain ⟨vm, hcall, rfl⟩ := onVm_eq_some.mp hrun
  obtain ⟨f, hall, -⟩ := rangeAllocated_of_call hg (hperm.trans (by decide)) hcall
  have hcount : up2 memPageSize memPageSize / memPageSize = 1 := by decide
  rw [hcount] at hall
  have hfirst : rangeEntries v (fun k => f k ||| perm ||| pteP) 1 (pdeIndex v) (pteIndex v) =
      some (f 0 ||| perm ||| pteP) := by
    have hat := rangeEntries_at (v := v) (f := fun k => f k ||| perm ||| pteP) (c := 1) (k := 0)
      (by norm_num) (by norm_num)
    rwa [Nat.zero_mul, Nat.add_zero, u32_of_lt hv.2] at hat
  have hword := hall.extended.added _ hv.indices.2 _ (pteIndex_lt v) _ hfirst
  refine ⟨rfl, rfl, hall.extended.growable.directory, ?_⟩
  by_contra habsent
  rw [Mem.pteWord, if_neg habsent] at hword
  cases hword

theorem not_freesUserPage (hcurr : s.sched.currTask = some t) (hdir : (s.task t).tss.cr3 = dir)
    (hg : Growable n dir s.vm) (hv : UserAddr v) (hperm : perm < memPageSize) :
    ¬ FreesUserPage dir v perm s := by
  rintro ⟨s₁, s₂, halloc, hfree, -⟩
  obtain ⟨hsched, htask, hd, hp⟩ := memoryAllocPageFor_table hcurr hdir hg hv hperm halloc
  have hcurr₁ : currentPageDir s₁ = dir := by
    rw [currentPageDir_of (hsched ▸ hcurr), htask, hdir]
  rw [memoryFreePage, Prog.gets_bind, hcurr₁] at hfree
  obtain ⟨vm, hvm, -⟩ := onVm_eq_some.mp hfree
  rw [memoryFreePage_mapped hd hv hp] at hvm
  cases hvm

/-- What is left in the bitmap after the page with the index `k` was allocated and freed. -/
theorem memoryFreePage_kernel {k p : ℕ} (hm : s.vm.alloc.Managed n)
    (hk : s.vm.alloc.bitmap.FirstClear k) (hlow : s.vm.alloc.pageAddr k < memoryTaskBase)
    (hrun : onVm memoryAllocPage s = some (p, s₁)) : p = s.vm.alloc.pageAddr k ∧
      (∀ s₂, memoryFreePage p s₁ = some ((), s₂) →
        s₂.vm.alloc.used = insert k s.vm.alloc.used \ {memPageSize * k}) ∧
      (s.vm.alloc.Freeable p → ∃ s₂, memoryFreePage p s₁ = some ((), s₂)) := by
  obtain ⟨vm, hvm, rfl⟩ := onVm_eq_some.mp hrun
  have hused := AddrAlloc.used_allocPage hk
  obtain ⟨rfl, rfl⟩ := Prod.mk.inj (Option.some.inj hvm)
  have hfound := AddrAlloc.allocPage_found hk
  have hbound : k < 2 ^ 20 := by
    have hpages := hm.pages
    have hcount := hk.1
    rw [hm.bitCount] at hcount
    omega
  have haddr : (addrAllocPage s.vm.alloc 1).2.pageAddr k = s.vm.alloc.pageAddr k := by
    rw [hfound]
    rfl
  have hfree := AddrAlloc.used_freePage (hm.allocPage 1) hbound
  rw [haddr, hused] at hfree
  have hret : (addrAllocPage s.vm.alloc 1).1 = s.vm.alloc.pageAddr k := congrArg Prod.fst hfound
  have hroute : ∀ s₁ : Kernel, memoryFreePage (s.vm.alloc.pageAddr k) s₁ =
      onVm (freePages (s.vm.alloc.pageAddr k) 1) s₁ := by
    intro s₁
    rw [memoryFreePage, Prog.gets_bind, X86Os.memoryFreePage, if_pos hlow]
  rw [hret]
  refine ⟨rfl, fun s₂ hrun => ?_, fun hfreeable => ?_⟩
  · rw [hroute] at hrun
    obtain ⟨vm, hvm, rfl⟩ := onVm_eq_some.mp hrun
    rw [(freePages_eq_some.mp hvm).2]
    exact hfree
  · let v : Vm := { s.vm with alloc := (addrAllocPage s.vm.alloc 1).2 }
    have hthen : v.alloc.Freeable (s.vm.alloc.pageAddr k) := (AddrAlloc.freeable_congr rfl).mpr hfreeable
    have hreturns := freePages_of hthen 1
    exact ⟨_, (hroute _).trans (onVm_of_eq hreturns)⟩

/-- The bitmap is restored exactly if the page handed out is the first one. -/
theorem restoresPage_iff (hm : s.vm.alloc.Managed n)
    (hclear : ∀ p ∈ s.vm.alloc.clearPages, KernelPage p) :
    RestoresPage s ↔
      (s.vm.alloc.clearPages.Nonempty → s.vm.alloc.start ∈ s.vm.alloc.clearPages) := by
  rcases s.vm.alloc.firstClear_or with ⟨k, hk⟩ | hfull
  · have hlt : k < n := by
      have hcount := hk.1
      rw [hm.bitCount] at hcount
      omega
    have hmem : s.vm.alloc.pageAddr k ∈ s.vm.alloc.clearPages :=
      (AddrAlloc.mem_clearPages hm).mpr ⟨k, hlt, hk.2.1, rfl⟩
    have hkp := hclear _ hmem
    have hlow : s.vm.alloc.pageAddr k < memoryTaskBase :=
      hkp.identity.lt.trans (by unfold memoryTaskBase; norm_num)
    have hunused : k ∉ s.vm.alloc.used := fun hmem => by
      have hbit := hmem.2
      rw [hk.2.1] at hbit
      cases hbit
    have hfirst := AddrAlloc.start_mem_iff hm hk hlt
    constructor
    · rintro hall -
      rw [hfirst]
      obtain ⟨vm, hvm⟩ : ∃ vm, memoryAllocPage s.vm = some (s.vm.alloc.pageAddr k, vm) :=
        ⟨_, congrArg (fun a => some (a, _)) (congrArg Prod.fst (AddrAlloc.allocPage_found hk))⟩
      have hrun := onVm_of_eq hvm
      obtain ⟨s₂, hfree, hused⟩ := hall _ _ hrun hkp.ne_zero
      have hused' := (memoryFreePage_kernel hm hk hlow hrun).2.1 s₂ hfree
      rw [hused] at hused'
      by_contra hne
      have hback : k ∈ s.vm.alloc.used := by
        rw [hused']
        refine ⟨Set.mem_insert _ _, fun he => hne ?_⟩
        have he' : k = memPageSize * k := he
        unfold memPageSize at he'
        omega
      exact hunused hback
    · intro hstart p s₁ hrun _
      obtain rfl := hfirst.mp (hstart ⟨_, hmem⟩)
      obtain ⟨rfl, hused, hreturns⟩ := memoryFreePage_kernel hm hk hlow hrun
      obtain ⟨s₂, hfree⟩ := hreturns (AddrAlloc.freeable_pageAddr_zero hm)
      refine ⟨s₂, hfree, (hused s₂ hfree).trans ?_⟩
      rw [Nat.mul_zero, Set.insert_sdiff_self_of_notMem hunused]
  · have hempty := AddrAlloc.clearPages_of_full hm hfull
    refine iff_of_true (fun p s₁ hrun hne => absurd ?_ hne) (fun hno => ?_)
    · obtain ⟨vm, hvm, -⟩ := onVm_eq_some.mp hrun
      rw [memoryAllocPage, allocPage, AddrAlloc.allocPage_empty hm hempty] at hvm
      exact (Prod.mk.inj (Option.some.inj hvm)).1.symm
    · rw [hempty] at hno
      exact absurd hno Finset.not_nonempty_empty

/-- No user page can be freed after it was allocated: the assertion halts. A page of the kernel half
gets its bit back exactly if it is the first page of the allocator. -/
theorem memory_free_page_inverts (hcurr : s.sched.currTask = some t)
    (hdir : (s.task t).tss.cr3 = dir) (hg : Growable n dir s.vm) (hv : UserAddr v)
    (hperm : perm < memPageSize) :
    ¬ FreesUserPage dir v perm s ∧ (RestoresPage s ↔
      (s.vm.alloc.clearPages.Nonempty → s.vm.alloc.start ∈ s.vm.alloc.clearPages)) :=
  ⟨not_freesUserPage hcurr hdir hg hv hperm, restoresPage_iff hg.managed hg.usable⟩

/-- The first page of the allocator is clear, and comes back. -/
theorem memory_free_page_inverts_onePage :
    ¬ FreesUserPage 0x200000 0x80001000 7 (heapKernel 0x80001000) ∧
      RestoresPage (heapKernel 0x80001000) := by
  have hm : onePageVm.alloc.Managed (0x8000 / memPageSize) :=
    AddrAlloc.managed_init (by norm_num) (by norm_num)
  have hfirst : onePageVm.alloc.start ∈ onePageVm.alloc.clearPages :=
    (AddrAlloc.mem_clearPages hm).mpr ⟨0, by decide, Bitmap.bitAt_init _ (by decide), by decide⟩
  have hcurr : (heapKernel 0x80001000).sched.currTask = some .first := rfl
  obtain ⟨huser, hkernel⟩ := memory_free_page_inverts hcurr rfl onePage_growable
    (show UserAddr 0x80001000 from ⟨by decide, by decide⟩) (show 7 < memPageSize by decide)
  exact ⟨huser, hkernel.mpr fun _ => hfirst⟩

/-- The page at `0x80001000` is allocated, and freeing it halts in the assertion. -/
theorem memory_free_page_counterexample : ∃ s,
    memoryAllocPageFor 0x80001000 memPageSize 7 (heapKernel 0x80001000) = some (0, s) ∧
      memoryFreePage 0x80001000 s = none ∧
      ¬ FreesUserPage 0x200000 0x80001000 7 (heapKernel 0x80001000) := by
  have hcount : up2 memPageSize memPageSize / memPageSize = 1 := by decide
  have hv : UserAddr 0x80001000 := ⟨by decide, by decide⟩
  have hroom : 2 * 1 ≤ onePageVm.alloc.clearPages.card := by
    rw [onePageVm_card]
    norm_num
  have hnone : ∀ k < 1, onePageVm.mem.userEntry 0x200000 (pdeIndex (u32 (0x80001000 + k * memPageSize)))
      (pteIndex (u32 (0x80001000 + k * memPageSize))) = none := by
    intro k hk
    obtain rfl : k = 0 := by omega
    exact (onePage_owned.entryAt_eq hv).trans (heapKernel_unmapped le_rfl (by norm_num))
  obtain ⟨vm, hcall, -⟩ := rangeAlloc_total onePage_growable (show 7 < 2 ^ 32 by norm_num)
    hcount.symm (by norm_num) hroom hnone
  have hrun : memoryAllocPageFor 0x80001000 memPageSize 7 (heapKernel 0x80001000) =
      some (0, { heapKernel 0x80001000 with vm := vm }) := by
    rw [memoryAllocPageFor, Prog.bind_of_eq (taskCurrent_eq rfl), Prog.gets_bind]
    exact onVm_of_eq hcall
  obtain ⟨-, -, hd, hp⟩ :=
    memoryAllocPageFor_table rfl rfl onePage_growable hv (show 7 < memPageSize by decide) hrun
  refine ⟨_, hrun, ?_, not_freesUserPage rfl rfl onePage_growable hv (by decide)⟩
  have hcurr : currentPageDir { heapKernel 0x80001000 with vm := vm } = 0x200000 := rfl
  rw [memoryFreePage, Prog.gets_bind, hcurr]
  exact onVm_of_none (memoryFreePage_mapped hd hv hp)

end Kernel

end X86Os
