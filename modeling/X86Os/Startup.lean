import X86Os.Gdt
import X86Os.KernelTable
import X86Os.Populated
import X86Os.RangeFill
import X86Os.TaskInit

/-!
# The kernel comes up

From the loader to the first task: with enough memory no assertion fails, nothing is accessed that is
not mapped, and every page, table and descriptor that is asked for is there. What is still there is
counted along the way.
-/

namespace X86Os

variable {n : ℕ} {s s' : Vm} {L : Layout}

/-! ## Memory -/

theorem Vm.first_self (hm : s.alloc.Managed n) : s.first n = s := by
  rw [Vm.first, AddrAlloc.first, ← hm.bitCount]
  rfl

/-- With all its pages below `MEM_EXT_END` the allocator is in order after `memory_init`, and only the
tables of the kernel were taken. -/
theorem memoryInit_ready (bits : ℤ → BitVec 8) {boot : BootInfo} (hfits : BitmapFits L boot)
    (hn : memUp1MBFree boot / memPageSize = n) (hroom : kernelTables ≤ n)
    (htop : memExtStart + n * memPageSize ≤ memExtLimit)
    (hempty : ∀ i < pdeCnt, ¬ Present (s.mem.pde L.kernelPageDir i)) :
    ∃ s', memoryInit L bits boot s = some ((), s') ∧ Kernel.MemoryReady L n s' ∧
      n ≤ s'.alloc.clearPages.card + kernelTables := by
  obtain ⟨hend, hdata⟩ := hfits.sData_lt
  have hne : L.kernelPageDir ≠ 0 := by
    have htext := L.sText_eq
    have hle := L.eText_ge
    have heq := L.sData_eq
    have hge := L.pageDir_ge
    omega
  have hdir : KernelPage L.kernelPageDir :=
    ⟨L.pageDir_aligned, .inl (by unfold memPageSize at hend; omega), hne⟩
  let s₁ : Vm :=
    { s with alloc := addrAllocInit bits memExtStart (memUp1MBFree boot) memPageSize }
  have hm : s₁.alloc.Managed n := hn ▸ AddrAlloc.managed_init (by decide) (memUp1MBFree_lt boot)
  have hself : s₁.first n = s₁ := Vm.first_self hm
  have hpage : ∀ p ∈ s₁.alloc.clearPages, KernelPage p ∧ p ≠ L.kernelPageDir := by
    intro p hp
    obtain ⟨k, hk, -, hpk⟩ := (AddrAlloc.mem_clearPages hm).mp hp
    have hlt := Nat.mul_lt_mul_of_pos_right hk (show 0 < memPageSize by decide)
    have hle : memExtStart + k * memPageSize < memExtLimit := by omega
    obtain rfl : memExtStart + k * memPageSize = p := by
      rw [← hpk]
      exact (u32_of_lt (by unfold memExtLimit at hle; omega)).symm
    refine ⟨⟨?_, .inr ⟨Nat.le_add_right _ _, hle⟩, ?_⟩, ?_⟩
    all_goals
      unfold memExtStart memEbdaStart memPageSize at *
      omega
  have hcard : s₁.alloc.clearPages.card = n :=
    hn ▸ AddrAlloc.card_clearPages_init (by decide) (memUp1MBFree_lt boot)
  have hmissing : (missingTables L.kernelPageDir s.mem).card ≤ kernelTables :=
    (Finset.card_filter_le _ _).trans (Finset.card_range _).le
  have hgrowable : Growable n L.kernelPageDir s₁ :=
    { directory := ⟨hdir, fun i hi hp => absurd hp (hempty i hi),
        fun i hi _ _ hp => absurd hp (hempty i hi)⟩
      managed := hm
      usable := fun p hp => (hpage p hp).1
      dir_taken := fun hd => (hpage _ hd).2 rfl
      table_taken := fun i hi hp => absurd hp (hempty i hi) }
  have hbuilt : Built n n L.kernelPageDir [] s₁ :=
    { managed := hm
      growable := by rwa [hself]
      entry := fun v hv => if_neg (hempty _ (pdeIndex_lt hv))
      word := fun i hi j _ e he => absurd (Mem.present_of_pteWord he) (hempty i hi)
      room := by
        rw [hself, hcard]
        exact hmissing.trans hroom }
  obtain ⟨s₂, hrun, hbuilt₂, hspent⟩ := hbuilt.forM le_rfl (linkMap_ok (L.linkAddrs hdata))
    (linkMap_apart _) fun _ hold => absurd hold List.not_mem_nil
  have hself₂ : s₂.first n = s₂ := Vm.first_self hbuilt₂.managed
  have hgrow := hbuilt₂.growable
  rw [hself₂] at hgrow hspent
  rw [hself, hcard] at hspent
  refine ⟨{ s₂ with cr3 := L.kernelPageDir }, ?_,
    ⟨hgrow.managed, hgrow.usable, hdir, hgrow.dir_taken⟩, ?_⟩
  · have htable : createKernelTable L s₁ = some ((), s₂) := by
      rw [createKernelTable_eq L hdata]
      exact hrun
    rw [memoryInit, Prog.modify_bind, Prog.bind_of_eq (Prog.require_of hfits),
      Prog.bind_of_eq htable]
    rfl
  · show n ≤ s₂.alloc.clearPages.card + kernelTables
    have hsame : (missingTables L.kernelPageDir s₁.mem).card ≤ kernelTables := hmissing
    omega

/-! ## Writing to the user half -/

variable {sp : Space} {dest src c : ℕ}

/-- What the current space maps can be written to, and the space stays as it is. -/
theorem Space.Owned.store8 (h : sp.Owned n s) (hcr3 : s.cr3 = sp.dir) (hv : UserAddr dest)
    (hmapped : sp.entry (pdeIndex dest) (pteIndex dest) ≠ none) (b : BitVec 8) :
    ∃ s', X86Os.store8 dest b s = some ((), s') ∧ sp.Owned n s' ∧ s'.cr3 = sp.dir := by
  obtain ⟨e, he⟩ := Option.ne_none_iff_exists'.mp hmapped
  have hframe : sp.page (.frame (pdeIndex dest) (pteIndex dest)) = some (entryPaddr e) := by
    rw [Space.page, he]
    rfl
  have hdir := h.shape.kernelPage .dir sp.dir rfl
  have hphys : s.phys dest = some (entryPaddr e + dest % memPageSize) := by
    have hbase : entryPaddr sp.dir = sp.dir := entryPaddr_add (x := 0) hdir.aligned (by decide)
    rw [Vm.phys, if_neg (not_lt.mpr hv.1), hcr3, hbase, walk_eq,
      h.shape.userEntry_eq hv.indices.1 hv.indices.2 (pteIndex_lt dest), he]
    rfl
  let m := s.mem.write8 (entryPaddr e + dest % memPageSize) b
  have hsame : ∀ x q, sp.page x = some q → x ≠ .frame (pdeIndex dest) (pteIndex dest) →
      ∀ a, InPage q a → m a = s.mem a := by
    intro x q hq hx a ha
    refine Function.update_of_ne (fun he => hx ?_) _ _
    have hin : InPage (entryPaddr e) a := by
      rw [he]
      exact walk_in_frame
    have hpage := InPage.unique (h.shape.kernelPage x q hq).aligned (entryPaddr_mod e) ha hin
    exact h.shape.distinct _ _ q hq (hpage ▸ hframe)
  refine ⟨{ s with mem := m }, ?_, ⟨h.shape.congr ?_ ?_, h.managed, h.clear, h.apart⟩, hcr3⟩
  · rw [X86Os.store8, hphys]
    rfl
  · exact hsame .dir sp.dir rfl (by simp)
  · exact fun i t ht => hsame (.table i) t ht (by simp)

/-- Copying from the kernel half to pages of the current space. -/
theorem Space.Owned.memcpyLoop (h : sp.Owned n s) (hcr3 : s.cr3 = sp.dir)
    (hsrc : ∀ i < c, Identity (src + i)) (hend : dest + c < 2 ^ 32)
    (hdest : ∀ i < c, UserAddr (dest + i) ∧
      sp.entry (pdeIndex (dest + i)) (pteIndex (dest + i)) ≠ none) :
    ∃ s', X86Os.memcpyLoop c dest src s = some ((), s') ∧ sp.Owned n s' := by
  induction c generalizing dest src s with
  | zero => exact ⟨s, rfl, h⟩
  | succ c ih =>
      have hid : Identity src := hsrc 0 (Nat.succ_pos c)
      have hfirst : UserAddr dest ∧ sp.entry (pdeIndex dest) (pteIndex dest) ≠ none :=
        hdest 0 (Nat.succ_pos c)
      obtain ⟨s₁, hstore, h₁, hcr3₁⟩ := h.store8 hcr3 hfirst.1 hfirst.2 (s.mem src)
      have hlt := hid.lt
      rw [X86Os.memcpyLoop, Prog.bind_of_eq (load8_of_identity hid), Prog.bind_of_eq hstore,
        u32_of_lt (show dest + 1 < 2 ^ 32 by omega), u32_of_lt (show src + 1 < 2 ^ 32 by omega)]
      refine ih h₁ hcr3₁ (fun i hi => ?_) (by omega) fun i hi => ?_
      · rw [Nat.add_right_comm]
        exact hsrc (i + 1) (by omega)
      · rw [Nat.add_right_comm]
        exact hdest (i + 1) (by omega)

namespace Kernel

variable {i : ℕ} {k k' : Kernel} {taken : List ℕ} {t : TaskId}

/-! ## Tasks and descriptors -/

/-- Memory is in order with at most `c` of the `n` pages taken, and the selectors `taken` are in use. -/
structure Supplied (L : Layout) (n c : ℕ) (taken : List ℕ) (k : Kernel) : Prop where
  memory : MemoryReady L n k.vm
  clear : n ≤ k.vm.alloc.clearPages.card + c
  gdt : GdtTracked k.gdt taken

namespace Supplied

theorem room (h : Supplied L n c taken k) {d : ℕ} (hd : c + d ≤ n) :
    d ≤ k.vm.alloc.clearPages.card := by
  have := h.clear
  omega

theorem desc (h : Supplied L n c taken k) (hlen : taken.length < gdtTableSize - firstSlot) :
    ∃ i, gdtFree k.gdt = some i := by
  rw [← Option.ne_none_iff_exists']
  intro hnone
  let all := (List.range (gdtTableSize - firstSlot)).map fun j => 8 * (firstSlot + j)
  have hnodup : all.Nodup := List.Nodup.map (fun a b hab => by omega) List.nodup_range
  have hsub : all ⊆ taken := by
    intro sel hsel
    obtain ⟨j, hj, rfl⟩ := List.mem_map.mp hsel
    have hlt := List.mem_range.mp hj
    exact h.gdt.gdtFree_eq_none.mp hnone _ (Nat.le_add_right _ _) (by omega)
  have hle := (hnodup.subperm hsub).length_le
  rw [List.length_map, List.length_range] at hle
  omega

theorem appSegment (h : Supplied L n c taken k) (hlen : taken.length < gdtTableSize - firstSlot)
    (type : ℕ) : ∃ sel k', appSegment type k = some (sel, k') ∧ Supplied L n c (sel :: taken) k' := by
  obtain ⟨i, hi⟩ := h.desc hlen
  have hattr : segPPresent ||| segDpl3 ||| segSNormal ||| type ||| segTypeRw ||| segD ≠ 0 :=
    or_ne_zero _ (or_ne_zero _ (or_ne_zero _ (by decide)))
  refine ⟨8 * i, { k with
    gdt := X86Os.segmentDescSet (Function.update k.gdt i { k.gdt i with attr := segPPresent }) (8 * i)
      0 0xFFFFFFFF (segPPresent ||| segDpl3 ||| segSNormal ||| type ||| segTypeRw ||| segD) },
    ?_, h.memory, h.clear, (h.gdt.alloc hi).set List.mem_cons_self hattr⟩
  rw [Kernel.appSegment, Prog.bind_of_eq (gdtAllocDesc_some hi), Int.toNat_natCast]
  rfl

theorem taskInit (h : Supplied L n c taken k) (hlen : taken.length < gdtTableSize - firstSlot)
    (hroom : c + 2 ≤ n) (name : TaskName) (entry esp : ℕ) :
    ∃ i p d k', taskInit L t name entry esp k = some (0, k') ∧ TaskReady L n t i p d k k' ∧
      Supplied L n (c + 2) (8 * i :: taken) k' := by
  obtain ⟨i, hi⟩ := h.desc hlen
  have hspec : ∃ p d k', Kernel.taskInit L t name entry esp k = some (0, k') ∧
      TaskReady L n t i p d k k' ∧ k'.sched = X86Os.taskInit t k.sched :=
    taskInit_spec hi h.memory (h.room hroom)
  obtain ⟨p, d, k', hrun, hready, -⟩ := hspec
  have hclear := hready.clear
  have hsub : k'.vm.alloc.clearPages ⊆ k.vm.alloc.clearPages := by
    rw [hclear]
    exact (Finset.erase_subset _ _).trans (Finset.erase_subset _ _)
  have hcard : k.vm.alloc.clearPages.card = k'.vm.alloc.clearPages.card + 2 := by
    have hp := Finset.card_erase_add_one hready.stack
    have hd := Finset.card_erase_add_one (Finset.mem_erase.mpr ⟨hready.apart, hready.dir⟩)
    rw [hclear]
    omega
  refine ⟨i, p, d, k', hrun, hready, ⟨hready.owned.managed, fun q hq => h.memory.usable q (hsub hq),
    h.memory.kernelDir, fun hq => h.memory.kernelDir_unused (hsub hq)⟩, ?_, ?_⟩
  · have := h.clear
    omega
  · rw [hready.gdt]
    exact (h.gdt.alloc hi).set List.mem_cons_self (by decide)

/-- The idle task and the segments of all others. -/
theorem taskManagerInit (h : Supplied L n c [] k) (hroom : c + 2 ≤ n) :
    ∃ taken k', taskManagerInit L k = some ((), k') ∧ taken.length = 3 ∧
      Supplied L n (c + 2) taken k' := by
  obtain ⟨k₀, hclear, hvm, hgdt⟩ : ∃ k₀, clearTaskTable k = some ((), k₀) ∧ k₀.vm = k.vm ∧
      k₀.gdt = k.gdt := ⟨_, rfl, rfl, rfl⟩
  have h₀ : Supplied L n c [] k₀ := ⟨hvm ▸ h.memory, hvm ▸ h.clear, hgdt ▸ h.gdt⟩
  obtain ⟨data, k₁, hdata, h₁⟩ := h₀.appSegment (by decide) segTypeData
  let k₂ : Kernel := { k₁ with appDataSel := data }
  have h₂ : Supplied L n c [data] k₂ := ⟨h₁.memory, h₁.clear, h₁.gdt⟩
  obtain ⟨code, k₃, hcode, h₃⟩ := h₂.appSegment (show 1 < _ by decide) segTypeCode
  let k₄ : Kernel := { k₃ with
    appCodeSel := code
    sched := ((k₃.sched.initList .readyList).initList .taskList).initList .sleepList }
  have h₄ : Supplied L n c [code, data] k₄ := ⟨h₃.memory, h₃.clear, h₃.gdt⟩
  obtain ⟨i, p, d, k₅, hidle, -, h₅⟩ := h₄.taskInit (t := .idle) (show 2 < _ by decide) hroom
    (TaskName.ofBytes idleTaskName) L.idleTaskEntry (L.idleTaskStack + 4 * idleStackSize)
  refine ⟨[8 * i, code, data], { k₅ with
    sched := X86Os.taskStart .idle .idle { k₅.sched with currTask := none } }, ?_, rfl, h₅.memory,
    h₅.clear, h₅.gdt⟩
  have hlists : setSched (fun s => ((s.initList .readyList).initList .taskList).initList .sleepList)
      { k₃ with appCodeSel := code } = some ((), k₄) := rfl
  rw [Kernel.taskManagerInit, Prog.bind_of_eq hclear, Prog.bind_of_eq hdata, Prog.modify_bind,
    Prog.bind_of_eq hcode, Prog.modify_bind, Prog.bind_of_eq hlists, Prog.bind_of_eq hidle]
  rfl

end Supplied

/-! ## The first task -/

/-- The pages of the first task and their table. -/
theorem firstNeed (d : ℕ) : rangeNeed (Space.empty d) firstStart 10 = 11 := by
  rfl

theorem firstTaskLoad_total {d : ℕ} (hd : (k.task .first).tss.cr3 = d)
    (howned : (Space.empty d).Owned n k.vm) (hroom : 11 ≤ k.vm.alloc.clearPages.card)
    (himage : eFirstTask L - L.sFirstTask < firstAllocSize) (hend : L.memFreeStart ≤ memEbdaStart) :
    ∃ k', firstTaskLoad L k = some ((), k') := by
  let v₀ : Vm := { k.vm with cr3 := d }
  have howned₀ : (Space.empty d).Owned n v₀ :=
    ⟨howned.shape, howned.managed, howned.clear, howned.apart⟩
  have hcount : up2 firstAllocSize memPageSize / memPageSize = 10 := by decide
  obtain ⟨sp, v₁, halloc, hfilled⟩ := rangeFilled_total (v := firstStart) howned₀ le_rfl
    (show firstStart + up2 firstAllocSize memPageSize ≤ 2 ^ 32 by decide) (fun _ _ => rfl)
    (by rw [hcount, firstNeed]; exact hroom) (show Present 7 by decide) (by decide)
  rw [hcount] at hfilled
  have hsrc := L.sFirstTask_le
  have hcopy : ∃ v₂, kernelMemcpy firstStart L.sFirstTask (eFirstTask L - L.sFirstTask) v₁ =
      some ((), v₂) := by
    unfold kernelMemcpy
    split_ifs
    · exact ⟨v₁, rfl⟩
    · have hloop : ∃ v₂, memcpyLoop (eFirstTask L - L.sFirstTask) firstStart L.sFirstTask v₁ =
          some ((), v₂) ∧ sp.Owned n v₂ :=
        hfilled.owned.memcpyLoop (hfilled.cr3.trans hfilled.dir.symm) (fun i hi => .inl ?_) ?_
          fun i hi => ?_
      · exact hloop.imp fun _ h => h.1
      · unfold eFirstTask at hi
        omega
      · unfold firstStart memoryTaskBase
        unfold firstAllocSize memPageSize at himage
        omega
      · have hlt : i < 10 * memPageSize := lt_trans hi himage
        obtain ⟨-, p, -, hentry⟩ := hfilled.entry_in (w := firstStart + i) (by decide)
          (Nat.le_add_right _ _) (by omega)
        refine ⟨⟨Nat.le_add_right _ _, ?_⟩, by rw [hentry]; exact nofun⟩
        unfold firstStart memoryTaskBase
        unfold memPageSize at hlt
        omega
  obtain ⟨v₂, hcopy⟩ := hcopy
  refine ⟨{ k with vm := v₂, sched := X86Os.taskStart .idle .first k.sched }, ?_⟩
  have hset : onVm (Prog.modify fun v => { v with cr3 := (k.task .first).tss.cr3 }) k =
      some ((), { k with vm := v₀ }) := by
    rw [hd]
    rfl
  have hperm : pteP ||| pteW ||| pteU = 7 := by decide
  rw [firstTaskLoad, Prog.gets_bind, Prog.bind_of_eq hset, hperm, hd,
    Prog.bind_of_eq (onVm_eq_some.mpr ⟨v₁, halloc, rfl⟩),
    Prog.bind_of_eq (onVm_eq_some.mpr ⟨v₂, hcopy, rfl⟩)]
  rfl

theorem taskFirstInit_total (h : Supplied L n c taken k)
    (hlen : taken.length < gdtTableSize - firstSlot) (hroom : c + 13 ≤ n)
    (himage : eFirstTask L - L.sFirstTask < firstAllocSize) (hend : L.memFreeStart ≤ memEbdaStart) :
    ∃ k', taskFirstInit L k = some ((), k') := by
  obtain ⟨i, p, d, k₁, hinit, hready, h₁⟩ := h.taskInit (t := .first) hlen (by omega)
    (TaskName.ofBytes firstTaskName) firstStart (firstStart + firstAllocSize)
  let k₂ : Kernel := { k₁ with
    task := Function.update k₁.task .first { k₁.task .first with heapStart := eFirstTask L } }
  let k₃ : Kernel := { k₂ with
    task := Function.update k₂.task .first
      { k₂.task .first with heapEnd := (k₂.task .first).heapStart }
    sched := { k₂.sched with currTask := some .first } }
  have hcr3 : (k₃.task .first).tss.cr3 = d := by
    rw [← hready.tss_cr3]
    simp only [k₃, k₂, Function.update_self]
  obtain ⟨k', hload⟩ := firstTaskLoad_total (k := k₃) hcr3 hready.owned (h₁.room (by omega)) himage hend
  have hstart : setTask .first (fun task => { task with heapStart := eFirstTask L }) k₁ =
      some ((), k₂) := rfl
  have hheap : setTask .first (fun task => { task with heapEnd := task.heapStart }) k₂ =
      some ((), { k₃ with sched := k₂.sched }) := rfl
  have hcurrent : setSched (fun s => { s with currTask := some .first })
      { k₃ with sched := k₂.sched } = some ((), k₃) := rfl
  refine ⟨k', ?_⟩
  rw [taskFirstInit, Prog.bind_of_eq (Prog.require_of himage), Prog.bind_of_eq hinit,
    Prog.bind_of_eq hstart, Prog.bind_of_eq hheap, Prog.bind_of_eq hcurrent, hload]

/-- What it takes for the kernel to come up: the bitmap fits below the extended memory, the pages
are enough and lie below `MEM_EXT_END`, the kernel's directory is empty, and the image of the first task
is small. -/
structure BootFits (L : Layout) (info : BootInfo) (n : ℕ) (v : Vm) : Prop where
  bitmap : BitmapFits L info
  pages : memUp1MBFree info / memPageSize = n
  room : kernelTables + 15 ≤ n
  top : memExtStart + n * memPageSize ≤ memExtLimit
  dir : ∀ i < pdeCnt, ¬ Present (v.mem.pde L.kernelPageDir i)
  image : eFirstTask L - L.sFirstTask < firstAllocSize

theorem boot_total {info : BootInfo} (h : BootFits L info n k.vm) (bits : ℤ → BitVec 8) :
    ∃ k', boot L bits info k = some ((), k') := by
  have hroom := h.room
  obtain ⟨v, hinit, hmem, hclear⟩ := memoryInit_ready bits h.bitmap h.pages (by omega) h.top h.dir
  have h₁ : Supplied L n kernelTables [] { k with gdt := initialGdt L, vm := v } :=
    ⟨hmem, hclear, .initial L⟩
  obtain ⟨taken, k₂, hmanager, hlen, h₂⟩ := h₁.taskManagerInit (by omega)
  have hend : L.memFreeStart ≤ memEbdaStart := by
    have hbitmap := h.bitmap
    have hcount : (0 : ℤ) ≤ bitmapByteCount (memUp1MBFree info / memPageSize : ℕ) :=
      Int.tdiv_nonneg (by have := Int.natCast_nonneg (memUp1MBFree info / memPageSize); linarith)
        (by norm_num)
    unfold BitmapFits at hbitmap
    omega
  obtain ⟨k', hfirst⟩ := taskFirstInit_total h₂ (by rw [hlen]; decide) (by omega) h.image hend
  have hmemory : onVm (memoryInit L bits info) { k with gdt := initialGdt L } =
      some ((), { k with gdt := initialGdt L, vm := v }) := onVm_eq_some.mpr ⟨v, hinit, rfl⟩
  have hkernel : kernelInit L bits info k = some ((), k₂) := by
    rw [kernelInit, Prog.bind_of_eq (initGdt_eq L k), Prog.bind_of_eq hmemory, hmanager]
  exact ⟨k', by rw [boot, Prog.bind_of_eq hkernel, hfirst]⟩

end Kernel

end X86Os
