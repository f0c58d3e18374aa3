import X86Os.ForkChild
import X86Os.ForkInv
import X86Os.SyscallEntry

/-!
# Fork returns twice

The two halves of the kernel put together: the entry code of a system call and `sys_fork`. The frame that
`sys_fork` reads is the one that the entry code has saved, so that the child goes on with the registers of
its parent at the far call, and so does the parent itself. They differ in `eax`.
-/

namespace X86Os

def Cpu.context (c : Cpu) : UserContext where
  eip := c.eip.toNat
  cs := c.cs.toNat
  ss := c.ss.toNat
  esp := c.esp.toNat
  eflags := c.eflags.toNat
  eax := c.eax.toNat
  ebx := c.ebx.toNat
  ecx := c.ecx.toNat
  edx := c.edx.toNat
  esi := c.esi.toNat
  edi := c.edi.toNat
  ebp := c.ebp.toNat
  ds := c.ds.toNat
  es := c.es.toNat
  fs := c.fs.toNat
  gs := c.gs.toNat

/-- From the stack pointer up to the address `top`, the processor sees the bytes of the kernel: a kernel
stack is mapped to itself. -/
def ShowsStack (top : ℕ) (c : Cpu) (s : Kernel) : Prop :=
  ∀ x, c.esp.toNat ≤ x → x < top → c.mem x = s.vm.mem x

/-- In the states `c` and `s`, the processor runs the C function `g` as `f`. -/
def Runs (top : ℕ) (f : Prog Cpu (BitVec 32)) (g : Prog Kernel ℤ) (c : Cpu) (s : Kernel) : Prop :=
  ∀ r s', g s = some (r, s') → ∃ c', f c = some (BitVec.ofInt 32 r, c') ∧
    c'.esp = c.esp ∧ c'.cs = c.cs ∧ ShowsStack top c' s'

namespace Kernel

variable {L : Layout} {n q residue i : ℕ} {s s' s₁ : Kernel} {parent : TaskId} {pid : ℤ} {c c₁ c₂ : Cpu}
  {esp0 dummy w : BitVec 32} {ss0 : BitVec 16} {args : SyscallArgs} {gdt : Gdt} {srv : Services}

/-! ## The frame -/

/-- The words of the frame as the kernel reads them. -/
theorem savedWord_of_entered (h : Entered c esp0 args c₁) (hesp0 : esp0.toNat = q + memPageSize)
    (hs : ShowsStack (q + memPageSize) c₁ s)
    (hstack : c₁.Stack 0 ((c₁.esp + 4#32) :: (callFrame c args dummy).words)) {k : ℕ} (hk : k < frameWords)
    (hw : (callFrame c args dummy).words[k]? = some w) : savedWord s q k = w.toNat := by
  have hesp := h.esp
  have hk' : k < 22 := hk
  have hread : c₁.mem.read32 (c₁.esp.toNat + 4 * (k + 1)) = w.toNat :=
    hstack.words.get (List.getElem?_cons_succ.trans hw)
  unfold memPageSize at hesp0 hs
  rw [← hread, savedWord, show q + 4 * (1002 + k) = c₁.esp.toNat + 4 * (k + 1) by omega]
  exact Mem.read32_congr fun x hx hx' => (hs x (by omega) (by omega)).symm

theorem setWidth_toNat (s : BitVec 16) : (s.setWidth 32).toNat % 2 ^ 16 = s.toNat := by
  rw [BitVec.toNat_setWidth, Nat.mod_mod_of_dvd _ (by decide)]
  exact Nat.mod_eq_of_lt s.isLt

/-- The context of the frame is the program itself. -/
theorem syscallReturn_of_entered (h : Entered c esp0 args c₁) (hesp0 : esp0.toNat = q + memPageSize)
    (hs : ShowsStack (q + memPageSize) c₁ s) : syscallReturn (savedWord s q) = c.context := by
  obtain ⟨dummy, hstack⟩ := h.stack
  have hword : ∀ k w, k < frameWords → (callFrame c args dummy).words[k]? = some w →
      savedWord s q k = w.toNat := fun k w hk hw => savedWord_of_entered h hesp0 hs hstack hk hw
  have hesp : u32 (savedWord s q 20 + 5 * 4) = c.esp.toNat := by
    rw [hword 20 _ (by decide) rfl]
    calc u32 ((c.esp - 5 * 4).toNat + 5 * 4) = (c.esp - 5 * 4 + 5 * 4).toNat :=
        (BitVec.toNat_add (c.esp - 5 * 4) (5 * 4)).symm
      _ = c.esp.toNat := by rw [BitVec.sub_add_cancel]
  rw [syscallReturn, hesp, hword 0 _ (by decide) rfl, hword 1 _ (by decide) rfl, hword 2 _ (by decide) rfl,
    hword 3 _ (by decide) rfl, hword 4 _ (by decide) rfl, hword 5 _ (by decide) rfl,
    hword 6 _ (by decide) rfl, hword 7 _ (by decide) rfl, hword 9 _ (by decide) rfl,
    hword 10 _ (by decide) rfl, hword 11 _ (by decide) rfl, hword 12 _ (by decide) rfl,
    hword 13 _ (by decide) rfl, hword 14 _ (by decide) rfl, hword 21 _ (by decide) rfl]
  simp only [callFrame, setWidth_toNat]
  rfl

/-! ## The memory of the parent -/

/-- After `task_init` the space of the parent is still there, and the pages for its copy. -/
theorem TaskReady.source {t : TaskId} {j p d : ℕ} (h : TaskReady L n t j p d s s₁) (hother : parent ≠ t)
    (hs : CopySource L n s.vm (forkSource s parent))
    (hroom : 2 + copyNeed s.vm.mem (forkSource s parent) ≤ s.vm.alloc.clearPages.card) :
    CopySource L n s₁.vm (forkSource s₁ parent) ∧
      copyNeed s₁.vm.mem (forkSource s₁ parent) ≤ s₁.vm.alloc.clearPages.card := by
  have hsource : forkSource s₁ parent = forkSource s parent := by
    rw [forkSource, h.other parent hother, forkSource]
  have hsub : s₁.vm.alloc.clearPages ⊆ s.vm.alloc.clearPages := by
    rw [h.clear]
    exact (Finset.erase_subset _ _).trans (Finset.erase_subset _ _)
  have hcard : s₁.vm.alloc.clearPages.card + 2 = s.vm.alloc.clearPages.card := by
    have h1 := Finset.card_erase_add_one h.stack
    have h2 := Finset.card_erase_add_one (Finset.mem_erase.mpr ⟨h.apart, h.dir⟩)
    rw [h.clear]
    omega
  have hout : ∀ x, (∀ p ∈ s.vm.alloc.clearPages, ¬ InPage p x) → s₁.vm.mem x = s.vm.mem x :=
    fun x hx => h.out x (hx d h.dir)
  have hkernel : ∀ k < memPageSize,
      s₁.vm.mem (L.kernelPageDir + k) = s.vm.mem (L.kernelPageDir + k) := by
    intro k hk
    refine hout _ fun p hp hin => hs.kernelDir_unused ?_
    have hpage : InPage L.kernelPageDir (L.kernelPageDir + k) := by
      unfold InPage
      omega
    exact InPage.unique hs.kernelDir.aligned (hs.usable p hp).aligned hpage hin ▸ hp
  obtain ⟨hs₁, hneed⟩ := hs.congr h.owned.managed hsub h.cr3 (hs.read_pde hout) hkernel
  rw [hsource]
  exact ⟨hs₁, by omega⟩

/-- A user task that is about to fork, on the kernel stack `q`, with all that the fork needs. -/
structure Forking (L : Layout) (n q : ℕ) (parent : TaskId) (s : Kernel) : Prop where
  current : s.sched.currTask = some parent
  page : KernelPage q
  unused : q ∉ s.vm.alloc.clearPages
  esp0 : (s.task parent).tss.esp0 = q + memPageSize
  named : (s.task parent).name 0 ≠ 0
  notIdle : isIdleTaskName (s.task parent).name = false
  source : CopySource L n s.vm (forkSource s parent)
  resources : ¬ ForkRunsOut s

theorem Forking.ready (h : Forking L n q parent s) : MemoryReady L n s.vm :=
  ⟨h.source.managed, h.source.usable, h.source.kernelDir, h.source.kernelDir_unused⟩

theorem Forking.room (h : Forking L n q parent s) :
    2 + copyNeed s.vm.mem (forkSource s parent) ≤ s.vm.alloc.clearPages.card := by
  have hok := h.resources
  rw [ForkRunsOut, not_or, not_or, currentPageDir, h.current] at hok
  exact not_lt.mp hok.2.2

/-- A fork that succeeds writes to pages that were clear. -/
theorem Forking.out (h : Forking L n q parent s) (hrun : sysFork L residue s = some (pid, s'))
    (hne : pid ≠ -1) {x : ℕ} (hx : ∀ p ∈ s.vm.alloc.clearPages, ¬ InPage p x) :
    s'.vm.mem x = s.vm.mem x := by
  obtain ⟨i, err, s₁, hslot, herr, hinit, hchild⟩ := sysFork_success h.current h.page h.esp0 hrun hne
  obtain ⟨j, p, d, -, hready, -, -⟩ := taskInit_success h.ready hinit herr
  have hother : parent ≠ .slot i := by
    rintro rfl
    exact h.named (freeSlot_eq_some hslot).2
  obtain ⟨hs₁, hroom⟩ := hready.source hother h.source h.room
  obtain ⟨sp, v, hcopy, -, hcopied⟩ := memoryCopyUvm_copying hs₁ hroom residue
  obtain ⟨s₂, hrun₂, rfl, -⟩ := forkChild_of_copy (t := .slot i) h.page hcopy
  obtain ⟨-, rfl⟩ := Prog.result_unique hrun₂ hchild
  refine (hcopied.out x fun p hp => hx p ?_).trans (hready.out x (hx d hready.dir))
  rw [hready.clear] at hp
  exact Finset.mem_of_mem_erase (Finset.mem_of_mem_erase hp)

/-- The kernel stack of the parent stays as it is. -/
theorem Forking.stack (h : Forking L n q parent s) (hrun : sysFork L residue s = some (pid, s'))
    (hne : pid ≠ -1) {x : ℕ} (hx : InPage q x) : s'.vm.mem x = s.vm.mem x :=
  h.out hrun hne fun p hp hin =>
    h.unused (InPage.unique h.page.aligned (h.source.usable p hp).aligned hx hin ▸ hp)

/-! ## Parent and child -/

theorem ofInt_i32 (k : ℕ) : BitVec.ofInt 32 (i32 k) = BitVec.ofNat 32 k := by
  refine BitVec.eq_of_toInt_eq ?_
  rw [BitVec.toInt_ofInt, BitVec.toInt_ofNat', i32, Int.bmod_bmod]

theorem slot_ne_zero (hL : L.memFreeStart ≤ 2 ^ 32) (hi : i < taskNr) :
    BitVec.ofNat 32 (taskAddr L (.slot i)) ≠ 0 := by
  intro h
  have h1 := L.taskTable_ge
  have h2 := L.taskTable_le
  have h3 := L.sText_eq
  have h4 := L.eText_ge
  have h5 := L.sData_eq
  have hmod := congrArg BitVec.toNat h
  rw [BitVec.toNat_ofNat] at hmod
  change (L.taskTable + 196 * i) % 2 ^ 32 = 0 at hmod
  have hlt : L.taskTable + 196 * i < 2 ^ 32 := by
    unfold taskNr at hi
    omega
  rw [Nat.mod_eq_of_lt hlt] at hmod
  omega

/-- The context of a child whose parent is a user task. -/
theorem Forking.child (h : Forking L n q parent s) (hrun : sysFork L residue s = some (pid, s'))
    (hne : pid ≠ -1) (hesp : u32 (savedWord s q 20 + 5 * 4) ≠ 0)
    (hss : savedWord s q 21 % 2 ^ 16 = (s.appDataSel ||| segRpl3) % 2 ^ 16) : ∃ i, s.freeSlot = some i ∧
      (s'.task (.slot i)).tss.context = { syscallReturn (savedWord s q) with eax := 0 } := by
  obtain ⟨i, p, -, dir, hslot, htss⟩ :=
    sysFork_tss h.ready h.current h.page h.unused h.esp0 hrun hne
  have hdata : tssDataSel s (s.task parent).name = s.appDataSel ||| segRpl3 := by
    rw [tssDataSel, h.notIdle]
    rfl
  have hesp' : u32 (savedWord s q 20 + 4 * syscallParamCount) ≠ 0 := hesp
  refine ⟨i, hslot, ?_⟩
  rw [congrArg Tss.context htss, child_context, if_pos hesp', hdata, ← hss]
  rfl

/-- The frame is on the stack when the parent returns. -/
theorem Forking.frame {ws : List (BitVec 32)} (h : Forking L n q parent s)
    (hrun : sysFork L residue s = some (pid, s')) (hne : pid ≠ -1) (hstack : c₁.Stack 0 ws)
    (hlow : q ≤ c₁.esp.toNat) (hlen : c₁.esp.toNat + 4 * ws.length ≤ q + memPageSize)
    (hs : ShowsStack (q + memPageSize) c₁ s) (hesp : c₂.esp = c₁.esp)
    (hs' : ShowsStack (q + memPageSize) c₂ s') : c₂.Stack 0 ws := by
  refine hstack.congr hesp fun x hx hx' => ?_
  have hin : InPage q x := ⟨hlow.trans hx, hx'.trans_le hlen⟩
  have hx₂ : c₂.esp.toNat ≤ x := by rwa [hesp]
  rw [hs' x hx₂ hin.2, h.stack hrun hne hin, hs x hx hin.2]

/-- A system call of a user task that forks returns twice: in the parent with a result that is not zero,
and in the child with zero. All else in the registers is the same, and as it was at the far call. -/
theorem fork_returns_twice (hL : L.memFreeStart ≤ 2 ^ 32) (hoff : L.exceptionHandlerSyscall < 2 ^ 32)
    (hgdt : gdt (selectorSyscall / 8) = initialGdt L (selectorSyscall / 8))
    (hc : UserProgram gdt c) (hesp : c.esp ≠ 0) (hesp0 : esp0.toNat = q + memPageSize) (hid : args.id = 2)
    (h : Forking L n q parent s) (hss : c.ss.toNat = (s.appDataSel ||| segRpl3) % 2 ^ 16)
    (hs : ShowsStack (q + memPageSize) (enteredCpu L ss0 esp0 args c) s)
    (hserve : Runs (q + memPageSize) (srv.serve .fork args.arg0 args.arg1 args.arg2 args.arg3)
      (sysFork L residue) (enteredCpu L ss0 esp0 args c) s) : ∃ i s' pid m,
      s.freeSlot = some i ∧ sysFork L residue s = some (i32 (taskAddr L (.slot i)), s') ∧
      pid = BitVec.ofNat 32 (taskAddr L (.slot i)) ∧ pid ≠ 0 ∧
      sysCall gdt srv ss0 esp0 args c = some ((), { c with eax := pid, mem := m }) ∧
      (s'.task (.slot i)).tss.context = { c.context with eax := 0 } := by
  have hpage : 92 ≤ esp0.toNat := by
    unfold memPageSize at hesp0
    omega
  have hentered : Entered c esp0 args (enteredCpu L ss0 esp0 args c) := entered hc hpage
  have hframe := syscallReturn_of_entered hentered hesp0 hs
  obtain ⟨i, -, -, -, -, s', -, hslot, -, hrun, -⟩ :=
    sysFork_run h.current ⟨q, h.page, h.esp0⟩ h.source h.resources residue
  have hne := slotAddr_ne L i
  obtain ⟨i', hslot', hcontext⟩ := h.child hrun hne (by
      rw [show u32 (savedWord s q 20 + 5 * 4) = c.esp.toNat from congrArg UserContext.esp hframe]
      exact fun hzero => hesp (BitVec.eq_of_toNat_eq hzero))
    ((congrArg UserContext.ss hframe).trans hss)
  obtain rfl := Option.some.inj (hslot.symm.trans hslot')
  rw [hframe] at hcontext
  obtain ⟨c₂, hserved, hesp₂, hcs, hs₂⟩ := hserve _ s' hrun
  rw [ofInt_i32] at hserved
  obtain ⟨dummy, hstack⟩ := hentered.stack
  have hlen : (enteredCpu L ss0 esp0 args c).esp.toNat + 4 * 23 ≤ q + memPageSize := by
    rw [hentered.esp, ← hesp0]
    omega
  have hlow : q ≤ (enteredCpu L ss0 esp0 args c).esp.toNat := by
    rw [hentered.esp, hesp0]
    unfold memPageSize
    omega
  have hstack₂ := h.frame hrun hne hstack hlow hlen hs hesp₂ hs₂
  have hcpl : c₂.cpl = 0 := by
    rw [Cpu.cpl, hcs]
    exact hentered.level
  have hcall : sysHandler args.id = some .fork := by
    rw [hid]
    decide
  have hreturns : { callFrame c args dummy with eax := c.eax }.Returns (gdtDpl gdt) := hc.returns c.eax dummy
  have hback := sysCall_served hgdt hoff hc hpage hcall hserved hesp₂ hcpl hstack₂ hreturns
  refine ⟨i, s', _, c₂.mem.write32 (esp0.toNat - 40) (BitVec.ofNat 32 (taskAddr L (.slot i))).toNat, hslot,
    hrun, rfl, slot_ne_zero hL (freeSlot_eq_some hslot).1, ?_, hcontext⟩
  rw [hback]
  exact congrArg (fun d => some ((), d)) callFrame_restore

/-! ## The shell forks -/

/-- The call has just been entered, on the kernel stack at `0x203000`. -/
def forkingKernel : Kernel :=
  { forkKernel shellName with
    vm := { onePageVm with
      mem := fun x =>
        if 0x203000 ≤ x ∧ x < 0x204000 then (enteredCpu sampleLayout 0x10 0x204000 ⟨2, 0, 0, 0, 0⟩ userCpu).mem x
        else onePageVm.mem x }
    appCodeSel := 0x28
    appDataSel := 0x20 }

theorem forkingKernel_mem {x : ℕ} (h : x < 0x203000 ∨ 0x204000 ≤ x) :
    forkingKernel.vm.mem x = onePageVm.mem x := by
  have hout : ¬ (0x203000 ≤ x ∧ x < 0x204000) := by omega
  exact if_neg hout

theorem forkingKernel_source : CopySource sampleLayout 8 forkingKernel.vm 0x200000 ∧
    copyNeed forkingKernel.vm.mem 0x200000 = copyNeed onePageVm.mem 0x200000 := by
  refine onePage_source.congr (s := forkingKernel.vm) onePage_source.managed (Finset.Subset.refl _)
    rfl (fun p hp k hk => forkingKernel_mem ?_) fun k hk => forkingKernel_mem ?_
  · obtain ⟨x, hx⟩ := onePage_owned.userPages_page hp
    have hpage := onePage_page hx
    unfold memPageSize at hk
    omega
  · have hlow : sampleLayout.kernelPageDir = 0x20000 := rfl
    unfold memPageSize at hk
    omega

theorem forkingKernel_runs : ¬ ForkRunsOut forkingKernel := by
  have hslot : forkingKernel.freeSlot = some 0 := rfl
  have hdesc : gdtFree forkingKernel.gdt = some 5 := rfl
  have hdir : currentPageDir forkingKernel = 0x200000 := rfl
  have hcard : forkingKernel.vm.alloc.clearPages.card = 8 := onePageVm_card
  have hneed := onePage_copyNeed
  rw [ForkRunsOut, hslot, hdesc, hdir, forkingKernel_source.2, hcard]
  rintro (h | h | h)
  · cases h
  · cases h
  · omega

theorem forkingKernel_unused : 0x203000 ∉ forkingKernel.vm.alloc.clearPages := by
  intro h
  have hclear : 0x203000 ∈ onePageVm.alloc.clearPages := h
  obtain ⟨k, hk, heq⟩ := onePageVm_clear hclear
  omega

theorem forkingKernel_forking : Forking sampleLayout 8 0x203000 .first forkingKernel where
  current := rfl
  page := forkKernel_stack
  unused := forkingKernel_unused
  esp0 := rfl
  named := by decide
  notIdle := by decide
  source := forkingKernel_source.1
  resources := forkingKernel_runs

theorem forkingKernel_inPage {x : ℕ}
    (hx : (enteredCpu sampleLayout 0x10 0x204000 ⟨2, 0, 0, 0, 0⟩ userCpu).esp.toNat ≤ x)
    (hx' : x < 0x204000) : InPage 0x203000 x := by
  have hentered : Entered userCpu 0x204000 ⟨2, 0, 0, 0, 0⟩
      (enteredCpu sampleLayout 0x10 0x204000 ⟨2, 0, 0, 0, 0⟩ userCpu) := entered userCpu_user (by decide)
  rw [hentered.esp] at hx
  exact ⟨le_trans (by decide) hx, hx'⟩

theorem forkingKernel_shows :
    ShowsStack 0x204000 (enteredCpu sampleLayout 0x10 0x204000 ⟨2, 0, 0, 0, 0⟩ userCpu) forkingKernel :=
  fun _ hx hx' => (if_pos (forkingKernel_inPage hx hx')).symm

/-- Every call returns the address of the first slot. -/
def forkServices : Services where
  serve _ _ _ _ _ := pure 0x21000
  unknown _ := pure ()

theorem forkServices_runs : Runs 0x204000 (forkServices.serve .fork 0 0 0 0) (sysFork sampleLayout 0)
    (enteredCpu sampleLayout 0x10 0x204000 ⟨2, 0, 0, 0, 0⟩ userCpu) forkingKernel := by
  intro r s' hrun
  have h := forkingKernel_forking
  obtain ⟨i, -, -, -, -, s₁, -, hslot, -, hrun₁, -⟩ :=
    sysFork_run h.current ⟨_, h.page, h.esp0⟩ h.source h.resources 0
  obtain ⟨rfl, rfl⟩ := Prog.result_unique hrun₁ hrun
  obtain rfl : 0 = i := Option.some.inj hslot
  refine ⟨_, ?_, rfl, rfl, fun x hx hx' => ?_⟩
  · rw [ofInt_i32]
    rfl
  · rw [forkingKernel_shows x hx hx']
    exact (h.stack hrun (slotAddr_ne _ _) (forkingKernel_inPage hx hx')).symm

theorem fork_returns_twice_shell : ∃ i s' pid m,
    forkingKernel.freeSlot = some i ∧
    sysFork sampleLayout 0 forkingKernel = some (i32 (taskAddr sampleLayout (.slot i)), s') ∧
    pid = BitVec.ofNat 32 (taskAddr sampleLayout (.slot i)) ∧ pid ≠ 0 ∧
    sysCall userGdt forkServices 0x10 0x204000 ⟨2, 0, 0, 0, 0⟩ userCpu =
      some ((), { userCpu with eax := pid, mem := m }) ∧
    (s'.task (.slot i)).tss.context = { userCpu.context with eax := 0 } :=
  fork_returns_twice (by decide) (by decide) rfl userCpu_user (by decide) rfl rfl forkingKernel_forking rfl
    forkingKernel_shows forkServices_runs

end Kernel

end X86Os
