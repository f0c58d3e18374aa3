import X86Os.TaskInit
import X86Os.UvmSeparate

/-!
# The child of a fork

What a successful `sys_fork` leaves in the child: the register context of its TSS, put together by
`tss_init` and the copies from the syscall frame, and the pages that were allocated for it.
-/

namespace X86Os

/-- The TSS with the registers of the saved frame. -/
def Tss.withFrame (tss : Tss) (frame : ℕ → ℕ) : Tss :=
  { tss with
    eax := 0
    ebx := frame 9
    ecx := frame 11
    edx := frame 10
    esi := frame 6
    edi := frame 5
    ebp := frame 7
    cs := frame 14
    ds := frame 4
    es := frame 3
    fs := frame 2
    gs := frame 1
    eflags := frame 0 }

/-- The registers of a user program. -/
structure UserContext where
  eip : ℕ
  cs : ℕ
  ss : ℕ
  esp : ℕ
  eflags : ℕ
  eax : ℕ
  ebx : ℕ
  ecx : ℕ
  edx : ℕ
  esi : ℕ
  edi : ℕ
  ebp : ℕ
  ds : ℕ
  es : ℕ
  fs : ℕ
  gs : ℕ
deriving DecidableEq

def UserContext.selectors (u : UserContext) : List ℕ := [u.cs, u.ss, u.ds, u.es, u.fs, u.gs]

/-- The context after a switch to the task of the TSS; a selector has sixteen bits. -/
def Tss.context (tss : Tss) : UserContext where
  eip := tss.eip
  cs := tss.cs % 2 ^ 16
  ss := tss.ss % 2 ^ 16
  esp := tss.esp
  eflags := tss.eflags
  eax := tss.eax
  ebx := tss.ebx
  ecx := tss.ecx
  edx := tss.edx
  esi := tss.esi
  edi := tss.edi
  ebp := tss.ebp
  ds := tss.ds % 2 ^ 16
  es := tss.es % 2 ^ 16
  fs := tss.fs % 2 ^ 16
  gs := tss.gs % 2 ^ 16

/-- The context in which a system call returns: `exception_handler_syscall` pops the flags, the segment
registers and the general registers, and `retf $(5*4)` goes through the call gate and takes the five
parameters off the user stack. -/
def syscallReturn (frame : ℕ → ℕ) : UserContext where
  eflags := frame 0
  gs := frame 1 % 2 ^ 16
  fs := frame 2 % 2 ^ 16
  es := frame 3 % 2 ^ 16
  ds := frame 4 % 2 ^ 16
  edi := frame 5
  esi := frame 6
  ebp := frame 7
  ebx := frame 9
  edx := frame 10
  ecx := frame 11
  eax := frame 12
  eip := frame 13
  cs := frame 14 % 2 ^ 16
  esp := u32 (frame 20 + 5 * 4)
  ss := frame 21 % 2 ^ 16

namespace Kernel

variable {L : Layout} {n residue i : ℕ} {s s' s₁ : Kernel} {parent t : TaskId} {entry esp : ℕ}
  {name : TaskName} {err c : ℤ}

/-- The word number `k` of the syscall frame at the top of the kernel stack in the page `q`. -/
def savedWord (s : Kernel) (q k : ℕ) : ℕ := s.vm.mem.read32 (q + 4 * (1002 + k))

theorem frameWord_of_page {q k : ℕ} (hq : KernelPage q) (hk : k < frameWords) :
    frameWord (q + memPageSize) k s = some (savedWord s q k, s) := by
  have hk' : k < 22 := hk
  obtain ⟨hid, hal, -⟩ := hq.word (i := 1002 + k) (by omega)
  refine onVm_eq_some.mpr ⟨s.vm, ?_, rfl⟩
  rw [frameAddr_eq hq.identity.lt hk]
  exact load32_of_identity hid hal

theorem savedWord_congr {q : ℕ} (h : ∀ x, InPage q x → s'.vm.mem x = s.vm.mem x) {k : ℕ}
    (hk : k < frameWords) : savedWord s' q k = savedWord s q k := by
  have hk' : k < 22 := hk
  refine (Mem.read32_congr fun x hx hx' => h x ?_)
  unfold InPage memPageSize
  omega

/-! ## `task_init` -/

/-- The selectors that `tss_init` chooses by the name. -/
def tssCodeSel (s : Kernel) (name : TaskName) : ℕ :=
  if isIdleTaskName name then kernelSelectorCs else s.appCodeSel ||| segRpl3

def tssDataSel (s : Kernel) (name : TaskName) : ℕ :=
  if isIdleTaskName name then kernelSelectorDs else s.appDataSel ||| segRpl3

/-- When `tss_init` succeeds, it found a descriptor, a stack and a directory. -/
theorem tssInit_success (h : tssInit L t entry esp name s = some (err, s')) (herr : ¬ err < 0) :
    ∃ j d v, gdtFree s.gdt = some j ∧ (addrAllocPage s.vm.alloc 1).1 ≠ 0 ∧
      memoryCreateUvm L { s.vm with alloc := (addrAllocPage s.vm.alloc 1).2 } = some (d, v) ∧
      d ≠ 0 ∧ (s'.task t).tss = (initialTss entry esp (addrAllocPage s.vm.alloc 1).1
        (tssCodeSel s name) (tssDataSel s name)).withCr3 d := by
  cases hdesc : gdtFree s.gdt with
  | none =>
      rw [tssInit_noDesc hdesc] at h
      obtain ⟨rfl, -⟩ := Prod.mk.inj (Option.some.inj h)
      exact absurd (by norm_num) herr
  | some j =>
      by_cases hstack : (addrAllocPage s.vm.alloc 1).1 = 0
      · rw [tssInit_noStack hdesc hstack] at h
        obtain ⟨rfl, -⟩ := Prod.mk.inj (Option.some.inj h)
        exact absurd (by norm_num) herr
      · rw [tssInit_desc hdesc, Prog.bind_of_eq allocStack, if_neg hstack, tssInitStack] at h
        obtain ⟨_, _, hcode, h⟩ := Prog.bind_eq_some.mp h
        obtain ⟨rfl, rfl⟩ := Prog.gets_eq_some.mp hcode
        obtain ⟨_, _, hdata, h⟩ := Prog.bind_eq_some.mp h
        obtain ⟨rfl, rfl⟩ := Prog.gets_eq_some.mp hdata
        obtain ⟨_, s₁, hset, h⟩ := Prog.bind_eq_some.mp h
        have hs₁ := Prog.modify_eq_some.mp hset
        obtain ⟨d, s₂, hcreate, h⟩ := Prog.bind_eq_some.mp h
        obtain ⟨v, hv, hs₂⟩ := onVm_eq_some.mp hcreate
        by_cases hd : d = 0
        · rw [if_pos hd, tssInitFailed] at h
          obtain ⟨_, s₃, -, h⟩ := Prog.bind_eq_some.mp h
          obtain ⟨_, s₄, -, h⟩ := Prog.bind_eq_some.mp h
          obtain ⟨rfl, -⟩ := Prog.pure_eq_some.mp h
          exact absurd (by norm_num) herr
        · rw [if_neg hd] at h
          obtain ⟨_, s₃, hlast, h⟩ := Prog.bind_eq_some.mp h
          obtain ⟨-, rfl⟩ := Prog.pure_eq_some.mp h
          rw [hs₁] at hv
          refine ⟨j, d, v, rfl, hstack, hv, hd, ?_⟩
          rw [setTask_eq_some.mp hlast, hs₂, hs₁]
          simp only [Function.update_self]
          rfl

/-- The pages for the stack and the directory were there. -/
theorem two_le_clear (hm : MemoryReady L n s.vm) {d : ℕ} {v : Vm}
    (hstack : (addrAllocPage s.vm.alloc 1).1 ≠ 0)
    (hcreate : memoryCreateUvm L { s.vm with alloc := (addrAllocPage s.vm.alloc 1).2 } = some (d, v))
    (hd : d ≠ 0) : 2 ≤ s.vm.alloc.clearPages.card := by
  have hone : s.vm.alloc.clearPages.Nonempty := by
    rw [Finset.nonempty_iff_ne_empty]
    intro hempty
    rw [AddrAlloc.allocPage_empty hm.managed hempty] at hstack
    exact hstack rfl
  obtain ⟨p, hp, v₁, hv₁, hm₁, hclear₁, -⟩ := allocPage_spec hm.managed hone
  obtain ⟨-, rfl⟩ := Prod.mk.inj (Option.some.inj hv₁)
  have hcard := Finset.card_erase_add_one hp
  have hpos : ((addrAllocPage s.vm.alloc 1).2.clearPages).Nonempty := by
    rw [Finset.nonempty_iff_ne_empty]
    intro hempty
    have halloc : allocPage { s.vm with alloc := (addrAllocPage s.vm.alloc 1).2 } =
        some (0, { s.vm with alloc := (addrAllocPage s.vm.alloc 1).2 }) := by
      rw [allocPage, AddrAlloc.allocPage_empty hm₁ hempty]
    rw [memoryCreateUvm, Prog.bind_of_eq halloc, if_pos rfl] at hcreate
    exact hd (Prog.pure_eq_some.mp hcreate).1
  have hcard₁ : (addrAllocPage s.vm.alloc 1).2.clearPages = s.vm.alloc.clearPages.erase p := hclear₁
  rw [hcard₁, ← Finset.card_pos] at hpos
  omega

/-- When `task_init` succeeds, the task has its stack and its directory, and this TSS. -/
theorem taskInit_success (hm : MemoryReady L n s.vm)
    (h : taskInit L t name entry esp s = some (err, s')) (herr : ¬ err < 0) :
    ∃ j p d, gdtFree s.gdt = some j ∧ TaskReady L n t j p d s s' ∧
      s'.sched = X86Os.taskInit t s.sched ∧
      (s'.task t).tss = (initialTss entry esp p (tssCodeSel s name) (tssDataSel s name)).withCr3 d := by
  have hfields := h
  rw [taskInit] at hfields
  obtain ⟨e, s₁, htss, hfields⟩ := Prog.bind_eq_some.mp hfields
  by_cases he : e < 0
  · rw [if_pos he] at hfields
    exact absurd ((Prog.pure_eq_some.mp hfields).1 ▸ he) herr
  · rw [if_neg he] at hfields
    obtain ⟨j, d, v, hdesc, hstack, hcreate, hd, htask⟩ := tssInit_success htss he
    have hspec : ∃ p d' s₂, taskInit L t name entry esp s = some (0, s₂) ∧
        TaskReady L n t j p d' s s₂ ∧ s₂.sched = X86Os.taskInit t s.sched :=
      taskInit_spec hdesc hm (two_le_clear hm hstack hcreate hd)
    obtain ⟨p, d', s₂, hrun, hready, hsched⟩ := hspec
    obtain ⟨-, hs₂⟩ := Prog.result_unique hrun h
    rw [hs₂] at hready hsched
    obtain ⟨bytes, hbytes⟩ := strncpyBytes_pure
      (fun i => if h : i < taskNameSize then name ⟨i, h⟩ else 0) taskNameSize 0 s₁
    rw [Prog.bind_of_eq hbytes] at hfields
    obtain ⟨_, s₃, hset, hfields⟩ := Prog.bind_eq_some.mp hfields
    obtain ⟨_, s₄, hlist, hfields⟩ := Prog.bind_eq_some.mp hfields
    obtain ⟨-, hend⟩ := Prog.pure_eq_some.mp hfields
    have hlast : (s'.task t).tss = (s₁.task t).tss := by
      rw [hend, setSched_eq_some.mp hlist, setTask_eq_some.mp hset]
      simp only [Function.update_self]
    obtain ⟨p₀, hp₀, halloc, -⟩ := AddrAlloc.exists_allocPage hm.managed ⟨p, hready.stack⟩
    rw [halloc] at htask
    have hlt := (hm.usable p₀ hp₀).identity.lt
    have hesp0 : p + memPageSize = p₀ + memPageSize := by
      rw [← hready.tss_esp0, hlast, htask]
      exact u32_of_lt (by unfold memPageSize; omega)
    have hcr3 : d' = d := by rw [← hready.tss_cr3, hlast, htask]; rfl
    obtain rfl : p = p₀ := by omega
    subst hcr3
    exact ⟨j, p, d', hdesc, hready, hsched, hlast.trans htask⟩

/-! ## `sys_fork` after `task_init` -/

theorem Tss.withFrame_congr (tss : Tss) {frame frame' : ℕ → ℕ}
    (h : ∀ k < frameWords, frame k = frame' k) : tss.withFrame frame = tss.withFrame frame' := by
  simp (disch := decide) only [Tss.withFrame, h]

theorem forkRegisters_eq {q : ℕ} (hq : KernelPage q) : forkRegisters t (q + memPageSize) s =
    some ((), { s with
      task := Function.update s.task t
        ((s.task t).withTss ((s.task t).tss.withFrame (savedWord s q))) }) := by
  have hword : ∀ k, k < frameWords → frameWord (q + memPageSize) k s = some (savedWord s q k, s) :=
    fun k hk => frameWord_of_page hq hk
  rw [forkRegisters, Prog.bind_of_eq (hword 9 (by decide)), Prog.bind_of_eq (hword 11 (by decide)),
    Prog.bind_of_eq (hword 10 (by decide)), Prog.bind_of_eq (hword 6 (by decide)),
    Prog.bind_of_eq (hword 5 (by decide)), Prog.bind_of_eq (hword 7 (by decide)),
    Prog.bind_of_eq (hword 14 (by decide)), Prog.bind_of_eq (hword 4 (by decide)),
    Prog.bind_of_eq (hword 3 (by decide)), Prog.bind_of_eq (hword 2 (by decide)),
    Prog.bind_of_eq (hword 1 (by decide)), Prog.bind_of_eq (hword 0 (by decide))]
  rfl

/-- The directory that `sys_fork` copies; the task that calls it may be the slot that it found. -/
def forkSource (s : Kernel) (parent : TaskId) : ℕ := (s.task parent).tss.cr3

/-- The state in which `sys_fork` copies the address space. -/
def forkRegistered (s : Kernel) (parent t : TaskId) (q : ℕ) : Kernel :=
  { s with
    task := Function.update s.task t
      { (s.task t).withTss ((s.task t).tss.withFrame (savedWord s q)) with
        parent := some parent } }

/-- The rest of `sys_fork`. -/
def forkFinish (t : TaskId) (dir : ℕ) : Prog Kernel ℤ := do
  setTask t fun task => task.withTss (task.tss.withCr3 dir)
  taskStart t
  Prog.gets fun s => (s.task t).pid

theorem forkFinish_eq (dir : ℕ) : ∃ s', forkFinish t dir s = some ((s.task t).pid, s') ∧
    s'.vm = s.vm ∧ (s'.task t).tss = (s.task t).tss.withCr3 dir := by
  let s₁ : Kernel :=
    { s with task := Function.update s.task t ((s.task t).withTss ((s.task t).tss.withCr3 dir)) }
  have hset : setTask t (fun task => task.withTss (task.tss.withCr3 dir)) s = some ((), s₁) := rfl
  have htask : s₁.task t = (s.task t).withTss ((s.task t).tss.withCr3 dir) :=
    Function.update_self _ _ _
  have hrun : forkFinish t dir s =
      some ((s₁.task t).pid, { s₁ with sched := X86Os.taskStart .idle t s₁.sched }) := by
    rw [forkFinish, Prog.bind_of_eq hset]
    rfl
  rw [htask] at hrun
  exact ⟨_, hrun, rfl, congrArg Task.tss htask⟩

theorem forkChild_eq {q : ℕ} (hq : KernelPage q) :
    forkChild L residue parent t (q + memPageSize) s =
      (onVm (memoryCopyUvm L residue (forkSource s parent)) >>= forkFinish t)
        (forkRegistered s parent t q) := by
  have hparent : setTask t (fun task => { task with parent := some parent }) { s with
      task := Function.update s.task t
        ((s.task t).withTss ((s.task t).tss.withFrame (savedWord s q))) } =
      some ((), forkRegistered s parent t q) := by
    rw [setTask_eq_some]
    simp only [forkRegistered, Function.update_self, Function.update_idem]
  have hsource : ((forkRegistered s parent t q).task parent).tss.cr3 = forkSource s parent := by
    rw [forkSource, forkRegistered]
    by_cases he : parent = t
    · subst he
      simp only [Function.update_self]
      rfl
    · simp only [Function.update_of_ne he]
  rw [forkChild, Prog.bind_of_eq (forkRegisters_eq hq), Prog.bind_of_eq hparent, Prog.gets_bind,
    hsource]
  rfl

/-- The child after its address space was copied to `dir`. -/
theorem forkChild_of_copy {q dir : ℕ} {v : Vm} (hq : KernelPage q)
    (hcopy : memoryCopyUvm L residue (forkSource s parent) s.vm = some (dir, v)) :
    ∃ s', forkChild L residue parent t (q + memPageSize) s = some ((s.task t).pid, s') ∧
      s'.vm = v ∧
      (s'.task t).tss = ((s.task t).tss.withFrame (savedWord s q)).withCr3 dir := by
  have hcall : onVm (memoryCopyUvm L residue (forkSource s parent)) (forkRegistered s parent t q) =
      some (dir, { forkRegistered s parent t q with vm := v }) := onVm_eq_some.mpr ⟨v, hcopy, rfl⟩
  have htask : (forkRegistered s parent t q).task t =
      { (s.task t).withTss ((s.task t).tss.withFrame (savedWord s q)) with
        parent := some parent } := Function.update_self _ _ _
  obtain ⟨s', hrun, hvm, htss⟩ := forkFinish_eq (t := t)
    (s := { forkRegistered s parent t q with vm := v }) dir
  rw [forkChild_eq hq, Prog.bind_of_eq hcall]
  rw [htask] at hrun htss
  exact ⟨s', hrun, hvm, htss⟩

/-! ## The pages of the child -/

/-- A directory without user entries is copied to another one. -/
theorem memoryCopyUvm_empty {d : ℕ} {v : Vm} (ho : (Space.empty d).Owned n v)
    (hk : KernelPage L.kernelPageDir) (hku : L.kernelPageDir ∉ v.alloc.clearPages)
    (hroom : v.alloc.clearPages.Nonempty) (residue : ℕ) :
    ∃ e ∈ v.alloc.clearPages, ∃ v', memoryCopyUvm L residue d v = some (e, v') ∧
      (Space.empty e).Owned n v' ∧ v'.alloc.clearPages = v.alloc.clearPages.erase e := by
  obtain ⟨e, he, v', hcreate, howned, hclear, -, hout, -⟩ :=
    memoryCreateUvm_spec (L := L) ho.managed ho.clear hk hku hroom
  have hd : KernelPage d := ho.dirPage
  have hde : d ≠ e := fun heq => ho.apart .dir d rfl (heq ▸ he)
  have hpde : ∀ k, userPdeStart ≤ k → k < pdeCnt → v'.mem.read32 (d + 4 * k) = 0 := by
    intro k hk hk'
    have hzero : v.mem.read32 (d + 4 * k) = 0 := ho.shape.pde k hk hk'
    rw [← hzero]
    refine Mem.read32_congr fun x hx hx' => hout x fun hin => hde ?_
    refine InPage.unique hd.aligned (ho.clear e he).aligned (x := x) ?_ hin
    unfold InPage memPageSize
    unfold pdeCnt at hk'
    omega
  have hround : ∀ k v₁, userPdeStart ≤ k → k < userPdeStart + (pdeCnt - userPdeStart) → v₁ = v' →
      ∃ v₂, copyTable d e k v₁ = some (none, v₂) ∧ v₂ = v' := by
    rintro k _ hk hk' rfl
    have hlt : k < pdeCnt := by
      unfold pdeCnt userPdeStart pdeIndex memoryTaskBase at *
      omega
    refine ⟨_, ?_, rfl⟩
    rw [copyTable, Prog.bind_of_eq (hd.load32 hlt), hpde k hk hlt, if_neg (by decide)]
    rfl
  obtain ⟨_, hloop, rfl⟩ := Prog.loop_total (I := fun _ v₁ => v₁ = v') hround rfl
  refine ⟨e, he, _, ?_, howned, hclear⟩
  rw [memoryCopyUvm, Prog.bind_of_eq hcreate, if_neg (ho.clear e he).ne_zero, Prog.bind_of_eq hloop]
  rfl

/-- The copy that `sys_fork` makes consists of pages that were clear after `task_init`. -/
theorem forkSource_copied {j p d : ℕ} (hs : CopySource L n s.vm (forkSource s parent))
    (hroom : 2 + copyNeed s.vm.mem (forkSource s parent) ≤ s.vm.alloc.clearPages.card)
    (hready : TaskReady L n t j p d s s₁) (residue : ℕ) : ∃ (sp : Space) (v : Vm),
      memoryCopyUvm L residue (forkSource s₁ parent) s₁.vm = some (sp.dir, v) ∧ sp.Owned n v ∧
        (∀ x q, sp.page x = some q → q ∈ s₁.vm.alloc.clearPages) ∧
        v.alloc.clearPages ⊆ s₁.vm.alloc.clearPages := by
  have hsub : s₁.vm.alloc.clearPages ⊆ s.vm.alloc.clearPages := by
    rw [hready.clear]
    exact (Finset.erase_subset _ _).trans (Finset.erase_subset _ _)
  have hcard : s₁.vm.alloc.clearPages.card + 2 = s.vm.alloc.clearPages.card := by
    have h1 := Finset.card_erase_add_one hready.stack
    have h2 := Finset.card_erase_add_one (Finset.mem_erase.mpr ⟨hready.apart, hready.dir⟩)
    rw [hready.clear]
    omega
  have hku : L.kernelPageDir ∉ s₁.vm.alloc.clearPages := fun h => hs.kernelDir_unused (hsub h)
  have hpos : 1 ≤ copyNeed s.vm.mem (forkSource s parent) := by
    unfold copyNeed
    omega
  by_cases he : parent = t
  · subst he
    have hsource : forkSource s₁ parent = d := hready.tss_cr3
    obtain ⟨e, he, v, hrun, howned, hclear⟩ := memoryCopyUvm_empty hready.owned hs.kernelDir hku
      (Finset.card_pos.mp (by omega)) residue
    rw [hsource]
    refine ⟨Space.empty e, v, hrun, howned, fun x q hx => ?_, ?_⟩
    · exact (Space.empty_page hx).2 ▸ he
    · rw [hclear]
      exact Finset.erase_subset _ _
  · have hsource : forkSource s₁ parent = forkSource s parent := by
      rw [forkSource, hready.other parent he, forkSource]
    have hout : ∀ x, (∀ q ∈ s.vm.alloc.clearPages, ¬ InPage q x) → s₁.vm.mem x = s.vm.mem x :=
      fun x hx => hready.out x (hx d hready.dir)
    have hkernel : ∀ k < memPageSize,
        s₁.vm.mem (L.kernelPageDir + k) = s.vm.mem (L.kernelPageDir + k) := by
      intro k hk
      refine hout _ fun q hq hin => hs.kernelDir_unused ?_
      have hpage : InPage L.kernelPageDir (L.kernelPageDir + k) := by
        unfold InPage
        omega
      exact InPage.unique hs.kernelDir.aligned (hs.usable q hq).aligned hpage hin ▸ hq
    obtain ⟨hs₁, hneed⟩ := hs.congr hready.owned.managed hsub hready.cr3 (hs.read_pde hout) hkernel
    obtain ⟨sp, v, hrun, -, hcopy⟩ := memoryCopyUvm_copying hs₁ (by omega) residue
    rw [hsource]
    exact ⟨sp, v, hrun, hcopy.owned, hcopy.pages, hcopy.clear⟩

/-- What was allocated between `s` and `s'` is reachable from the task `t`: it is the stack, the
directory, a table of its user half or a frame that one of them maps. -/
def PagesReachable (s s' : Kernel) (t : TaskId) : Prop :=
  ∀ p ∈ s.vm.alloc.clearPages, p ∉ s'.vm.alloc.clearPages →
    p = u32Sub (s'.task t).tss.esp0 memPageSize ∨ p ∈ userPages s'.vm.mem (s'.task t).tss.cr3

/-- A fork for which nothing runs out. -/
theorem sysFork_run (hc : s.sched.currTask = some parent) (hstack : HasStack s parent)
    (hs : CopySource L n s.vm (forkSource s parent)) (hok : ¬ ForkRunsOut s) (residue : ℕ) :
    ∃ i j p d s₁ s', ∃ sp : Space, s.freeSlot = some i ∧ TaskReady L n (.slot i) j p d s s₁ ∧
      sysFork L residue s = some (i32 (taskAddr L (.slot i)), s') ∧ sp.Owned n s'.vm ∧
      (∀ x q, sp.page x = some q → q ∈ s₁.vm.alloc.clearPages) ∧
      s'.vm.alloc.clearPages ⊆ s₁.vm.alloc.clearPages ∧
      (s'.task (.slot i)).tss.esp0 = p + memPageSize ∧ (s'.task (.slot i)).tss.cr3 = sp.dir := by
  obtain ⟨q, hq, hesp0⟩ := hstack
  rw [ForkRunsOut, not_or, not_or, currentPageDir, hc] at hok
  obtain ⟨hslot, hdesc, hroom⟩ := hok
  obtain ⟨i, hslot⟩ := Option.ne_none_iff_exists'.mp hslot
  obtain ⟨j, hdesc⟩ := Option.ne_none_iff_exists'.mp hdesc
  have hroom' : 2 + copyNeed s.vm.mem (forkSource s parent) ≤ s.vm.alloc.clearPages.card :=
    not_lt.mp hroom
  have hm : MemoryReady L n s.vm := ⟨hs.managed, hs.usable, hs.kernelDir, hs.kernelDir_unused⟩
  have hspec : ∃ p d s₁, taskInit L (.slot i) (s.task parent).name (savedWord s q 13)
      (u32 (savedWord s q 20 + 4 * syscallParamCount)) s = some (0, s₁) ∧
      TaskReady L n (.slot i) j p d s s₁ ∧ s₁.sched = X86Os.taskInit (.slot i) s.sched :=
    taskInit_spec hdesc hm (by omega)
  obtain ⟨p, d, s₁, hinit, hready, -⟩ := hspec
  have hpid := (taskInit_fields hinit (by norm_num)).1
  obtain ⟨sp, v, hcopy, howned, hpages, hsub⟩ := forkSource_copied hs hroom' hready residue
  obtain ⟨s', hchild, rfl, htss⟩ := forkChild_of_copy (t := .slot i) hq hcopy
  refine ⟨i, j, p, d, s₁, s', sp, hslot, hready, ?_, howned, hpages, hsub, ?_, ?_⟩
  · have hfork : forkSlot L residue parent (.slot i) s = some ((s₁.task (.slot i)).pid, s') := by
      rw [forkSlot, Prog.gets_bind, hesp0, Prog.bind_of_eq (frameWord_of_page hq (by decide)),
        Prog.bind_of_eq (frameWord_of_page hq (by decide)), Prog.bind_of_eq hinit,
        if_neg (by norm_num), hchild]
    rw [← hpid, ← hfork, sysFork, Prog.bind_of_eq (taskCurrent_eq hc), allocTask, Prog.gets_bind,
      hslot]
    rfl
  · rw [htss]
    exact hready.tss_esp0
  · rw [htss]
    rfl

/-- The directory that `tss_init` made for the child is overwritten in its TSS. -/
theorem sysFork_loses (hc : s.sched.currTask = some parent) (hstack : HasStack s parent)
    (hs : CopySource L n s.vm (forkSource s parent)) (hok : ¬ ForkRunsOut s) (residue : ℕ) :
    ∃ i s' d, s.freeSlot = some i ∧ sysFork L residue s = some (i32 (taskAddr L (.slot i)), s') ∧
      d ∈ s.vm.alloc.clearPages ∧ d ∉ s'.vm.alloc.clearPages ∧
      d ≠ u32Sub (s'.task (.slot i)).tss.esp0 memPageSize ∧
      d ∉ userPages s'.vm.mem (s'.task (.slot i)).tss.cr3 := by
  obtain ⟨i, j, p, d, s₁, s', sp, hslot, hready, hrun, howned, hpages, hsub, hesp0, hcr3⟩ :=
    sysFork_run hc hstack hs hok residue
  have hgone : d ∉ s₁.vm.alloc.clearPages := by
    rw [hready.clear]
    exact Finset.notMem_erase _ _
  refine ⟨i, s', d, hslot, hrun, hready.dir, fun hd => hgone (hsub hd), ?_, fun hd => ?_⟩
  · have hp := (hs.usable p hready.stack).identity.lt
    rw [hesp0, u32Sub_of_le (by omega) (by unfold memPageSize; omega), Nat.add_sub_cancel]
    exact hready.apart
  · rw [hcr3] at hd
    obtain ⟨x, hx⟩ := howned.userPages_page hd
    exact hgone (hpages x d hx)

/-- Every fork that succeeds loses a page: the directory that `tss_init` made for the child. -/
theorem fork_leaks_directory (hc : s.sched.currTask = some parent) (hstack : HasStack s parent)
    (hs : CopySource L n s.vm (forkSource s parent)) (hok : ¬ ForkRunsOut s) :
    ∃ i s', s.freeSlot = some i ∧ sysFork L residue s = some (i32 (taskAddr L (.slot i)), s') ∧
      ¬ PagesReachable s s' (.slot i) := by
  obtain ⟨i, s', d, hslot, hrun, hold, hnew, hstack, hspace⟩ := sysFork_loses hc hstack hs hok residue
  exact ⟨i, s', hslot, hrun, fun h => (h d hold hnew).elim hstack hspace⟩

/-! ## The registers of the child -/

/-- A fork that does not return an error went through `task_init`. -/
theorem sysFork_success {q : ℕ} (hc : s.sched.currTask = some parent) (hq : KernelPage q)
    (hesp0 : (s.task parent).tss.esp0 = q + memPageSize)
    (hrun : sysFork L residue s = some (c, s')) (hne : c ≠ -1) : ∃ i err s₁,
      s.freeSlot = some i ∧ ¬ err < 0 ∧
      taskInit L (.slot i) (s.task parent).name (savedWord s q 13)
        (u32 (savedWord s q 20 + 4 * syscallParamCount)) s = some (err, s₁) ∧
      forkChild L residue parent (.slot i) (q + memPageSize) s₁ = some (c, s') := by
  cases hslot : s.freeSlot with
  | none =>
      rw [sysFork_noSlot hc hslot] at hrun
      exact absurd (Prod.mk.inj (Option.some.inj hrun)).1.symm hne
  | some i =>
      rw [sysFork, Prog.bind_of_eq (taskCurrent_eq hc), allocTask, Prog.gets_bind, hslot] at hrun
      replace hrun : forkSlot L residue parent (.slot i) s = some (c, s') := hrun
      rw [forkSlot, Prog.gets_bind, hesp0, Prog.bind_of_eq (frameWord_of_page hq (by decide)),
        Prog.bind_of_eq (frameWord_of_page hq (by decide))] at hrun
      obtain ⟨err, s₁, hinit, hrun⟩ := Prog.bind_eq_some.mp hrun
      by_cases herr : err < 0
      · rw [if_pos herr] at hrun
        exact absurd (forkFailed_eq_some hrun).1 hne
      · rw [if_neg herr] at hrun
        exact ⟨i, err, s₁, rfl, herr, hinit, hrun⟩

/-- The TSS of the child. -/
theorem sysFork_tss {q : ℕ} (hm : MemoryReady L n s.vm) (hc : s.sched.currTask = some parent)
    (hq : KernelPage q) (hused : q ∉ s.vm.alloc.clearPages)
    (hesp0 : (s.task parent).tss.esp0 = q + memPageSize)
    (hrun : sysFork L residue s = some (c, s')) (hne : c ≠ -1) :
    ∃ i, ∃ p ∈ s.vm.alloc.clearPages, ∃ dir, s.freeSlot = some i ∧
      (s'.task (.slot i)).tss = ((initialTss (savedWord s q 13)
        (u32 (savedWord s q 20 + 4 * syscallParamCount)) p (tssCodeSel s (s.task parent).name)
        (tssDataSel s (s.task parent).name)).withFrame (savedWord s q)).withCr3 dir := by
  obtain ⟨i, err, s₁, hslot, herr, hinit, hchild⟩ := sysFork_success hc hq hesp0 hrun hne
  obtain ⟨j, p, d, -, hready, -, htss⟩ := taskInit_success hm hinit herr
  have hsame : ∀ k < frameWords, savedWord s₁ q k = savedWord s q k := by
    intro k hk
    refine savedWord_congr (fun x hx => hready.out x fun hin => hused ?_) hk
    exact InPage.unique hq.aligned (hm.usable d hready.dir).aligned hx hin ▸ hready.dir
  have hcopied := hchild
  rw [forkChild_eq hq] at hcopied
  obtain ⟨dir, s₂, hcopy, -⟩ := Prog.bind_eq_some.mp hcopied
  obtain ⟨v, hcopy, -⟩ := onVm_eq_some.mp hcopy
  obtain ⟨s₃, hrun₃, -, htask⟩ := forkChild_of_copy (t := .slot i) hq hcopy
  obtain ⟨-, rfl⟩ := Prog.result_unique hrun₃ hchild
  refine ⟨i, p, hready.stack, dir, hslot, ?_⟩
  rw [htask, htss, Tss.withFrame_congr _ hsame]
  rfl

/-- The child continues where the parent returns to, with zero as its result, in ring three, and with a
kernel stack that was clear before. -/
structure ForkContext (s s' : Kernel) (q : ℕ) (t : TaskId) : Prop where
  context : (s'.task t).tss.context = { syscallReturn (savedWord s q) with eax := 0 }
  rpl : ∀ sel ∈ (s'.task t).tss.context.selectors, sel % 4 = 3
  esp0 : ∃ p ∈ s.vm.alloc.clearPages, (s'.task t).tss.esp0 = p + memPageSize

/-- The parent is not called like the idle task, its stack pointer after the return is not zero, and it
runs on the selectors of user tasks. -/
structure ForksAsUser (s : Kernel) (parent : TaskId) (q : ℕ) : Prop where
  name : isIdleTaskName (s.task parent).name = false
  esp : u32 (savedWord s q 20 + 5 * 4) ≠ 0
  ss : (s.appDataSel ||| segRpl3) % 2 ^ 16 = savedWord s q 21 % 2 ^ 16
  rpl : ∀ k ∈ [14, 4, 3, 2, 1], savedWord s q k % 4 = 3

theorem or_rpl3 (x : ℕ) : (x ||| segRpl3) % 4 = 3 := by
  have h := Nat.or_mod_two_pow (a := x) (b := segRpl3) (n := 2)
  rw [show (2 : ℕ) ^ 2 = 4 by norm_num] at h
  have hx := Nat.mod_lt x (show 0 < 4 by norm_num)
  rw [h]
  unfold segRpl3
  interval_cases x % 4 <;> rfl

/-- Only the stack comes from `tss_init`; the code selector is the one of the frame. -/
theorem child_context (frame : ℕ → ℕ) (esp p code data dir : ℕ) :
    (((initialTss (frame 13) esp p code data).withFrame frame).withCr3 dir).context =
      { syscallReturn frame with
        eax := 0
        ss := data % 2 ^ 16
        esp := if esp ≠ 0 then esp else u32 (p + memPageSize) } := rfl

/-- With the name of the idle task the child gets the stack selector of the kernel. -/
theorem ForkContext.not_idle {q esp p dir : ℕ} (h : ForkContext s s' q t)
    (htss : (s'.task t).tss = ((initialTss (savedWord s q 13) esp p
      (tssCodeSel s (s.task parent).name) (tssDataSel s (s.task parent).name)).withFrame
        (savedWord s q)).withCr3 dir) : isIdleTaskName (s.task parent).name = false := by
  by_contra hidle
  have hrpl := h.rpl
  rw [congrArg Tss.context htss, child_context] at hrpl
  have hsel := hrpl (tssDataSel s (s.task parent).name % 2 ^ 16) (by simp [UserContext.selectors])
  rw [tssDataSel, if_pos (by simpa using hidle)] at hsel
  exact absurd hsel (by decide)

/-- The child of a successful fork has the context of its parent exactly when the parent has not the
name of the idle task, its stack pointer does not come to zero and its selectors are those of user
tasks. -/
theorem fork_child_context {q : ℕ} (hm : MemoryReady L n s.vm)
    (hc : s.sched.currTask = some parent) (hq : KernelPage q)
    (hused : q ∉ s.vm.alloc.clearPages) (hesp0 : (s.task parent).tss.esp0 = q + memPageSize)
    (hrun : sysFork L residue s = some (c, s')) (hne : c ≠ -1) :
    ∃ i, s.freeSlot = some i ∧ (ForkContext s s' q (.slot i) ↔ ForksAsUser s parent q) := by
  obtain ⟨i, p, hp, dir, hslot, htss⟩ := sysFork_tss hm hc hq hused hesp0 hrun hne
  have hlt := (hm.usable p hp).identity.lt
  have hwrap : u32 (p + memPageSize) = p + memPageSize := u32_of_lt (by unfold memPageSize; omega)
  have hcontext := congrArg Tss.context htss
  rw [child_context] at hcontext
  refine ⟨i, hslot, fun h => ?_, fun h => ?_⟩
  · have heq := h.context
    have hrpl := h.rpl
    rw [hcontext] at heq hrpl
    have hss : tssDataSel s (s.task parent).name % 2 ^ 16 = savedWord s q 21 % 2 ^ 16 :=
      congrArg UserContext.ss heq
    have hname := h.not_idle htss
    refine ⟨hname, fun hzero => ?_, ?_, fun k hk => ?_⟩
    · have hesp := congrArg UserContext.esp heq
      have hzero' : u32 (savedWord s q 20 + 4 * syscallParamCount) = 0 := hzero
      simp only [hzero', ne_eq, not_true_eq_false, if_false, syscallReturn, hzero, hwrap] at hesp
      unfold memPageSize at hesp
      omega
    · rwa [tssDataSel, hname] at hss
    · have hsel : savedWord s q k % 2 ^ 16 % 4 = 3 := by
        apply hrpl
        simp only [List.mem_cons, List.not_mem_nil, or_false] at hk
        rcases hk with rfl | rfl | rfl | rfl | rfl <;> simp [UserContext.selectors, syscallReturn]
      omega
  · have hesp : u32 (savedWord s q 20 + 4 * syscallParamCount) ≠ 0 := h.esp
    have hdata : tssDataSel s (s.task parent).name = s.appDataSel ||| segRpl3 := by
      rw [tssDataSel, h.name]
      rfl
    rw [if_pos hesp, hdata, h.ss] at hcontext
    refine ⟨hcontext, fun sel hsel => ?_, p, hp, htss ▸ hwrap⟩
    have hss := or_rpl3 s.appDataSel
    have hmod := h.ss
    have hframe := h.rpl
    rw [hcontext] at hsel
    simp only [List.mem_cons, List.not_mem_nil, or_false, forall_eq_or_imp, forall_eq] at hframe
    simp only [UserContext.selectors, syscallReturn, List.mem_cons, List.not_mem_nil, or_false]
      at hsel
    rcases hsel with rfl | rfl | rfl | rfl | rfl | rfl <;> omega

/-! ## A user task that forks -/

/-- The frame of a call from ring three. -/
def forkFrame : ℕ → ℕ
  | 0 => 0x202
  | 1 => 0x1B
  | 2 => 0x1B
  | 3 => 0x1B
  | 4 => 0x1B
  | 13 => 0x80000010
  | 14 => 0x23
  | 15 => 2
  | 20 => 0x80000F00
  | 21 => 0x1B
  | _ => 0

/-- The first task runs in the space with one page and has called `sys_fork`; its kernel stack is the
page at `0x203000`. -/
def forkKernel (name : TaskName) : Kernel where
  vm := { onePageVm with
    mem := fun x =>
      if 0x203000 ≤ x ∧ x < 0x204000 then Mem.ofWords (fun k => forkFrame (k - 0x80FEA)) x
      else onePageVm.mem x }
  tempPos := 0
  gdt i := if i < 5 then { SegmentDesc.zero with attr := segPPresent } else .zero
  gdtFrees := []
  task
    | .first =>
      { Task.zero with
        name := name
        tss := { Tss.zero with esp0 := 0x203000 + memPageSize, cr3 := 0x200000 } }
    | _ => .zero
  sched := { Sched.zeroed with currTask := some .first }
  appCodeSel := 0x20
  appDataSel := 0x18

theorem forkKernel_mem {x : ℕ} (h : x < 0x203000 ∨ 0x204000 ≤ x) :
    (forkKernel name).vm.mem x = onePageVm.mem x := by
  have hout : ¬ (0x203000 ≤ x ∧ x < 0x204000) := by omega
  exact if_neg hout

theorem forkFrame_lt (k : ℕ) : forkFrame k < 2 ^ 32 := by
  unfold forkFrame
  split <;> norm_num

theorem forkKernel_savedWord {k : ℕ} (hk : k < frameWords) :
    savedWord (forkKernel name) 0x203000 k = forkFrame k := by
  have hk' : k < 22 := hk
  have hword : (Mem.ofWords fun k => forkFrame (k - 0x80FEA)).read32 (4 * (0x80FEA + k)) =
      forkFrame k := by
    rw [Mem.read32_ofWords (w := fun k => forkFrame (k - 0x80FEA)) (forkFrame_lt _),
      Nat.add_sub_cancel_left]
  rw [savedWord, show 0x203000 + 4 * (1002 + k) = 4 * (0x80FEA + k) by omega, ← hword]
  refine Mem.read32_congr fun x hx hx' => ?_
  have hin : 0x203000 ≤ x ∧ x < 0x204000 := by omega
  exact if_pos hin

theorem forkKernel_stack : KernelPage 0x203000 := ⟨by decide, by decide, by decide⟩

theorem forkKernel_source (name : TaskName) :
    CopySource sampleLayout 8 (forkKernel name).vm 0x200000 ∧
      copyNeed (forkKernel name).vm.mem 0x200000 = copyNeed onePageVm.mem 0x200000 := by
  refine onePage_source.congr (s := (forkKernel name).vm) onePage_source.managed (Finset.Subset.refl _)
    rfl (fun p hp k hk => forkKernel_mem ?_) fun k hk => forkKernel_mem ?_
  · obtain ⟨x, hx⟩ := onePage_owned.userPages_page hp
    have hpage := onePage_page hx
    unfold memPageSize at hk
    omega
  · have hlow : sampleLayout.kernelPageDir = 0x20000 := rfl
    unfold memPageSize at hk
    omega

theorem forkKernel_ready (name : TaskName) : MemoryReady sampleLayout 8 (forkKernel name).vm :=
  have hs := (forkKernel_source name).1
  ⟨hs.managed, hs.usable, hs.kernelDir, hs.kernelDir_unused⟩

theorem forkKernel_unused (name : TaskName) : 0x203000 ∉ (forkKernel name).vm.alloc.clearPages := by
  intro h
  obtain ⟨k, hk, heq⟩ := onePageVm_clear h
  omega

theorem forkKernel_runs (name : TaskName) : ¬ ForkRunsOut (forkKernel name) := by
  have hslot : (forkKernel name).freeSlot = some 0 := rfl
  have hdesc : gdtFree (forkKernel name).gdt = some 5 := rfl
  have hdir : currentPageDir (forkKernel name) = 0x200000 := rfl
  have hcard : (forkKernel name).vm.alloc.clearPages.card = 8 := onePageVm_card
  have hneed := onePage_copyNeed
  rw [ForkRunsOut, hslot, hdesc, hdir, (forkKernel_source name).2, hcard]
  rintro (h | h | h)
  · cases h
  · cases h
  · omega

theorem forkKernel_fork (name : TaskName) : ∃ c s',
    sysFork sampleLayout 0 (forkKernel name) = some (c, s') ∧ c ≠ -1 := by
  have hcurr : (forkKernel name).sched.currTask = some .first := rfl
  obtain ⟨i, -, -, -, -, s', -, -, -, hrun, -⟩ := sysFork_run hcurr
    ⟨0x203000, forkKernel_stack, rfl⟩ (forkKernel_source name).1 (forkKernel_runs name) 0
  exact ⟨_, s', hrun, slotAddr_ne sampleLayout i⟩

/-- `"shell"`. -/
def shellName : TaskName := fun i => [0x73, 0x68, 0x65, 0x6C, 0x6C].getD i 0

/-- The name after `execve` of a file called `idletask`. -/
def idleName : TaskName := fun i => idleTaskName.getD i 0

theorem shell_forksAsUser : ForksAsUser (forkKernel shellName) .first 0x203000 := by
  have hword : ∀ k < frameWords, savedWord (forkKernel shellName) 0x203000 k = forkFrame k :=
    fun k hk => forkKernel_savedWord hk
  refine ⟨by decide, ?_, ?_, fun k hk => ?_⟩
  · rw [hword 20 (by decide)]
    decide
  · rw [hword 21 (by decide)]
    decide
  · simp only [List.mem_cons, List.not_mem_nil, or_false] at hk
    rcases hk with rfl | rfl | rfl | rfl | rfl <;> rw [hword _ (by decide)] <;> rfl

/-- The child of a task called `shell` has the context of its parent. -/
theorem fork_child_context_shell : ∃ c s',
    sysFork sampleLayout 0 (forkKernel shellName) = some (c, s') ∧
      ∃ i, (forkKernel shellName).freeSlot = some i ∧
        ForkContext (forkKernel shellName) s' 0x203000 (.slot i) := by
  obtain ⟨c, s', hrun, hne⟩ := forkKernel_fork shellName
  obtain ⟨i, hslot, hcontext⟩ := fork_child_context (forkKernel_ready shellName) rfl forkKernel_stack
    (forkKernel_unused shellName) rfl hrun hne
  exact ⟨c, s', hrun, i, hslot, hcontext.mpr shell_forksAsUser⟩

/-- The same frame is that of a user task, but the child of a task called `idletask` gets the stack
selector of the kernel. -/
theorem fork_child_context_counterexample : ∃ c s',
    sysFork sampleLayout 0 (forkKernel idleName) = some (c, s') ∧ c ≠ -1 ∧
      ForksAsUser (forkKernel shellName) .first 0x203000 ∧
      (∀ k < frameWords, savedWord (forkKernel idleName) 0x203000 k =
        savedWord (forkKernel shellName) 0x203000 k) ∧
      ¬ ∃ i, (forkKernel idleName).freeSlot = some i ∧
        ForkContext (forkKernel idleName) s' 0x203000 (.slot i) := by
  obtain ⟨c, s', hrun, hne⟩ := forkKernel_fork idleName
  have hword : ∀ k < frameWords, savedWord (forkKernel shellName) 0x203000 k = forkFrame k :=
    fun k hk => forkKernel_savedWord hk
  refine ⟨c, s', hrun, hne, shell_forksAsUser, fun k hk => ?_, ?_⟩
  · rw [hword k hk]
    exact forkKernel_savedWord hk
  · rintro ⟨i, hslot, h⟩
    obtain ⟨i', p, -, dir, hslot', htss⟩ := sysFork_tss (forkKernel_ready idleName) rfl
      forkKernel_stack (forkKernel_unused idleName) rfl hrun hne
    obtain rfl := Option.some.inj (hslot'.symm.trans hslot)
    exact absurd (h.not_idle htss) (by decide)

theorem fork_leaks_directory_shell : ∃ i s', (forkKernel shellName).freeSlot = some i ∧
    sysFork sampleLayout 0 (forkKernel shellName) =
      some (i32 (taskAddr sampleLayout (.slot i)), s') ∧
    ¬ PagesReachable (forkKernel shellName) s' (.slot i) :=
  fork_leaks_directory rfl ⟨0x203000, forkKernel_stack, rfl⟩ (forkKernel_source shellName).1
    (forkKernel_runs shellName)

/-- The fork of the task `shell` succeeds and a page is lost. -/
theorem fork_leaks_directory_counterexample : ¬ ∀ (L : Layout) (residue n : ℕ) (s s' : Kernel)
    (parent : TaskId) (i : ℕ), s.sched.currTask = some parent → HasStack s parent →
      CopySource L n s.vm (forkSource s parent) → s.freeSlot = some i →
      sysFork L residue s = some (i32 (taskAddr L (.slot i)), s') →
      PagesReachable s s' (.slot i) := by
  intro h
  have hs := (forkKernel_source shellName).1
  have hstack : HasStack (forkKernel shellName) .first := ⟨0x203000, forkKernel_stack, rfl⟩
  obtain ⟨i, s', d, hslot, hrun, hold, hnew, hno, hspace⟩ :=
    sysFork_loses rfl hstack hs (forkKernel_runs shellName) 0
  exact (h sampleLayout 0 8 _ s' .first i rfl hstack hs hslot hrun d hold hnew).elim hno hspace

end Kernel

end X86Os
