import X86Os.ExecSpace

/-!
# The memory image of a new program

When `main` is entered, every segment of the program is mapped and holds the bytes of the file; behind
them is what the pages held before the system call. Neither `load_phdr` nor `crt0` and `cstart`, to which
`load_phdr` leaves it, clear these bytes, while the boot loader does.
-/

namespace X86Os

namespace Kernel

variable {n d stack entry argsAt old argv argc : ℕ} {L : Layout} {disk : Disk} {t : TaskId}
  {file : ℕ → BitVec 8} {s₀ : Vm} {k k' : Kernel} {img : ℕ → Option (BitVec 8)} {r : ℤ}
  {src lens : ℕ → ℕ} {Q : ℕ → Prop} {left : Finset ℕ}

/-! ## The frame -/

/-- Only bytes of the kernel stack have changed. -/
def FrameStep (stack : ℕ) (k k' : Kernel) : Prop :=
  ∃ m, k' = { k with vm := { k.vm with mem := m } } ∧ ∀ x, ¬ InPage stack x → m x = k.vm.mem x

instance (stack : ℕ) : IsPreorder Kernel (FrameStep stack) where
  refl k := ⟨k.vm.mem, rfl, fun _ _ => rfl⟩
  trans := by
    rintro k _ _ ⟨m, rfl, hm⟩ ⟨m', rfl, hm'⟩
    exact ⟨m', rfl, fun x hx => (hm' x hx).trans (hm x hx)⟩

theorem storeFrame_eq (hp : KernelPage stack) {i : ℕ} (hi : i < frameWords) (w : ℕ) :
    storeFrame (stack + memPageSize) i w k = some ((), { k with vm := { k.vm with
      mem := k.vm.mem.write32 (stack + 4 * (1002 + i)) w } }) := by
  have hi' : i < 22 := hi
  rw [storeFrame, frameAddr_eq hp.identity.lt hi]
  exact onVm_eq_some.mpr ⟨_, store32_of_identity (hp.word (by omega)).1 w, rfl⟩

theorem frameStep_storeFrame (hp : KernelPage stack) {i : ℕ} (hi : i < frameWords) (w : ℕ) :
    Prog.Along (FrameStep stack) (storeFrame (stack + memPageSize) i w) := by
  intro k u k' h
  rw [storeFrame_eq hp hi] at h
  obtain ⟨-, rfl⟩ := Prod.mk.inj (Option.some.inj h)
  have hi' : i < 22 := hi
  refine ⟨_, rfl, fun x hx => Mem.write32_apply_of_out x ?_⟩
  unfold InPage memPageSize at hx
  omega

/-- The frame after `sys_execve` has the new stack pointer. -/
theorem execFrame_step {u : Unit} (hp : KernelPage stack)
    (hrun : execFrame (stack + memPageSize) entry k = some (u, k')) :
    FrameStep stack k k' ∧
      k'.vm.mem.read32 (stack + 4 * (1002 + 20)) = execStackTop - 4 * syscallParamCount := by
  have hword : ∀ i < frameWords, ∀ w, Prog.Along (FrameStep stack)
      (storeFrame (stack + memPageSize) i w) := fun i hi w => frameStep_storeFrame hp hi w
  obtain ⟨_, k₁, h₁, hrun₁⟩ := Prog.bind_eq_some.mp hrun
  obtain ⟨_, k₂, h₂, hrun₂⟩ := Prog.bind_eq_some.mp hrun₁
  obtain ⟨_, k₃, h₃, hrun₃⟩ := Prog.bind_eq_some.mp hrun₂
  obtain ⟨_, k₄, h₄, hrun₄⟩ := Prog.bind_eq_some.mp hrun₃
  obtain ⟨_, k₅, h₅, hrun₅⟩ := Prog.bind_eq_some.mp hrun₄
  obtain ⟨_, k₆, h₆, hrun₆⟩ := Prog.bind_eq_some.mp hrun₅
  obtain ⟨_, k₇, h₇, hrun₇⟩ := Prog.bind_eq_some.mp hrun₆
  obtain ⟨_, k₈, h₈, hrun₈⟩ := Prog.bind_eq_some.mp hrun₇
  obtain ⟨_, k₉, h₉, hrun₉⟩ := Prog.bind_eq_some.mp hrun₈
  refine ⟨?_, ?_⟩
  · have hall : Prog.Along (FrameStep stack) (execFrame (stack + memPageSize) entry) := by
      unfold execFrame
      exact (hword 13 (by decide) _).bind fun _ => (hword 10 (by decide) _).bind fun _ =>
        (hword 11 (by decide) _).bind fun _ => (hword 9 (by decide) _).bind fun _ =>
        (hword 12 (by decide) _).bind fun _ => (hword 7 (by decide) _).bind fun _ =>
        (hword 5 (by decide) _).bind fun _ => (hword 6 (by decide) _).bind fun _ =>
        (hword 0 (by decide) _).bind fun _ => hword 20 (by decide) _
    exact hall _ _ _ hrun
  · rw [storeFrame_eq hp (by decide)] at hrun₉
    obtain ⟨-, rfl⟩ := Prod.mk.inj (Option.some.inj hrun₉)
    exact Mem.read32_write32_self (by decide)

/-- The result of the system call is stored in the frame, and the stack pointer is read from it. -/
theorem storeFrame_result (hp : KernelPage stack)
    (hesp : k.vm.mem.read32 (stack + 4 * (1002 + 20)) = execStackTop - 4 * syscallParamCount) (w : ℕ) :
    ∃ m, storeFrame (stack + memPageSize) 12 w k = some ((), { k with vm := { k.vm with mem := m } }) ∧
      frameWord (stack + memPageSize) 20 { k with vm := { k.vm with mem := m } } =
        some (execStackTop - 4 * syscallParamCount, { k with vm := { k.vm with mem := m } }) ∧
      ∀ x, ¬ InPage stack x → m x = k.vm.mem x := by
  let m := k.vm.mem.write32 (stack + 4 * (1002 + 12)) w
  obtain ⟨hid, hal, -⟩ := hp.word (show 1002 + 20 < 1024 by norm_num)
  have hread : m.read32 (stack + 4 * (1002 + 20)) = execStackTop - 4 * syscallParamCount :=
    (Mem.read32_write32_of_apart (.inr (by omega))).trans hesp
  refine ⟨m, storeFrame_eq hp (by decide) w, ?_, fun x hx => Mem.write32_apply_of_out x ?_⟩
  · rw [frameWord, frameAddr_eq hp.identity.lt (by decide)]
    refine onVm_eq_some.mpr ⟨{ k.vm with mem := m }, ?_, rfl⟩
    rw [load32_of_identity hid hal, ← hread]
  · unfold InPage memPageSize at hx
    omega

/-- The stack pointer behind the call gate. -/
theorem callGate_esp :
    u32 (execStackTop - 4 * syscallParamCount + 4 * syscallParamCount) = execStackTop := by
  decide

theorem FrameStep.written (h : FrameStep stack k k') (hp : Populated n d s₀ img k.vm)
    (hs : StackPage d s₀ stack) : StackWritten n d s₀ stack img k.vm img k'.vm := by
  obtain ⟨m, rfl, hm⟩ := h
  exact .of_stack hp hs hm

theorem FrameStep.keeps (h : FrameStep stack k k') : k.Keeps t k' := by
  obtain ⟨m, rfl, -⟩ := h
  exact ⟨rfl, rfl⟩

theorem FrameStep.cr3 (h : FrameStep stack k k') : k'.vm.cr3 = k.vm.cr3 := by
  obtain ⟨m, rfl, -⟩ := h
  rfl

/-! ## The end of `sys_execve` -/

theorem execFailed_result {dir : ℕ} (hrun : execFailed t old dir k = some (r, k')) : r = -1 := by
  obtain ⟨_, k₁, -, hrun₁⟩ := Prog.bind_eq_some.mp hrun
  obtain ⟨_, k₂, -, hret⟩ := Prog.bind_eq_some.mp hrun₁
  exact (Prog.pure_eq_some.mp hret).1

/-- The system call is about to return to the new program, whose memory is as in `g`. -/
structure Returns (n d : ℕ) (s₀ : Vm) (file : ℕ → BitVec 8) (t : TaskId) (stack : ℕ) (g : Vm)
    (k : Kernel) : Prop where
  ready : Ready n d s₀ file g
  mem : k.vm.mem = g.mem
  cr3 : k.vm.cr3 = d
  currTask : k.sched.currTask = some t
  esp0 : (k.task t).tss.esp0 = stack + memPageSize
  esp : k.vm.mem.read32 (stack + 4 * (1002 + 20)) = execStackTop - 4 * syscallParamCount

/-- The arguments as they were when the call began, and the space that it leaves. -/
structure Caller (Q : ℕ → Prop) (s : Vm) (old argv argc : ℕ) (src lens : ℕ → ℕ) : Prop where
  cr3 : entryPaddr s.cr3 = old
  user : UserHalf Q s
  reached : Reached s.mem old
  args : ArgBlock s argv argc src lens

theorem Caller.reached_agrees {s v : Vm} (h : Caller Q s old argv argc src lens)
    (hs : ∀ x, Q x → v.mem x = s.mem x) : Reached v.mem old where
  dirPage := h.reached.dirPage
  table i hi hi' hp := by
    have hdir := h.user.dir
    rw [h.cr3] at hdir
    have hpde : v.mem.pde old i = s.mem.pde old i :=
      Mem.read32_congr fun x hx hx' => hs x (hdir x (inPage_word hi' hx hx'))
    rw [hpde] at hp
    rw [Mem.table, hpde]
    exact h.reached.table i hi hi' hp

theorem Caller.agrees {s v : Vm} (h : Caller Q s old argv argc src lens) (hs : Agrees Q s v) :
    Caller Q v old argv argc src lens where
  cr3 := hs.cr3 ▸ h.cr3
  user := h.user.agrees hs
  reached := h.reached_agrees hs.same
  args := h.args.agrees h.user hs

/-- The steps of a call that succeeds. -/
theorem execStart_steps (hargs : ArgBlock k.vm argv argc src lens)
    (hrun : execStart argsAt t old d entry argv k = some (r, k')) (hr : ¬ r < 0) :
    ∃ err v k₁ v', copyArgs argsAt execStackTop d argc argv k.vm = some (err, v) ∧
      execFrame (k.task t).tss.esp0 entry { k with vm := v } = some ((), k₁) ∧
      memoryDestroyUvm old { k₁.vm with cr3 := d } = some ((), v') ∧
      k'.vm = v' ∧ k'.sched = k₁.sched ∧ (k'.task t).tss.esp0 = (k₁.task t).tss.esp0 := by
  have hcount : onVm (stringsCount argv) k = some (argc, k) :=
    onVm_eq_some.mpr ⟨k.vm, hargs.stringsCount_eq, rfl⟩
  rw [execStart, Prog.bind_of_eq hcount] at hrun
  obtain ⟨err, k₂, hcopy, hrun₂⟩ := Prog.bind_eq_some.mp hrun
  obtain ⟨v, hcopy', rfl⟩ := onVm_eq_some.mp hcopy
  by_cases herr : err < 0
  · rw [if_pos herr] at hrun₂
    rw [execFailed_result hrun₂] at hr
    exact absurd (by norm_num) hr
  · rw [if_neg herr, Prog.gets_bind] at hrun₂
    obtain ⟨_, k₃, hframe, hrun₃⟩ := Prog.bind_eq_some.mp hrun₂
    obtain ⟨_, k₄, hdir, hrun₄⟩ := Prog.bind_eq_some.mp hrun₃
    obtain ⟨_, k₅, hdestroy, hret⟩ := Prog.bind_eq_some.mp hrun₄
    obtain ⟨-, rfl⟩ := Prog.pure_eq_some.mp hret
    obtain ⟨_, k₆, hset, hload⟩ := Prog.bind_eq_some.mp hdir
    obtain rfl := setTask_eq_some.mp hset
    obtain ⟨v₄, hmod, rfl⟩ := onVm_eq_some.mp hload
    obtain rfl := Prog.modify_eq_some.mp hmod
    obtain ⟨v₅, hdestroy', rfl⟩ := onVm_eq_some.mp hdestroy
    refine ⟨err, v, k₃, v₅, hcopy', hframe, hdestroy', rfl, rfl, ?_⟩
    show (Function.update k₃.task t _ t).tss.esp0 = _
    rw [Function.update_self]
    rfl

theorem execStart_returns {s : Vm} (hready : Ready n d s₀ file k.vm) (hf : FitsBuffer file)
    (hstack : StackPage d s₀ stack) (hQ : ArgsApart Q s₀ stack)
    (hcaller : Caller Q s old argv argc src lens) (hs : Agrees Q s k.vm)
    (hfit : ArgsFit argc lens) (ha : stack ≤ argsAt)
    (ha' : argsAt + taskArgsSize ≤ stack + memPageSize)
    (hcur : k.sched.currTask = some t) (hesp : (k.task t).tss.esp0 = stack + memPageSize)
    (hrun : execStart argsAt t old d entry argv k = some (r, k')) (hr : ¬ r < 0) :
    ∃ g, Returns n d s₀ file t stack g k' ∧ g.alloc = k.vm.alloc := by
  obtain ⟨err, v, k₁, v', hargs, hframe, hdestroy, hvm, hsched, hesp₁⟩ :=
    execStart_steps (hcaller.agrees hs).args hrun hr
  have hwritten : ∀ img, Populated n d s₀ img k.vm →
      ∃ img', StackWritten n d s₀ stack img k.vm img' v := fun img hp =>
    copyArgs_written hp (fun w hw => hready.stack w hw.onStack) hstack hQ
      hcaller.user hs hcaller.args hfit ha ha' hargs
  have hready₁ := hready.written hf hwritten
  rw [hesp] at hframe
  obtain ⟨hstep, hword⟩ := execFrame_step hstack.page hframe
  have hready₂ : Ready n d s₀ file k₁.vm :=
    hready₁.written hf fun img hp => ⟨img, hstep.written hp hstack⟩
  -- Neither the arguments nor the frame touch the space of the caller.
  have hs₂ : Agrees Q s k₁.vm := by
    obtain ⟨img, hp, -⟩ := hready.shown
    obtain ⟨img₁, hw₁⟩ := hwritten img hp
    exact (hs.trans (hw₁.agrees hQ)).trans ((hstep.written hw₁.populated hstack).agrees hQ)
  have hreached : Reached ({ k₁.vm with cr3 := d } : Vm).mem old := hcaller.reached_agrees hs₂.same
  have hmem : v'.mem = k₁.vm.mem := ((memoryDestroyUvm_eq_some hreached).mp hdestroy).2.mem
  have hkeeps : Keeps t { k with vm := v } k₁ := hstep.keeps
  have halloc : k₁.vm.alloc = v.alloc := by
    obtain ⟨m, rfl, -⟩ := hstep
    rfl
  refine ⟨k₁.vm, ⟨hready₂, hvm ▸ hmem, hvm ▸ memoryDestroyUvm_cr3 old _ _ _ hdestroy, ?_, ?_, ?_⟩,
    halloc.trans (sameAlloc_copyArgs _ _ _ _ _ _ _ _ hargs)⟩
  · rw [hsched]
    exact hkeeps.currTask.trans hcur
  · exact hesp₁.trans ((congrArg Tss.esp0 hkeeps.tss).trans hesp)
  · rw [← hword, hvm]
    exact congrArg (fun m : Mem => m.read32 _) hmem

/-- A call that succeeds loads the program and maps the new stack before it passes arguments. -/
theorem execLoad_steps {dir name : ℕ}
    (hrun : execLoad disk argsAt t old dir name argv k = some (r, k')) (hr : ¬ r < 0) :
    ∃ entry k₁ err v, loadElfFile disk t name dir k = some (entry, k₁) ∧ entry ≠ 0 ∧
      memoryAllocForPageDir dir (memTaskStackTop - memTaskStackSize) memTaskStackSize
        (pteP ||| pteU ||| pteW) k₁.vm = some (err, v) ∧ ¬ err < 0 ∧
      execStart argsAt t old dir entry argv { k₁ with vm := v } = some (r, k') := by
  obtain ⟨entry, k₁, hload, hrun₁⟩ := Prog.bind_eq_some.mp hrun
  by_cases hentry : entry = 0
  · rw [if_pos hentry] at hrun₁
    rw [execFailed_result hrun₁] at hr
    exact absurd (by norm_num) hr
  · rw [if_neg hentry] at hrun₁
    obtain ⟨err, k₂, halloc, hrun₂⟩ := Prog.bind_eq_some.mp hrun₁
    obtain ⟨v, hcall, rfl⟩ := onVm_eq_some.mp halloc
    by_cases herr : err < 0
    · rw [if_pos herr] at hrun₂
      rw [execFailed_result hrun₂] at hr
      exact absurd (by norm_num) hr
    · rw [if_neg herr] at hrun₂
      exact ⟨entry, k₁, err, v, hload, hentry, hcall, herr, hrun₂⟩

/-- The space that is there once the new stack is mapped; the pages `left` are still free. -/
theorem loadElfFile_ready {name j : ℕ} {s v : Vm} {err : ℤ} (hdir : NewDir n L d s k.vm)
    (hb : BufferOwn L s stack left) (hf : FitsBuffer (diskFile disk)) (htaken : Taken n j k.vm)
    (hload : loadElfFile disk t name d k = some (entry, k')) (hentry : entry ≠ 0)
    (hcall : memoryAllocForPageDir d (memTaskStackTop - memTaskStackSize) memTaskStackSize
      (pteP ||| pteU ||| pteW) k'.vm = some (err, v)) (herr : ¬ err < 0)
    (hleft : left ⊆ v.alloc.clearPages) :
    Ready n d (openedVm disk k.vm) (diskFile disk) v ∧ Agrees (TaskByte L stack s) s v ∧
      k.Keeps t k' ∧ left ⊆ k.vm.alloc.clearPages := by
  have hkeep : ∀ i, LoadSteps (KeepsPage n i) disk t := fun i => keepsPage_loadSteps disk t
  have htaken' : Taken n j k'.vm := (hkeep j).loadElfFile name d k _ k' hload htaken
  have hstack : v.alloc.clearPages ⊆ k'.vm.alloc.clearPages := htaken'.clear_subset fun i =>
    keepsTaken_allocForPageDir _ (by decide) (by decide) _ _ _ hcall
  have hfile : k'.vm.alloc.clearPages ⊆ k.vm.alloc.clearPages :=
    htaken.clear_subset fun i => (hkeep i).loadElfFile name d k _ k' hload
  have hleft' := hleft.trans hstack
  obtain ⟨hbase, hempty, -⟩ := hdir.opened disk hb (hleft'.trans hfile)
  obtain ⟨fd, k₀, hopen, hload₁⟩ := Prog.bind_eq_some.mp hload
  obtain ⟨fs, hopen', rfl⟩ := onFile_eq_some hopen
  rcases sysOpen_opened hopen' with rfl | ⟨rfl, rfl⟩
  · rw [if_pos (by norm_num)] at hload₁
    obtain ⟨_, k₃, -, hret⟩ := Prog.bind_eq_some.mp hload₁
    exact absurd (Prog.pure_eq_some.mp hret).1 hentry
  · rw [if_neg (by decide)] at hload₁
    have hloaded : HeadersLoaded n d (openedVm disk k.vm) (diskFile disk) t
        (k.withFile ⟨openedVm disk k.vm, tempAddr⟩) (fileHeader (diskFile disk)).phnum k' :=
      loadElfOpen_loaded hbase hf hempty (fun _ _ _ _ => rfl) (htaken.of_alloc rfl) hleft' rfl rfl
        hload₁ hentry
    obtain ⟨hready, hu, hcr⟩ := hloaded.ready hf hcall herr
    exact ⟨hready, hdir.agrees hb (hleft'.trans hfile) hu (hcr.trans hloaded.cr3),
      ⟨hloaded.keeps.currTask, hloaded.keeps.tss⟩, hleft'.trans hfile⟩

/-! ## The whole way -/

/-- A task calls `sys_execve`: its kernel stack, the free pages and the tables of the kernel are apart
from its user half, which holds the arguments. -/
structure ExecInput (L : Layout) (argsAt argv n : ℕ) (t : TaskId) (stack argc : ℕ) (src lens : ℕ → ℕ)
    (s : Kernel) : Prop where
  current : s.sched.currTask = some t
  managed : s.vm.alloc.Managed n
  start : s.vm.alloc.start = memExtStart
  usable : ∀ p ∈ s.vm.alloc.clearPages, KernelPage p
  kernelDir : KernelDir L s.vm
  esp0 : (s.task t).tss.esp0 = stack + memPageSize
  ownStack : OwnStack L s.vm stack
  args_ge : stack ≤ argsAt
  args_le : argsAt + taskArgsSize ≤ stack + memPageSize
  caller : Caller (TaskByte L stack s.vm) s.vm (s.task t).tss.cr3 argv argc src lens

/-- `sys_execve` up to the new stack, as long as nothing fails. -/
def execSpace (L : Layout) (disk : Disk) (name : ℕ) : Prog Kernel Unit := do
  let t ← taskCurrent
  let src ← onVm (getFileName name)
  copyTaskName t src
  let newPageDir ← onVm (memoryCreateUvm L)
  let _ ← loadElfFile disk t name newPageDir
  let _ ← onVm (memoryAllocForPageDir newPageDir (memTaskStackTop - memTaskStackSize)
    memTaskStackSize (pteP ||| pteU ||| pteW))
  pure ()

/-- The file fits into the buffer, which neither the pages that the new program takes nor the tables and
the stack of the kernel touch, and the arguments into their area. -/
structure ExecFits (L : Layout) (disk : Disk) (name stack argc : ℕ) (lens : ℕ → ℕ) (s : Kernel) :
    Prop where
  buffer : ∀ s', execSpace L disk name s = some ((), s') →
    BufferOwn L s.vm stack s'.vm.alloc.clearPages
  file : FitsBuffer (diskFile disk)
  args : ArgsFit argc lens

/-- The kernel after the name of the task was overwritten by `bytes` and their end. -/
def renamed (t : TaskId) (bytes : List (BitVec 8)) (k : Kernel) : Kernel :=
  { k with
    task := Function.update k.task t { k.task t with name := (k.task t).name.set bytes }
    sched := if endsPastName bytes then k.sched.setTask t
        { k.sched.task t with
          sleepTicks := (k.sched.task t).sleepTicks - (k.sched.task t).sleepTicks % 2 ^ 8 }
      else k.sched }

theorem copyTaskName_result {src : ℕ} {u : Unit} (hrun : copyTaskName t src k = some (u, k')) :
    (src = 0 ∧ k' = k) ∨ src ≠ 0 ∧ ∃ bytes,
      strncpyBytes (fun i => onVm (load8 (u32 (src + i)))) taskNameSize 0 k = some (bytes, k) ∧
        k' = k.renamed t bytes := by
  rw [copyTaskName] at hrun
  split_ifs at hrun with hsrc
  · obtain ⟨-, rfl⟩ := Prog.pure_eq_some.mp hrun
    exact .inl ⟨hsrc, rfl⟩
  · obtain ⟨bytes, k₁, hcopy, hrun₁⟩ := Prog.bind_eq_some.mp hrun
    have hload : ∀ i, Prog.Along Eq (onVm (load8 (u32 (src + i))) : Prog Kernel (BitVec 8)) := by
      intro i k b k' h
      obtain ⟨v, hv, rfl⟩ := onVm_eq_some.mp h
      rw [← load8_along _ _ _ _ hv]
    obtain rfl := strncpyBytes_along hload _ _ _ _ _ hcopy
    obtain ⟨_, k₂, hset, hrun₂⟩ := Prog.bind_eq_some.mp hrun₁
    obtain rfl := setTask_eq_some.mp hset
    refine .inr ⟨hsrc, bytes, hcopy, ?_⟩
    rw [renamed]
    split_ifs at hrun₂ ⊢
    · exact setSched_eq_some.mp hrun₂
    · exact (Prog.pure_eq_some.mp hrun₂).2

theorem renamed_task (t : TaskId) (bytes : List (BitVec 8)) (k : Kernel) :
    (k.renamed t bytes).task t = { k.task t with name := (k.task t).name.set bytes } :=
  Function.update_self ..

theorem copyTaskName_keeps {name : ℕ} {u : Unit} (hrun : copyTaskName t name k = some (u, k')) :
    k.Keeps t k' ∧ k'.vm = k.vm := by
  rcases copyTaskName_result hrun with ⟨-, rfl⟩ | ⟨-, bytes, -, rfl⟩
  · exact ⟨.refl t k', rfl⟩
  · refine ⟨⟨?_, by rw [renamed_task]⟩, rfl⟩
    rw [renamed]
    split_ifs
    · rfl
    · rfl

/-- A call that succeeds has a new directory. -/
theorem sysExecve_steps {name : ℕ} (h : ExecInput L argsAt argv n t stack argc src lens k)
    (hrun : sysExecve L disk argsAt name argv k = some (r, k')) (hr : ¬ r < 0) :
    ∃ d k₁, NewDir n L d k.vm k₁.vm ∧ (∃ j, Taken n j k₁.vm) ∧ k.Keeps t k₁ ∧
      execLoad disk argsAt t (k.task t).tss.cr3 d name argv k₁ = some (r, k') ∧
      ∀ entry k₂ err v, loadElfFile disk t name d k₁ = some (entry, k₂) →
        memoryAllocForPageDir d (memTaskStackTop - memTaskStackSize) memTaskStackSize
          (pteP ||| pteU ||| pteW) k₂.vm = some (err, v) →
        execSpace L disk name k = some ((), { k₂ with vm := v }) := by
  have hcurrent : taskCurrent k = some (t, k) := taskCurrent_eq h.current
  rw [sysExecve, Prog.bind_of_eq hcurrent] at hrun
  obtain ⟨a, k₁, hname, hrun₁⟩ := Prog.bind_eq_some.mp hrun
  obtain ⟨v₁, hname', rfl⟩ := onVm_eq_some.mp hname
  obtain rfl := getFileName_along _ _ _ _ hname'
  obtain ⟨_, k₂, hcopy, hrun₂⟩ := Prog.bind_eq_some.mp hrun₁
  obtain ⟨hkeeps, hvm⟩ := copyTaskName_keeps hcopy
  have hvm₂ : k₂.vm = k.vm := hvm
  have htss : (k₂.task t).tss = (k.task t).tss := hkeeps.tss
  rw [Prog.gets_bind, htss] at hrun₂
  obtain ⟨d, k₃, hcreate, hrun₃⟩ := Prog.bind_eq_some.mp hrun₂
  obtain ⟨v₃, hcreate', rfl⟩ := onVm_eq_some.mp hcreate
  rw [hvm₂] at hcreate'
  by_cases hd : d = 0
  · rw [if_pos hd] at hrun₃
    rw [execFailed_result hrun₃] at hr
    exact absurd (by norm_num) hr
  · rw [if_neg hd] at hrun₃
    have hdir := memoryCreateUvm_newDir h.managed h.usable h.kernelDir hcreate' hd
    refine ⟨d, { k₂ with vm := v₃ }, hdir, memoryCreateUvm_taken h.managed h.start hcreate' hd,
      ⟨hkeeps.currTask, htss⟩, hrun₃, fun entry k₄ err v hload hcall => ?_⟩
    have hstack : onVm (memoryAllocForPageDir d (memTaskStackTop - memTaskStackSize) memTaskStackSize
        (pteP ||| pteU ||| pteW)) k₄ = some (err, { k₄ with vm := v }) :=
      onVm_eq_some.mpr ⟨v, hcall, rfl⟩
    rw [execSpace, Prog.bind_of_eq hcurrent, Prog.bind_of_eq hname, Prog.bind_of_eq hcopy,
      Prog.bind_of_eq hcreate, Prog.bind_of_eq hload, Prog.bind_of_eq hstack]
    rfl

theorem sysExecve_returns {name : ℕ} (h : ExecInput L argsAt argv n t stack argc src lens k)
    (hfit : ExecFits L disk name stack argc lens k)
    (hrun : sysExecve L disk argsAt name argv k = some (r, k')) (hr : ¬ r < 0) :
    ∃ d v left, NewDir n L d k.vm v ∧ BufferOwn L k.vm stack left ∧ left ⊆ v.alloc.clearPages ∧
      ∃ g, Returns n d (openedVm disk v) (diskFile disk) t stack g k' ∧ left ⊆ g.alloc.clearPages := by
  obtain ⟨d, k₁, hdir, ⟨j, htaken⟩, hkeeps, hexec, hspace⟩ := sysExecve_steps h hrun hr
  obtain ⟨entry, k₂, err, v, hload, hentry, hcall, herr, hstart⟩ := execLoad_steps hexec hr
  have hb : BufferOwn L k.vm stack v.alloc.clearPages :=
    hfit.buffer { k₂ with vm := v } (hspace entry k₂ err v hload hcall)
  obtain ⟨hready, hagree, hkeeps₂, hleft⟩ :=
    loadElfFile_ready hdir hb hfit.file htaken hload hentry hcall herr (Finset.Subset.refl _)
  have hall := hkeeps.trans hkeeps₂
  have hcur : k₂.sched.currTask = some t := hall.currTask.trans h.current
  have hesp : (k₂.task t).tss.esp0 = stack + memPageSize := (congrArg Tss.esp0 hall.tss).trans h.esp0
  obtain ⟨g, hg, halloc⟩ : ∃ g, Returns n d (openedVm disk k₁.vm) (diskFile disk) t stack g k' ∧
      g.alloc = v.alloc :=
    execStart_returns (k := { k₂ with vm := v }) hready hfit.file (hdir.stackPage hb hleft h.ownStack)
      hdir.argsApart h.caller hagree hfit.args h.args_ge h.args_le hcur hesp hstart hr
  have hfree : v.alloc.clearPages ⊆ g.alloc.clearPages := by rw [halloc]
  exact ⟨d, k₁.vm, v.alloc.clearPages, hdir, hb, hleft, g, hg, hfree⟩

/-! ## From the call gate to `main` -/

/-- When `main` is entered, the segments are as the loader left them. -/
theorem enterMain_ready {name ret sp : ℕ}
    (h : ExecInput L argsAt argv n t stack argc src lens k)
    (hfit : ExecFits L disk name stack argc lens k)
    (hrun : enterMain L disk argsAt name argv ret k = some (some sp, k')) :
    ∃ d v left, NewDir n L d k.vm v ∧ BufferOwn L k.vm stack left ∧ k'.vm.cr3 = d ∧
      ∃ g, Ready n d (openedVm disk v) (diskFile disk) g ∧ k'.vm.mem = g.mem ∧
        left ⊆ g.alloc.clearPages := by
  have hcurrent : taskCurrent k = some (t, k) := taskCurrent_eq h.current
  have hpage := h.ownStack.page
  rw [enterMain, Prog.bind_of_eq hcurrent] at hrun
  obtain ⟨r, k₁, hexec, hrun₁⟩ := Prog.bind_eq_some.mp hrun
  rw [Prog.gets_bind] at hrun₁
  by_cases hr : r < 0
  · obtain ⟨_, k₂, -, hrun₂⟩ := Prog.bind_eq_some.mp hrun₁
    rw [if_pos hr] at hrun₂
    cases (Prog.pure_eq_some.mp hrun₂).1
  · obtain ⟨d, v, left, hdir, hb, hleft, g, hg, hfree⟩ := sysExecve_returns h hfit hexec hr
    have hstack : StackPage d (openedVm disk v) stack := hdir.stackPage hb hleft h.ownStack
    obtain ⟨m, hstore, hword, hout⟩ := storeFrame_result hpage hg.esp (toU32 r)
    rw [hg.esp0, Prog.bind_of_eq hstore, if_neg hr, Prog.bind_of_eq hword, callGate_esp,
      crt0Start] at hrun₁
    obtain ⟨top, k₃, hstart, hret⟩ := Prog.bind_eq_some.mp hrun₁
    obtain ⟨-, rfl⟩ := Prog.pure_eq_some.mp hret
    obtain ⟨v₄, hstart', rfl⟩ := onVm_eq_some.mp hstart
    rw [hg.mem] at hout
    have hready : Ready n d (openedVm disk v) (diskFile disk) { g with mem := m } :=
      hg.ready.written hfit.file fun img hp => ⟨img, .of_stack hp hstack hout⟩
    have hcr : entryPaddr k₁.vm.cr3 = d := by
      rw [hg.cr3]
      exact entryPaddr_add (x := 0) hdir.growable.directory.dirPage.aligned (by decide)
    obtain ⟨g', hg', hmem', hcr', halloc⟩ :=
      cstart_ready (v := { k₁.vm with mem := m }) hready hfit.file rfl hcr hstart'
    exact ⟨d, v, left, hdir, hb, hcr'.trans hg.cr3, g', hg', hmem', halloc ▸ hfree⟩

end Kernel

end X86Os
