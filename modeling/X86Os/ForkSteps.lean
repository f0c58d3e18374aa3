import X86Os.CopySteps
import X86Os.FirstPages
import X86Os.TaskInit

/-!
# `sys_fork` in steps

A call of `sys_fork` takes the mutexes of the task table, of the descriptor table and of the allocator,
and disables the interrupts to insert the child. Between two of these sections the timer may switch to
another task. A step does what comes before a section and the section itself; writing the name of the
slot and copying the registers, which are not protected, are steps of their own.
-/

namespace X86Os

namespace Kernel

/-- Where a call of `sys_fork` stands. The slot of the child comes first; `esp0` is the end of the frame
of the system call. -/
inductive ForkPc
  | search
  | found (t : TaskId)
  | desc (t : TaskId) (esp0 eip esp sel : ℕ)
  | stack (t : TaskId) (esp0 eip esp sel kernelStack : ℕ)
  | dir (t : TaskId) (esp0 pageDir : ℕ)
  | named (t : TaskId) (esp0 : ℕ)
  | inserted (t : TaskId) (esp0 : ℕ)
  | copying (t : TaskId) (c : CopyPc)
  | copied (t : TaskId) (pageDir : ℕ)
  | undo (t : TaskId) (sel kernelStack : ℕ)
  | undoStack (t : TaskId) (kernelStack : ℕ)
  | failed (t : TaskId)
  | uninitSel (t : TaskId)
  | uninitStack (t : TaskId)
  | clear (t : TaskId)
deriving DecidableEq, Repr

namespace ForkPc

/-- The name of a task as `kernel_strncpy` reads it. -/
def nameBytes (name : TaskName) : Prog Kernel (List (BitVec 8)) :=
  strncpyBytes (fun i => pure (if h : i < taskNameSize then name ⟨i, h⟩ else 0)) taskNameSize 0

/-- The fields that `task_init` sets besides the TSS. -/
def setFields (L : Layout) (t : TaskId) (bytes : List (BitVec 8)) : Prog Kernel Unit :=
  setTask t fun task =>
    { task with
      name := task.name.set bytes
      pid := i32 (taskAddr L t)
      parent := none
      heapStart := 0
      heapEnd := 0 }

def setCr3 (t : TaskId) (pageDir : ℕ) : Prog Kernel Unit :=
  setTask t fun task => task.withTss (task.tss.withCr3 pageDir)

/-- The part of `tss_init` between its last two allocations. -/
def setTss (t : TaskId) (entry esp : ℕ) (name : TaskName) (sel kernelStack : ℕ) :
    Prog Kernel Unit := do
  let appCode ← Prog.gets appCodeSel
  let appData ← Prog.gets appDataSel
  let codeSel := if isIdleTaskName name then kernelSelectorCs else appCode ||| segRpl3
  let dataSel := if isIdleTaskName name then kernelSelectorDs else appData ||| segRpl3
  setTask t fun task =>
    { task with tss := initialTss entry esp kernelStack codeSel dataSel, tssSel := sel % 2 ^ 16 }

variable (L : Layout) (residue : ℕ) (parent : TaskId)

def parentName : Prog Kernel TaskName := Prog.gets fun s => (s.task parent).name

def step : Cut Kernel ForkPc ℤ
  | .search => do
    match ← allocTask with
    | none => pure (.inr (-1))
    | some t => pure (.inl (.found t))
  | .found t => do
    let esp0 ← Prog.gets fun s => (s.task parent).tss.esp0
    let eip ← frameWord esp0 13
    let esp ← frameWord esp0 20
    let tssSel ← gdtAllocDesc
    if tssSel ≤ 0 then pure (.inl (.failed t))
    else pure (.inl (.desc t esp0 eip (u32 (esp + 4 * syscallParamCount)) tssSel.toNat))
  | .desc t esp0 eip esp sel => do
    segmentDescSet sel (taskAddr L t + tssOffset) tssSize (segPPresent ||| segDpl0 ||| segTypeTss)
    setTask t fun task => task.withTss .zero
    let kernelStack ← onVm memoryAllocPage
    if kernelStack = 0 then pure (.inl (.undo t sel kernelStack))
    else pure (.inl (.stack t esp0 eip esp sel kernelStack))
  | .stack t esp0 eip esp sel kernelStack => do
    let name ← parentName parent
    setTss t eip esp name sel kernelStack
    let pageDir ← onVm (memoryCreateUvm L)
    if pageDir = 0 then pure (.inl (.undo t sel kernelStack))
    else pure (.inl (.dir t esp0 pageDir))
  | .dir t esp0 pageDir => do
    setCr3 t pageDir
    let name ← parentName parent
    let bytes ← nameBytes name
    setFields L t bytes
    pure (.inl (.named t esp0))
  | .named t esp0 => do
    setSched (X86Os.taskInit t)
    pure (.inl (.inserted t esp0))
  | .inserted t esp0 => do
    forkRegisters t esp0
    setTask t fun task => { task with parent := some parent }
    let parentDir ← Prog.gets fun s => (s.task parent).tss.cr3
    pure (.inl (.copying t (.create parentDir)))
  | .copying t c => do
    match ← onVm (c.step L residue) with
    | .inl next => pure (.inl (.copying t next))
    | .inr pageDir => pure (.inl (.copied t pageDir))
  | .copied t pageDir => do
    setCr3 t pageDir
    taskStart t
    let pid ← Prog.gets fun s => (s.task t).pid
    pure (.inr pid)
  | .undo t sel kernelStack => do
    gdtFreeSel sel
    pure (.inl (.undoStack t kernelStack))
  | .undoStack t kernelStack => do
    freeStack kernelStack
    pure (.inl (.failed t))
  | .failed t => do
    freeTask t
    pure (.inl (.uninitSel t))
  | .uninitSel t => do
    let tssSel ← Prog.gets fun s => (s.task t).tssSel
    freeSel tssSel
    pure (.inl (.uninitStack t))
  | .uninitStack t => do
    let esp0 ← Prog.gets fun s => (s.task t).tss.esp0
    freeEsp0 esp0
    pure (.inl (.clear t))
  | .clear t => do
    setTask t fun _ => .zero
    setSched (Sched.clearTask t)
    pure (.inr (-1))

/-! ## What is left -/

/-- `tss_init` with its descriptor. -/
def restTss (t : TaskId) (eip esp : ℕ) (name : TaskName) (sel : ℕ) : Prog Kernel ℤ := do
  segmentDescSet sel (taskAddr L t + tssOffset) tssSize (segPPresent ||| segDpl0 ||| segTypeTss)
  setTask t fun task => task.withTss .zero
  let kernelStack ← onVm memoryAllocPage
  if kernelStack = 0 then tssInitFailed sel kernelStack
  else tssInitStack L t eip esp name sel kernelStack

/-- `task_init` after `tss_init`. -/
def restInit (t : TaskId) (name : TaskName) (err : ℤ) : Prog Kernel ℤ :=
  if err < 0 then pure err
  else do
    let bytes ← nameBytes name
    setFields L t bytes
    setSched (X86Os.taskInit t)
    pure 0

/-- `sys_fork` after `task_init`. -/
def restFork (t : TaskId) (esp0 : ℕ) (err : ℤ) : Prog Kernel ℤ :=
  if err < 0 then forkFailed (some t) else forkChild L residue parent t esp0

def restStart (t : TaskId) (pageDir : ℕ) : Prog Kernel ℤ := do
  setCr3 t pageDir
  taskStart t
  Prog.gets fun s => (s.task t).pid

def restClear (t : TaskId) : Prog Kernel ℤ := do
  setTask t fun _ => .zero
  setSched (Sched.clearTask t)
  pure (-1)

def rest : ForkPc → Prog Kernel ℤ
  | .search => do
    match ← allocTask with
    | none => forkFailed none
    | some t => forkSlot L residue parent t
  | .found t => forkSlot L residue parent t
  | .desc t esp0 eip esp sel => do
    let name ← parentName parent
    let err ← restTss L t eip esp name sel
    let err ← restInit L t name err
    restFork L residue parent t esp0 err
  | .stack t esp0 eip esp sel kernelStack => do
    let name ← parentName parent
    let err ← tssInitStack L t eip esp name sel kernelStack
    let err ← restInit L t name err
    restFork L residue parent t esp0 err
  | .dir t esp0 pageDir => do
    setCr3 t pageDir
    let name ← parentName parent
    let err ← restInit L t name 0
    restFork L residue parent t esp0 err
  | .named t esp0 => do
    setSched (X86Os.taskInit t)
    forkChild L residue parent t esp0
  | .inserted t esp0 => forkChild L residue parent t esp0
  | .copying t c => do
    let pageDir ← onVm (c.rest L residue)
    restStart t pageDir
  | .copied t pageDir => restStart t pageDir
  | .undo t sel kernelStack => do
    let _ ← tssInitFailed sel kernelStack
    forkFailed (some t)
  | .undoStack t kernelStack => do
    freeStack kernelStack
    forkFailed (some t)
  | .failed t => forkFailed (some t)
  | .uninitSel t => do
    taskUninit t
    pure (-1)
  | .uninitStack t => do
    let esp0 ← Prog.gets fun s => (s.task t).tss.esp0
    freeEsp0 esp0
    restClear t
  | .clear t => restClear t

variable {L residue parent} {A : Type}

theorem onVm_bind {B : Type} (f : Prog Vm A) (g : A → Prog Vm B) :
    onVm (f >>= g) = onVm f >>= fun a => onVm (g a) := by
  apply Prog.zoom_bind
  · intro r s
    rfl
  · intro r r' s
    rfl

theorem onVm_pure (a : A) : onVm (pure a : Prog Vm A) = pure a := by
  apply Prog.zoom_pure
  intro s
  rfl

/-- The name of the parent does not change while its child is set up. -/
theorem late_name {B : Type} {f : Prog Kernel A} (hf : Prog.Along (SameTask Task.name parent) f)
    (k : A → TaskName → Prog Kernel B) :
    (parentName parent >>= fun name => f >>= fun a => k a name) =
      f >>= fun a => parentName parent >>= k a :=
  (Prog.gets_late hf k).symm

theorem sameName_gets {B : Type} (f : Kernel → B) :
    Prog.Along (SameTask Task.name parent) (Prog.gets f) := Prog.along_gets f

theorem sameName_segmentDescSet (sel base limit attr : ℕ) :
    Prog.Along (SameTask Task.name parent) (segmentDescSet sel base limit attr) :=
  Prog.along_modify fun _ => rfl

theorem sameName_clearTss (t : TaskId) :
    Prog.Along (SameTask Task.name parent) (setTask t fun task => task.withTss .zero) :=
  sameTask_setTask fun _ => rfl

theorem sameName_setCr3 (t : TaskId) (pageDir : ℕ) :
    Prog.Along (SameTask Task.name parent) (setCr3 t pageDir) := sameTask_setTask fun _ => rfl

theorem sameName_gdt : Prog.Along (SameTask Task.name parent) gdtAllocDesc := by
  intro s sel s' h
  obtain ⟨-, rfl⟩ := Prod.mk.inj (Option.some.inj h)
  rfl

theorem sameName_frameWord (esp0 k : ℕ) :
    Prog.Along (SameTask Task.name parent) (frameWord esp0 k) := sameTask_onVm

theorem splits_found (t : TaskId) :
    rest L residue parent (.found t) =
      step L residue parent (.found t) >>= Sum.elim (rest L residue parent) pure := by
  have hslot : rest L residue parent (.found t) = parentName parent >>= fun name => 
      (Prog.gets fun s => (s.task parent).tss.esp0) >>= fun esp0 =>
      frameWord esp0 13 >>= fun eip => frameWord esp0 20 >>= fun esp => gdtAllocDesc >>= fun sel =>
        if sel ≤ 0 then forkFailed (some t) else
          restTss L t eip (u32 (esp + 4 * syscallParamCount)) name sel.toNat >>= fun err =>
          restInit L t name err >>= restFork L residue parent t esp0 := by
    funext s
    rw [rest, forkSlot, parentName, Prog.gets_bind, Prog.gets_bind, Prog.gets_bind]
    simp only [taskInit, tssInit, bind_assoc]
    refine congrFun (congrArg (frameWord _ 13 >>= ·) (funext fun eip => ?_)) s
    refine congrArg (frameWord _ 20 >>= ·) (funext fun esp => ?_)
    refine congrArg (gdtAllocDesc >>= ·) (funext fun sel => ?_)
    split_ifs
    · rfl
    · rfl
  rw [hslot, late_name (sameName_gets _)]
  simp only [step, bind_assoc]
  refine congrArg ((Prog.gets fun s : Kernel => (s.task parent).tss.esp0) >>= ·) (funext fun esp0 => ?_)
  rw [late_name (sameName_frameWord _ _)]
  refine congrArg (frameWord esp0 13 >>= ·) (funext fun eip => ?_)
  rw [late_name (sameName_frameWord _ _)]
  refine congrArg (frameWord esp0 20 >>= ·) (funext fun esp => ?_)
  rw [late_name sameName_gdt]
  refine congrArg (gdtAllocDesc >>= ·) (funext fun sel => ?_)
  split_ifs
  · rfl
  · rfl

/-- What `task_init` leaves of the call when `tss_init` fails. -/
theorem restInit_failed (t : TaskId) (esp0 : ℕ) (name : TaskName) :
    (restInit L t name (-1) >>= restFork L residue parent t esp0) = forkFailed (some t) := by
  rw [restInit, if_pos (by norm_num), pure_bind, restFork, if_pos (by norm_num)]

theorem tssInitFailed_tail (t : TaskId) (esp0 : ℕ) (name : TaskName) (sel kernelStack : ℕ) :
    (tssInitFailed sel kernelStack >>= fun err => restInit L t name err >>= 
      restFork L residue parent t esp0) =
      tssInitFailed sel kernelStack >>= fun _ => forkFailed (some t) := by
  simp only [tssInitFailed, bind_assoc, pure_bind, restInit_failed]

theorem splits_desc (t : TaskId) (esp0 eip esp sel : ℕ) :
    rest L residue parent (.desc t esp0 eip esp sel) =
      step L residue parent (.desc t esp0 eip esp sel) >>= Sum.elim (rest L residue parent) pure := by
  simp only [rest, step, restTss, bind_assoc]
  rw [late_name (sameName_segmentDescSet _ _ _ _)]
  refine congrArg (segmentDescSet _ _ _ _ >>= ·) (funext fun _ => ?_)
  rw [late_name (sameName_clearTss t)]
  refine congrArg (setTask _ _ >>= ·) (funext fun _ => ?_)
  rw [late_name sameTask_onVm]
  refine congrArg (onVm _ >>= ·) (funext fun kernelStack => ?_)
  split_ifs
  · simp only [pure_bind, Sum.elim_inl, rest]
    exact congrArg (parentName parent >>= ·) (funext fun name => tssInitFailed_tail t esp0 name _ _)
  · simp only [pure_bind, Sum.elim_inl, rest]

theorem sameName_setTss (t : TaskId) (entry esp : ℕ) (name : TaskName) (sel kernelStack : ℕ) :
    Prog.Along (SameTask Task.name parent) (setTss t entry esp name sel kernelStack) :=
  (sameName_gets _).bind fun _ => (sameName_gets _).bind fun _ => sameTask_setTask fun _ => rfl

theorem splits_stack (t : TaskId) (esp0 eip esp sel kernelStack : ℕ) :
    rest L residue parent (.stack t esp0 eip esp sel kernelStack) =
      step L residue parent (.stack t esp0 eip esp sel kernelStack) >>=
        Sum.elim (rest L residue parent) pure := by
  have hstep : ∀ (name : TaskName) (s : Kernel), (s.task parent).name = name →
      (tssInitStack L t eip esp name sel kernelStack >>= fun err => restInit L t name err >>=
        restFork L residue parent t esp0) s =
      ((setTss t eip esp name sel kernelStack >>= fun _ => onVm (memoryCreateUvm L)) >>= fun pageDir =>
        parentName parent >>= fun name => if pageDir = 0 then 
          tssInitFailed sel kernelStack >>= fun _ => forkFailed (some t) else
          setCr3 t pageDir >>= fun _ => restInit L t name 0 >>= restFork L residue parent t esp0) s := by
    rintro name s rfl
    rw [← late_name ((sameName_setTss _ _ _ _ _ _).bind fun _ => sameTask_onVm), parentName,
      Prog.gets_bind]
    simp only [tssInitStack, setTss, bind_assoc]
    refine congrFun (congrArg (Prog.gets appCodeSel >>= ·) (funext fun appCode => ?_)) s
    refine congrArg (Prog.gets appDataSel >>= ·) (funext fun appData => ?_)
    refine congrArg (setTask _ _ >>= ·) (funext fun _ => ?_)
    refine congrArg (onVm _ >>= ·) (funext fun pageDir => ?_)
    split_ifs
    · exact tssInitFailed_tail t esp0 _ _ _
    · simp only [bind_assoc, pure_bind]
      rfl
  funext s
  simp only [rest, step, bind_assoc]
  rw [parentName, Prog.gets_bind, Prog.gets_bind, hstep _ s rfl, bind_assoc]
  refine congrFun (congrArg (setTss _ _ _ _ _ _ >>= ·) (funext fun _ => ?_)) s
  refine congrArg (onVm _ >>= ·) (funext fun pageDir => ?_)
  split_ifs
  · simp only [pure_bind, Sum.elim_inl, rest]
    rfl
  · simp only [pure_bind, Sum.elim_inl, rest]
    exact late_name (sameName_setCr3 _ _) _

theorem splits_uninitSel (t : TaskId) :
    rest L residue parent (.uninitSel t) =
      step L residue parent (.uninitSel t) >>= Sum.elim (rest L residue parent) pure := by
  have hkeep : ∀ sel, Prog.Along (SameTask (fun task => task.tss.esp0) t) (freeSel sel) := by
    intro sel s u s' h
    rw [SameTask, (freeSel_keeps h).2.1]
  funext s
  simp only [rest, step, taskUninit, bind_assoc, pure_bind, Sum.elim_inl]
  rw [Prog.gets_bind, Prog.gets_bind, Prog.gets_late (hkeep _), Prog.gets_bind]
  rfl

theorem splits (L : Layout) (residue : ℕ) (parent : TaskId) :
    Cut.Splits (step L residue parent) (rest L residue parent) := by
  intro p
  cases p with
  | search =>
      simp only [rest, step, bind_assoc]
      refine congrArg (allocTask >>= ·) (funext fun child => ?_)
      cases child with
      | none => simp only [pure_bind, Sum.elim_inr, forkFailed]
      | some t => simp only [pure_bind, Sum.elim_inl, rest]
  | found t => exact splits_found t
  | desc t esp0 eip esp sel => exact splits_desc t esp0 eip esp sel
  | stack t esp0 eip esp sel kernelStack => exact splits_stack t esp0 eip esp sel kernelStack
  | dir t esp0 pageDir =>
      simp only [rest, step, bind_assoc, restInit, restFork]
      refine congrArg (setCr3 t pageDir >>= ·) (funext fun _ => ?_)
      refine congrArg (parentName parent >>= ·) (funext fun name => ?_)
      rw [if_neg (lt_irrefl 0)]
      simp only [bind_assoc, pure_bind, Sum.elim_inl, rest]
      rw [if_neg (lt_irrefl 0)]
  | named t esp0 => simp only [rest, step, bind_assoc, pure_bind, Sum.elim_inl]
  | inserted t esp0 =>
      simp only [rest, step, forkChild, bind_assoc, pure_bind, Sum.elim_inl, CopyPc.rest]
      rfl
  | copying t c =>
      simp only [rest, step]
      rw [CopyPc.splits L residue c, onVm_bind, bind_assoc, bind_assoc]
      refine congrArg (onVm _ >>= ·) (funext fun next => ?_)
      cases next with
      | inl next => simp only [pure_bind, Sum.elim_inl, rest]
      | inr pageDir => simp only [pure_bind, Sum.elim_inl, Sum.elim_inr, onVm_pure, rest]
  | copied t pageDir => 
      simp only [rest, step, restStart, bind_assoc, pure_bind, Sum.elim_inr, bind_pure]
  | undo t sel kernelStack =>
      simp only [rest, step, tssInitFailed, bind_assoc, pure_bind, Sum.elim_inl]
  | undoStack t kernelStack => simp only [rest, step, bind_assoc, pure_bind, Sum.elim_inl]
  | failed t => simp only [rest, step, forkFailed, bind_assoc, pure_bind, Sum.elim_inl]
  | uninitSel t => exact splits_uninitSel t
  | uninitStack t => simp only [rest, step, bind_assoc, pure_bind, Sum.elim_inl]
  | clear t => simp only [rest, step, restClear, bind_assoc, pure_bind, Sum.elim_inr]

/-! ## What a step does -/

variable {t : TaskId} {esp0 eip esp sel kernelStack pageDir : ℕ} {r : ForkPc ⊕ ℤ} {s s' : Kernel}

/-- The task `t` has become `task`. -/
def putTask (s : Kernel) (t : TaskId) (task : Task) : Kernel :=
  { s with task := Function.update s.task t task }

theorem putTask_self (s : Kernel) (t : TaskId) (task : Task) : (putTask s t task).task t = task :=
  Function.update_self _ _ _

theorem putTask_of_ne {u : TaskId} (h : u ≠ t) (s : Kernel) (task : Task) :
    (putTask s t task).task u = s.task u := Function.update_of_ne h _ _

theorem putTask_putTask (s : Kernel) (t : TaskId) (task task' : Task) :
    putTask (putTask s t task) t task' = putTask s t task' := by
  rw [putTask, putTask, putTask, Function.update_idem]

theorem setTask_putTask {f : Task → Task} {u : Unit} (h : setTask t f s = some (u, s')) :
    s' = putTask s t (f (s.task t)) := setTask_eq_some.mp h

theorem step_search (h : step L residue parent .search s = some (r, s')) : s' = s ∧
    ((s.freeSlot = none ∧ r = .inr (-1)) ∨
      ∃ i, s.freeSlot = some i ∧ r = .inl (.found (.slot i))) := by
  obtain ⟨child, s₁, hchild, h⟩ := Prog.bind_eq_some.mp h
  obtain ⟨rfl, rfl⟩ := Prog.gets_eq_some.mp hchild
  cases hslot : s₁.freeSlot with
  | none =>
      rw [hslot] at h
      obtain ⟨rfl, rfl⟩ := Prog.pure_eq_some.mp h
      exact ⟨rfl, .inl ⟨rfl, rfl⟩⟩
  | some i =>
      rw [hslot] at h
      obtain ⟨rfl, rfl⟩ := Prog.pure_eq_some.mp h
      exact ⟨rfl, .inr ⟨i, rfl, rfl⟩⟩

theorem step_found (h : step L residue parent (.found t) s = some (r, s')) :
    (gdtFree s.gdt = none ∧ r = .inl (.failed t) ∧ s' = s) ∨
      ∃ esp0 eip esp i, gdtFree s.gdt = some i ∧ r = .inl (.desc t esp0 eip esp (8 * i)) ∧
        s' = { s with gdt := Function.update s.gdt i { s.gdt i with attr := segPPresent } } := by
  rw [step, Prog.gets_bind] at h
  obtain ⟨eip, s₁, heip, h⟩ := Prog.bind_eq_some.mp h
  rw [frameWord_keeps heip] at h
  obtain ⟨esp, s₂, hesp, h⟩ := Prog.bind_eq_some.mp h
  rw [frameWord_keeps hesp] at h
  obtain ⟨sel, s₃, hsel, h⟩ := Prog.bind_eq_some.mp h
  cases hfree : gdtFree s.gdt with
  | none =>
      obtain ⟨rfl, rfl⟩ := Prog.result_unique hsel (gdtAllocDesc_none hfree)
      rw [if_pos (by norm_num)] at h
      obtain ⟨rfl, rfl⟩ := Prog.pure_eq_some.mp h
      exact .inl ⟨rfl, rfl, rfl⟩
  | some i =>
      obtain ⟨rfl, rfl⟩ := Prog.result_unique hsel (gdtAllocDesc_some hfree)
      have hpos := (gdtFree_eq_some hfree).1
      rw [if_neg (by omega), Int.toNat_natCast] at h
      obtain ⟨rfl, rfl⟩ := Prog.pure_eq_some.mp h
      exact .inr ⟨_, _, _, i, rfl, rfl, rfl⟩

theorem step_desc (h : step L residue parent (.desc t esp0 eip esp sel) s = some (r, s')) :
    s' = putTask { s with
        gdt := X86Os.segmentDescSet s.gdt sel (taskAddr L t + tssOffset) tssSize
          (segPPresent ||| segDpl0 ||| segTypeTss)
        vm := { s.vm with alloc := (addrAllocPage s.vm.alloc 1).2 } } t ((s.task t).withTss .zero) ∧
      (((addrAllocPage s.vm.alloc 1).1 = 0 ∧ r = .inl (.undo t sel 0)) ∨
        ((addrAllocPage s.vm.alloc 1).1 ≠ 0 ∧
          r = .inl (.stack t esp0 eip esp sel (addrAllocPage s.vm.alloc 1).1))) := by
  obtain ⟨_, s₁, hdesc, h⟩ := Prog.bind_eq_some.mp h
  obtain rfl := Prog.modify_eq_some.mp hdesc
  obtain ⟨_, s₂, htask, h⟩ := Prog.bind_eq_some.mp h
  obtain rfl := setTask_putTask htask
  obtain ⟨page, s₃, hpage, h⟩ := Prog.bind_eq_some.mp h
  obtain ⟨v, hv, rfl⟩ := onVm_eq_some.mp hpage
  obtain ⟨rfl, rfl⟩ := Prod.mk.inj (Option.some.inj hv)
  split_ifs at h with h0
  · obtain ⟨rfl, rfl⟩ := Prog.pure_eq_some.mp h
    exact ⟨rfl, .inl ⟨h0, by rw [h0]⟩⟩
  · obtain ⟨rfl, rfl⟩ := Prog.pure_eq_some.mp h
    exact ⟨rfl, .inr ⟨h0, rfl⟩⟩

theorem setTss_spec {name : TaskName} {entry : ℕ} {u : Unit}
    (h : setTss t entry esp name sel kernelStack s = some (u, s')) :
    ∃ tss, tss.esp0 = u32 (kernelStack + memPageSize) ∧
      s' = putTask s t { s.task t with tss := tss, tssSel := sel % 2 ^ 16 } := by
  rw [setTss, Prog.gets_bind, Prog.gets_bind] at h
  exact ⟨_, by rw [initialTss], setTask_putTask h⟩

theorem step_stack
    (h : step L residue parent (.stack t esp0 eip esp sel kernelStack) s = some (r, s')) :
    ∃ tss dir v, tss.esp0 = u32 (kernelStack + memPageSize) ∧
      memoryCreateUvm L s.vm = some (dir, v) ∧
      s' = putTask { s with vm := v } t { s.task t with tss := tss, tssSel := sel % 2 ^ 16 } ∧
      ((dir = 0 ∧ r = .inl (.undo t sel kernelStack)) ∨ (dir ≠ 0 ∧ r = .inl (.dir t esp0 dir))) := by
  rw [step, parentName, Prog.gets_bind] at h
  obtain ⟨_, s₁, htss, h⟩ := Prog.bind_eq_some.mp h
  obtain ⟨tss, hesp0, rfl⟩ := setTss_spec htss
  obtain ⟨dir, s₂, hdir, h⟩ := Prog.bind_eq_some.mp h
  obtain ⟨v, hv, rfl⟩ := onVm_eq_some.mp hdir
  split_ifs at h with h0
  · obtain ⟨rfl, rfl⟩ := Prog.pure_eq_some.mp h
    exact ⟨tss, dir, v, hesp0, hv, rfl, .inl ⟨h0, rfl⟩⟩
  · obtain ⟨rfl, rfl⟩ := Prog.pure_eq_some.mp h
    exact ⟨tss, dir, v, hesp0, hv, rfl, .inr ⟨h0, rfl⟩⟩

/-- What a step keeps of the task that it changes. -/
structure SameHold (task task' : Task) : Prop where
  tssSel : task'.tssSel = task.tssSel
  esp0 : task'.tss.esp0 = task.tss.esp0

theorem forkRegisters_spec {u : Unit} (h : forkRegisters t esp0 s = some (u, s')) :
    ∃ tss, tss.esp0 = (s.task t).tss.esp0 ∧ s' = putTask s t ((s.task t).withTss tss) := by
  rw [forkRegisters] at h
  iterate 12
    obtain ⟨_, _, hword, h⟩ := Prog.bind_eq_some.mp h
    rw [frameWord_keeps hword] at h
  exact ⟨_, by rfl, setTask_putTask h⟩

theorem strncpyBytes_cons {S : Type} {src : ℕ → Prog S (BitVec 8)} {c : BitVec 8} {size i : ℕ}
    {bytes : List (BitVec 8)} {u u' : S} (hc : src i u = some (c, u)) (h0 : c ≠ 0)
    (h : strncpyBytes src (size + 1) i u = some (bytes, u')) : ∃ bs, bytes = c :: bs := by
  rw [strncpyBytes, Prog.bind_of_eq hc, if_neg h0] at h
  obtain ⟨bs, u₁, -, h⟩ := Prog.bind_eq_some.mp h
  exact ⟨bs, (Prog.pure_eq_some.mp h).1⟩

/-- The copy of a name begins as the name does. -/
theorem nameBytes_spec {name : TaskName} {bytes : List (BitVec 8)}
    (h : nameBytes name s = some (bytes, s')) :
    s' = s ∧ (name 0 ≠ 0 → ∃ bs, bytes = name 0 :: bs) := by
  obtain ⟨bytes', hbytes⟩ := strncpyBytes_pure
    (fun i => if h : i < taskNameSize then name ⟨i, h⟩ else 0) taskNameSize 0 s
  obtain ⟨rfl, rfl⟩ := Prog.result_unique h hbytes
  exact ⟨rfl, fun h0 => strncpyBytes_cons rfl h0 h⟩

/-- A name set to a nonempty one is not empty. -/
theorem set_ne_zero {name : TaskName} {b : BitVec 8} (hb : b ≠ 0) (bs : List (BitVec 8)) :
    name.set (b :: bs) 0 ≠ 0 := by
  have hpos : ((0 : Fin taskNameSize) : ℕ) < (b :: bs).length := Nat.succ_pos _
  rw [TaskName.set]
  by_cases hlen : (b :: bs).length + 1 = taskNameSize
  · have hlast : ((0 : Fin taskNameSize) : ℕ) + 1 ≠ (b :: bs).length := by
      intro h1
      rw [← h1] at hlen
      cases hlen
    rw [if_pos hlen, if_neg hlast, if_pos hpos]
    exact hb
  · rw [if_neg hlen, if_pos hpos]
    exact hb

theorem step_dir (h : step L residue parent (.dir t esp0 pageDir) s = some (r, s')) :
    ∃ task, SameHold (s.task t) task ∧ task.pid = i32 (taskAddr L t) ∧
      ((s.task parent).name 0 ≠ 0 → task.name 0 ≠ 0) ∧
      s' = putTask s t task ∧ r = .inl (.named t esp0) := by
  obtain ⟨_, s₁, hcr3, h⟩ := Prog.bind_eq_some.mp h
  have hname : (s₁.task parent).name = (s.task parent).name := sameName_setCr3 t pageDir s _ s₁ hcr3
  obtain rfl := setTask_putTask hcr3
  rw [parentName, Prog.gets_bind, hname] at h
  obtain ⟨bytes, s₂, hbytes, h⟩ := Prog.bind_eq_some.mp h
  obtain ⟨rfl, hcopy⟩ := nameBytes_spec hbytes
  obtain ⟨_, s₃, hset, h⟩ := Prog.bind_eq_some.mp h
  obtain ⟨rfl, rfl⟩ := Prog.pure_eq_some.mp h
  have hs₃ := setTask_putTask hset
  rw [putTask_self, putTask_putTask] at hs₃
  refine ⟨_, ⟨by rfl, by rfl⟩, by dsimp only, fun h0 => ?_, hs₃, rfl⟩
  obtain ⟨bs, rfl⟩ := hcopy h0
  exact set_ne_zero h0 bs

theorem step_named (h : step L residue parent (.named t esp0) s = some (r, s')) :
    s' = { s with sched := X86Os.taskInit t s.sched } ∧ r = .inl (.inserted t esp0) := by
  obtain ⟨_, s₁, hsched, h⟩ := Prog.bind_eq_some.mp h
  obtain rfl := setSched_eq_some.mp hsched
  obtain ⟨rfl, rfl⟩ := Prog.pure_eq_some.mp h
  exact ⟨rfl, rfl⟩

theorem step_inserted (h : step L residue parent (.inserted t esp0) s = some (r, s')) :
    ∃ task dir, SameHold (s.task t) task ∧ task.pid = (s.task t).pid ∧
      task.name = (s.task t).name ∧ s' = putTask s t task ∧ r = .inl (.copying t (.create dir)) := by
  obtain ⟨_, s₁, hregs, h⟩ := Prog.bind_eq_some.mp h
  obtain ⟨tss, hesp0, rfl⟩ := forkRegisters_spec hregs
  obtain ⟨_, s₂, hparent, h⟩ := Prog.bind_eq_some.mp h
  obtain rfl := setTask_putTask hparent
  rw [Prog.gets_bind] at h
  obtain ⟨rfl, rfl⟩ := Prog.pure_eq_some.mp h
  rw [putTask_self, putTask_putTask]
  exact ⟨_, _, ⟨by rfl, by exact hesp0⟩, by rfl, by rfl, rfl, rfl⟩

theorem step_copying {c : CopyPc} (h : step L residue parent (.copying t c) s = some (r, s')) :
    ∃ next v, c.step L residue s.vm = some (next, v) ∧ s' = { s with vm := v } ∧
      r = .inl (next.elim (.copying t) (.copied t)) := by
  obtain ⟨next, s₁, hstep, h⟩ := Prog.bind_eq_some.mp h
  obtain ⟨v, hv, rfl⟩ := onVm_eq_some.mp hstep
  cases next with
  | inl next =>
      obtain ⟨rfl, rfl⟩ := Prog.pure_eq_some.mp h
      exact ⟨_, v, hv, rfl, rfl⟩
  | inr dir =>
      obtain ⟨rfl, rfl⟩ := Prog.pure_eq_some.mp h
      exact ⟨_, v, hv, rfl, rfl⟩

theorem step_copied (h : step L residue parent (.copied t pageDir) s = some (r, s')) :
    ∃ task, SameHold (s.task t) task ∧ task.pid = (s.task t).pid ∧ task.name = (s.task t).name ∧
      s' = putTask { s with sched := X86Os.taskStart .idle t s.sched } t task ∧
      r = .inr task.pid := by
  obtain ⟨_, s₁, hcr3, h⟩ := Prog.bind_eq_some.mp h
  obtain rfl := setTask_putTask hcr3
  obtain ⟨_, s₂, hstart, h⟩ := Prog.bind_eq_some.mp h
  obtain rfl := setSched_eq_some.mp hstart
  rw [Prog.gets_bind] at h
  obtain ⟨rfl, rfl⟩ := Prog.pure_eq_some.mp h
  refine ⟨(s.task t).withTss ((s.task t).tss.withCr3 pageDir), ⟨rfl, rfl⟩, rfl, rfl, rfl, ?_⟩
  exact congrArg (fun task : Task => Sum.inr task.pid) (Function.update_self t _ s.task)

theorem step_undo (h : step L residue parent (.undo t sel kernelStack) s = some (r, s')) :
    s' = { s with gdt := X86Os.gdtFreeSel s.gdt sel, gdtFrees := s.gdtFrees ++ [sel] } ∧
      r = .inl (.undoStack t kernelStack) := by
  obtain ⟨_, s₁, hfree, h⟩ := Prog.bind_eq_some.mp h
  obtain rfl := gdtFreeSel_eq_some.mp hfree
  obtain ⟨rfl, rfl⟩ := Prog.pure_eq_some.mp h
  exact ⟨rfl, rfl⟩

theorem step_failed (h : step L residue parent (.failed t) s = some (r, s')) :
    s' = putTask s t { s.task t with name := Function.update (s.task t).name 0 0 } ∧
      r = .inl (.uninitSel t) := by
  obtain ⟨_, s₁, hfree, h⟩ := Prog.bind_eq_some.mp h
  obtain rfl := setTask_putTask hfree
  obtain ⟨rfl, rfl⟩ := Prog.pure_eq_some.mp h
  exact ⟨rfl, rfl⟩

theorem step_uninitSel (h : step L residue parent (.uninitSel t) s = some (r, s')) :
    r = .inl (.uninitStack t) ∧ (((s.task t).tssSel = 0 ∧ s' = s) ∨
      ((s.task t).tssSel ≠ 0 ∧ s' = { s with
        gdt := X86Os.gdtFreeSel s.gdt (s.task t).tssSel
        gdtFrees := s.gdtFrees ++ [(s.task t).tssSel] })) := by
  rw [step, Prog.gets_bind] at h
  obtain ⟨_, s₁, hfree, h⟩ := Prog.bind_eq_some.mp h
  obtain ⟨rfl, rfl⟩ := Prog.pure_eq_some.mp h
  rw [freeSel] at hfree
  split_ifs at hfree with h0
  · exact ⟨rfl, .inr ⟨h0, gdtFreeSel_eq_some.mp hfree⟩⟩
  · exact ⟨rfl, .inl ⟨not_not.mp h0, (Prog.pure_eq_some.mp hfree).2⟩⟩

theorem step_clear (h : step L residue parent (.clear t) s = some (r, s')) :
    s' = putTask { s with sched := s.sched.clearTask t } t .zero ∧ r = .inr (-1) := by
  obtain ⟨_, s₁, hset, h⟩ := Prog.bind_eq_some.mp h
  obtain rfl := setTask_putTask hset
  obtain ⟨_, s₂, hclear, h⟩ := Prog.bind_eq_some.mp h
  obtain rfl := setSched_eq_some.mp hclear
  obtain ⟨rfl, rfl⟩ := Prog.pure_eq_some.mp h
  exact ⟨rfl, rfl⟩

/-- The page that `memory_free_page` gives to the allocator. In the user half it only goes on with a
null pointer to the entry. -/
def freedPage (v : Vm) (addr : ℕ) : ℕ :=
  if addr < memoryTaskBase then addr else entryPaddr (v.mem.read32 0)

theorem memoryFreePage_free {addr : ℕ} {u : Unit} (h : memoryFreePage addr s = some (u, s')) :
    ∃ v v₁, freePages (freedPage s.vm addr) 1 s.vm = some ((), v₁) ∧ v.alloc = v₁.alloc ∧
      s' = { s with vm := v } := by
  rw [memoryFreePage, Prog.gets_bind] at h
  obtain ⟨v, hv, rfl⟩ := onVm_eq_some.mp h
  rw [X86Os.memoryFreePage] at hv
  split_ifs at hv with hlow
  · rw [freedPage, if_pos hlow]
    exact ⟨v, v, hv, rfl, rfl⟩
  · obtain ⟨pte, v₁, hpte, hv⟩ := Prog.bind_eq_some.mp hv
    have hsame : s.vm = v₁ := ((load32_along _).bind fun pde =>
      (Prog.along_pure _).ite (Prog.along_pure _)) s.vm pte v₁ hpte
    obtain ⟨_, v₂, hnull, hv⟩ := Prog.bind_eq_some.mp hv
    obtain ⟨hzero, hsame'⟩ := Prog.require_eq_some.mp hnull
    rw [hzero, hsame', ← hsame, Prog.bind_of_eq (load32_of_identity (by decide) (by decide))] at hv
    obtain ⟨_, v₃, hpresent, hv⟩ := Prog.bind_eq_some.mp hv
    rw [(Prog.require_eq_some.mp hpresent).2] at hv
    obtain ⟨_, v₄, hfree, hv⟩ := Prog.bind_eq_some.mp hv
    rw [freedPage, if_neg hlow]
    exact ⟨v, v₄, hfree, (noAlloc_store32 _ _).alloc_eq hv, rfl⟩

theorem step_undoStack (h : step L residue parent (.undoStack t kernelStack) s = some (r, s')) :
    r = .inl (.failed t) ∧ ((kernelStack = 0 ∧ s' = s) ∨ (kernelStack ≠ 0 ∧
      ∃ v v₁, freePages (freedPage s.vm kernelStack) 1 s.vm = some ((), v₁) ∧ v.alloc = v₁.alloc ∧
        s' = { s with vm := v })) := by
  obtain ⟨_, s₁, hfree, h⟩ := Prog.bind_eq_some.mp h
  obtain ⟨rfl, rfl⟩ := Prog.pure_eq_some.mp h
  rw [freeStack] at hfree
  split_ifs at hfree with h0
  · exact ⟨rfl, .inr ⟨h0, memoryFreePage_free hfree⟩⟩
  · exact ⟨rfl, .inl ⟨not_not.mp h0, (Prog.pure_eq_some.mp hfree).2⟩⟩

theorem step_uninitStack (h : step L residue parent (.uninitStack t) s = some (r, s')) :
    r = .inl (.clear t) ∧ (((s.task t).tss.esp0 = 0 ∧ s' = s) ∨ ((s.task t).tss.esp0 ≠ 0 ∧
      ∃ v v₁, freePages (freedPage s.vm (u32Sub (s.task t).tss.esp0 memPageSize)) 1 s.vm =
        some ((), v₁) ∧ v.alloc = v₁.alloc ∧ s' = { s with vm := v })) := by
  rw [step, Prog.gets_bind] at h
  obtain ⟨_, s₁, hfree, h⟩ := Prog.bind_eq_some.mp h
  obtain ⟨rfl, rfl⟩ := Prog.pure_eq_some.mp h
  rw [freeEsp0] at hfree
  split_ifs at hfree with h0
  · exact ⟨rfl, .inr ⟨h0, memoryFreePage_free hfree⟩⟩
  · exact ⟨rfl, .inl ⟨not_not.mp h0, (Prog.pure_eq_some.mp hfree).2⟩⟩

/-! ## One call without interruption -/

/-- A bound for the number of steps that are left. -/
def size : ForkPc → ℕ
  | .search => 10 ^ 8 + 9
  | .found _ => 10 ^ 8 + 8
  | .desc .. => 10 ^ 8 + 7
  | .stack .. => 10 ^ 8 + 6
  | .dir .. => 10 ^ 8 + 5
  | .named .. => 10 ^ 8 + 4
  | .inserted .. => 10 ^ 8 + 3
  | .copying _ c => c.size + 2
  | .copied .. => 1
  | .undo .. => 6
  | .undoStack .. => 5
  | .failed _ => 4
  | .uninitSel _ => 3
  | .uninitStack _ => 2
  | .clear _ => 1

theorem size_lt {pc next : ForkPc} (h : step L residue parent pc s = some (.inl next, s')) :
    next.size < pc.size := by
  cases pc with
  | search =>
      obtain ⟨-, ⟨-, ⟨⟩⟩ | ⟨i, -, ⟨⟩⟩⟩ := step_search h
      simp only [size]
      omega
  | found t =>
      obtain ⟨-, ⟨⟩, -⟩ | ⟨esp0, eip, esp, i, -, ⟨⟩, -⟩ := step_found h
      all_goals
        simp only [size]
        omega
  | desc t esp0 eip esp sel =>
      obtain ⟨-, ⟨-, ⟨⟩⟩ | ⟨-, ⟨⟩⟩⟩ := step_desc h
      all_goals
        simp only [size]
        omega
  | stack t esp0 eip esp sel kernelStack =>
      obtain ⟨tss, dir, v, -, -, -, ⟨-, ⟨⟩⟩ | ⟨-, ⟨⟩⟩⟩ := step_stack h
      all_goals
        simp only [size]
        omega
  | dir t esp0 pageDir =>
      obtain ⟨task, -, -, -, -, ⟨⟩⟩ := step_dir h
      simp only [size]
      omega
  | named t esp0 =>
      obtain ⟨-, ⟨⟩⟩ := step_named h
      simp only [size]
      omega
  | inserted t esp0 =>
      obtain ⟨task, dir, -, -, -, -, ⟨⟩⟩ := step_inserted h
      simp only [size, CopyPc.size]
      omega
  | copying t c =>
      obtain ⟨next, v, hstep, -, ⟨⟩⟩ := step_copying h
      cases next with
      | inl next =>
          have := CopyPc.size_lt hstep
          simp only [Sum.elim_inl, size]
          omega
      | inr dir =>
          simp only [Sum.elim_inr, size]
          omega
  | copied t pageDir => 
      obtain ⟨task, -, -, -, -, ⟨⟩⟩ := step_copied h
  | undo t sel kernelStack =>
      obtain ⟨-, ⟨⟩⟩ := step_undo h
      exact Nat.lt_succ_self _
  | undoStack t kernelStack =>
      obtain ⟨⟨⟩, -⟩ := step_undoStack h
      exact Nat.lt_succ_self _
  | failed t =>
      obtain ⟨-, ⟨⟩⟩ := step_failed h
      exact Nat.lt_succ_self _
  | uninitSel t =>
      obtain ⟨⟨⟩, -⟩ := step_uninitSel h
      exact Nat.lt_succ_self _
  | uninitStack t =>
      obtain ⟨⟨⟩, -⟩ := step_uninitStack h
      exact Nat.lt_succ_self _
  | clear t => 
      obtain ⟨-, ⟨⟩⟩ := step_clear h

/-- Without anything between them, the steps of the current task are `sys_fork`. -/
theorem finishes_iff {c : ℤ} (hcurr : s.sched.currTask = some parent) :
    Cut.Finishes (step L residue parent) .search s c s' ↔ sysFork L residue s = some (c, s') := by
  rw [(splits L residue parent).finishes_iff size fun _ _ _ _ => size_lt, sysFork,
    Prog.bind_of_eq (taskCurrent_eq hcurr)]
  rfl

end ForkPc

end Kernel

end X86Os
