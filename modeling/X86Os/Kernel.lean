import X86Os.Cpu
import X86Os.Paging
import X86Os.Sched

/-!
# Creating tasks

The model of the part of `core/task.c` that creates and removes tasks. What a `task_t` holds for
scheduling is in `Sched`; the rest is the record `Task`. The list `gdtFrees` is not in the source: it
records the calls of `gdt_free_sel`. The mutexes of the task table, the descriptor table and the
allocator are free whenever they are taken, so they are left out.
-/

namespace X86Os

def taskNr : ℕ := 128

abbrev taskNameSize : ℕ := 32

/-- The size of a `task_t`. -/
def taskSize : ℕ := 196

inductive TaskId
  | first
  | idle
  | slot (i : ℕ)
deriving DecidableEq, Repr

def taskAddr (L : Layout) : TaskId → ℕ
  | .first => L.firstTask
  | .idle => L.idleTask
  | .slot i => L.taskTable + taskSize * i

/-! ## Names -/

abbrev TaskName : Type := Fin taskNameSize → BitVec 8

def TaskName.zero : TaskName := fun _ => 0

/-- The bytes that `kernel_strncpy` copies: up to the end of the string and at most `size`. -/
def strncpyBytes {S : Type} (src : ℕ → Prog S (BitVec 8)) : ℕ → ℕ → Prog S (List (BitVec 8))
  | 0, _ => pure []
  | size + 1, i => do
    let c ← src i
    if c = 0 then pure []
    else
      let rest ← strncpyBytes src size (i + 1)
      pure (c :: rest)

/-- A name after `bytes` were copied to it. With one byte less than its size, the last one is
overwritten by the end of the string; with all of them, the end comes after the name. -/
def TaskName.set (name : TaskName) (bytes : List (BitVec 8)) : TaskName := fun i =>
  if bytes.length + 1 = taskNameSize then
    if i + 1 = bytes.length then 0 else if i < bytes.length then bytes.getD i 0 else name i
  else if i < bytes.length then bytes.getD i 0
  else if i = bytes.length then 0
  else name i

/-- Whether the end of the string is written to the byte after the name. -/
def endsPastName (bytes : List (BitVec 8)) : Bool := bytes.length == taskNameSize

/-- `"idletask"` with its end. -/
def idleTaskName : List (BitVec 8) := [0x69, 0x64, 0x6C, 0x65, 0x74, 0x61, 0x73, 0x6B, 0]

/-- `my_strcmp(name, "idletask") == 0`. -/
def isIdleTaskName (name : TaskName) : Bool :=
  (List.finRange 9).all fun i => name ⟨i, by unfold taskNameSize; omega⟩ == idleTaskName.getD i 0

/-! ## Tasks -/

/-- The fields of `tss_t` that the kernel writes. -/
structure Tss where
  esp0 : ℕ
  ss0 : ℕ
  cr3 : ℕ
  eip : ℕ
  eflags : ℕ
  eax : ℕ
  ecx : ℕ
  edx : ℕ
  ebx : ℕ
  esp : ℕ
  ebp : ℕ
  esi : ℕ
  edi : ℕ
  es : ℕ
  cs : ℕ
  ss : ℕ
  ds : ℕ
  fs : ℕ
  gs : ℕ
  iomap : ℕ
deriving DecidableEq, Repr

def Tss.zero : Tss where
  esp0 := 0
  ss0 := 0
  cr3 := 0
  eip := 0
  eflags := 0
  eax := 0
  ecx := 0
  edx := 0
  ebx := 0
  esp := 0
  ebp := 0
  esi := 0
  edi := 0
  es := 0
  cs := 0
  ss := 0
  ds := 0
  fs := 0
  gs := 0
  iomap := 0

structure Task where
  name : TaskName
  tss : Tss
  tssSel : ℕ
  heapStart : ℕ
  heapEnd : ℕ
  pid : ℤ
  parent : Option TaskId

def Tss.withCr3 (tss : Tss) (dir : ℕ) : Tss := { tss with cr3 := dir }

def Task.withTss (task : Task) (tss : Tss) : Task := { task with tss := tss }

def Task.zero : Task where
  name := .zero
  tss := .zero
  tssSel := 0
  heapStart := 0
  heapEnd := 0
  pid := 0
  parent := none

def TaskSched.zero : TaskSched where
  state := .created
  sleepTicks := 0
  timeSlice := 0
  sliceTicks := 0

abbrev KernelSched : Type := Sched TaskId Unit Unit

/-- The scheduling part of `kernel_memset(task, 0, sizeof(task_t))`. -/
def Sched.clearTask (t : TaskId) (s : KernelSched) : KernelSched :=
  (((s.setTask t .zero).initNode ⟨t, .runNode⟩).initNode ⟨t, .allNode⟩).initNode ⟨t, .waitNode⟩

structure Kernel where
  vm : Vm
  tempPos : ℕ
  gdt : Gdt
  gdtFrees : List ℕ
  task : TaskId → Task
  sched : KernelSched
  appCodeSel : ℕ
  appDataSel : ℕ

namespace Kernel

variable {A : Type}

def onVm : Prog Vm A → Prog Kernel A := Prog.zoom Kernel.vm fun v s => { s with vm := v }

def setTask (t : TaskId) (f : Task → Task) : Prog Kernel Unit :=
  Prog.modify fun s => { s with task := Function.update s.task t (f (s.task t)) }

def setSched (f : KernelSched → KernelSched) : Prog Kernel Unit :=
  Prog.modify fun s => { s with sched := f s.sched }

/-- `task_current()`; following a null pointer is not modelled. -/
def taskCurrent : Prog Kernel TaskId := do
  match ← Prog.gets fun s => s.sched.currTask with
  | some t => pure t
  | none => Prog.halt

def gdtAllocDesc : Prog Kernel ℤ := fun s =>
  let r := X86Os.gdtAllocDesc s.gdt
  some (r.1, { s with gdt := r.2 })

def segmentDescSet (selector base limit attr : ℕ) : Prog Kernel Unit :=
  Prog.modify fun s => { s with gdt := X86Os.segmentDescSet s.gdt selector base limit attr }

def gdtFreeSel (sel : ℕ) : Prog Kernel Unit :=
  Prog.modify fun s => { s with gdt := X86Os.gdtFreeSel s.gdt sel, gdtFrees := s.gdtFrees ++ [sel] }

/-- The directory of the current task, null before there is one. -/
def currentPageDir (s : Kernel) : ℕ :=
  match s.sched.currTask with
  | some t => (s.task t).tss.cr3
  | none => 0

def memoryFreePage (addr : ℕ) : Prog Kernel Unit := do
  let dir ← Prog.gets currentPageDir
  onVm (X86Os.memoryFreePage dir addr)

/-! ## Setting up a task -/

/-- `if (kernel_stack) memory_free_page(kernel_stack)`. -/
def freeStack (kernelStack : ℕ) : Prog Kernel Unit :=
  if kernelStack ≠ 0 then memoryFreePage kernelStack else pure ()

def tssInitFailed (tssSel kernelStack : ℕ) : Prog Kernel ℤ := do
  gdtFreeSel tssSel
  freeStack kernelStack
  pure (-1)

/-- The fields that `tss_init` sets before it asks for a directory. -/
def initialTss (entry esp kernelStack codeSel dataSel : ℕ) : Tss :=
  { Tss.zero with
    eip := entry
    esp := if esp ≠ 0 then esp else u32 (kernelStack + memPageSize)
    esp0 := u32 (kernelStack + memPageSize)
    ss0 := kernelSelectorDs
    eflags := eflagsDefault ||| eflagsIf
    es := dataSel
    ss := dataSel
    ds := dataSel
    fs := dataSel
    gs := dataSel
    cs := codeSel
    iomap := 0 }

/-- The offset of `tss` in `task_t` and its size. -/
def tssOffset : ℕ := 48
def tssSize : ℕ := 104

/-- `tss_init` from the moment the stack is allocated. -/
def tssInitStack (L : Layout) (t : TaskId) (entry esp : ℕ) (name : TaskName)
    (sel kernelStack : ℕ) : Prog Kernel ℤ := do
  let appCode ← Prog.gets appCodeSel
  let appData ← Prog.gets appDataSel
  let codeSel := if isIdleTaskName name then kernelSelectorCs else appCode ||| segRpl3
  let dataSel := if isIdleTaskName name then kernelSelectorDs else appData ||| segRpl3
  setTask t fun task =>
    { task with tss := initialTss entry esp kernelStack codeSel dataSel, tssSel := sel % 2 ^ 16 }
  let pageDir ← onVm (memoryCreateUvm L)
  if pageDir = 0 then tssInitFailed sel kernelStack
  else
    setTask t fun task => task.withTss (task.tss.withCr3 pageDir)
    pure 0

def tssInit (L : Layout) (t : TaskId) (entry esp : ℕ) (name : TaskName) : Prog Kernel ℤ := do
  let tssSel ← gdtAllocDesc
  if tssSel ≤ 0 then pure (-1)
  else
    let sel := tssSel.toNat
    segmentDescSet sel (taskAddr L t + tssOffset) tssSize (segPPresent ||| segDpl0 ||| segTypeTss)
    setTask t fun task => task.withTss .zero
    let kernelStack ← onVm memoryAllocPage
    if kernelStack = 0 then tssInitFailed sel kernelStack
    else tssInitStack L t entry esp name sel kernelStack

/-- The name is already in kernel memory. -/
def taskInit (L : Layout) (t : TaskId) (name : TaskName) (entry esp : ℕ) : Prog Kernel ℤ := do
  let err ← tssInit L t entry esp name
  if err < 0 then pure err
  else
    let bytes ← strncpyBytes (fun i => pure (if h : i < taskNameSize then name ⟨i, h⟩ else 0))
      taskNameSize 0
    setTask t fun task =>
      { task with
        name := task.name.set bytes
        pid := i32 (taskAddr L t)
        parent := none
        heapStart := 0
        heapEnd := 0 }
    setSched (X86Os.taskInit t)
    pure 0

/-- The first slot with an empty name, from `i` on. -/
def slotSearch (task : TaskId → Task) : ℕ → ℕ → Option ℕ
  | 0, _ => none
  | n + 1, i => if (task (.slot i)).name 0 = 0 then some i else slotSearch task n (i + 1)

/-- The name is not empty. -/
def HasName (task : Task) : Prop := task.name 0 ≠ 0

def freeSlot (s : Kernel) : Option ℕ := slotSearch s.task taskNr 0

def allocTask : Prog Kernel (Option TaskId) := Prog.gets fun s => s.freeSlot.map TaskId.slot

def freeTask (t : TaskId) : Prog Kernel Unit :=
  setTask t fun task => { task with name := Function.update task.name 0 0 }

def freeSel (sel : ℕ) : Prog Kernel Unit := if sel ≠ 0 then gdtFreeSel sel else pure ()

def freeEsp0 (esp0 : ℕ) : Prog Kernel Unit :=
  if esp0 ≠ 0 then memoryFreePage (u32Sub esp0 memPageSize) else pure ()

def taskUninit (t : TaskId) : Prog Kernel Unit := do
  let task ← Prog.gets fun s => s.task t
  freeSel task.tssSel
  freeEsp0 task.tss.esp0
  setTask t fun _ => .zero
  setSched (Sched.clearTask t)

def taskStart (t : TaskId) : Prog Kernel Unit := setSched (X86Os.taskStart .idle t)

/-! ## `sys_fork` -/

def syscallParamCount : ℕ := 5

/-- The words of `syscall_frame_t`. -/
def frameWords : ℕ := 22

/-- The word number `k` of the frame below `esp0`. -/
def frameAddr (esp0 k : ℕ) : ℕ := u32 (u32Sub esp0 (4 * frameWords) + 4 * k)

def frameWord (esp0 k : ℕ) : Prog Kernel ℕ := onVm (load32 (frameAddr esp0 k))

def forkFailed : Option TaskId → Prog Kernel ℤ
  | some t => do
    freeTask t
    taskUninit t
    pure (-1)
  | none => pure (-1)

/-- The registers of the child; the words of the frame are `eflags, gs, fs, es, ds, edi, esi, ebp,
dummy, ebx, edx, ecx, eax, eip, cs, …`. -/
def forkRegisters (t : TaskId) (esp0 : ℕ) : Prog Kernel Unit := do
  let ebx ← frameWord esp0 9
  let ecx ← frameWord esp0 11
  let edx ← frameWord esp0 10
  let esi ← frameWord esp0 6
  let edi ← frameWord esp0 5
  let ebp ← frameWord esp0 7
  let cs ← frameWord esp0 14
  let ds ← frameWord esp0 4
  let es ← frameWord esp0 3
  let fs ← frameWord esp0 2
  let gs ← frameWord esp0 1
  let eflags ← frameWord esp0 0
  setTask t fun task =>
    { task with tss := { task.tss with
        eax := 0
        ebx := ebx
        ecx := ecx
        edx := edx
        esi := esi
        edi := edi
        ebp := ebp
        cs := cs
        ds := ds
        es := es
        fs := fs
        gs := gs
        eflags := eflags } }

/-- `sys_fork` once the child has its task structure. The test of the copied directory is `< 0` on an
unsigned value and never true. The parameter `residue` is what `memory_copy_uvm` leaves as its result
when it fails. -/
def forkChild (L : Layout) (residue : ℕ) (parent t : TaskId) (esp0 : ℕ) : Prog Kernel ℤ := do
  forkRegisters t esp0
  setTask t fun task => { task with parent := some parent }
  let parentDir ← Prog.gets fun s => (s.task parent).tss.cr3
  let dir ← onVm (memoryCopyUvm L residue parentDir)
  setTask t fun task => task.withTss (task.tss.withCr3 dir)
  taskStart t
  Prog.gets fun s => (s.task t).pid

/-- `sys_fork` once it has found a slot. -/
def forkSlot (L : Layout) (residue : ℕ) (parent t : TaskId) : Prog Kernel ℤ := do
  let parentTask ← Prog.gets fun s => s.task parent
  let eip ← frameWord parentTask.tss.esp0 13
  let esp ← frameWord parentTask.tss.esp0 20
  let err ← taskInit L t parentTask.name eip (u32 (esp + 4 * syscallParamCount))
  if err < 0 then forkFailed (some t)
  else forkChild L residue parent t parentTask.tss.esp0

def sysFork (L : Layout) (residue : ℕ) : Prog Kernel ℤ := do
  let parent ← taskCurrent
  let child ← allocTask
  match child with
  | none => forkFailed none
  | some t => forkSlot L residue parent t

/-! ## Steps that do not fail -/

variable {s s' : Kernel} {t : TaskId}

theorem setTask_eq_some {f : Task → Task} {u : Unit} : setTask t f s = some (u, s') ↔
    s' = { s with task := Function.update s.task t (f (s.task t)) } := Prog.modify_eq_some

theorem setSched_eq_some {f : KernelSched → KernelSched} {u : Unit} :
    setSched f s = some (u, s') ↔ s' = { s with sched := f s.sched } := Prog.modify_eq_some

theorem onVm_eq_some {A : Type} {f : Prog Vm A} {a : A} :
    onVm f s = some (a, s') ↔ ∃ v, f s.vm = some (a, v) ∧ s' = { s with vm := v } :=
  Prog.zoom_eq_some

theorem gdtAllocDesc_none (h : gdtFree s.gdt = none) : gdtAllocDesc s = some (-1, s) := by
  rw [gdtAllocDesc, X86Os.gdtAllocDesc, h]

theorem gdtAllocDesc_some {i : ℕ} (h : gdtFree s.gdt = some i) :
    gdtAllocDesc s = some (((8 * i : ℕ) : ℤ), { s with
      gdt := Function.update s.gdt i { s.gdt i with attr := segPPresent } }) := by
  rw [gdtAllocDesc, X86Os.gdtAllocDesc, h]
  rfl

theorem gdtFreeSel_eq_some {sel : ℕ} {u : Unit} : gdtFreeSel sel s = some (u, s') ↔
    s' = { s with gdt := X86Os.gdtFreeSel s.gdt sel, gdtFrees := s.gdtFrees ++ [sel] } :=
  Prog.modify_eq_some

theorem taskCurrent_eq (h : s.sched.currTask = some t) : taskCurrent s = some (t, s) := by
  rw [taskCurrent, Prog.gets_bind, h]
  rfl

/-- The frame is at the top of a page. -/
theorem frameAddr_eq {p k : ℕ} (hp : p < 2 ^ 27) (hk : k < frameWords) :
    frameAddr (p + memPageSize) k = p + 4 * (1002 + k) := by
  unfold frameWords at hk
  rw [frameAddr]
  unfold frameWords memPageSize
  rw [u32Sub_of_le (by omega) (by omega), u32_of_lt (by omega)]
  omega

end Kernel

end X86Os
