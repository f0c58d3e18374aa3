import X86Os.ExecCut
import X86Os.ForkRun
import X86Os.Heap
import X86Os.RoleCopy
import X86Os.Startup

/-!
# Runs of system calls

After the kernel has come up, any tasks call `sys_fork`, `sys_execve` and `sys_sbrk` in any order. The
first two go in steps, and between two steps any started task may go on. Programs write to the pages that
they may write to, and the kernel stack of the running task changes at will. A run remembers where the
calls stand, the tasks that were started, and the memory as `memory_init` left it.
-/

namespace X86Os

namespace Kernel

inductive Call
  | fork (pc : ForkPc)
  | exec (pc : ExecPc)

namespace Call

/-- The next step of a call by the task `p`. -/
def step (L : Layout) (residue : ℕ) (p : TaskId) : Cut Kernel Call ℤ
  | .fork pc => do
    match ← pc.step L residue p with
    | .inl next => pure (.inl (.fork next))
    | .inr r => pure (.inr r)
  | .exec pc => do
    match ← pc.step L p with
    | .inl next => pure (.inl (.exec next))
    | .inr r => pure (.inr r)

/-- The slot that the call sets up. -/
def slot : Call → Option TaskId
  | .fork pc => pc.claim.map Prod.fst
  | .exec _ => none

/-- The task that the next step starts. -/
def starts : Call → Option TaskId
  | .fork pc => pc.starts
  | .exec _ => none

/-- The directories that the call has in its variables and does not give up. -/
def dirs : Call → Set ℕ
  | .fork (.dir _ _ pageDir) => {pageDir}
  | .fork (.copying _ c) => {d | c.dest = some d}
  | .fork (.copied _ pageDir) => {pageDir}
  | .exec (.opening _ _ old new _ _) => {old, new}
  | .exec (.segments _ old new _ _ _ _ _) => {old, new}
  | .exec (.stack _ old new _ _) => {old, new}
  | .exec (.args _ old new _ _) => {old, new}
  | _ => ∅

/-- The call has just begun; the local variable `task_args` is on the kernel stack of the task. -/
def Enters (task : Task) : Call → Prop
  | .fork .search => True
  | .exec (.start _ argsAt _ _) => u32Sub task.tss.esp0 memPageSize ≤ argsAt ∧
    argsAt + taskArgsSize ≤ u32Sub task.tss.esp0 memPageSize + memPageSize
  | _ => False

end Call

structure CallRun where
  kernel : Kernel
  call : TaskId → Option Call
  started : List TaskId
  initial : Mem

inductive CallAction
  | enter (c : Call)
  | go (residue : ℕ)
  | sbrk (incr : ℤ)
  | switch (t : TaskId)
  | write (mem : Mem)

/-- The task `t` becomes the current one. -/
def resume (s : Kernel) (t : TaskId) : Kernel :=
  { s with
    sched := { s.sched with currTask := some t }
    vm := { s.vm with cr3 := (s.task t).tss.cr3 } }

namespace CallRun

/-- The run after the task `p` took a step of its call `c`. -/
def record (r : CallRun) (p : TaskId) (c : Call) (next : Call ⊕ ℤ) (s : Kernel) : CallRun :=
  { r with
    kernel := s
    call := Function.update r.call p next.getLeft?
    started := c.starts.toList ++ r.started }

/-- The current task goes on with its call. -/
def go (L : Layout) (residue : ℕ) (r : CallRun) : Option CallRun :=
  r.kernel.sched.currTask.bind fun p => (r.call p).bind fun c =>
    (c.step L residue p r.kernel).map fun x => r.record p c x.1 x.2

/-- The current task may write to the byte `x`: a page of its program, or its kernel stack. -/
def MayWrite (r : CallRun) (x : ℕ) : Prop :=
  (∃ p, r.kernel.sched.currTask = some p ∧
    InPage (u32Sub (r.kernel.task p).tss.esp0 memPageSize) x) ∨
  ∃ v < 2 ^ 32, UserWritable r.kernel.vm.mem r.kernel.vm.cr3 v ∧
    r.kernel.vm.mem.walk r.kernel.vm.cr3 v = some x

/-- No call of the current task is under way. -/
def Idle (r : CallRun) : Prop := ∀ p, r.kernel.sched.currTask = some p → r.call p = none

end CallRun

def callEnabled (r : CallRun) : CallAction → Prop
  | .enter c => r.Idle ∧ ∀ p, r.kernel.sched.currTask = some p → c.Enters (r.kernel.task p)
  | .go _ => True
  | .sbrk incr => r.Idle ∧ -2 ^ 31 ≤ incr ∧ incr < 2 ^ 31
  | .switch t => t ∈ r.started
  | .write mem => ∀ x, mem x ≠ r.kernel.vm.mem x → r.MayWrite x

def callStep (L : Layout) (r : CallRun) : CallAction → Option CallRun
  | .enter c => r.kernel.sched.currTask.map fun p =>
    { r with call := Function.update r.call p (some c) }
  | .go residue => r.go L residue
  | .sbrk incr => (sysSbrk incr r.kernel).map fun x => { r with kernel := x.2 }
  | .switch t => some { r with kernel := r.kernel.resume t }
  | .write mem => some { r with kernel := { r.kernel with vm := { r.kernel.vm with mem := mem } } }

/-- The kernel has come up with `n` pages, and the idle task and the first task were started. -/
structure Booted (L : Layout) (info : BootInfo) (n : ℕ) (r : CallRun) : Prop where
  boot : ∃ bits k v, BootFits L info n k.vm ∧ memoryInit L bits info k.vm = some ((), v) ∧
    r.initial = v.mem ∧ Kernel.boot L bits info k = some ((), r.kernel)
  call : ∀ p, r.call p = none
  started : r.started = [.first, .idle]

def callMachine (L : Layout) (info : BootInfo) (n : ℕ) : Machine CallRun CallAction where
  init := Booted L info n
  enabled := callEnabled
  step := callStep L

/-! ## The kernel half -/

/-- The task has a directory. -/
def HasDir (r : CallRun) (t : TaskId) : Prop :=
  t ∈ r.started ∨ (t.Exists ∧ (r.kernel.task t).tss.cr3 ≠ 0)

/-- The kernel half of every address space is the kernel's own, the kernel's tables are those of
`memory_init`, and no address of the kernel half is mapped for programs. -/
structure KernelHalf (L : Layout) (r : CallRun) : Prop where
  shared : ∀ t, HasDir r t → ∀ i < userPdeStart,
    r.kernel.vm.mem.pde (r.kernel.task t).tss.cr3 i = r.kernel.vm.mem.pde L.kernelPageDir i
  dir : ∀ i < pdeCnt, r.kernel.vm.mem.pde L.kernelPageDir i = r.initial.pde L.kernelPageDir i
  tables : ∀ i < pdeCnt, ∀ j < pteCnt,
    r.kernel.vm.mem.pteWord L.kernelPageDir i j = r.initial.pteWord L.kernelPageDir i j
  supervisor : ∀ t, HasDir r t → ∀ v < memoryTaskBase, ∀ e,
    r.kernel.vm.mem.entryAt (r.kernel.task t).tss.cr3 v = some e → e.testBit 2 = false

/-! ## Careful runs -/

/-- The directories that a task, a call or the processor has. -/
def DirInUse (r : CallRun) (d : ℕ) : Prop :=
  d = r.kernel.vm.cr3 ∨ (∃ t, t.Exists ∧ (r.kernel.task t).tss.cr3 = d ∧ d ≠ 0) ∨
    ∃ p c, r.call p = some c ∧ d ∈ c.dirs

/-- The page is apart from the buffer for files. -/
def OutsideBuffer (p : ℕ) : Prop := ∀ x, InPage p x → ¬ InBuffer x

/-- No directory and no table of a user half lies in the buffer for files. -/
def BufferFree (r : CallRun) : Prop :=
  (∀ d, DirInUse r d → OutsideBuffer d) ∧
    ∀ t, TableOf r.kernel.vm.mem {d | DirInUse r d} t → OutsideBuffer t

/-- The program header that the next round of `load_elf_file` reads, where `old` is the one before. -/
def nextHeader (file : ℤ) (hdr : Elf32Ehdr) (i : ℕ) (old : Option (List (BitVec 8))) (s : Kernel) :
    Option Elf32Phdr :=
  ((sysLseek file (u32 (hdr.phoff + i * hdr.phentsize)) >>= fun _ => sysReadLocal file phdrSize old)
    { vm := s.vm, tempPos := s.tempPos }).map fun x => Elf32Phdr.ofBytes x.1.2

/-- The bytes of the file end within the address space if the segment is loaded. -/
def SegmentFits (phdr : Elf32Phdr) : Prop :=
  phdr.type = ptLoad → memoryTaskBase ≤ phdr.vaddr → phdr.vaddr + phdr.filesz ≤ 2 ^ 32

/-- If the last page was taken for a frame and the table is missing, `memory_alloc_for_page_dir` gives
pages back, for which `addr_free_page` takes the address of the range. The bit does not lie before the
bitmap. -/
def CleansUp (dir vaddr size : ℕ) (v : Vm) : Prop :=
  ∀ i < up2 size memPageSize / memPageSize, ∀ v',
    Prog.loop (memoryAllocRound dir vaddr (pteP ||| pteU ||| pteW)) i 0 v = some (none, v') →
      v'.alloc.clearPages.card = 1 → ¬ Present (v'.mem.pde dir (pdeIndex (u32 (vaddr + i * memPageSize)))) →
        v.alloc.Freeable (down2 vaddr memPageSize)

structure CarefulSegment (new : ℕ) (phdr : Elf32Phdr) (v : Vm) : Prop where
  fits : SegmentFits phdr
  cleans : phdr.type = ptLoad → memoryTaskBase ≤ phdr.vaddr → CleansUp new phdr.vaddr phdr.memsz v

/-- The message that the file is not found fits into the buffer of `log_printf`. -/
def MessageFits (name : ℕ) (v : Vm) : Prop :=
  ∀ c len, load8 name v = some (c, v) → c ≠ slash → kernelStrlen name v = some (len, v) →
    openFailedText.length + len < Console.strBufSize

/-- A fork has its slot for itself, finds a page for whatever it copies, and gives back no page that
leads `addr_free_page` to a set bit or before the bitmap. -/
structure CarefulFork (r : CallRun) (p : TaskId) (pc : ForkPc) : Prop where
  slot : ∀ t a, pc.claim = some (t, a) → t ∉ r.started ∧
    ∀ q c, q ≠ p → r.call q = some c → c.slot ≠ some t
  room : ∀ t c, pc = .copying t c → c.asks r.kernel.vm → r.kernel.vm.alloc.clearPages.Nonempty
  spares : ∀ page, pc.releases r.kernel = some page → Spares r.kernel.vm page

def CarefulExec (r : CallRun) : ExecPc → Prop
  | .opening _ _ _ _ name _ =>
    (∀ v, load8 name r.kernel.vm = some (slash, v) → BufferFree r) ∧ MessageFits name r.kernel.vm
  | .segments _ _ new _ file hdr i old =>
    ∀ phdr, nextHeader file hdr i old r.kernel = some phdr → CarefulSegment new phdr r.kernel.vm
  | .stack _ _ new _ _ =>
    CleansUp new (memTaskStackTop - memTaskStackSize) memTaskStackSize r.kernel.vm
  | .args _ _ _ _ argv => ∀ argc v, stringsCount argv r.kernel.vm = some (argc, v) → ArgTableFits argc
  | .destroy _ c => ∀ page, c.frees = some page → Spares r.kernel.vm page
  | _ => True

def CarefulCall (r : CallRun) (p : TaskId) : Call → Prop
  | .fork pc => CarefulFork r p pc
  | .exec pc => CarefulExec r pc

/-- The address at which `sys_sbrk` starts to map pages, if it does. -/
def sbrkStart (old : ℕ) (incr : ℤ) : Option ℕ :=
  if incr ≤ 0 then none
  else if old % memPageSize = 0 then some old
  else if i32 ((old % memPageSize : ℕ) + incr) ≤ memPageSize then none
  else if i32 (incr - (memPageSize - old % memPageSize : ℕ)) = 0 then none
  else some (u32 (old + (memPageSize - old % memPageSize)))

/-- The heap grows in the user half, or it begins at a page that the kernel has mapped. -/
structure CarefulSbrk (task : Task) (incr : ℤ) (v : Vm) : Prop where
  start : ∀ start, sbrkStart task.heapEnd incr = some start → UserAddr start ∨ Identity start
  cleans : ∀ start, sbrkStart task.heapEnd incr = some start →
    CleansUp task.tss.cr3 start (u32Sub (u32 (task.heapEnd + incr.toNat)) start) v

/-- What the theorems about runs ask of a step. A step that has no result ends the run: there the kernel
stops at an assertion, a program at a fault. -/
def Careful (r : CallRun) : CallAction → Prop
  | .go _ => ∀ p c, r.kernel.sched.currTask = some p → r.call p = some c → CarefulCall r p c
  | .sbrk incr => ∀ p, r.kernel.sched.currTask = some p →
    CarefulSbrk (r.kernel.task p) incr r.kernel.vm
  | _ => True

end Kernel

end X86Os
