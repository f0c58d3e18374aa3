import X86Os.ExecSpace
import X86Os.Heap
import X86Os.Startup

/-!
# Where heaps begin

A heap is meant to lie above `MEMORY_TASK_BASE`, after the segments of the program, and to be mapped in
the task's own directory, however the task got its image. `task_first_init` takes `e_first_task` for its
start, which is where the loader put the image, and `task_init` clears what a child would get from its
parent.
-/

namespace X86Os

namespace Kernel

variable {L : Layout} {bits : ℤ → BitVec 8} {info : BootInfo} {k s s' : Kernel} {t : TaskId}

/-- The heap of the task is in the user half, and its own directory maps every byte of it. -/
structure HeapValid (s : Kernel) (t : TaskId) : Prop where
  base : memoryTaskBase ≤ (s.task t).heapStart
  order : (s.task t).heapStart ≤ (s.task t).heapEnd
  mapped : ∀ v, (s.task t).heapStart ≤ v → v < (s.task t).heapEnd →
    s.vm.mem.walk (entryPaddr (s.task t).tss.cr3) v ≠ none

/-- The heaps of the first task, of the child of a fork from here and of the program of an `execve` from
here. -/
structure HeapsValid (L : Layout) (s : Kernel) : Prop where
  first : HeapValid s .first
  fork : ∀ residue parent i c s', s.sched.currTask = some parent → s.freeSlot = some i →
    sysFork L residue s = some (c, s') → c ≠ -1 → HeapValid s' (.slot i) ∧
      (s'.task (.slot i)).heapStart = (s.task parent).heapStart ∧
      (s'.task (.slot i)).heapEnd = (s.task parent).heapEnd
  execve : ∀ disk argsAt name argv t s', s.sched.currTask = some t →
    sysExecve L disk argsAt name argv s = some (0, s') → HeapValid s' t ∧
      ∀ i < (fileHeader (diskFile disk)).phnum, (programHeader (diskFile disk) i).Loadable →
        (programHeader (diskFile disk) i).vaddr + (programHeader (diskFile disk) i).memsz ≤
          (s'.task t).heapStart

inductive TaskCall
  | fork (residue : ℕ)
  | execve (disk : Disk) (argsAt name argv : ℕ)
  | sbrk (incr : ℤ)
  | yield

/-- Another task may run after `sys_yield`; the processor takes the directory from its TSS. -/
def yieldTo (s : Kernel) : Option Kernel :=
  (sysYield .idle s.sched).map fun sched =>
    { s with sched := sched, vm := { s.vm with cr3 := { s with sched := sched }.currentPageDir } }

/-- The calls of the tasks from the start of the kernel on; a failed assertion ends the run. -/
def taskMachine (L : Layout) (bits : ℤ → BitVec 8) (info : BootInfo) (k : Kernel) :
    Machine Kernel TaskCall where
  init s := boot L bits info k = some ((), s)
  enabled _ _ := True
  step s
    | .fork residue => (sysFork L residue s).map Prod.snd
    | .execve disk argsAt name argv => (sysExecve L disk argsAt name argv s).map Prod.snd
    | .sbrk incr => (sysSbrk incr s).map Prod.snd
    | .yield => s.yieldTo

def HeapsAlwaysValid (L : Layout) (bits : ℤ → BitVec 8) (info : BootInfo) (k : Kernel) : Prop :=
  ∀ s, (taskMachine L bits info k).Reach s → HeapsValid L s

/-! ## After the start -/

theorem HeapValid.heapStart_ne_zero (h : HeapValid s t) : (s.task t).heapStart ≠ 0 := by
  have := h.base
  unfold memoryTaskBase at this
  omega

/-- The bitmap of the page allocator lies behind the first task, below the extended memory. -/
theorem kernelInit_fits (h : kernelInit L bits info k = some ((), s)) : BitmapFits L info := by
  obtain ⟨_, s₁, -, h⟩ := Prog.bind_eq_some.mp h
  obtain ⟨_, s₂, hvm, -⟩ := Prog.bind_eq_some.mp h
  obtain ⟨v, hinit, -⟩ := onVm_eq_some.mp hvm
  rw [memoryInit, Prog.modify_bind] at hinit
  obtain ⟨_, _, hreq, -⟩ := Prog.bind_eq_some.mp hinit
  exact (Prog.require_eq_some.mp hreq).1

theorem sameTask_firstTaskLoad {B : Type} (g : Task → B) (t : TaskId) :
    Prog.Along (SameTask g t) (firstTaskLoad L) := by
  unfold firstTaskLoad
  refine (Prog.along_gets _).bind fun _ => sameTask_onVm.bind fun _ => sameTask_onVm.bind fun _ =>
    sameTask_onVm.bind fun _ => ?_
  exact sameTask_setSched _

theorem taskFirstInit_heap (h : taskFirstInit L s = some ((), s')) :
    (s'.task .first).heapStart = eFirstTask L ∧ (s'.task .first).heapEnd = eFirstTask L := by
  rw [taskFirstInit] at h
  obtain ⟨_, s₁, -, h⟩ := Prog.bind_eq_some.mp h
  obtain ⟨_, s₂, -, h⟩ := Prog.bind_eq_some.mp h
  obtain ⟨_, s₃, hstart, h⟩ := Prog.bind_eq_some.mp h
  obtain ⟨_, s₄, hend, h⟩ := Prog.bind_eq_some.mp h
  obtain ⟨_, s₅, hsched, h⟩ := Prog.bind_eq_some.mp h
  have hsame : SameTask (fun task => (task.heapStart, task.heapEnd)) .first s₅ s' :=
    sameTask_firstTaskLoad _ _ _ _ _ h
  rw [SameTask, setSched_eq_some.mp hsched, setTask_eq_some.mp hend, setTask_eq_some.mp hstart] at hsame
  simp only [Function.update_self, Prod.mk.injEq] at hsame
  exact hsame

/-- The heap of the first task begins below one megabyte. -/
theorem boot_heap (h : boot L bits info k = some ((), s)) :
    (s.task .first).heapStart = eFirstTask L ∧ (s.task .first).heapEnd = eFirstTask L ∧
      eFirstTask L < memEbdaStart := by
  obtain ⟨_, s₁, hinit, hfirst⟩ := Prog.bind_eq_some.mp h
  obtain ⟨hstart, hend⟩ := taskFirstInit_heap hfirst
  have hfits := kernelInit_fits hinit
  have hcount : (0 : ℤ) ≤ bitmapByteCount (memUp1MBFree info / memPageSize : ℕ) :=
    Int.tdiv_nonneg (by have := Int.natCast_nonneg (memUp1MBFree info / memPageSize); linarith)
      (by norm_num)
  unfold BitmapFits at hfits
  exact ⟨hstart, hend, by unfold eFirstTask; omega⟩

theorem not_heapsAlwaysValid (hboot : boot L bits info k = some ((), s)) :
    ¬ HeapsAlwaysValid L bits info k := by
  intro h
  have hbase := (h s (.init hboot)).first.base
  obtain ⟨hstart, -, hlt⟩ := boot_heap hboot
  rw [hstart] at hbase
  unfold memoryTaskBase memEbdaStart at *
  omega

/-- Once the kernel has come up, the heap of the first task is out of its bounds, and no fork gives a
child a heap within them. -/
theorem heaps_never_valid (hboot : boot L bits info k = some ((), s)) :
    ¬ HeapsAlwaysValid L bits info k ∧
      ∀ s₁, (taskMachine L bits info k).Reach s₁ → ∀ residue parent i c s₂,
        s₁.sched.currTask = some parent → s₁.freeSlot = some i →
        sysFork L residue s₁ = some (c, s₂) → c ≠ -1 → ¬ HeapValid s₂ (.slot i) := by
  refine ⟨not_heapsAlwaysValid hboot, ?_⟩
  intro s₁ _ residue parent i c s₂ hc hslot hrun hne hvalid
  exact hvalid.heapStart_ne_zero (sysFork_child hc hslot hrun hne).1

/-- A machine with 128 megabytes. -/
def plainBoot : BootInfo where
  ramRegions := [⟨0, 0x9FC00⟩, ⟨0x100000, 0x7EE0000⟩]

theorem plainBoot_fits :
    BootFits sampleLayout plainBoot 0x7E7F (onlyGdt fun _ => .zero).vm where
  bitmap := by decide
  pages := by decide
  room := by decide
  top := by decide
  dir _ _ := by
    show ¬ Present 0
    decide
  image := by decide

theorem heaps_never_valid_plain : ∃ s,
    boot sampleLayout (fun _ => 0) plainBoot (onlyGdt fun _ => .zero) = some ((), s) ∧
      ¬ HeapsAlwaysValid sampleLayout (fun _ => 0) plainBoot (onlyGdt fun _ => .zero) := by
  obtain ⟨s, hboot⟩ := boot_total plainBoot_fits fun _ => 0
  exact ⟨s, hboot, (heaps_never_valid hboot).1⟩

theorem heaps_valid_counterexample : ¬ ∀ L bits info k s,
    boot L bits info k = some ((), s) → HeapsAlwaysValid L bits info k := by
  intro h
  obtain ⟨s, hboot⟩ := boot_total plainBoot_fits fun _ => 0
  exact not_heapsAlwaysValid hboot (h _ _ _ _ s hboot)

end Kernel

end X86Os
