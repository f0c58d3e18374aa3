import X86Os.Boot
import X86Os.Kernel

/-!
# Starting the kernel

The model of `kernel_init` and `task_first_init`: the descriptor table, memory, the task manager with
the idle task, and the first task with its ten pages.
-/

namespace X86Os

namespace Kernel

variable {A : Type}

def gateTypeSyscall : ℕ := 0xC * 2 ^ 8
def gatePPresent : ℕ := 2 ^ 15
def gateDpl3 : ℕ := 3 * 2 ^ 13

/-- The fields of a gate as those of the segment descriptor in the same place. -/
def gateDesc (selector offset attr : ℕ) : SegmentDesc where
  limit15_0 := offset % 2 ^ 16
  base15_0 := selector
  base23_16 := attr % 2 ^ 8
  attr := attr / 2 ^ 8 ||| offset / 2 ^ 16 % 2 ^ 8 * 2 ^ 8
  base31_24 := offset / 2 ^ 24 % 2 ^ 8

def initGdt (L : Layout) : Prog Kernel Unit := do
  Prog.modify fun s => { s with gdt := fun _ => .zero }
  segmentDescSet kernelSelectorDs 0 0xFFFFFFFF
    (segPPresent ||| segDpl0 ||| segSNormal ||| segTypeData ||| segTypeRw ||| segD)
  segmentDescSet kernelSelectorCs 0 0xFFFFFFFF
    (segPPresent ||| segDpl0 ||| segSNormal ||| segTypeCode ||| segTypeRw ||| segD)
  Prog.modify fun s => { s with
    gdt := Function.update s.gdt (selectorSyscall / 8)
      (gateDesc kernelSelectorCs L.exceptionHandlerSyscall
        (gatePPresent ||| gateDpl3 ||| gateTypeSyscall ||| syscallParamCount)) }

/-- The selector of a descriptor for all of memory, with the given kind of access. -/
def appSegment (type : ℕ) : Prog Kernel ℕ := do
  let sel ← gdtAllocDesc
  segmentDescSet sel.toNat 0 0xFFFFFFFF
    (segPPresent ||| segDpl3 ||| segSNormal ||| type ||| segTypeRw ||| segD)
  pure sel.toNat

def clearTaskTable : Prog Kernel Unit :=
  Prog.modify fun s => { s with
    task := fun t => match t with
      | .slot i => if i < taskNr then .zero else s.task t
      | _ => s.task t
    sched := (List.range taskNr).foldl (fun sched i => sched.clearTask (.slot i)) s.sched }

/-- A name of the kernel's own, as the bytes of its string. -/
def TaskName.ofBytes (bytes : List (BitVec 8)) : TaskName := fun i => bytes.getD i 0

def idleStackSize : ℕ := 1024

/-- The errors of `task_init` are ignored here. -/
def taskManagerInit (L : Layout) : Prog Kernel Unit := do
  clearTaskTable
  let dataSel ← appSegment segTypeData
  Prog.modify fun s => { s with appDataSel := dataSel }
  let codeSel ← appSegment segTypeCode
  Prog.modify fun s => { s with appCodeSel := codeSel }
  setSched fun s => ((s.initList .readyList).initList .taskList).initList .sleepList
  let _ ← taskInit L .idle (TaskName.ofBytes idleTaskName) L.idleTaskEntry
    (L.idleTaskStack + 4 * idleStackSize)
  setSched fun s => { s with currTask := none }
  taskStart .idle

def kernelInit (L : Layout) (bits : ℤ → BitVec 8) (boot : BootInfo) : Prog Kernel Unit := do
  initGdt L
  onVm (memoryInit L bits boot)
  taskManagerInit L

/-- `"first task"` with its end. -/
def firstTaskName : List (BitVec 8) :=
  [0x66, 0x69, 0x72, 0x73, 0x74, 0x20, 0x74, 0x61, 0x73, 0x6B, 0]

/-- The linker puts `first_task_entry` at the start of the user half. -/
def firstStart : ℕ := memoryTaskBase

def firstAllocSize : ℕ := 10 * memPageSize

/-- `e_first_task`, where the image of the first task ends in memory and `mem_free_start` lies. -/
def eFirstTask (L : Layout) : ℕ := L.memFreeStart

/-- The rest of `task_first_init` once the first task is the current one. -/
def firstTaskLoad (L : Layout) : Prog Kernel Unit := do
  let cr3 ← Prog.gets fun s => (s.task .first).tss.cr3
  onVm (Prog.modify fun v => { v with cr3 := cr3 })
  let _ ← onVm (memoryAllocForPageDir cr3 firstStart firstAllocSize (pteP ||| pteW ||| pteU))
  onVm (kernelMemcpy firstStart L.sFirstTask (eFirstTask L - L.sFirstTask))
  taskStart .first

def taskFirstInit (L : Layout) : Prog Kernel Unit := do
  Prog.require (eFirstTask L - L.sFirstTask < firstAllocSize)
  let _ ← taskInit L .first (TaskName.ofBytes firstTaskName) firstStart (firstStart + firstAllocSize)
  setTask .first fun task => { task with heapStart := eFirstTask L }
  setTask .first fun task => { task with heapEnd := task.heapStart }
  setSched fun s => { s with currTask := some .first }
  firstTaskLoad L

/-- From the loader to the first task. -/
def boot (L : Layout) (bits : ℤ → BitVec 8) (info : BootInfo) : Prog Kernel Unit := do
  kernelInit L bits info
  taskFirstInit L

end Kernel

end X86Os
