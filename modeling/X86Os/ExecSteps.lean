import X86Os.ElfImage
import X86Os.Exec

/-!
# The steps of `sys_execve`

A relation between states that holds across every single step of `sys_execve` holds across the call up
to its last instruction, however it ends. The segments of the file are the only steps for which
something is known: their addresses are in the user half.
-/

namespace X86Os

namespace Kernel

variable {R : Kernel → Kernel → Prop} [IsPreorder Kernel R] {disk : Disk} {argsAt : ℕ} {t : TaskId}

/-- The steps by which a program is loaded keep the relation. -/
structure LoadSteps (R : Kernel → Kernel → Prop) (disk : Disk) (t : TaskId) : Prop where
  sysOpen : ∀ name, Prog.Along R (onFile (sysOpen disk name))
  sysLseek : ∀ file ptr, Prog.Along R (onFile (sysLseek file ptr))
  openFailed : ∀ name, Prog.Along R (onVm (logOpenFailed name))
  sysRead : ∀ file len old, Prog.Along R (onFile (sysReadLocal file len old))
  loadPhdr : ∀ file (phdr : Elf32Phdr) dir, memoryTaskBase ≤ phdr.vaddr → phdr.vaddr < 2 ^ 32 →
    Prog.Along R (onFile (loadPhdr file phdr dir))
  heap : ∀ addr, Prog.Along R (setTask t fun task => { task with heapStart := addr, heapEnd := addr })
  stack : ∀ dir, Prog.Along R (onVm (memoryAllocForPageDir dir (memTaskStackTop - memTaskStackSize)
    memTaskStackSize (pteP ||| pteU ||| pteW)))

/-- The steps after the name was copied keep the relation. -/
structure ExecSteps (R : Kernel → Kernel → Prop) (disk : Disk) (argsAt : ℕ) (t : TaskId) : Prop
    extends LoadSteps R disk t where
  count : ∀ argv, Prog.Along R (onVm (stringsCount argv))
  args : ∀ dest dir argc argv, Prog.Along R (onVm (copyArgs argsAt dest dir argc argv))
  frame : ∀ esp0 w v, Prog.Along R (storeFrame esp0 w v)
  tss : ∀ dir, Prog.Along R (setTask t fun task => task.withTss (task.tss.withCr3 dir))
  cr3 : ∀ dir, Prog.Along R (onVm (Prog.modify fun v => { v with cr3 := dir }))
  destroy : ∀ dir, Prog.Along R (onVm (memoryDestroyUvm dir))

namespace LoadSteps

theorem loadHeader (h : LoadSteps R disk t) (file : ℤ) (dir phoff phentsize j : ℕ)
    (old : Option (List (BitVec 8))) :
    Prog.Along R (loadHeader t file dir phoff phentsize j old) := by
  refine (h.sysLseek _ _).bind fun pos => (Prog.along_pure _).ite ?_
  refine (h.sysRead _ _ _).bind fun b => (Prog.along_pure _).ite ?_
  by_cases hload : (Elf32Phdr.ofBytes b.2).type ≠ ptLoad ∨ (Elf32Phdr.ofBytes b.2).vaddr < memoryTaskBase
  · simp only [if_pos hload]
    exact Prog.along_pure _
  · simp only [if_neg hload]
    have hv := not_lt.mp (not_or.mp hload).2
    exact (h.loadPhdr file _ dir hv (wordAt_lt _ _)).bind fun err =>
      (Prog.along_pure _).ite ((h.heap _).bind fun _ => Prog.along_pure _)

theorem loadElfOpen (h : LoadSteps R disk t) (file : ℤ) (dir : ℕ) :
    Prog.Along R (loadElfOpen t file dir) := by
  refine (h.sysRead _ _ _).bind fun b => (Prog.along_pure _).ite ?_
  refine (Prog.along_pure _).ite ((Prog.along_pure _).ite ((Prog.along_pure _).ite ?_))
  refine (Prog.Along.loopWith (h.loadHeader file dir _ _) _ _ _).bind fun q => ?_
  cases q with
  | inr old => exact Prog.along_pure _
  | inl u => exact Prog.along_pure _

theorem loadElfFile (h : LoadSteps R disk t) (name dir : ℕ) :
    Prog.Along R (loadElfFile disk t name dir) :=
  (h.sysOpen name).bind fun file =>
    ((h.openFailed name).bind fun _ => Prog.along_pure 0).ite (h.loadElfOpen file dir)

end LoadSteps

namespace ExecSteps

theorem setPageDir (h : ExecSteps R disk argsAt t) (dir : ℕ) : Prog.Along R (setPageDir t dir) :=
  (h.tss dir).bind fun _ => h.cr3 dir

theorem execFailed (h : ExecSteps R disk argsAt t) (old dir : ℕ) :
    Prog.Along R (execFailed t old dir) :=
  (h.setPageDir old).bind fun _ => (h.destroy dir).bind fun _ => Prog.along_pure _

theorem execFrame (h : ExecSteps R disk argsAt t) (esp0 entry : ℕ) :
    Prog.Along R (execFrame esp0 entry) :=
  (h.frame _ _ _).bind fun _ => (h.frame _ _ _).bind fun _ => (h.frame _ _ _).bind fun _ =>
    (h.frame _ _ _).bind fun _ => (h.frame _ _ _).bind fun _ => (h.frame _ _ _).bind fun _ =>
      (h.frame _ _ _).bind fun _ => (h.frame _ _ _).bind fun _ => (h.frame _ _ _).bind fun _ =>
        h.frame _ _ _

theorem execLoad (h : ExecSteps R disk argsAt t) (old dir name argv : ℕ) :
    Prog.Along R (execLoad disk argsAt t old dir name argv) := by
  have hfail := h.execFailed old dir
  refine (h.toLoadSteps.loadElfFile name dir).bind fun entry => hfail.ite ?_
  refine (h.stack dir).bind fun err => hfail.ite ?_
  refine (h.count argv).bind fun argc => (h.args _ _ _ _).bind fun err => hfail.ite ?_
  exact (Prog.along_gets _).bind fun esp0 => (h.execFrame esp0 entry).bind fun _ =>
    (h.setPageDir dir).bind fun _ => (h.destroy old).bind fun _ => Prog.along_pure _

end ExecSteps

end Kernel

end X86Os
