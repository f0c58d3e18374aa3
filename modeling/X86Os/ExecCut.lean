import X86Os.ElfImage
import X86Os.Exec
import X86Os.ForkSteps

/-!
# `sys_execve` in steps

Between two steps of `sys_execve` the timer may switch to another task. The steps are the creation of the
directory, opening the file with its header, each program header, the stack, the arguments with the
change to the new directory, and the pieces of `memory_destroy_uvm`.
-/

namespace X86Os

namespace Kernel

/-- Where a call of `sys_execve` stands: the task had the directory `old` and is to get `new`. -/
inductive ExecPc
  | start (disk : Disk) (argsAt name argv : ℕ)
  | opening (disk : Disk) (argsAt old new name argv : ℕ)
  | segments (argsAt old new argv : ℕ) (file : ℤ) (hdr : Elf32Ehdr) (i : ℕ)
    (phdr : Option (List (BitVec 8)))
  | stack (argsAt old new entry argv : ℕ)
  | args (argsAt old new entry argv : ℕ)
  | destroy (r : ℤ) (c : CopyPc)

namespace ExecPc

open ForkPc (onVm_bind onVm_pure)

variable (L : Layout) (t : TaskId)

/-- Once the call has failed. -/
def failed (old new : ℕ) : Prog Kernel (ExecPc ⊕ ℤ) := do
  setPageDir t old
  pure (.inl (.destroy (-1) (.failed new)))

def step : Cut Kernel ExecPc ℤ
  | .start disk argsAt name argv => do
    let src ← onVm (getFileName name)
    copyTaskName t src
    let old ← Prog.gets fun s => (s.task t).tss.cr3
    let new ← onVm (memoryCreateUvm L)
    if new = 0 then failed t old new
    else pure (.inl (.opening disk argsAt old new name argv))
  | .opening disk argsAt old new name argv => do
    let file ← onFile (sysOpen disk name)
    if file < 0 then
      onVm (logOpenFailed name)
      failed t old new
    else
      let r ← onFile (sysReadLocal file ehdrSize none)
      if toU32 r.1 < ehdrSize then failed t old new
      else
        let hdr := Elf32Ehdr.ofBytes r.2
        if hdr.ident ≠ elfMagic then failed t old new
        else if hdr.type ≠ etExec ∨ hdr.machine ≠ et386 ∨ hdr.entry = 0 then failed t old new
        else if hdr.phentsize = 0 ∨ hdr.phoff = 0 then failed t old new
        else pure (.inl (.segments argsAt old new argv file hdr 0 none))
  | .segments argsAt old new argv file hdr i phdr =>
    if i < hdr.phnum then do
      match ← loadHeader t file new hdr.phoff hdr.phentsize i phdr with
      | .inr phdr' => pure (.inl (.segments argsAt old new argv file hdr (i + 1) phdr'))
      | .inl () => failed t old new
    else if hdr.entry = 0 then failed t old new
    else pure (.inl (.stack argsAt old new hdr.entry argv))
  | .stack argsAt old new entry argv => do
    let err ← onVm (memoryAllocForPageDir new (memTaskStackTop - memTaskStackSize)
      memTaskStackSize (pteP ||| pteU ||| pteW))
    if err < 0 then failed t old new else pure (.inl (.args argsAt old new entry argv))
  | .args argsAt old new entry argv => do
    let argc ← onVm (stringsCount argv)
    let err ← onVm (copyArgs argsAt execStackTop new argc argv)
    if err < 0 then failed t old new
    else
      let esp0 ← Prog.gets fun s => (s.task t).tss.esp0
      execFrame esp0 entry
      setPageDir t new
      pure (.inl (.destroy 0 (.failed old)))
  | .destroy r c => do
    match ← onVm (c.step L 0) with
    | .inl next => pure (.inl (.destroy r next))
    | .inr _ => pure (.inr r)

/-! ## What is left -/

/-- `sys_execve` after `load_elf_file`. -/
def restLoad (argsAt old new argv entry : ℕ) : Prog Kernel ℤ :=
  if entry = 0 then execFailed t old new
  else do
    let err ← onVm (memoryAllocForPageDir new (memTaskStackTop - memTaskStackSize)
      memTaskStackSize (pteP ||| pteU ||| pteW))
    if err < 0 then execFailed t old new else execStart argsAt t old new entry argv

/-- After the loop over the program headers. -/
def afterHeaders (argsAt old new argv entry : ℕ) : Unit ⊕ Option (List (BitVec 8)) → Prog Kernel ℤ
  | .inr _ => restLoad t argsAt old new argv entry
  | .inl () => restLoad t argsAt old new argv 0

def restSegments (argsAt old new argv : ℕ) (file : ℤ) (hdr : Elf32Ehdr) (i : ℕ)
    (phdr : Option (List (BitVec 8))) : Prog Kernel ℤ :=
  Prog.loopWith (loadHeader t file new hdr.phoff hdr.phentsize) (hdr.phnum - i) i phdr >>=
    afterHeaders t argsAt old new argv hdr.entry

def rest : ExecPc → Prog Kernel ℤ
  | .start disk argsAt name argv => do
    let src ← onVm (getFileName name)
    copyTaskName t src
    let old ← Prog.gets fun s => (s.task t).tss.cr3
    let new ← onVm (memoryCreateUvm L)
    if new = 0 then execFailed t old new else execLoad disk argsAt t old new name argv
  | .opening disk argsAt old new name argv => execLoad disk argsAt t old new name argv
  | .segments argsAt old new argv file hdr i phdr =>
    restSegments t argsAt old new argv file hdr i phdr
  | .stack argsAt old new entry argv => do
    let err ← onVm (memoryAllocForPageDir new (memTaskStackTop - memTaskStackSize)
      memTaskStackSize (pteP ||| pteU ||| pteW))
    if err < 0 then execFailed t old new else execStart argsAt t old new entry argv
  | .args argsAt old new entry argv => execStart argsAt t old new entry argv
  | .destroy r c => do
    let _ ← onVm (c.rest L 0)
    pure r

variable {L t} {argsAt old new name argv entry i : ℕ} {file : ℤ} {hdr : Elf32Ehdr} {disk : Disk}
  {phdr : Option (List (BitVec 8))}

/-- Destroying a directory is what is left once it has begun. -/
theorem rest_destroy (r : ℤ) (dest : ℕ) :
    rest L t (.destroy r (.failed dest)) = onVm (memoryDestroyUvm dest) >>= fun _ => pure r := by
  rw [rest, CopyPc.rest_failed, CopyPc.afterTables, onVm_bind, bind_assoc]
  refine congrArg (onVm (memoryDestroyUvm dest) >>= ·) (funext fun _ => ?_)
  rw [onVm_pure, pure_bind]

theorem rest_failed :
    (failed t old new >>= Sum.elim (rest L t) pure) = execFailed t old new := by
  rw [failed, execFailed, bind_assoc]
  refine congrArg (setPageDir t old >>= ·) (funext fun _ => ?_)
  rw [pure_bind, Sum.elim_inl, rest_destroy]

theorem restSegments_succ (h : i < hdr.phnum) : restSegments t argsAt old new argv file hdr i phdr =
    loadHeader t file new hdr.phoff hdr.phentsize i phdr >>= Sum.elim
      (fun _ => restLoad t argsAt old new argv 0)
      (restSegments t argsAt old new argv file hdr (i + 1)) := by
  obtain ⟨k, hk⟩ : ∃ k, hdr.phnum - i = k + 1 := ⟨hdr.phnum - i - 1, by omega⟩
  have hk' : hdr.phnum - (i + 1) = k := by omega
  rw [restSegments, hk, Prog.loopWith, bind_assoc]
  refine congrArg (loadHeader t file new _ _ i phdr >>= ·) (funext fun r => ?_)
  cases r with
  | inr phdr' => rw [Sum.elim_inr, restSegments, hk']
  | inl u => exact pure_bind _ _

theorem execLoad_eq : execLoad disk argsAt t old new name argv =
    onFile (sysOpen disk name) >>= fun file =>
      if file < 0 then onVm (logOpenFailed name) >>= fun _ => execFailed t old new else
      onFile (sysReadLocal file ehdrSize none) >>= fun r =>
      if toU32 r.1 < ehdrSize then execFailed t old new else
      if (Elf32Ehdr.ofBytes r.2).ident ≠ elfMagic then execFailed t old new else
      if (Elf32Ehdr.ofBytes r.2).type ≠ etExec ∨ (Elf32Ehdr.ofBytes r.2).machine ≠ et386 ∨
        (Elf32Ehdr.ofBytes r.2).entry = 0 then execFailed t old new else
      if (Elf32Ehdr.ofBytes r.2).phentsize = 0 ∨ (Elf32Ehdr.ofBytes r.2).phoff = 0 then
        execFailed t old new
      else restSegments t argsAt old new argv file (Elf32Ehdr.ofBytes r.2) 0 none := by
  have hfail : (pure 0 >>= restLoad t argsAt old new argv) = execFailed t old new := by
    rw [pure_bind, restLoad, if_pos rfl]
  have hload : execLoad disk argsAt t old new name argv =
      loadElfFile disk t name new >>= restLoad t argsAt old new argv := rfl
  rw [hload, loadElfFile, bind_assoc]
  refine congrArg (onFile (sysOpen disk name) >>= ·) (funext fun file => ?_)
  by_cases hfile : file < 0
  · rw [if_pos hfile, if_pos hfile, bind_assoc, hfail]
  · rw [if_neg hfile, if_neg hfile]
    simp only [loadElfOpen, bind_assoc]
    refine congrArg (onFile (sysReadLocal file ehdrSize none) >>= ·) (funext fun r => ?_)
    split_ifs
    · exact hfail
    · exact hfail
    · exact hfail
    · exact hfail
    · rw [bind_assoc, restSegments]
      refine congrArg (Prog.loopWith _ _ 0 none >>= ·) (funext fun q => ?_)
      cases q with
      | inr phdr => exact pure_bind _ _
      | inl u => exact pure_bind _ _

theorem splits (L : Layout) (t : TaskId) : Cut.Splits (step L t) (rest L t) := by
  intro p
  cases p with
  | start disk argsAt name argv =>
      simp only [rest, step, bind_assoc]
      refine congrArg (onVm (getFileName name) >>= ·) (funext fun src => ?_)
      refine congrArg (copyTaskName t src >>= ·) (funext fun _ => ?_)
      refine congrArg ((Prog.gets fun s : Kernel => (s.task t).tss.cr3) >>= ·) (funext fun old => ?_)
      refine congrArg (onVm (memoryCreateUvm L) >>= ·) (funext fun new => ?_)
      split_ifs
      · rw [rest_failed]
      · rw [pure_bind, Sum.elim_inl, rest]
  | opening disk argsAt old new name argv =>
      rw [rest, execLoad_eq]
      simp only [step, bind_assoc]
      refine congrArg (onFile (sysOpen disk name) >>= ·) (funext fun file => ?_)
      split_ifs
      · rw [bind_assoc, rest_failed]
      · rw [bind_assoc]
        refine congrArg (onFile (sysReadLocal file ehdrSize none) >>= ·) (funext fun r => ?_)
        split_ifs
        · rw [rest_failed]
        · rw [rest_failed]
        · rw [rest_failed]
        · rw [rest_failed]
        · rw [pure_bind, Sum.elim_inl, rest]
  | segments argsAt old new argv file hdr i phdr =>
      rw [rest, step]
      split_ifs with hi hentry
      · rw [restSegments_succ hi, bind_assoc]
        refine congrArg (loadHeader t file new _ _ i phdr >>= ·) (funext fun r => ?_)
        cases r with
        | inr phdr' => rfl
        | inl u => exact (rest_failed (L := L)).symm
      · have h0 : hdr.phnum - i = 0 := by omega
        rw [restSegments, h0, Prog.loopWith, pure_bind, afterHeaders, restLoad, if_pos hentry, rest_failed]
      · have h0 : hdr.phnum - i = 0 := by omega
        rw [restSegments, h0, Prog.loopWith, pure_bind, afterHeaders, restLoad, if_neg hentry, pure_bind,
          Sum.elim_inl, rest]
  | stack argsAt old new entry argv =>
      simp only [rest, step, bind_assoc]
      refine congrArg (onVm (memoryAllocForPageDir _ _ _ _) >>= ·) (funext fun err => ?_)
      split_ifs
      · rw [rest_failed]
      · rw [pure_bind, Sum.elim_inl, rest]
  | args argsAt old new entry argv =>
      simp only [rest, step, execStart, bind_assoc]
      refine congrArg (onVm (stringsCount argv) >>= ·) (funext fun argc => ?_)
      refine congrArg (onVm (copyArgs _ _ _ _ _) >>= ·) (funext fun err => ?_)
      split_ifs
      · rw [rest_failed]
      · simp only [bind_assoc]
        refine congrArg ((Prog.gets fun s : Kernel => (s.task t).tss.esp0) >>= ·) (funext fun esp0 => ?_)
        refine congrArg (execFrame esp0 entry >>= ·) (funext fun _ => ?_)
        refine congrArg (setPageDir t new >>= ·) (funext fun _ => ?_)
        rw [pure_bind, Sum.elim_inl, rest_destroy]
  | destroy r c =>
      simp only [rest, step, bind_assoc]
      rw [CopyPc.splits L 0 c, onVm_bind, bind_assoc]
      refine congrArg (onVm _ >>= ·) (funext fun next => ?_)
      cases next with
      | inl next => simp only [pure_bind, Sum.elim_inl, rest]
      | inr d => simp only [pure_bind, Sum.elim_inr, onVm_pure]

/-! ## One call without interruption -/

/-- A bound for the number of steps that are left. -/
def size : ExecPc → ℕ
  | .start .. => 10 ^ 8 + 2 ^ 16 + 4
  | .opening .. => 10 ^ 8 + 2 ^ 16 + 3
  | .segments _ _ _ _ _ hdr i _ => 10 ^ 8 + 2 + (hdr.phnum - i)
  | .stack .. => 10 ^ 8 + 1
  | .args .. => 10 ^ 8
  | .destroy _ c => c.size

variable {s s' : Kernel} {pc next : ExecPc}

theorem failed_next (h : failed t old new s = some (.inl next, s')) : next.size < 10 ^ 7 := by
  obtain ⟨_, s₁, -, h⟩ := Prog.bind_eq_some.mp h
  obtain rfl := Sum.inl.inj (Prog.pure_eq_some.mp h).1
  exact CopyPc.size_failed new

theorem size_lt (h : step L t pc s = some (.inl next, s')) : next.size < pc.size := by
  have hfailed : ∀ {old new s₁}, failed t old new s₁ = some (.inl next, s') → next.size < 10 ^ 7 :=
    failed_next
  cases pc with
  | start disk argsAt name argv =>
      obtain ⟨src, s₁, -, h⟩ := Prog.bind_eq_some.mp h
      obtain ⟨_, s₂, -, h⟩ := Prog.bind_eq_some.mp h
      obtain ⟨old, s₃, -, h⟩ := Prog.bind_eq_some.mp h
      obtain ⟨new, s₄, -, h⟩ := Prog.bind_eq_some.mp h
      split_ifs at h
      · refine (hfailed h).trans ?_
        simp only [size]
        omega
      · obtain rfl := Sum.inl.inj (Prog.pure_eq_some.mp h).1
        simp only [size]
        omega
  | opening disk argsAt old new name argv =>
      simp only [step] at h
      obtain ⟨file, s₁, -, h⟩ := Prog.bind_eq_some.mp h
      have hbound : 10 ^ 7 < size (.opening disk argsAt old new name argv) := by
        simp only [size]
        omega
      split_ifs at h
      · obtain ⟨_, s₂, -, h⟩ := Prog.bind_eq_some.mp h
        exact (hfailed h).trans hbound
      · obtain ⟨r, s₂, -, h⟩ := Prog.bind_eq_some.mp h
        split_ifs at h
        · exact (hfailed h).trans hbound
        · exact (hfailed h).trans hbound
        · exact (hfailed h).trans hbound
        · exact (hfailed h).trans hbound
        · obtain rfl := Sum.inl.inj (Prog.pure_eq_some.mp h).1
          have hnum : (Elf32Ehdr.ofBytes r.2).phnum < 2 ^ 16 := halfAt_lt _ _
          simp only [size]
          omega
  | segments argsAt old new argv file hdr i phdr =>
      have hbound : 10 ^ 7 < size (.segments argsAt old new argv file hdr i phdr) := by
        simp only [size]
        omega
      rw [step] at h
      split_ifs at h with hi
      · obtain ⟨r, s₁, -, h⟩ := Prog.bind_eq_some.mp h
        cases r with
        | inr phdr' =>
            obtain rfl := Sum.inl.inj (Prog.pure_eq_some.mp h).1
            simp only [size]
            omega
        | inl u => exact (hfailed h).trans hbound
      · exact (hfailed h).trans hbound
      · obtain rfl := Sum.inl.inj (Prog.pure_eq_some.mp h).1
        simp only [size]
        omega
  | stack argsAt old new entry argv =>
      obtain ⟨err, s₁, -, h⟩ := Prog.bind_eq_some.mp h
      split_ifs at h
      · refine (hfailed h).trans ?_
        simp only [size]
        omega
      · obtain rfl := Sum.inl.inj (Prog.pure_eq_some.mp h).1
        exact Nat.lt_succ_self _
  | args argsAt old new entry argv =>
      obtain ⟨argc, s₁, -, h⟩ := Prog.bind_eq_some.mp h
      obtain ⟨err, s₂, -, h⟩ := Prog.bind_eq_some.mp h
      split_ifs at h
      · refine (hfailed h).trans ?_
        simp only [size]
        omega
      · obtain ⟨esp0, s₃, -, h⟩ := Prog.bind_eq_some.mp h
        obtain ⟨_, s₄, -, h⟩ := Prog.bind_eq_some.mp h
        obtain ⟨_, s₅, -, h⟩ := Prog.bind_eq_some.mp h
        obtain rfl := Sum.inl.inj (Prog.pure_eq_some.mp h).1
        refine (CopyPc.size_failed old).trans ?_
        simp only [size]
        omega
  | destroy r c =>
      obtain ⟨q, s₁, hq, h⟩ := Prog.bind_eq_some.mp h
      obtain ⟨v, hv, -⟩ := onVm_eq_some.mp hq
      cases q with
      | inl q =>
          obtain rfl := Sum.inl.inj (Prog.pure_eq_some.mp h).1
          exact CopyPc.size_lt hv
      | inr d => cases (Prog.pure_eq_some.mp h).1

/-- Without anything between them, the steps of the current task are `sys_execve`. -/
theorem finishes_iff {c : ℤ} (hcurr : s.sched.currTask = some t) :
    Cut.Finishes (step L t) (.start disk argsAt name argv) s c s' ↔
      sysExecve L disk argsAt name argv s = some (c, s') := by
  rw [(splits L t).finishes_iff size fun _ _ _ _ => size_lt, sysExecve,
    Prog.bind_of_eq (taskCurrent_eq hcurr)]
  rfl

end ExecPc

end Kernel

end X86Os
