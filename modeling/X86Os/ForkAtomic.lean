import X86Os.Kernel
import X86Os.SchedRun
import X86Os.UvmCopy

/-!
# A fork that fails

What `sys_fork` leaves behind when a resource runs out. Nothing has changed after a missing task slot,
and after a missing descriptor or a missing stack if the slot was clean; the later failures release
what was taken twice, or are not noticed at all.
-/

namespace X86Os

namespace Kernel

/-- The slot is as `task_manager_init` left it. -/
structure SlotClean (s : Kernel) (t : TaskId) : Prop where
  task : s.task t = .zero
  sched : s.sched.clearTask t = s.sched

/-- The state `s'` is `s` as far as `sys_fork` may not change it, and no selector or page was released
more than once. -/
structure Unchanged (s s' : Kernel) : Prop where
  task : s'.task = s.task
  sched : s'.sched = s.sched
  gdt : ∀ i, (s'.gdt i).attr = 0 ↔ (s.gdt i).attr = 0
  pages : ∀ k : ℕ, (k : ℤ) < s.vm.alloc.bitmap.bitCount →
    s'.vm.alloc.bitmap.bitAt k = s.vm.alloc.bitmap.bitAt k
  sels : ∀ sel, s'.gdtFrees.count sel ≤ s.gdtFrees.count sel + 1
  frees : ∀ addr, (s'.vm.frees.map FreeCall.addr).count addr ≤
    (s.vm.frees.map FreeCall.addr).count addr + 1

/-- `sys_fork` fails and has no other effect. -/
def ForkAtomic (L : Layout) (residue : ℕ) (s : Kernel) : Prop :=
  ∃ s', sysFork L residue s = some (-1, s') ∧ Unchanged s s'

/-- No page is left. -/
def NoPage (s : Kernel) : Prop :=
  ∀ k : ℕ, (k : ℤ) < s.vm.alloc.bitmap.bitCount → s.vm.alloc.bitmap.bitAt k = true

variable {L : Layout} {residue : ℕ} {s s' s₁ : Kernel} {parent t : TaskId} {entry esp i : ℕ}
  {name : TaskName} {err : ℤ}

/-! ## Steps that do not fail -/

theorem memoryFreePage_keeps {addr : ℕ} {u : Unit} (h : memoryFreePage addr s = some (u, s')) :
    s'.gdtFrees = s.gdtFrees ∧ s'.task = s.task ∧ s'.sched = s.sched := by
  obtain ⟨dir, s₁, hdir, hfree⟩ := Prog.bind_eq_some.mp h
  obtain ⟨-, rfl⟩ := Prog.gets_eq_some.mp hdir
  obtain ⟨v, -, rfl⟩ := onVm_eq_some.mp hfree
  exact ⟨rfl, rfl, rfl⟩

theorem freeStack_keeps {stack : ℕ} {u : Unit} (h : freeStack stack s = some (u, s')) :
    s'.gdtFrees = s.gdtFrees ∧ s'.task = s.task ∧ s'.sched = s.sched := by
  rw [freeStack] at h
  split_ifs at h
  · exact memoryFreePage_keeps h
  · obtain ⟨-, rfl⟩ := Prog.pure_eq_some.mp h
    exact ⟨rfl, rfl, rfl⟩

theorem freeEsp0_keeps {esp0 : ℕ} {u : Unit} (h : freeEsp0 esp0 s = some (u, s')) :
    s'.gdtFrees = s.gdtFrees ∧ s'.task = s.task ∧ s'.sched = s.sched := by
  rw [freeEsp0] at h
  split_ifs at h
  · exact memoryFreePage_keeps h
  · obtain ⟨-, rfl⟩ := Prog.pure_eq_some.mp h
    exact ⟨rfl, rfl, rfl⟩

theorem freeSel_keeps {sel : ℕ} {u : Unit} (h : freeSel sel s = some (u, s')) :
    s'.gdtFrees = (s.gdtFrees ++ if sel ≠ 0 then [sel] else []) ∧ s'.task = s.task ∧
      s'.sched = s.sched := by
  rw [freeSel] at h
  split_ifs at h with hsel
  · rw [gdtFreeSel_eq_some.mp h, if_pos hsel]
    exact ⟨rfl, rfl, rfl⟩
  · obtain ⟨-, rfl⟩ := Prog.pure_eq_some.mp h
    rw [if_neg hsel, List.append_nil]
    exact ⟨rfl, rfl, rfl⟩

/-! ## `tss_init` -/

theorem tssInit_noDesc (h : gdtFree s.gdt = none) : tssInit L t entry esp name s = some (-1, s) := by
  rw [tssInit, Prog.bind_of_eq (gdtAllocDesc_none h), if_pos (by norm_num)]
  rfl

/-- The state in which `tss_init` asks for a stack. -/
def withDesc (L : Layout) (t : TaskId) (i : ℕ) (s : Kernel) : Kernel :=
  { s with
    gdt := X86Os.segmentDescSet (Function.update s.gdt i { s.gdt i with attr := segPPresent })
      (8 * i) (taskAddr L t + tssOffset) tssSize (segPPresent ||| segDpl0 ||| segTypeTss)
    task := Function.update s.task t ((s.task t).withTss .zero) }

theorem tssInit_desc (h : gdtFree s.gdt = some i) : tssInit L t entry esp name s =
    (onVm memoryAllocPage >>= fun kernelStack =>
      if kernelStack = 0 then tssInitFailed (8 * i) kernelStack
      else tssInitStack L t entry esp name (8 * i) kernelStack) (withDesc L t i s) := by
  have hpos : ¬ ((8 * i : ℕ) : ℤ) ≤ 0 := by
    have := (gdtFree_eq_some h).1
    omega
  rw [tssInit, Prog.bind_of_eq (gdtAllocDesc_some h), if_neg hpos, Int.toNat_natCast]
  rfl

/-- The state in which `tss_init` has a stack, or none. -/
def withStack (L : Layout) (t : TaskId) (i : ℕ) (s : Kernel) : Kernel :=
  { withDesc L t i s with
    vm := { s.vm with alloc := (addrAllocPage s.vm.alloc 1).2 } }

theorem allocStack : onVm memoryAllocPage (withDesc L t i s) =
    some ((addrAllocPage s.vm.alloc 1).1, withStack L t i s) := rfl

theorem tssInit_noStack (h : gdtFree s.gdt = some i) (h0 : (addrAllocPage s.vm.alloc 1).1 = 0) :
    tssInit L t entry esp name s = some (-1, { withStack L t i s with
      gdt := X86Os.gdtFreeSel (withDesc L t i s).gdt (8 * i)
      gdtFrees := s.gdtFrees ++ [8 * i] }) := by
  rw [tssInit_desc h, Prog.bind_of_eq allocStack, if_pos h0, h0]
  rfl

theorem tssInit_stack (h : gdtFree s.gdt = some i) (h0 : (addrAllocPage s.vm.alloc 1).1 ≠ 0)
    (hrun : tssInit L t entry esp name s = some (err, s')) :
    err = 0 ∨ (s'.gdtFrees = s.gdtFrees ++ [8 * i] ∧ (s'.task t).tssSel = 8 * i ∧
      s'.sched = s.sched) := by
  rw [tssInit_desc h, Prog.bind_of_eq allocStack, if_neg h0, tssInitStack] at hrun
  obtain ⟨_, _, hcode, hrun⟩ := Prog.bind_eq_some.mp hrun
  obtain ⟨-, rfl⟩ := Prog.gets_eq_some.mp hcode
  obtain ⟨_, _, hdata, hrun⟩ := Prog.bind_eq_some.mp hrun
  obtain ⟨-, rfl⟩ := Prog.gets_eq_some.mp hdata
  obtain ⟨_, s₁, hset, hrun⟩ := Prog.bind_eq_some.mp hrun
  have hs₁ := Prog.modify_eq_some.mp hset
  obtain ⟨dir, s₂, hcreate, hrun⟩ := Prog.bind_eq_some.mp hrun
  obtain ⟨v, -, hs₂⟩ := onVm_eq_some.mp hcreate
  by_cases hdir : dir = 0
  · rw [if_pos hdir, tssInitFailed] at hrun
    obtain ⟨_, s₃, hsel, hrun⟩ := Prog.bind_eq_some.mp hrun
    have hs₃ := Prog.modify_eq_some.mp hsel
    obtain ⟨_, s₄, hstack, hrun⟩ := Prog.bind_eq_some.mp hrun
    obtain ⟨hfrees, htask, hsched⟩ := freeStack_keeps hstack
    obtain ⟨-, rfl⟩ := Prog.pure_eq_some.mp hrun
    have hlt : 8 * i < 2 ^ 16 := by
      have := (gdtFree_eq_some h).2.1
      unfold gdtTableSize at this
      omega
    refine .inr ⟨?_, ?_, ?_⟩
    · rw [hfrees, hs₃, hs₂, hs₁]
      rfl
    · rw [htask, hs₃, hs₂, hs₁]
      simp only [Function.update_self]
      exact Nat.mod_eq_of_lt hlt
    · rw [hsched, hs₃, hs₂, hs₁]
      rfl
  · rw [if_neg hdir] at hrun
    obtain ⟨_, s₃, -, hrun⟩ := Prog.bind_eq_some.mp hrun
    exact .inl (Prog.pure_eq_some.mp hrun).1

/-! ## `sys_fork` -/

theorem sysFork_noSlot (hc : s.sched.currTask = some parent) (h : s.freeSlot = none) :
    sysFork L residue s = some (-1, s) := by
  rw [sysFork, Prog.bind_of_eq (taskCurrent_eq hc), allocTask, Prog.gets_bind, h]
  rfl

/-- What `fork_failed` does to the slot and the selectors. -/
theorem forkFailed_eq_some {c : ℤ} (h : forkFailed (some t) s = some (c, s')) :
    c = -1 ∧ s'.task t = .zero ∧ s'.sched = s.sched.clearTask t ∧
      s'.gdtFrees = s.gdtFrees ++ if (s.task t).tssSel ≠ 0 then [(s.task t).tssSel] else [] := by
  rw [forkFailed] at h
  obtain ⟨_, s₁, hfree, hrest⟩ := Prog.bind_eq_some.mp h
  obtain ⟨_, s₅, huninit, hret⟩ := Prog.bind_eq_some.mp hrest
  obtain ⟨rfl, rfl⟩ := Prog.pure_eq_some.mp hret
  rw [freeTask, setTask_eq_some] at hfree
  rw [taskUninit, Prog.gets_bind] at huninit
  obtain ⟨_, s₂, hsel, huninit⟩ := Prog.bind_eq_some.mp huninit
  obtain ⟨_, s₃, hesp, huninit⟩ := Prog.bind_eq_some.mp huninit
  obtain ⟨_, s₄, hset, hclear⟩ := Prog.bind_eq_some.mp huninit
  obtain ⟨hsel₁, -, hsel₃⟩ := freeSel_keeps hsel
  obtain ⟨hesp₁, -, hesp₃⟩ := freeEsp0_keeps hesp
  have hs₁ : (s₁.task t).tssSel = (s.task t).tssSel := by
    rw [hfree]
    simp only [Function.update_self]
  rw [setSched_eq_some.mp hclear, setTask_eq_some.mp hset]
  refine ⟨rfl, Function.update_self _ _ _, ?_, ?_⟩
  · show s₃.sched.clearTask t = _
    rw [hesp₃, hsel₃, hfree]
  · show s₃.gdtFrees = _
    rw [hesp₁, hsel₁, hs₁, hfree]

/-- What `g` reads of the task `t` stays as it is. -/
def SameTask {B : Type} (g : Task → B) (t : TaskId) (s s' : Kernel) : Prop :=
  g (s'.task t) = g (s.task t)

instance {B : Type} (g : Task → B) (t : TaskId) : IsPreorder Kernel (SameTask g t) where
  refl _ := rfl
  trans _ _ _ h h' := h'.trans h

/-- `g` does not read the TSS and the parent. -/
structure ApartFromTss {B : Type} (g : Task → B) : Prop where
  tss : ∀ task tss, g (task.withTss tss) = g task
  parent : ∀ task p, g { task with parent := p } = g task

theorem apartFromTss_pid : ApartFromTss Task.pid := ⟨fun _ _ => rfl, fun _ _ => rfl⟩

variable {B : Type} {g : Task → B}

theorem sameTask_setTask {u : TaskId} {f : Task → Task} (hf : ∀ task, g (f task) = g task) :
    Prog.Along (SameTask g t) (setTask u f) := by
  intro s x s' h
  rw [setTask_eq_some.mp h]
  by_cases he : t = u
  · subst he
    simp only [SameTask, Function.update_self, hf]
  · simp only [SameTask, Function.update_of_ne he]

theorem sameTask_onVm {A : Type} {f : Prog Vm A} : Prog.Along (SameTask g t) (onVm f) :=
  Prog.along_zoom fun _ _ => rfl

theorem sameTask_setSched (f : KernelSched → KernelSched) :
    Prog.Along (SameTask g t) (setSched f) := Prog.along_modify fun _ => rfl

theorem sameTask_forkRegisters (hg : ApartFromTss g) (esp0 : ℕ) :
    Prog.Along (SameTask g t) (forkRegisters t esp0) := by
  have hword : ∀ k, Prog.Along (SameTask g t) (frameWord esp0 k) := fun k => sameTask_onVm
  unfold forkRegisters
  refine (hword 9).bind fun _ => (hword 11).bind fun _ => (hword 10).bind fun _ =>
    (hword 6).bind fun _ => (hword 5).bind fun _ => (hword 7).bind fun _ =>
    (hword 14).bind fun _ => (hword 4).bind fun _ => (hword 3).bind fun _ =>
    (hword 2).bind fun _ => (hword 1).bind fun _ => (hword 0).bind fun _ => ?_
  exact sameTask_setTask fun task => hg.tss task _

/-- A fork that gets past `task_init` returns the pid of its slot and keeps what `task_init` set up. -/
theorem forkChild_result {c : ℤ} {esp0 : ℕ} (h : forkChild L residue parent t esp0 s = some (c, s')) :
    c = (s.task t).pid ∧ ∀ {B : Type} (g : Task → B), ApartFromTss g → SameTask g t s s' := by
  rw [forkChild] at h
  obtain ⟨_, s₁, hregs, h⟩ := Prog.bind_eq_some.mp h
  obtain ⟨_, s₂, hparent, h⟩ := Prog.bind_eq_some.mp h
  rw [Prog.gets_bind] at h
  obtain ⟨dir, s₃, hcopy, h⟩ := Prog.bind_eq_some.mp h
  obtain ⟨_, s₄, hdir, h⟩ := Prog.bind_eq_some.mp h
  obtain ⟨_, s₅, hstart, h⟩ := Prog.bind_eq_some.mp h
  obtain ⟨rfl, rfl⟩ := Prog.gets_eq_some.mp h
  have hsame : ∀ {B : Type} (g : Task → B), ApartFromTss g → SameTask g t s s' := by
    intro B g hg
    have h1 : SameTask g t s s₁ := sameTask_forkRegisters hg esp0 s _ s₁ hregs
    have h2 : SameTask g t s₁ s₂ := sameTask_setTask (fun task => hg.parent task _) _ _ _ hparent
    have h3 : SameTask g t s₂ s₃ := sameTask_onVm _ _ _ hcopy
    have h4 : SameTask g t s₃ s₄ := sameTask_setTask (fun task => hg.tss task _) _ _ _ hdir
    have h5 : SameTask g t s₄ s' := sameTask_setSched _ _ _ _ hstart
    exact h5.trans (h4.trans (h3.trans (h2.trans h1)))
  exact ⟨hsame Task.pid apartFromTss_pid, hsame⟩

/-- What `task_init` sets up besides the TSS. -/
theorem taskInit_fields (h : taskInit L t name entry esp s = some (err, s')) (herr : ¬ err < 0) :
    (s'.task t).pid = i32 (taskAddr L t) ∧ (s'.task t).heapStart = 0 ∧ (s'.task t).heapEnd = 0 := by
  rw [taskInit] at h
  obtain ⟨e, s₁, -, h⟩ := Prog.bind_eq_some.mp h
  by_cases he : e < 0
  · rw [if_pos he] at h
    exact absurd ((Prog.pure_eq_some.mp h).1 ▸ he) herr
  · rw [if_neg he] at h
    obtain ⟨_, s₂, -, h⟩ := Prog.bind_eq_some.mp h
    obtain ⟨_, s₃, hset, h⟩ := Prog.bind_eq_some.mp h
    obtain ⟨_, s₄, hsched, h⟩ := Prog.bind_eq_some.mp h
    obtain ⟨-, rfl⟩ := Prog.pure_eq_some.mp h
    rw [setSched_eq_some.mp hsched, setTask_eq_some.mp hset]
    simp only [Function.update_self, and_self]

/-- The error of `task_init` is that of `tss_init`. -/
theorem taskInit_failed (h : taskInit L t name entry esp s = some (err, s')) (herr : err < 0) :
    tssInit L t entry esp name s = some (err, s') := by
  rw [taskInit] at h
  obtain ⟨e, s₁, htss, h⟩ := Prog.bind_eq_some.mp h
  by_cases he : e < 0
  · rw [if_pos he] at h
    obtain ⟨rfl, rfl⟩ := Prog.pure_eq_some.mp h
    exact htss
  · rw [if_neg he] at h
    obtain ⟨_, s₂, -, h⟩ := Prog.bind_eq_some.mp h
    obtain ⟨_, s₃, -, h⟩ := Prog.bind_eq_some.mp h
    obtain ⟨_, s₄, -, h⟩ := Prog.bind_eq_some.mp h
    obtain ⟨rfl, -⟩ := Prog.pure_eq_some.mp h
    exact absurd herr (by norm_num)

/-- The addresses of tasks are no error codes. -/
theorem slotAddr_ne (L : Layout) (i : ℕ) : i32 (taskAddr L (.slot i)) ≠ -1 := by
  intro h
  have hal := L.taskTable_aligned
  obtain ⟨q, hq⟩ := Int.dvd_bmod_sub_self (x := (taskAddr L (.slot i) : ℤ)) (m := 2 ^ 32)
  have hq' : (-1 : ℤ) - ((L.taskTable + 196 * i : ℕ) : ℤ) = 2 ^ 32 * q := by
    rw [← h]
    exact_mod_cast hq
  omega

theorem load32_keeps {v w : ℕ} {m m' : Vm} (h : load32 v m = some (w, m')) : m' = m := by
  have hload : ∀ {a : ℕ} {b : BitVec 8} {n n' : Vm}, load8 a n = some (b, n') → n' = n := by
    intro a b n n' hl
    obtain ⟨x, -, hx⟩ := Option.map_eq_some_iff.mp hl
    exact (Prod.mk.inj hx).2.symm
  rw [load32] at h
  obtain ⟨_, m₁, h1, h⟩ := Prog.bind_eq_some.mp h
  obtain ⟨_, m₂, h2, h⟩ := Prog.bind_eq_some.mp h
  obtain ⟨_, m₃, h3, h⟩ := Prog.bind_eq_some.mp h
  obtain ⟨_, m₄, h4, h⟩ := Prog.bind_eq_some.mp h
  obtain ⟨-, rfl⟩ := Prog.pure_eq_some.mp h
  rw [hload h4, hload h3, hload h2, hload h1]

theorem frameWord_keeps {esp0 k w : ℕ} (h : frameWord esp0 k s = some (w, s')) : s' = s := by
  obtain ⟨v, hload, rfl⟩ := onVm_eq_some.mp h
  rw [load32_keeps hload]

/-- The two ways of a fork that finds a slot. -/
theorem sysFork_slot {c : ℤ} (hc : s.sched.currTask = some parent) (hslot : s.freeSlot = some i)
    (h : sysFork L residue s = some (c, s')) : ∃ eip esp err s₁,
      taskInit L (.slot i) (s.task parent).name eip esp s = some (err, s₁) ∧
        ((err < 0 ∧ forkFailed (some (.slot i)) s₁ = some (c, s')) ∨
          (¬ err < 0 ∧
            forkChild L residue parent (.slot i) (s.task parent).tss.esp0 s₁ = some (c, s'))) := by
  rw [sysFork, Prog.bind_of_eq (taskCurrent_eq hc), allocTask, Prog.gets_bind, hslot] at h
  replace h : forkSlot L residue parent (.slot i) s = some (c, s') := h
  rw [forkSlot, Prog.gets_bind] at h
  obtain ⟨eip, _, heip, h⟩ := Prog.bind_eq_some.mp h
  obtain rfl := frameWord_keeps heip
  obtain ⟨esp, _, hesp, h⟩ := Prog.bind_eq_some.mp h
  obtain rfl := frameWord_keeps hesp
  obtain ⟨err, s₁, hinit, h⟩ := Prog.bind_eq_some.mp h
  refine ⟨eip, _, err, s₁, hinit, ?_⟩
  by_cases herr : err < 0
  · rw [if_pos herr] at h
    exact .inl ⟨herr, h⟩
  · rw [if_neg herr] at h
    exact .inr ⟨herr, h⟩

/-- The child of a successful fork has an empty heap at address zero. -/
theorem sysFork_child {c : ℤ} (hc : s.sched.currTask = some parent) (hslot : s.freeSlot = some i)
    (h : sysFork L residue s = some (c, s')) (hne : c ≠ -1) :
    (s'.task (.slot i)).heapStart = 0 ∧ (s'.task (.slot i)).heapEnd = 0 := by
  obtain ⟨eip, esp, err, s₁, hinit, ⟨-, hfail⟩ | ⟨herr, hchild⟩⟩ := sysFork_slot hc hslot h
  · exact absurd (forkFailed_eq_some hfail).1 hne
  · obtain ⟨-, hstart, hend⟩ := taskInit_fields hinit herr
    have h1 := (forkChild_result hchild).2 Task.heapStart ⟨fun _ _ => rfl, fun _ _ => rfl⟩
    have h2 := (forkChild_result hchild).2 Task.heapEnd ⟨fun _ _ => rfl, fun _ _ => rfl⟩
    exact ⟨h1.trans hstart, h2.trans hend⟩

/-- A fork that fails after it found a slot goes from `tss_init` to `fork_failed`. -/
theorem sysFork_failed (hc : s.sched.currTask = some parent) (hslot : s.freeSlot = some i)
    (h : sysFork L residue s = some (-1, s')) : ∃ eip esp err s₁,
      tssInit L (.slot i) eip esp (s.task parent).name s = some (err, s₁) ∧ err < 0 ∧
        forkFailed (some (.slot i)) s₁ = some (-1, s') := by
  obtain ⟨eip, esp, err, s₁, hinit, ⟨herr, hfail⟩ | ⟨herr, hchild⟩⟩ := sysFork_slot hc hslot h
  · exact ⟨eip, esp, err, s₁, taskInit_failed hinit herr, herr, hfail⟩
  · have hpid := (forkChild_result hchild).1
    rw [(taskInit_fields hinit herr).1] at hpid
    exact absurd hpid.symm (slotAddr_ne L i)

/-! ## Failures without a trace -/

theorem forkFailed_clean (h : SlotClean s t) : forkFailed (some t) s = some (-1, s) := by
  have hname : { s.task t with name := Function.update (s.task t).name 0 0 } = s.task t := by
    rw [h.task]
    simp only [Task.zero, Task.mk.injEq, and_true]
    exact Function.update_eq_self 0 TaskName.zero
  have hfree : freeTask t s = some ((), s) := by
    rw [freeTask, setTask_eq_some, hname, Function.update_eq_self]
  have hsel : freeSel (s.task t).tssSel s = some ((), s) := by
    rw [h.task]
    rfl
  have hesp : freeEsp0 (s.task t).tss.esp0 s = some ((), s) := by
    rw [h.task]
    rfl
  have hzero : setTask t (fun _ => Task.zero) s = some ((), s) := by
    rw [setTask_eq_some, ← h.task, Function.update_eq_self]
  have hclear : setSched (Sched.clearTask t) s = some ((), s) := by
    rw [setSched_eq_some, h.sched]
  have huninit : taskUninit t s = some ((), s) := by
    rw [taskUninit, Prog.gets_bind, Prog.bind_of_eq hsel, Prog.bind_of_eq hesp,
      Prog.bind_of_eq hzero]
    exact hclear
  rw [forkFailed, Prog.bind_of_eq hfree, Prog.bind_of_eq huninit]
  rfl

/-- The state after the stack could not be allocated. -/
def stackFailed (L : Layout) (t : TaskId) (i : ℕ) (s : Kernel) : Kernel :=
  { withStack L t i s with
    gdt := X86Os.gdtFreeSel (withDesc L t i s).gdt (8 * i)
    gdtFrees := s.gdtFrees ++ [8 * i] }

theorem SlotClean.stackFailed (h : SlotClean s t) : (stackFailed L t i s).task = s.task ∧
    SlotClean (stackFailed L t i s) t := by
  have htask : (Kernel.stackFailed L t i s).task = s.task := by
    have hzero : (s.task t).withTss .zero = s.task t := by
      rw [h.task]
      rfl
    show Function.update s.task t ((s.task t).withTss .zero) = s.task
    rw [hzero, Function.update_eq_self]
  exact ⟨htask, htask ▸ h.task, h.sched⟩

theorem gdt_stackFailed {k : ℕ} (h : gdtFree s.gdt = some i) :
    ((stackFailed L t i s).gdt k).attr = 0 ↔ (s.gdt k).attr = 0 := by
  have hdiv : 8 * i / 8 = i := Nat.mul_div_cancel_left i (by norm_num)
  simp only [stackFailed, withDesc, X86Os.gdtFreeSel, X86Os.segmentDescSet, hdiv]
  by_cases hk : k = i
  · subst hk
    simp [(gdtFree_eq_some h).2.2]
  · simp only [Function.update_of_ne hk]

theorem unchanged_stackFailed (h : gdtFree s.gdt = some i) (hclean : SlotClean s t)
    (hpage : NoPage s) : Unchanged s (stackFailed L t i s) where
  task := hclean.stackFailed.1
  sched := rfl
  gdt _ := gdt_stackFailed h
  pages k _ := by
    show (addrAllocPage s.vm.alloc 1).2.bitmap.bitAt k = _
    rw [AddrAlloc.allocPage_none hpage]
  sels sel := by
    show (s.gdtFrees ++ [8 * i]).count sel ≤ _
    rw [List.count_append]
    have := List.count_le_length (l := [8 * i]) (a := sel)
    simp only [List.length_singleton] at this
    omega
  frees _ := Nat.le_succ _

theorem Unchanged.refl (s : Kernel) : Unchanged s s where
  task := rfl
  sched := rfl
  gdt _ := Iff.rfl
  pages _ _ := rfl
  sels _ := Nat.le_succ _
  frees _ := Nat.le_succ _

/-- The stack of the task is a kernel page, as `tss_init` allocates it. -/
def HasStack (s : Kernel) (t : TaskId) : Prop :=
  ∃ p, KernelPage p ∧ (s.task t).tss.esp0 = p + memPageSize

theorem frameWord_of_stack (h : HasStack s parent) {k : ℕ} (hk : k < frameWords) :
    ∃ w, frameWord (s.task parent).tss.esp0 k s = some (w, s) := by
  obtain ⟨p, hp, hesp⟩ := h
  have hk' : k < 22 := hk
  have haddr : frameAddr (s.task parent).tss.esp0 k = p + 4 * (1002 + k) := by
    rw [hesp, frameAddr_eq hp.identity.lt hk]
  obtain ⟨hid, hal, -⟩ := hp.word (i := 1002 + k) (by omega)
  refine ⟨s.vm.mem.read32 (p + 4 * (1002 + k)), onVm_eq_some.mpr ⟨s.vm, ?_, rfl⟩⟩
  rw [haddr]
  exact load32_of_identity hid hal

/-- A fork in which `tss_init` fails goes to `fork_failed`. -/
theorem sysFork_of_failed (hc : s.sched.currTask = some parent) (hslot : s.freeSlot = some i)
    (hstack : HasStack s parent)
    (hinit : ∀ eip esp, tssInit L (.slot i) eip esp (s.task parent).name s = some (-1, s₁)) :
    sysFork L residue s = forkFailed (some (.slot i)) s₁ := by
  obtain ⟨eip, heip⟩ := frameWord_of_stack hstack (k := 13) (by decide)
  obtain ⟨esp, hesp⟩ := frameWord_of_stack hstack (k := 20) (by decide)
  have htask : taskInit L (.slot i) (s.task parent).name eip (u32 (esp + 4 * syscallParamCount)) s =
      some (-1, s₁) := by
    rw [taskInit, Prog.bind_of_eq (hinit _ _), if_pos (by norm_num)]
    rfl
  have hfork : forkSlot L residue parent (.slot i) s = forkFailed (some (.slot i)) s₁ := by
    rw [forkSlot, Prog.gets_bind, Prog.bind_of_eq heip, Prog.bind_of_eq hesp,
      Prog.bind_of_eq htask, if_pos (by norm_num)]
  rw [← hfork, sysFork, Prog.bind_of_eq (taskCurrent_eq hc), allocTask, Prog.gets_bind, hslot]
  rfl

/-! ## When a failing fork is atomic -/

/-- Where a fork fails without a trace: no slot is free, or the slot it finds is clean and there is no
descriptor or no page at all. -/
def ForkUndone (s : Kernel) : Prop :=
  s.freeSlot = none ∨ ∃ i, s.freeSlot = some i ∧ SlotClean s (.slot i) ∧
    (gdtFree s.gdt = none ∨ NoPage s)

theorem forkAtomic_of_undone (hc : s.sched.currTask = some parent) (hstack : HasStack s parent)
    (h : ForkUndone s) : ForkAtomic L residue s := by
  rcases h with hslot | ⟨i, hslot, hclean, hrest⟩
  · exact ⟨s, sysFork_noSlot hc hslot, .refl s⟩
  · cases hdesc : gdtFree s.gdt with
    | none =>
        refine ⟨s, ?_, .refl s⟩
        rw [sysFork_of_failed hc hslot hstack fun _ _ => tssInit_noDesc hdesc]
        exact forkFailed_clean hclean
    | some j =>
        have hpage : NoPage s := hrest.resolve_left (by simp [hdesc])
        have hzero : (addrAllocPage s.vm.alloc 1).1 = 0 := by rw [AddrAlloc.allocPage_none hpage]
        refine ⟨stackFailed L (.slot i) j s, ?_, unchanged_stackFailed hdesc hclean hpage⟩
        rw [sysFork_of_failed hc hslot hstack fun _ _ => tssInit_noStack hdesc hzero]
        exact forkFailed_clean hclean.stackFailed.2

/-- With a descriptor and a page the slot is not given back as it was. -/
theorem not_unchanged_of_page {j : ℕ} (hdesc : gdtFree s.gdt = some j) (hpage : ¬ NoPage s)
    (hclean : SlotClean s t) (hinit : tssInit L t entry esp name s = some (err, s₁))
    (herr : err < 0) (hfail : forkFailed (some t) s₁ = some (-1, s')) : ¬ Unchanged s s' := by
  intro hu
  rcases s.vm.alloc.firstClear_or with ⟨k, hk⟩ | hfull
  · by_cases hzero : (addrAllocPage s.vm.alloc 1).1 = 0
    · rw [tssInit_noStack hdesc hzero] at hinit
      obtain ⟨-, rfl⟩ := Prod.mk.inj (Option.some.inj hinit)
      have hback := forkFailed_clean (hclean.stackFailed (L := L) (i := j)).2
      obtain ⟨-, rfl⟩ := Prog.result_unique hback hfail
      have hbit := hu.pages k hk.1
      rw [hk.2.1] at hbit
      have hset : (addrAllocPage s.vm.alloc 1).2.bitmap.bitAt k = false := hbit
      rw [AddrAlloc.allocPage_found hk] at hset
      simp [Bitmap.bitAt_setBit_one _ hk.1] at hset
    · rcases tssInit_stack hdesc hzero hinit with rfl | ⟨hfrees, hsel, -⟩
      · exact absurd herr (lt_irrefl 0)
      · have hpos := (gdtFree_eq_some hdesc).1
        have hlog := (forkFailed_eq_some hfail).2.2.2
        rw [hsel, hfrees, if_pos (by omega)] at hlog
        have hcount := hu.sels (8 * j)
        rw [hlog] at hcount
        simp only [List.count_append, List.count_singleton_self] at hcount
        omega
  · exact hpage hfull

theorem tssInit_sched (h : tssInit L t entry esp name s = some (err, s')) (herr : err < 0) :
    s'.sched = s.sched := by
  cases hdesc : gdtFree s.gdt with
  | none =>
      rw [tssInit_noDesc hdesc] at h
      obtain ⟨-, rfl⟩ := Prod.mk.inj (Option.some.inj h)
      rfl
  | some j =>
      by_cases hzero : (addrAllocPage s.vm.alloc 1).1 = 0
      · rw [tssInit_noStack hdesc hzero] at h
        obtain ⟨-, rfl⟩ := Prod.mk.inj (Option.some.inj h)
        rfl
      · rcases tssInit_stack hdesc hzero h with rfl | ⟨-, -, hsched⟩
        · exact absurd herr (lt_irrefl 0)
        · exact hsched

theorem forkUndone_of_atomic (hc : s.sched.currTask = some parent) (h : ForkAtomic L residue s) :
    ForkUndone s := by
  obtain ⟨s', hrun, hu⟩ := h
  cases hslot : s.freeSlot with
  | none => exact .inl hslot
  | some i =>
      obtain ⟨eip, esp, err, s₁, hinit, herr, hfail⟩ := sysFork_failed hc hslot hrun
      obtain ⟨-, htask, hsched, -⟩ := forkFailed_eq_some hfail
      have hclean : SlotClean s (.slot i) := by
        refine ⟨by rw [← hu.task, htask], ?_⟩
        rw [← tssInit_sched hinit herr, ← hsched, hu.sched, tssInit_sched hinit herr]
      refine .inr ⟨i, hslot, hclean, ?_⟩
      cases hdesc : gdtFree s.gdt with
      | none => exact .inl rfl
      | some j =>
          by_contra hnot
          rw [not_or] at hnot
          exact not_unchanged_of_page hdesc hnot.2 hclean hinit herr hfail hu

/-- A fork fails without a trace exactly when it runs out of a resource before anything is kept. -/
theorem fork_failure_atomic (hc : s.sched.currTask = some parent) (hstack : HasStack s parent) :
    ForkAtomic L residue s ↔ ForkUndone s :=
  ⟨forkUndone_of_atomic hc, forkAtomic_of_undone hc hstack⟩

/-! ## The last page -/

/-- A resource that a fork needs runs out: a slot, a descriptor, or one of the pages for the stack, for
the directory of `tss_init` and for the copy. -/
def ForkRunsOut (s : Kernel) : Prop :=
  s.freeSlot = none ∨ gdtFree s.gdt = none ∨
    s.vm.alloc.clearPages.card < 2 + copyNeed s.vm.mem s.currentPageDir

/-- The first task runs, five descriptors are taken and one page is left. -/
def onePageLeft : Kernel where
  vm := { mem := Mem.zero, alloc := addrAllocInit (fun _ => 0) 0x300000 0x1000 memPageSize,
          cr3 := 0x200000, frees := [] }
  tempPos := 0
  gdt i := if i < 5 then { SegmentDesc.zero with attr := segPPresent } else .zero
  gdtFrees := []
  task
    | .first =>
      { Task.zero with
        name := fun _ => 0x61
        tss := { Tss.zero with esp0 := 0x201000 + memPageSize, cr3 := 0x200000 } }
    | _ => .zero
  sched := { Sched.zeroed with currTask := some .first }
  appCodeSel := 0x20
  appDataSel := 0x18

theorem onePageLeft_stack : HasStack onePageLeft .first :=
  ⟨0x201000, ⟨by decide, by decide, by decide⟩, rfl⟩

theorem onePageLeft_not_undone : ¬ ForkUndone onePageLeft := by
  have hslot : onePageLeft.freeSlot = some 0 := rfl
  have hdesc : gdtFree onePageLeft.gdt = some 5 := rfl
  rintro (hnone | ⟨i, -, -, hnone | hpage⟩)
  · rw [hslot] at hnone
    cases hnone
  · rw [hdesc] at hnone
    cases hnone
  · have hbit := hpage 0 (by decide)
    have hclear : onePageLeft.vm.alloc.bitmap.bitAt (0 : ℕ) = false :=
      Bitmap.bitAt_init _ (by decide)
    rw [hclear] at hbit
    cases hbit

/-- The last page is taken, too. -/
def noPageLeft : Kernel :=
  { onePageLeft with
    vm := { onePageLeft.vm with alloc := (addrAllocPage onePageLeft.vm.alloc 1).2 } }

theorem noPageLeft_undone : ForkUndone noPageLeft := by
  have hclear : Sched.clearTask (.slot 0) noPageLeft.sched = noPageLeft.sched := by
    have hnode : ∀ node, listNodeInit node noPageLeft.sched.nodes = noPageLeft.sched.nodes :=
      fun node => Function.update_eq_self node _
    have htask : Function.update noPageLeft.sched.task (TaskId.slot 0) .zero = noPageLeft.sched.task :=
      Function.update_eq_self (TaskId.slot 0) _
    simp only [Sched.clearTask, Sched.initNode, Sched.setTask, hnode, htask]
  refine .inr ⟨0, rfl, ⟨rfl, hclear⟩, .inr fun k hk => ?_⟩
  have hk' : (k : ℤ) < 1 := hk
  obtain rfl : k = 0 := by omega
  decide

/-- The fork that finds no page has no effect, and the one that finds a single page has. -/
theorem fork_failure_atomic_onePageLeft :
    ForkAtomic sampleLayout 0 noPageLeft ∧ ¬ ForkAtomic sampleLayout 0 onePageLeft :=
  ⟨(fork_failure_atomic (s := noPageLeft) rfl onePageLeft_stack).mpr noPageLeft_undone,
    fun h => onePageLeft_not_undone ((fork_failure_atomic rfl onePageLeft_stack).mp h)⟩

/-- With one page left, `tss_init` and `task_uninit` both release the descriptor and the stack. -/
theorem fork_failure_releases_twice : ¬ ∀ (L : Layout) (residue : ℕ) (s : Kernel) (parent : TaskId),
    s.sched.currTask = some parent → HasStack s parent → ForkRunsOut s → ForkAtomic L residue s := by
  intro h
  refine onePageLeft_not_undone (forkUndone_of_atomic rfl
    (h sampleLayout 0 onePageLeft .first rfl onePageLeft_stack (.inr (.inr ?_))))
  have hcard : onePageLeft.vm.alloc.clearPages.card = 0x1000 / memPageSize :=
    AddrAlloc.card_clearPages_init (by norm_num) (by norm_num)
  rw [hcard]
  unfold memPageSize
  omega

end Kernel

end X86Os
