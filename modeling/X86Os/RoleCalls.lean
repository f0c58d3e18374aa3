import X86Os.CallRun

/-!
# The steps of a call keep the roles

What a call has in its variables fits the roles of the pages, and so does what it leaves in the task that
it sets up or runs in.
-/

namespace X86Os

namespace Kernel

variable {L : Layout} {n residue i : ℕ} {m₀ : Mem} {role role' : RoleMap} {s s' : Kernel} {t p u : TaskId}

/-! ## Tasks -/

/-- The task has its own kernel stack. -/
def Stacked (role : RoleMap) (t : TaskId) (task : Task) : Prop :=
  ∃ q, role q = some (.stack t) ∧ task.tss.esp0 = q + memPageSize

/-- What a task that is being set up has so far. -/
structure TaskRoles (role : RoleMap) (t : TaskId) (task : Task) : Prop where
  dir : task.tss.cr3 = 0 ∨ role task.tss.cr3 = some (.dir t)
  stack : task.tss.esp0 = 0 ∨ Stacked role t task

/-- The task can run. -/
structure TaskRuns (role : RoleMap) (t : TaskId) (task : Task) : Prop where
  dir : role task.tss.cr3 = some (.dir t)
  stack : Stacked role t task

theorem Stacked.keep {task : Task} (h : Stacked role t task)
    (hplain : ∀ q k, k.Plain → role q = some k → role' q = some k) : Stacked role' t task :=
  h.imp fun q hq => ⟨hplain q _ trivial hq.1, hq.2⟩

theorem Stacked.congr {task task' : Task} (h : Stacked role t task) (he : task'.tss.esp0 = task.tss.esp0) :
    Stacked role t task' := h.imp fun _ hq => ⟨hq.1, he.trans hq.2⟩

theorem TaskRuns.roles {task : Task} (h : TaskRuns role t task) : TaskRoles role t task :=
  ⟨.inr h.dir, .inr h.stack⟩

theorem TaskRuns.mono {task : Task} (h : TaskRuns role t task) (hle : role ≤ role') :
    TaskRuns role' t task := ⟨hle _ _ h.dir, h.stack.keep fun _ _ _ => hle _ _⟩

theorem TaskRoles.mono {task : Task} (h : TaskRoles role t task) (hle : role ≤ role') :
    TaskRoles role' t task :=
  ⟨h.dir.imp_right (hle _ _), h.stack.imp_right fun hs => hs.keep fun _ _ _ => hle _ _⟩

theorem TaskRoles.zero : TaskRoles role t .zero := ⟨.inl rfl, .inl rfl⟩

/-! ## Variables -/

/-- What a call of `sys_fork` has in its variables. -/
def ForkRoles (role : RoleMap) (task : TaskId → Task) : ForkPc → Prop
  | .stack t _ _ _ _ kernelStack => role kernelStack = some (.stack t)
  | .dir t _ pageDir => Stacked role t (task t) ∧ role pageDir = some (.dir t)
  | .named t _ => TaskRuns role t (task t)
  | .inserted t _ => TaskRuns role t (task t)
  | .copying t c => TaskRuns role t (task t) ∧ c.Building role t
  | .copied t pageDir => TaskRuns role t (task t) ∧ role pageDir = some (.dir t)
  | .undo t _ kernelStack => kernelStack = 0 ∨ role kernelStack = some (.stack t)
  | .undoStack t kernelStack => kernelStack = 0 ∨ role kernelStack = some (.stack t)
  | _ => True

/-- The local variable `task_args` lies in the kernel stack of the task. -/
def ArgsRole (role : RoleMap) (t : TaskId) (argsAt : ℕ) : Prop :=
  ∃ q, role q = some (.stack t) ∧ q ≤ argsAt ∧ argsAt + taskArgsSize ≤ q + memPageSize

/-- The variables of a call of `sys_execve` that has a new directory. -/
structure Loading (role : RoleMap) (t : TaskId) (argsAt old new : ℕ) : Prop where
  args : ArgsRole role t argsAt
  old : role old = some (.dir t)
  new : role new = some (.dir t)

/-- What a call of `sys_execve` by the task `t` has in its variables. -/
def ExecRoles (role : RoleMap) (t : TaskId) : ExecPc → Prop
  | .start _ argsAt _ _ => ArgsRole role t argsAt
  | .opening _ argsAt old new _ _ => Loading role t argsAt old new
  | .segments argsAt old new _ _ _ _ _ => Loading role t argsAt old new
  | .stack argsAt old new _ _ => Loading role t argsAt old new
  | .args argsAt old new _ _ => Loading role t argsAt old new
  | .destroy _ c => c.Destroying

/-- What a call by the task `p` has in its variables. -/
def CallRoles (role : RoleMap) (task : TaskId → Task) (p : TaskId) : Call → Prop
  | .fork pc => ForkRoles role task pc
  | .exec pc => ExecRoles role p pc

theorem ArgsRole.keep {argsAt : ℕ} (h : ArgsRole role t argsAt)
    (hplain : ∀ q k, k.Plain → role q = some k → role' q = some k) : ArgsRole role' t argsAt :=
  h.imp fun q hq => ⟨hplain q _ trivial hq.1, hq.2⟩

/-- Roles that the call does not depend on may change, and so may a task that can run. -/
theorem CallRoles.keep {task task' : TaskId → Task} {c : Call} (h : CallRoles role task p c)
    (hplain : ∀ q k, k.Plain → role q = some k → role' q = some k)
    (hdir : ∀ d ∈ c.dirs, ∀ o, role d = some (.dir o) → role' d = some (.dir o))
    (htask : ∀ t, c.slot = some t → (TaskRuns role t (task t) → TaskRuns role' t (task' t)) ∧
      (Stacked role t (task t) → Stacked role' t (task' t))) : CallRoles role' task' p c := by
  cases c with
  | fork pc =>
      cases pc with
      | stack t esp0 eip esp sel kernelStack => exact hplain _ _ trivial h
      | dir t esp0 pageDir => exact ⟨(htask t rfl).2 h.1, hdir pageDir rfl _ h.2⟩
      | named t esp0 => exact (htask t rfl).1 h
      | inserted t esp0 => exact (htask t rfl).1 h
      | copying t c => exact ⟨(htask t rfl).1 h.1, h.2.keep (fun d hd => hdir d hd _) hplain⟩
      | copied t pageDir => exact ⟨(htask t rfl).1 h.1, hdir pageDir rfl _ h.2⟩
      | undo t sel kernelStack => exact Or.imp_right (hplain _ _ trivial) h
      | undoStack t kernelStack => exact Or.imp_right (hplain _ _ trivial) h
      | _ => exact trivial
  | exec pc =>
      cases pc with
      | start disk argsAt name argv => exact ArgsRole.keep h hplain
      | destroy r c => exact h
      | _ => exact ⟨h.args.keep hplain, hdir _ (.inl rfl) _ h.old, hdir _ (.inr rfl) _ h.new⟩

/-! ## `sys_fork` -/

/-- What a step of `sys_fork` leaves. -/
structure ForkStepped (L : Layout) (n : ℕ) (m₀ : Mem) (role : RoleMap) (pc : ForkPc) (s : Kernel)
    (next : ForkPc ⊕ ℤ) (s' : Kernel) (role' : RoleMap) : Prop where
  le : role ≤ role'
  roles : Roles L n m₀ s.vm.cr3 role' s'.vm
  curr : s'.sched.currTask = s.sched.currTask
  other : ∀ u, (Call.fork pc).slot ≠ some u → s'.task u = s.task u
  slot : ∀ t, (Call.fork pc).slot = some t → TaskRoles role' t (s'.task t)
  starts : ∀ t, pc.starts = some t → TaskRuns role' t (s'.task t)
  next : ∀ pc', next = .inl pc' → ForkRoles role' s'.task pc' ∧
    ∀ t, (Call.fork pc').slot = some t → t.Exists ∨ (Call.fork pc).slot = some t

variable {pc : ForkPc} {next : ForkPc ⊕ ℤ} {esp0 eip esp sel kernelStack pageDir : ℕ}

theorem taskInit_currTask (t : TaskId) (s : KernelSched) :
    (X86Os.taskInit t s).currTask = s.currTask := rfl

theorem taskStart_currTask (t : TaskId) (s : KernelSched) :
    (X86Os.taskStart .idle t s).currTask = s.currTask := by
  rw [X86Os.taskStart, taskSetReady]
  split_ifs
  · rfl
  · rfl

namespace ForkStepped

/-- A step that changes at most the task in its slot. -/
theorem of_slot (hle : role ≤ role') (hr : Roles L n m₀ s.vm.cr3 role' s'.vm)
    (hcurr : s'.sched.currTask = s.sched.currTask) (ht : (Call.fork pc).slot = some t)
    (hother : ∀ u, u ≠ t → s'.task u = s.task u) (htask : TaskRoles role' t (s'.task t))
    (hstarts : pc.starts = none)
    (hnext : ∀ pc', next = .inl pc' → ForkRoles role' s'.task pc' ∧ (Call.fork pc').slot = some t) :
    ForkStepped L n m₀ role pc s next s' role' where
  le := hle
  roles := hr
  curr := hcurr
  other u hu := hother u fun he => hu (he ▸ ht)
  slot u hu := by
    obtain rfl := Option.some.inj (ht.symm.trans hu)
    exact htask
  starts u hu := by rw [hstarts] at hu; cases hu
  next pc' hpc' := ⟨(hnext pc' hpc').1, fun u hu => .inr (by rw [ht, ← (hnext pc' hpc').2, hu])⟩

end ForkStepped

/-- A kernel stack is in the kernel half, so it goes straight to the allocator. -/
theorem memoryFreePage_roles {u : Unit} {c q : ℕ} (hr : Roles L n m₀ c role s.vm)
    (hq : role q = some (.stack t)) (hspare : Spares s.vm (ForkPc.freedPage s.vm q))
    (hrun : memoryFreePage q s = some (u, s')) :
    ∃ v, Roles L n m₀ c role v ∧ s' = { s with vm := v } := by
  have hlow : q < memoryTaskBase := by
    have := (hr.bounds hq).2.2
    unfold memPageSize at this
    omega
  rw [ForkPc.freedPage, if_pos hlow] at hspare
  rw [memoryFreePage, Prog.gets_bind] at hrun
  obtain ⟨v, hv, rfl⟩ := onVm_eq_some.mp hrun
  rw [X86Os.memoryFreePage, if_pos hlow] at hv
  exact ⟨v, hr.freePage hspare hv, rfl⟩

/-- The end of a page of the kernel half. -/
theorem Roles.stackTop {c q : ℕ} {v : Vm} (hr : Roles L n m₀ c role v) (hq : role q = some (.stack t)) :
    u32 (q + memPageSize) = q + memPageSize ∧ u32Sub (q + memPageSize) memPageSize = q := by
  have := (hr.bounds hq).2.2
  unfold memPageSize memoryTaskBase at *
  exact ⟨u32_of_lt (by omega), by rw [u32Sub_of_le (by omega) (by omega)]; omega⟩

/-- The directory of a task as the steps of `sys_fork` change it. -/
abbrev SameDir (t : TaskId) : Kernel → Kernel → Prop := SameTask (fun task => task.tss.cr3) t

theorem ForkPc.step_stack_cr3
    (h : ForkPc.step L residue p (.stack t esp0 eip esp sel kernelStack) s = some (next, s')) :
    (s'.task t).tss.cr3 = 0 := by
  rw [ForkPc.step, ForkPc.parentName, Prog.gets_bind] at h
  obtain ⟨_, s₁, htss, h⟩ := Prog.bind_eq_some.mp h
  have hzero : (s₁.task t).tss.cr3 = 0 := by
    rw [ForkPc.setTss, Prog.gets_bind, Prog.gets_bind] at htss
    rw [ForkPc.setTask_putTask htss, ForkPc.putTask_self]
    rfl
  have hcreate : Prog.Along (SameDir t) (onVm (memoryCreateUvm L)) := sameTask_onVm
  have hsame := (hcreate.bind fun pageDir =>
    (Prog.along_pure _).ite (Prog.along_pure _)) s₁ next s' h
  exact hsame.trans hzero

theorem ForkPc.step_inserted_cr3 (h : ForkPc.step L residue p (.inserted t esp0) s = some (next, s')) :
    (s'.task t).tss.cr3 = (s.task t).tss.cr3 := by
  have hword : ∀ k, Prog.Along (SameDir t) (frameWord esp0 k) := fun _ => sameTask_onVm
  have hregs : Prog.Along (SameDir t) (forkRegisters t esp0) :=
    (hword _).bind fun _ => (hword _).bind fun _ => (hword _).bind fun _ => (hword _).bind fun _ =>
      (hword _).bind fun _ => (hword _).bind fun _ => (hword _).bind fun _ => (hword _).bind fun _ =>
        (hword _).bind fun _ => (hword _).bind fun _ => (hword _).bind fun _ => (hword _).bind fun _ =>
          sameTask_setTask fun _ => rfl
  have hparent : Prog.Along (SameDir t) (setTask t fun task => { task with parent := some p }) :=
    sameTask_setTask fun _ => rfl
  exact (hregs.bind fun _ => hparent.bind fun _ => (Prog.along_gets _).bind fun _ =>
    Prog.along_pure _) s next s' h

theorem ForkPc.step_dir_cr3 (h : ForkPc.step L residue p (.dir t esp0 pageDir) s = some (next, s')) :
    (s'.task t).tss.cr3 = pageDir := by
  obtain ⟨_, s₁, hcr3, h⟩ := Prog.bind_eq_some.mp h
  have hset : (s₁.task t).tss.cr3 = pageDir := by
    rw [ForkPc.setTask_putTask hcr3, ForkPc.putTask_self]
    rfl
  have hbytes : ∀ name, Prog.Along (SameDir t) (ForkPc.nameBytes name) := by
    intro name s₂ bytes s₃ hrun
    rw [(ForkPc.nameBytes_spec hrun).1]
    rfl
  have hfields : ∀ bytes, Prog.Along (SameDir t) (ForkPc.setFields L t bytes) :=
    fun _ => sameTask_setTask fun _ => rfl
  have hname : Prog.Along (SameDir t) (ForkPc.parentName p) := Prog.along_gets _
  exact ((hname.bind fun name => (hbytes name).bind fun bytes => (hfields bytes).bind fun _ =>
    Prog.along_pure _) s₁ next s' h).trans hset

theorem ForkPc.step_copied_cr3
    (h : ForkPc.step L residue p (.copied t pageDir) s = some (next, s')) :
    (s'.task t).tss.cr3 = pageDir := by
  obtain ⟨_, s₁, hcr3, h⟩ := Prog.bind_eq_some.mp h
  have hset : (s₁.task t).tss.cr3 = pageDir := by
    rw [ForkPc.setTask_putTask hcr3, ForkPc.putTask_self]
    rfl
  have hstart : Prog.Along (SameDir t) (taskStart t) := sameTask_setSched _
  exact ((hstart.bind fun _ => (Prog.along_gets _).bind fun _ => Prog.along_pure _)
    s₁ next s' h).trans hset

theorem ForkRoles.step (h : ForkRoles role s.task pc) (hr : Roles L n m₀ s.vm.cr3 role s.vm)
    (htask : ∀ t, (Call.fork pc).slot = some t → TaskRoles role t (s.task t))
    (hroom : ∀ t c, pc = .copying t c → c.asks s.vm → s.vm.alloc.clearPages.Nonempty)
    (hspare : ∀ page, pc.releases s = some page → Spares s.vm page)
    (hrun : pc.step L residue p s = some (next, s')) :
    ∃ role', ForkStepped L n m₀ role pc s next s' role' := by
  cases pc with
  | search =>
      obtain ⟨rfl, hcases⟩ := ForkPc.step_search hrun
      refine ⟨role, le_rfl, hr, rfl, fun _ _ => rfl, fun t ht => (by cases ht), fun t ht => (by cases ht),
        fun pc' hpc' => ?_⟩
      rcases hcases with ⟨-, rfl⟩ | ⟨i, hi, rfl⟩
      · cases hpc'
      · obtain rfl := Sum.inl.inj hpc'
        refine ⟨trivial, fun t ht => .inl ?_⟩
        obtain rfl := Option.some.inj ht
        exact (freeSlot_eq_some hi).1
  | found t =>
      have hslot := htask t rfl
      rcases ForkPc.step_found hrun with ⟨-, rfl, rfl⟩ | ⟨esp0, eip, esp, i, -, rfl, rfl⟩
      · refine ⟨role, .of_slot le_rfl hr rfl rfl (fun _ _ => rfl) hslot rfl fun pc' hpc' => ?_⟩
        obtain rfl := Sum.inl.inj hpc'
        exact ⟨trivial, rfl⟩
      · refine ⟨role, .of_slot le_rfl hr rfl rfl (fun _ _ => rfl) hslot rfl fun pc' hpc' => ?_⟩
        obtain rfl := Sum.inl.inj hpc'
        exact ⟨trivial, rfl⟩
  | desc t esp0 eip esp sel =>
      obtain ⟨hs, hcases⟩ := ForkPc.step_desc hrun
      have hplain : (PageRole.stack t).Plain := trivial
      obtain ⟨role', hle, hr', hframe⟩ := keepsRoles_allocPlain hplain role le_rfl s.vm _ _ hr
        (show allocPage s.vm = some ((addrAllocPage s.vm.alloc 1).1, _) from rfl)
      have hself : s'.task t = (s.task t).withTss .zero := by rw [hs, ForkPc.putTask_self]
      have hother : ∀ u, u ≠ t → s'.task u = s.task u := fun u hu => by
        rw [hs, ForkPc.putTask_of_ne hu]
      refine ⟨role', .of_slot hle (by rw [hs]; exact hr') (by rw [hs]; rfl) rfl hother ?_ rfl
        fun pc' hpc' => ?_⟩
      · rw [hself]
        exact ⟨.inl rfl, .inl rfl⟩
      · rcases hcases with ⟨-, rfl⟩ | ⟨hne, rfl⟩
        · obtain rfl := Sum.inl.inj hpc'
          exact ⟨.inl rfl, rfl⟩
        · obtain rfl := Sum.inl.inj hpc'
          exact ⟨hframe hne, rfl⟩
  | stack t esp0 eip esp sel kernelStack =>
      have hstack : role kernelStack = some (.stack t) := h
      have hcr3 := ForkPc.step_stack_cr3 hrun
      obtain ⟨tss, dir, v, hesp0, hv, hs, hcases⟩ := ForkPc.step_stack hrun
      obtain ⟨role', hle, hr', hrole⟩ := keepsRoles_createUvm t role le_rfl s.vm dir v hr hv
      have hother : ∀ u, u ≠ t → s'.task u = s.task u := fun u hu => by
        rw [hs, ForkPc.putTask_of_ne hu]
      have hself : Stacked role' t (s'.task t) := by
        rw [hs, ForkPc.putTask_self]
        exact ⟨kernelStack, hle _ _ hstack, hesp0.trans (Roles.stackTop hr hstack).1⟩
      refine ⟨role', .of_slot hle (by rw [hs]; exact hr') (by rw [hs]; rfl) rfl hother
        ⟨.inl hcr3, .inr hself⟩ rfl fun pc' hpc' => ?_⟩
      rcases hcases with ⟨-, rfl⟩ | ⟨hne, rfl⟩
      · obtain rfl := Sum.inl.inj hpc'
        exact ⟨.inr (hle _ _ hstack), rfl⟩
      · obtain rfl := Sum.inl.inj hpc'
        exact ⟨⟨hself, hrole hne⟩, rfl⟩
  | dir t esp0 pageDir =>
      obtain ⟨hstack, hdir⟩ := h
      have hcr3 := ForkPc.step_dir_cr3 hrun
      obtain ⟨task, hhold, -, -, hs, rfl⟩ := ForkPc.step_dir hrun
      have hself : TaskRuns role t (s'.task t) := by
        refine ⟨hcr3.symm ▸ hdir, hstack.congr ?_⟩
        rw [hs, ForkPc.putTask_self, hhold.esp0]
      refine ⟨role, .of_slot le_rfl (by rw [hs]; exact hr) (by rw [hs]; rfl) rfl (fun u hu => ?_)
        hself.roles rfl fun pc' hpc' => ?_⟩
      · rw [hs, ForkPc.putTask_of_ne hu]
      · obtain rfl := Sum.inl.inj hpc'
        exact ⟨hself, rfl⟩
  | named t esp0 =>
      obtain ⟨rfl, rfl⟩ := ForkPc.step_named hrun
      refine ⟨role, .of_slot le_rfl hr (taskInit_currTask t _) rfl (fun _ _ => rfl) (TaskRuns.roles h) rfl
        fun pc' hpc' => ?_⟩
      obtain rfl := Sum.inl.inj hpc'
      exact ⟨h, rfl⟩
  | inserted t esp0 =>
      have hruns : TaskRuns role t (s.task t) := h
      have hcr3 := ForkPc.step_inserted_cr3 hrun
      obtain ⟨task, dir, hhold, -, -, hs, rfl⟩ := ForkPc.step_inserted hrun
      have hself : TaskRuns role t (s'.task t) := by
        refine ⟨hcr3.symm ▸ hruns.dir, hruns.stack.congr ?_⟩
        rw [hs, ForkPc.putTask_self, hhold.esp0]
      refine ⟨role, .of_slot le_rfl (by rw [hs]; exact hr) (by rw [hs]; rfl) rfl (fun u hu => ?_)
        hself.roles rfl fun pc' hpc' => ?_⟩
      · rw [hs, ForkPc.putTask_of_ne hu]
      · obtain rfl := Sum.inl.inj hpc'
        exact ⟨⟨hself, trivial⟩, rfl⟩
  | copying t c =>
      obtain ⟨hruns, hbuild⟩ := h
      obtain ⟨q, v, hstep, rfl, rfl⟩ := ForkPc.step_copying hrun
      obtain ⟨role', hle, hr', hbuilt⟩ := hbuild.step hr (hroom t c rfl) hstep
      have hself : TaskRuns role' t (s.task t) := hruns.mono hle
      refine ⟨role', .of_slot hle hr' rfl rfl (fun _ _ => rfl) hself.roles rfl fun pc' hpc' => ?_⟩
      obtain rfl := Sum.inl.inj hpc'
      cases q with
      | inl q => exact ⟨⟨hself, hbuilt⟩, rfl⟩
      | inr d => exact ⟨⟨hself, hbuilt⟩, rfl⟩
  | copied t pageDir =>
      obtain ⟨hruns, hdir⟩ := h
      have hcr3 := ForkPc.step_copied_cr3 hrun
      obtain ⟨task, hhold, -, -, hs, rfl⟩ := ForkPc.step_copied hrun
      have hself : TaskRuns role t (s'.task t) := by
        refine ⟨hcr3.symm ▸ hdir, hruns.stack.congr ?_⟩
        rw [hs, ForkPc.putTask_self, hhold.esp0]
      have hother : ∀ u, u ≠ t → s'.task u = s.task u := fun u hu => by
        rw [hs, ForkPc.putTask_of_ne hu]
      refine ⟨role, le_rfl, by rw [hs]; exact hr, ?_, fun u hu => hother u fun he => hu (he ▸ rfl),
        fun u hu => ?_, fun u hu => ?_, fun pc' hpc' => (by cases hpc')⟩
      · rw [hs]
        exact taskStart_currTask t s.sched
      · obtain rfl := Option.some.inj hu
        exact hself.roles
      · obtain rfl := Option.some.inj hu
        exact hself
  | undo t sel kernelStack =>
      obtain ⟨rfl, rfl⟩ := ForkPc.step_undo hrun
      refine ⟨role, .of_slot le_rfl hr rfl rfl (fun _ _ => rfl) (htask t rfl) rfl fun pc' hpc' => ?_⟩
      obtain rfl := Sum.inl.inj hpc'
      exact ⟨h, rfl⟩
  | undoStack t kernelStack =>
      obtain ⟨_, s₁, hfree, hrun⟩ := Prog.bind_eq_some.mp hrun
      obtain ⟨rfl, rfl⟩ := Prog.pure_eq_some.mp hrun
      have hnext : ∀ pc' : ForkPc, (Sum.inl (.failed t) : ForkPc ⊕ ℤ) = .inl pc' →
          ForkRoles role s'.task pc' ∧ (Call.fork pc').slot = some t := fun pc' hpc' => by
        obtain rfl := Sum.inl.inj hpc'
        exact ⟨trivial, rfl⟩
      rw [freeStack] at hfree
      by_cases h0 : kernelStack = 0
      · rw [if_neg (not_not.mpr h0)] at hfree
        obtain ⟨-, rfl⟩ := Prog.pure_eq_some.mp hfree
        exact ⟨role, .of_slot le_rfl hr rfl rfl (fun _ _ => rfl) (htask t rfl) rfl hnext⟩
      · rw [if_pos h0] at hfree
        have hq : role kernelStack = some (.stack t) := Or.resolve_left h h0
        obtain ⟨v, hr', rfl⟩ := memoryFreePage_roles hr hq (hspare _ (if_pos h0)) hfree
        exact ⟨role, .of_slot le_rfl hr' rfl rfl (fun _ _ => rfl) (htask t rfl) rfl hnext⟩
  | failed t =>
      obtain ⟨rfl, rfl⟩ := ForkPc.step_failed hrun
      have hslot := htask t rfl
      refine ⟨role, .of_slot le_rfl hr rfl rfl (fun u hu => ForkPc.putTask_of_ne hu _ _) ?_ rfl
        fun pc' hpc' => ?_⟩
      · rw [ForkPc.putTask_self]
        exact ⟨hslot.dir, hslot.stack⟩
      · obtain rfl := Sum.inl.inj hpc'
        exact ⟨trivial, rfl⟩
  | uninitSel t =>
      have hslot := htask t rfl
      obtain ⟨rfl, ⟨-, rfl⟩ | ⟨-, rfl⟩⟩ := ForkPc.step_uninitSel hrun
      · refine ⟨role, .of_slot le_rfl hr rfl rfl (fun _ _ => rfl) hslot rfl fun pc' hpc' => ?_⟩
        obtain rfl := Sum.inl.inj hpc'
        exact ⟨trivial, rfl⟩
      · refine ⟨role, .of_slot le_rfl hr rfl rfl (fun _ _ => rfl) hslot rfl fun pc' hpc' => ?_⟩
        obtain rfl := Sum.inl.inj hpc'
        exact ⟨trivial, rfl⟩
  | uninitStack t =>
      have hslot := htask t rfl
      rw [ForkPc.step, Prog.gets_bind] at hrun
      obtain ⟨_, s₁, hfree, hrun⟩ := Prog.bind_eq_some.mp hrun
      obtain ⟨rfl, rfl⟩ := Prog.pure_eq_some.mp hrun
      have hnext : ∀ pc' : ForkPc, (Sum.inl (.clear t) : ForkPc ⊕ ℤ) = .inl pc' →
          ForkRoles role s'.task pc' ∧ (Call.fork pc').slot = some t := fun pc' hpc' => by
        obtain rfl := Sum.inl.inj hpc'
        exact ⟨trivial, rfl⟩
      rw [freeEsp0] at hfree
      by_cases h0 : (s.task t).tss.esp0 = 0
      · rw [if_neg (not_not.mpr h0)] at hfree
        obtain ⟨-, rfl⟩ := Prog.pure_eq_some.mp hfree
        exact ⟨role, .of_slot le_rfl hr rfl rfl (fun _ _ => rfl) hslot rfl hnext⟩
      · rw [if_pos h0] at hfree
        have hpage := hspare (ForkPc.freedPage s.vm (u32Sub (s.task t).tss.esp0 memPageSize)) (if_pos h0)
        obtain ⟨q, hq, hesp0⟩ := hslot.stack.resolve_left h0
        rw [hesp0, (Roles.stackTop hr hq).2] at hfree hpage
        obtain ⟨v, hr', rfl⟩ := memoryFreePage_roles hr hq hpage hfree
        exact ⟨role, .of_slot le_rfl hr' rfl rfl (fun _ _ => rfl) hslot rfl hnext⟩
  | clear t =>
      obtain ⟨rfl, rfl⟩ := ForkPc.step_clear hrun
      refine ⟨role, .of_slot le_rfl hr rfl rfl (fun u hu => ForkPc.putTask_of_ne hu _ _) ?_ rfl
        fun pc' hpc' => (by cases hpc')⟩
      rw [ForkPc.putTask_self]
      exact .zero

end Kernel

end X86Os
