import X86Os.ArgStrings
import X86Os.ExecImage
import X86Os.RoleCalls
import X86Os.TakenPages

/-!
# The steps of `sys_execve` keep the roles

A call of `sys_execve` runs in the task that it changes. It writes to pages of the new directory, to the
kernel stack of the task and, when it opens the file, to the buffer.
-/

namespace X86Os

theorem Roles.withCr3 {L : Layout} {n c : ℕ} {m₀ : Mem} {role : RoleMap} {v : Vm}
    (h : Roles L n m₀ c role v) (d : ℕ) : Roles L n m₀ d role { v with cr3 := d } :=
  { h with
    cr3 := rfl
    used := fun p hp => (h.used p hp).congr rfl }

namespace Kernel

variable {L : Layout} {n i : ℕ} {m₀ : Mem} {role role' : RoleMap} {s s₀ s' : Kernel} {t : TaskId}
  {A : Type} {post : RoleMap → A → Prop}

/-- The task `t` has run since the state `s₀`, and no other task has changed. -/
structure Running (L : Layout) (n : ℕ) (m₀ : Mem) (t : TaskId) (s₀ : Kernel) (role : RoleMap)
    (s : Kernel) : Prop where
  roles : Roles L n m₀ s.vm.cr3 role s.vm
  cr3 : s.vm.cr3 = (s.task t).tss.cr3
  task : TaskRuns role t (s.task t)
  curr : s.sched.currTask = s₀.sched.currTask
  other : ∀ u, u ≠ t → s.task u = s₀.task u

theorem Running.dir (h : Running L n m₀ t s₀ role s) : role s.vm.cr3 = some (.dir t) := by
  rw [h.cr3]
  exact h.task.dir

/-! ## Programs on parts of the kernel -/

theorem Running.withVm {v : Vm} {pos : ℕ} (h : Running L n m₀ t s₀ role s)
    (hr : Roles L n m₀ s.vm.cr3 role' v) (hle : role ≤ role') :
    Running L n m₀ t s₀ role' { s with vm := v, tempPos := pos } where
  roles := by
    show Roles L n m₀ v.cr3 role' v
    rw [hr.cr3]
    exact hr
  cr3 := hr.cr3.trans h.cr3
  task := h.task.mono hle
  curr := h.curr
  other := h.other

theorem running_onVm {f : Prog Vm A} (h : ∀ c, KeepsRoles L n m₀ c role f post) :
    Prog.Ensures (Running L n m₀ t s₀) role (onVm f) post := by
  intro role₁ hle s a s' hs hrun
  obtain ⟨v, hv, rfl⟩ := onVm_eq_some.mp hrun
  obtain ⟨role₂, hle₂, hr, ha⟩ := h s.vm.cr3 role₁ hle s.vm a v hs.roles hv
  exact ⟨role₂, hle₂, hs.withVm hr hle₂, ha⟩

theorem running_onFile {f : Prog FileState A}
    (h : ∀ c, Prog.Ensures (FileRoles L n m₀ c) role f post) :
    Prog.Ensures (Running L n m₀ t s₀) role (onFile f) post := by
  intro role₁ hle s a s' hs hrun
  obtain ⟨fs, hfs, rfl⟩ := onFile_eq_some hrun
  obtain ⟨role₂, hle₂, hr, ha⟩ := h s.vm.cr3 role₁ hle ⟨s.vm, s.tempPos⟩ a fs hs.roles hfs
  exact ⟨role₂, hle₂, hs.withVm hr hle₂, ha⟩

theorem running_onVm_eq {f : Prog Vm A} (h : Prog.Along Eq f) :
    Prog.Keeps (Running L n m₀ t s₀) role (onVm f) :=
  running_onVm fun _ => Prog.keeps_of_eq h

theorem running_setTask {g : Task → Task} (hg : ∀ task, (g task).tss = task.tss) :
    Prog.Keeps (Running L n m₀ t s₀) role (setTask t g) := by
  intro role₁ _ s u s' hs hrun
  obtain rfl := setTask_eq_some.mp hrun
  refine ⟨role₁, le_rfl, ⟨hs.roles, ?_, ?_, hs.curr, fun u hu => ?_⟩, trivial⟩
  · show s.vm.cr3 = (Function.update s.task t (g (s.task t)) t).tss.cr3
    rw [Function.update_self, hg]
    exact hs.cr3
  · show TaskRuns role₁ t (Function.update s.task t (g (s.task t)) t)
    rw [Function.update_self]
    exact ⟨(congrArg Tss.cr3 (hg _)).symm ▸ hs.task.dir,
      hs.task.stack.congr (congrArg Tss.esp0 (hg _))⟩
  · exact (Function.update_of_ne hu _ _).trans (hs.other u hu)

theorem running_setPageDir {d : ℕ} (hd : role d = some (.dir t)) :
    Prog.Keeps (Running L n m₀ t s₀) role (setPageDir t d) := by
  intro role₁ hle s u s' hs hrun
  obtain ⟨_, s₁, hset, hrun⟩ := Prog.bind_eq_some.mp hrun
  obtain rfl := setTask_eq_some.mp hset
  obtain ⟨v, hv, rfl⟩ := onVm_eq_some.mp hrun
  obtain rfl := Prog.modify_eq_some.mp hv
  refine ⟨role₁, le_rfl, ⟨hs.roles.withCr3 d, ?_, ?_, hs.curr, fun u hu => ?_⟩, trivial⟩
  · show d = (Function.update s.task t _ t).tss.cr3
    rw [Function.update_self]
    rfl
  · show TaskRuns role₁ t (Function.update s.task t _ t)
    rw [Function.update_self]
    exact ⟨hle _ _ hd, hs.task.stack.congr rfl⟩
  · exact (Function.update_of_ne hu _ _).trans (hs.other u hu)

theorem running_copyTaskName {src : ℕ} :
    Prog.Keeps (Running L n m₀ t s₀) role (copyTaskName t src) := by
  intro role₁ _ s u s' hs hrun
  refine ⟨role₁, le_rfl, ?_, trivial⟩
  obtain ⟨⟨hcurr, htss⟩, hvm⟩ := copyTaskName_keeps hrun
  have hother : ∀ u, u ≠ t → s'.task u = s.task u := by
    intro u hu
    rcases copyTaskName_result hrun with ⟨-, rfl⟩ | ⟨-, bytes, -, rfl⟩
    · rfl
    · exact Function.update_of_ne hu _ _
  refine ⟨by rw [hvm]; exact hs.roles, by rw [hvm, htss]; exact hs.cr3, ⟨?_, ?_⟩, hcurr.trans hs.curr,
    fun u hu => (hother u hu).trans (hs.other u hu)⟩
  · rw [htss]
    exact hs.task.dir
  · exact hs.task.stack.congr (congrArg Tss.esp0 htss)

/-! ## The frame of the system call -/

theorem frameAddr_of_le {q k : ℕ} (hq : q + memPageSize ≤ memoryTaskBase) (hk : k < frameWords) :
    frameAddr (q + memPageSize) k = q + 4 * (1002 + k) := by
  unfold frameWords at hk
  rw [frameAddr]
  unfold frameWords memPageSize memoryTaskBase at *
  rw [u32Sub_of_le (by omega) (by omega), u32_of_lt (by omega)]
  omega

theorem running_storeFrame {q k w : ℕ} (hq : role q = some (.stack t)) (hk : k < frameWords) :
    Prog.Keeps (Running L n m₀ t s₀) role (storeFrame (q + memPageSize) k w) := by
  have hk' : k < 22 := hk
  refine running_onVm fun c role₁ hle v u v' hr hrun => ?_
  have hscratch := hr.scratchPage (hle _ _ hq) trivial
  rw [frameAddr_of_le hscratch.end_le hk] at hrun
  exact keepsRoles_store32 hscratch (by omega) (by unfold memPageSize; omega) w role₁ le_rfl v u v' hr hrun

theorem running_execFrame {q entry : ℕ} (hq : role q = some (.stack t)) :
    Prog.Keeps (Running L n m₀ t s₀) role (execFrame (q + memPageSize) entry) := by
  have hword : ∀ k < frameWords, ∀ w,
      Prog.Keeps (Running L n m₀ t s₀) role (storeFrame (q + memPageSize) k w) :=
    fun k hk w => running_storeFrame hq hk
  exact (hword 13 (by decide) _).bind fun _ => (hword 10 (by decide) _).bind fun _ =>
    (hword 11 (by decide) _).bind fun _ => (hword 9 (by decide) _).bind fun _ =>
    (hword 12 (by decide) _).bind fun _ => (hword 7 (by decide) _).bind fun _ =>
    (hword 5 (by decide) _).bind fun _ => (hword 6 (by decide) _).bind fun _ =>
    (hword 0 (by decide) _).bind fun _ => hword 20 (by decide) _

/-! ## Steps -/

/-- What the next step of a call has in its variables. -/
def ExecNext (t : TaskId) (role : RoleMap) (next : ExecPc ⊕ ℤ) : Prop :=
  ∀ pc, next = .inl pc → ExecRoles role t pc

theorem ExecNext.of {pc : ExecPc} (h : ExecRoles role t pc) : ExecNext t role (.inl pc) := by
  intro pc' hpc'
  obtain rfl := Sum.inl.inj hpc'
  exact h

theorem ensures_next {pc : ExecPc} (h : ∀ role', role ≤ role' → ExecRoles role' t pc) :
    Prog.Ensures (Running L n m₀ t s₀) role (pure (.inl pc) : Prog Kernel (ExecPc ⊕ ℤ)) (ExecNext t) :=
  Prog.ensures_pure fun role' hle => .of (h role' hle)

theorem running_failed {old new : ℕ} (hold : role old = some (.dir t)) :
    Prog.Ensures (Running L n m₀ t s₀) role (ExecPc.failed t old new) (ExecNext t) :=
  (running_setPageDir hold).bind fun _ => ensures_next fun _ _ => .pde new userPdeStart

theorem Loading.mono {argsAt old new : ℕ} (h : Loading role t argsAt old new) (hle : role ≤ role') :
    Loading role' t argsAt old new := ⟨h.args.keep fun _ _ _ => hle _ _, hle _ _ h.old, hle _ _ h.new⟩

/-- What a step of `sys_execve` leaves. -/
def ExecStepped (L : Layout) (n : ℕ) (m₀ : Mem) (t : TaskId) (s₀ : Kernel) (role : RoleMap)
    (next : ExecPc ⊕ ℤ) (s' : Kernel) : Prop :=
  ∃ role', role ≤ role' ∧ Running L n m₀ t s₀ role' s' ∧ ExecNext t role' next

variable {next : ExecPc ⊕ ℤ} {argsAt old new name argv entry : ℕ} {disk : Disk} {file : ℤ}
  {hdr : Elf32Ehdr}

theorem execStepped_start (h : ArgsRole role t argsAt) :
    Prog.Ensures (Running L n m₀ t s₀) role (ExecPc.step L t (.start disk argsAt name argv))
      (ExecNext t) := by
  have hold : Prog.Ensures (Running L n m₀ t s₀) role (Prog.gets fun s => (s.task t).tss.cr3)
      fun role' d => role' d = some (.dir t) :=
    Prog.ensures_of_eq (Prog.along_gets _) fun role' _ s d s' hs hrun => by
      obtain ⟨rfl, -⟩ := Prog.gets_eq_some.mp hrun
      exact hs.task.dir
  refine (running_onVm_eq (getFileName_along name)).bind fun src => running_copyTaskName.bind fun _ => ?_
  refine hold.bind fun role₁ hle old hdir => ?_
  refine (running_onVm fun _ => keepsRoles_createUvm t).bind fun role₂ hle₂ new hnew => ?_
  refine Prog.Ensures.ite (fun _ => running_failed (hle₂ _ _ hdir)) fun h0 => ?_
  refine ensures_next fun role₃ hle₃ =>
    ⟨h.keep fun _ _ _ hq => ?_, hle₃ _ _ (hle₂ _ _ hdir), hle₃ _ _ (hnew h0)⟩
  exact hle₃ _ _ (hle₂ _ _ (hle _ _ hq))

theorem execStepped_stack (h : Loading role t argsAt old new) :
    Prog.Ensures (Running L n m₀ t s₀) role (ExecPc.step L t (.stack argsAt old new entry argv))
      (ExecNext t) := by
  have hstart : UserAddr (memTaskStackTop - memTaskStackSize) := ⟨by decide, by decide⟩
  have halloc : ∀ c, KeepsRoles L n m₀ c role (memoryAllocForPageDir new
      (memTaskStackTop - memTaskStackSize) memTaskStackSize (pteP ||| pteU ||| pteW)) fun _ _ => True :=
    fun _ => keepsRoles_allocForPageDir h.new hstart (by decide) (by decide)
  refine (running_onVm halloc).keeps.bind fun err => ?_
  exact Prog.Ensures.ite (fun _ => running_failed h.old) fun _ => ensures_next fun _ hle => h.mono hle

/-- The header that the round has read. -/
theorem running_loadSegment {phdr : Elf32Phdr} {bytes : List (BitVec 8)}
    (hnew : role new = some (.dir t)) (hfit : SegmentFits phdr) (hend : phdr.vaddr < 2 ^ 32) : Prog.Keeps (Running L n m₀ t s₀) role
      (if phdr.type ≠ ptLoad ∨ phdr.vaddr < memoryTaskBase then pure (.inr (some bytes))
      else do
        let err ← onFile (loadPhdr file phdr new)
        if err < 0 then pure (.inl ())
        else
          setTask t fun task =>
            { task with
              heapStart := u32 (phdr.vaddr + phdr.memsz)
              heapEnd := u32 (phdr.vaddr + phdr.memsz) }
          pure (.inr (some bytes)) : Prog Kernel (Unit ⊕ Option (List (BitVec 8)))) := by
  refine Prog.Ensures.ite (fun _ => Prog.keeps_pure _) fun hload => ?_
  rw [not_or, not_not, not_lt] at hload
  have hphdr : ∀ c, Prog.Keeps (FileRoles L n m₀ c) role (loadPhdr file phdr new) := fun _ =>
    fileRoles_loadPhdr hnew ⟨hload.2, hend⟩ (hfit hload.1 hload.2)
  refine Prog.Keeps.bind (running_onFile hphdr) fun err =>
    Prog.Ensures.ite (fun _ => Prog.keeps_pure _) fun _ => ?_
  exact Prog.Keeps.bind (running_setTask (by exact fun _ => rfl)) fun _ => Prog.keeps_pure _

theorem sysLseek_vm {fs fs' : FileState} {ptr : ℕ} {r : ℤ} (hrun : sysLseek file ptr fs = some (r, fs')) :
    fs'.vm = fs.vm := by
  rw [sysLseek] at hrun
  split_ifs at hrun
  · obtain ⟨_, fs₁, hpos, hrun⟩ := Prog.bind_eq_some.mp hrun
    obtain rfl := Prog.modify_eq_some.mp hpos
    rw [(Prog.pure_eq_some.mp hrun).2]
  · rw [(Prog.pure_eq_some.mp hrun).2]

theorem sysReadLocal_vm {fs fs' : FileState} {len : ℕ} {phdr : Option (List (BitVec 8))}
    {r : ℤ × List (BitVec 8)} (hrun : sysReadLocal file len phdr fs = some (r, fs')) :
    fs'.vm = fs.vm := by
  rw [sysReadLocal] at hrun
  split_ifs at hrun
  · rw [Prog.gets_bind] at hrun
    obtain ⟨bytes, fs₁, hload, hrun⟩ := Prog.bind_eq_some.mp hrun
    obtain ⟨v, hv, rfl⟩ := Prog.zoom_eq_some.mp hload
    obtain rfl := memcpyLocal_along _ _ _ _ _ _ hv
    obtain ⟨_, fs₂, hpos, hrun⟩ := Prog.bind_eq_some.mp hrun
    obtain rfl := Prog.modify_eq_some.mp hpos
    rw [(Prog.pure_eq_some.mp hrun).2]
  · rw [(Prog.pure_eq_some.mp hrun).2]

theorem Running.withFile {fs : FileState} (h : Running L n m₀ t s₀ role s) (hvm : fs.vm = s.vm) :
    Running L n m₀ t s₀ role (s.withFile fs) :=
  h.withVm (by rw [hvm]; exact h.roles) le_rfl

theorem running_loadHeader {phdr : Option (List (BitVec 8))} {r : Unit ⊕ Option (List (BitVec 8))}
    (hs : Running L n m₀ t s₀ role s)
    (hnew : role new = some (.dir t))
    (hfit : ∀ next, nextHeader file hdr i phdr s = some next → SegmentFits next)
    (hrun : loadHeader t file new hdr.phoff hdr.phentsize i phdr s = some (r, s')) :
    ∃ role', role ≤ role' ∧ Running L n m₀ t s₀ role' s' := by
  obtain ⟨pos, s₁, hpos, hrun⟩ := Prog.bind_eq_some.mp hrun
  obtain ⟨fs₁, hseek, rfl⟩ := onFile_eq_some hpos
  have hvm₁ : fs₁.vm = s.vm := sysLseek_vm hseek
  split_ifs at hrun
  · obtain ⟨-, rfl⟩ := Prog.pure_eq_some.mp hrun
    exact ⟨role, le_rfl, hs.withFile hvm₁⟩
  · obtain ⟨b, s₂, hbytes, hrun⟩ := Prog.bind_eq_some.mp hrun
    obtain ⟨fs₂, hread, rfl⟩ := onFile_eq_some hbytes
    have hvm₂ : fs₂.vm = s.vm := (sysReadLocal_vm hread).trans hvm₁
    have hs₂ : Running L n m₀ t s₀ role ((s.withFile fs₁).withFile fs₂) :=
      (hs.withFile hvm₁).withFile (hvm₂.trans hvm₁.symm)
    split_ifs at hrun
    · obtain ⟨-, rfl⟩ := Prog.pure_eq_some.mp hrun
      exact ⟨role, le_rfl, hs₂⟩
    · have hnext : nextHeader file hdr i phdr s = some (Elf32Phdr.ofBytes b.2) := by
        have hread' : sysReadLocal file phdrSize phdr fs₁ = some (b, fs₂) := hread
        rw [nextHeader, Prog.bind_of_eq hseek, hread']
        rfl
      obtain ⟨role', hle, hs', -⟩ :=
        running_loadSegment hnew (hfit _ hnext) (wordAt_lt _ _) role le_rfl _ r s' hs₂ hrun
      exact ⟨role', hle, hs'⟩

/-- The tables are apart from the buffer. -/
def TablesApart (role : RoleMap) : Prop :=
  ∀ p k, role p = some k → k ≠ .kernel → ¬ k.Plain → OutsideBuffer p

theorem Roles.openFile {c : ℕ} {v : Vm} {disk : Disk} (h : Roles L n m₀ c role v)
    (happ : TablesApart role) : Roles L n m₀ c role { v with
      mem := v.mem.place tempAddr tempSize fun x => disk (5000 * sectorSize + x) } := by
  have hout : ∀ x, ¬ InBuffer x →
      v.mem.place tempAddr tempSize (fun x => disk (5000 * sectorSize + x)) x = v.mem x :=
    fun x hx => if_neg hx
  have hend := h.ready.dir_end
  refine h.congr rfl rfl (fun x hx => hout x fun hb => ?_) fun p k hp hk x hx => hout x ?_
  · unfold InPage at hx
    unfold InBuffer tempAddr memExtStart at *
    omega
  · by_cases hkernel : k = .kernel
    · have hlow := h.kernel_low p (hkernel ▸ hp)
      intro hb
      unfold InPage at hx
      unfold InBuffer tempAddr bootMapLimit at *
      omega
    · exact happ p k hp hkernel hk x hx

theorem running_sysOpen {r : ℤ} (hs : Running L n m₀ t s₀ role s)
    (happ : ∀ v, load8 name s.vm = some (slash, v) → TablesApart role)
    (hrun : onFile (sysOpen disk name) s = some (r, s')) : Running L n m₀ t s₀ role s' := by
  obtain ⟨fs, hopen, rfl⟩ := onFile_eq_some hrun
  rcases sysOpen_eq_some hopen with ⟨-, rfl⟩ | ⟨hr, rfl⟩
  · exact hs
  · obtain ⟨b, fs₁, hload, hrest⟩ := Prog.bind_eq_some.mp hopen
    obtain ⟨v, hv, -⟩ := Prog.zoom_eq_some.mp hload
    by_cases hb : b = slash
    · exact hs.withVm (Roles.openFile hs.roles (happ v (hb ▸ hv))) le_rfl
    · rw [if_neg hb] at hrest
      rw [(Prog.pure_eq_some.mp hrest).1] at hr
      cases hr

theorem execStepped_opening (hs : Running L n m₀ t s₀ role s) (h : Loading role t argsAt old new)
    (happ : ∀ v, load8 name s.vm = some (slash, v) → TablesApart role)
    (hrun : ExecPc.step L t (.opening disk argsAt old new name argv) s = some (next, s')) :
    ExecStepped L n m₀ t s₀ role next s' := by
  obtain ⟨file, s₁, hopen, hrun⟩ := Prog.bind_eq_some.mp hrun
  have hs₁ := running_sysOpen hs happ hopen
  have hfail : Prog.Ensures (Running L n m₀ t s₀) role (ExecPc.failed t old new) (ExecNext t) :=
    running_failed h.old
  have hread : ∀ c, Prog.Keeps (FileRoles L n m₀ c) role (sysReadLocal file ehdrSize none) :=
    fun c role₁ _ fs b fs' hr hrun => ⟨role₁, le_rfl, by
      show Roles L n m₀ c role₁ fs'.vm
      rw [sysReadLocal_vm hrun]
      exact hr, trivial⟩
  have hlog : Prog.Keeps (Running L n m₀ t s₀) role (onVm (logOpenFailed name)) :=
    running_onVm_eq (logOpenFailed_along name)
  refine (Prog.Ensures.ite (fun _ => hlog.bind fun _ => hfail) fun _ =>
    Prog.Keeps.bind (running_onFile hread) fun b =>
    Prog.Ensures.ite (fun _ => hfail) fun _ => ?_) role le_rfl s₁ next s' hs₁ hrun
  exact .ite (fun _ => hfail) fun _ => .ite (fun _ => hfail) fun _ => .ite (fun _ => hfail) fun _ =>
    ensures_next fun _ hle => h.mono hle

theorem execStepped_segments {phdr : Option (List (BitVec 8))} (hs : Running L n m₀ t s₀ role s)
    (h : Loading role t argsAt old new)
    (hfit : ∀ next, nextHeader file hdr i phdr s = some next → SegmentFits next)
    (hrun : ExecPc.step L t (.segments argsAt old new argv file hdr i phdr) s = some (next, s')) :
    ExecStepped L n m₀ t s₀ role next s' := by
  rw [ExecPc.step] at hrun
  split_ifs at hrun
  · obtain ⟨r, s₁, hload, hrun⟩ := Prog.bind_eq_some.mp hrun
    obtain ⟨role₁, hle, hs₁⟩ := running_loadHeader hs h.new hfit hload
    cases r with
    | inr phdr' =>
        obtain ⟨rfl, rfl⟩ := Prog.pure_eq_some.mp hrun
        exact ⟨role₁, hle, hs₁, .of (h.mono hle)⟩
    | inl u =>
        obtain ⟨role₂, hle₂, hs₂, hnext⟩ :=
          running_failed (hle _ _ h.old) role₁ le_rfl s₁ next s' hs₁ hrun
        exact ⟨role₂, hle.trans hle₂, hs₂, hnext⟩
  · exact running_failed h.old role le_rfl s next s' hs hrun
  · obtain ⟨rfl, rfl⟩ := Prog.pure_eq_some.mp hrun
    exact ⟨role, le_rfl, hs, .of h⟩

theorem execStepped_args (hs : Running L n m₀ t s₀ role s) (h : Loading role t argsAt old new)
    (hfit : ∀ argc v, stringsCount argv s.vm = some (argc, v) → ArgTableFits argc)
    (hrun : ExecPc.step L t (.args argsAt old new entry argv) s = some (next, s')) :
    ExecStepped L n m₀ t s₀ role next s' := by
  obtain ⟨argc, s₁, hcount, hrun⟩ := Prog.bind_eq_some.mp hrun
  obtain ⟨v, hv, rfl⟩ := onVm_eq_some.mp hcount
  obtain rfl := stringsCount_along argv _ _ _ hv
  obtain ⟨q, hq, hge, hend⟩ := h.args
  have hcopy : ∀ c, KeepsRoles L n m₀ c role (copyArgs argsAt execStackTop new argc argv)
      fun _ _ => True := fun _ =>
    keepsRoles_copyArgs h.new (hs.roles.scratchPage hq trivial) hge hend (hfit argc s.vm hv)
  have hesp0 : ∀ role₁, Prog.Ensures (Running L n m₀ t s₀) role₁ (Prog.gets fun s => (s.task t).tss.esp0)
      fun role' a => ∃ q, role' q = some (.stack t) ∧ a = q + memPageSize := fun role₁ =>
    Prog.ensures_of_eq (Prog.along_gets _) fun role' _ s a s' hs hrun => by
      obtain ⟨rfl, -⟩ := Prog.gets_eq_some.mp hrun
      exact hs.task.stack
  have hargs : Prog.Ensures (Running L n m₀ t s₀) role
      (onVm (copyArgs argsAt execStackTop new argc argv) >>= fun err =>
        if err < 0 then ExecPc.failed t old new
        else do
          let esp0 ← Prog.gets fun s => (s.task t).tss.esp0
          execFrame esp0 entry
          setPageDir t new
          pure (.inl (.destroy 0 (.failed old)))) (ExecNext t) := by
    refine Prog.Keeps.bind (running_onVm hcopy) fun err => .ite (fun _ => running_failed h.old) fun _ => ?_
    refine (hesp0 role).bind fun role₁ hle esp0 hstack => ?_
    obtain ⟨p, hp, rfl⟩ := hstack
    refine Prog.Keeps.bind (running_execFrame hp) fun _ =>
      Prog.Keeps.bind (running_setPageDir (hle _ _ h.new)) fun _ => ?_
    exact ensures_next fun _ _ => .pde old userPdeStart
  exact hargs role le_rfl s next s' hs hrun

theorem execStepped_destroy {r : ℤ} {c : CopyPc} (hs : Running L n m₀ t s₀ role s) (h : c.Destroying)
    (hspare : ∀ page, c.frees = some page → Spares s.vm page)
    (hrun : ExecPc.step L t (.destroy r c) s = some (next, s')) :
    ExecStepped L n m₀ t s₀ role next s' := by
  obtain ⟨q, s₁, hstep, hrun⟩ := Prog.bind_eq_some.mp hrun
  obtain ⟨v, hv, rfl⟩ := onVm_eq_some.mp hstep
  obtain ⟨hr, hnext⟩ := h.step hs.roles hspare hv
  have hs₁ : Running L n m₀ t s₀ role { s with vm := v } := hs.withVm hr le_rfl
  cases q with
  | inl q =>
      obtain ⟨rfl, rfl⟩ := Prog.pure_eq_some.mp hrun
      exact ⟨role, le_rfl, hs₁, .of (hnext q rfl)⟩
  | inr d =>
      obtain ⟨rfl, rfl⟩ := Prog.pure_eq_some.mp hrun
      exact ⟨role, le_rfl, hs₁, fun pc hpc => by cases hpc⟩

/-- What a step of `sys_execve` needs of the state besides the roles. -/
def ExecAllowed (role : RoleMap) (s : Kernel) : ExecPc → Prop
  | .opening _ _ _ _ name _ => ∀ v, load8 name s.vm = some (slash, v) → TablesApart role
  | .segments _ _ _ _ file hdr i old =>
    ∀ phdr, nextHeader file hdr i old s = some phdr → SegmentFits phdr
  | .args _ _ _ _ argv => ∀ argc v, stringsCount argv s.vm = some (argc, v) → ArgTableFits argc
  | .destroy _ c => ∀ page, c.frees = some page → Spares s.vm page
  | _ => True

theorem ExecRoles.step {pc : ExecPc} (h : ExecRoles role t pc) (hs : Running L n m₀ t s₀ role s)
    (hc : ExecAllowed role s pc) (hrun : pc.step L t s = some (next, s')) :
    ExecStepped L n m₀ t s₀ role next s' := by
  cases pc with
  | start disk argsAt name argv => exact execStepped_start h role le_rfl s next s' hs hrun
  | opening disk argsAt old new name argv => exact execStepped_opening hs h hc hrun
  | segments argsAt old new argv file hdr i phdr => exact execStepped_segments hs h hc hrun
  | stack argsAt old new entry argv => exact execStepped_stack h role le_rfl s next s' hs hrun
  | args argsAt old new entry argv => exact execStepped_args hs h hc hrun
  | destroy r c => exact execStepped_destroy hs h hc hrun

end Kernel

end X86Os
