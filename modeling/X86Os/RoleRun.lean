import X86Os.RoleExec

/-!
# Runs of system calls keep the roles

In a careful run the pages have roles in every state: every task that was started has a directory and a
kernel stack, every call under way has what it needs, and the directory in use is one.
-/

namespace X86Os

namespace Roles

variable {L : Layout} {n c d i j v e : ℕ} {m₀ : Mem} {role : RoleMap} {o : TaskId} {s : Vm}

/-- The kernel's own directory leads to the tables that `memory_init` has built. -/
theorem kernelDir_pteWord (h : Roles L n m₀ c role s) (hi : i < pdeCnt) (hj : j < pteCnt) :
    s.mem.pteWord L.kernelPageDir i j = m₀.pteWord L.kernelPageDir i j := by
  have hpde : s.mem.pde L.kernelPageDir i = m₀.pde L.kernelPageDir i :=
    Mem.read32_congr fun x hx hx' => h.kernelDir x (inPage_word hi hx hx')
  by_cases hp : Present (m₀.pde L.kernelPageDir i)
  · have hword : s.mem.read32 (m₀.table L.kernelPageDir i + 4 * j) =
        m₀.read32 (m₀.table L.kernelPageDir i + 4 * j) := Mem.read32_congr fun x hx hx' =>
      h.kernelTable _ (h.kernel i hi hp) x (inPage_word hj hx hx')
    rw [Mem.pteWord, Mem.pteWord, Mem.table, hpde, if_pos hp, if_pos hp]
    exact congrArg some hword
  · rw [Mem.pteWord, Mem.pteWord, hpde, if_neg hp, if_neg hp]

theorem kernel_supervisor (h : Roles L n m₀ c role s) (hd : role d = some (.dir o))
    (hv : v < memoryTaskBase) (he : s.mem.entryAt d v = some e) : e.testBit 2 = false := by
  have hi : pdeIndex v < userPdeStart := by
    unfold pdeIndex userPdeStart memoryTaskBase pdeIndex at *
    omega
  obtain ⟨hp, hword, -⟩ := userEntry_eq_some.mp he
  have hpte : s.mem.pteWord d (pdeIndex v) (pteIndex v) = some e := by
    rw [Mem.pteWord, if_pos hp]
    exact congrArg some hword
  rw [h.pteWord_kernel hd hi (pteIndex_lt v)] at hpte
  exact h.ready.user _ (hi.trans (by decide)) _ (pteIndex_lt v) e hpte

/-- What the user half maps is the frame for its address. -/
theorem walk_frame {x : ℕ} (h : Roles L n m₀ c role s) (hd : role d = some (.dir o)) (hv : UserAddr v)
    (hwalk : s.mem.walk d v = some x) :
    ∃ q, role q = some (.frame d (v / memPageSize)) ∧ x = q + v % memPageSize := by
  rw [walk_eq, Option.map_eq_some_iff] at hwalk
  obtain ⟨e, he, rfl⟩ := hwalk
  obtain ⟨hi, hi'⟩ := hv.indices
  obtain ⟨hp, hword, hpres⟩ := userEntry_eq_some.mp he
  change Present (s.mem.pde d (pdeIndex v)) at hp
  change s.mem.read32 (s.mem.table d (pdeIndex v) + 4 * pteIndex v) = e at hword
  rcases (h.dir d o hd).user _ hi hi' with hzero | ⟨t, ht, hpde⟩
  · rw [hzero] at hp
    cases hp
  · have htable : s.mem.table d (pdeIndex v) = t := by
      rw [Mem.table, hpde, entryPaddr_add (h.tablePage ht).aligned (by decide)]
    rw [htable] at hword
    rcases (h.table t d _ ht).word _ (pteIndex_lt v) with hz | ⟨-, hf⟩
    · rw [← hword, hz] at hpres
      cases hpres
    · rw [hword, page_number v] at hf
      exact ⟨entryPaddr e, hf, rfl⟩

theorem userWritable_user (h : Roles L n m₀ c role s) (hd : role d = some (.dir o)) (hv : v < 2 ^ 32)
    (huser : UserWritable s.mem d v) : UserAddr v := by
  refine ⟨not_lt.mp fun hlow => ?_, hv⟩
  obtain ⟨e, he, hperm, -⟩ := huser
  have hbit := h.kernel_supervisor hd hlow he
  have hset : e.testBit 2 = true := by
    rw [Nat.testBit_eq_decide_div_mod_eq, decide_eq_true_iff]
    omega
  rw [hset] at hbit
  cases hbit

end Roles

namespace Kernel

variable {L : Layout} {n start newEnd old : ℕ} {m₀ : Mem} {role role' : RoleMap} {s s₀ s' : Kernel}
  {t p : TaskId} {incr : ℤ}

/-! ## `sys_sbrk` -/

theorem running_sbrkMap {i : ℤ} (hcurr : s₀.sched.currTask = some t)
    (hstart : i ≠ 0 → start % memPageSize = 0 ∧ (UserAddr start ∨ Identity start)) :
    Prog.Keeps (Running L n m₀ t s₀) role (sbrkMap start i newEnd) := by
  refine Prog.Ensures.ite (fun hi => ?_) fun _ => Prog.keeps_pure 0
  obtain ⟨hal, hw⟩ := hstart hi
  intro role₁ hle s r s' hs hrun
  have hcurrent : taskCurrent s = some (t, s) := taskCurrent_eq (hs.curr.trans hcurr)
  rw [memoryAllocPageFor, Prog.bind_of_eq hcurrent, Prog.gets_bind] at hrun
  have halloc : ∀ c, KeepsRoles L n m₀ c role₁ (memoryAllocForPageDir (s.task t).tss.cr3 start
      (u32Sub newEnd start) (pteP ||| pteU ||| pteW)) fun _ _ => True := fun c =>
    hw.elim (fun hw => keepsRoles_allocForPageDir hs.task.dir hw hal (by decide))
      fun hw => allocForPageDir_identity hs.task.dir hw
  exact running_onVm halloc role₁ le_rfl s r s' hs hrun

theorem running_sbrkPages {i : ℤ} (hcurr : s₀.sched.currTask = some t)
    (hstart : i ≠ 0 → start % memPageSize = 0 ∧ (UserAddr start ∨ Identity start)) :
    Prog.Keeps (Running L n m₀ t s₀) role (sbrkPages t old start i newEnd) := by
  have hend : Prog.Keeps (Running L n m₀ t s₀) role (setHeapEnd t newEnd) :=
    running_setTask fun _ => rfl
  refine Prog.Keeps.bind (running_sbrkMap hcurr hstart) fun err => ?_
  exact Prog.Ensures.ite (fun _ => Prog.keeps_pure _) fun _ =>
    Prog.Keeps.bind hend fun _ => Prog.keeps_pure _

theorem pageUp_aligned (old : ℕ) :
    u32 (old + (memPageSize - old % memPageSize)) % memPageSize = 0 := by
  unfold u32 memPageSize at *
  omega

/-- Where `sys_sbrk` maps pages, a careful call finds the user half or a page of the kernel. -/
theorem running_sysSbrk (hcurr : s₀.sched.currTask = some t) (hs : Running L n m₀ t s₀ role s) {r : ℕ}
    (hcare : CarefulSbrk (s.task t) incr s.vm) (hrun : sysSbrk incr s = some (r, s')) :
    ∃ role', role ≤ role' ∧ Running L n m₀ t s₀ role' s' := by
  have hend : ∀ a, Prog.Keeps (Running L n m₀ t s₀) role (setHeapEnd t a) := fun a =>
    running_setTask fun _ => rfl
  have hcurrent : taskCurrent s = some (t, s) := taskCurrent_eq (hs.curr.trans hcurr)
  rw [sysSbrk, Prog.bind_of_eq hcurrent, Prog.gets_bind] at hrun
  have hstart := hcare.start
  generalize (s.task t).heapEnd = old at hstart hrun
  obtain ⟨_, s₁, hreq, hrun₁⟩ := Prog.bind_eq_some.mp hrun
  obtain ⟨hpos, rfl⟩ := Prog.require_eq_some.mp hreq
  suffices hkeep : ∃ role', role ≤ role' ∧ Running L n m₀ t s₀ role' s' ∧ True by
    obtain ⟨role', hle, hs', -⟩ := hkeep
    exact ⟨role', hle, hs'⟩
  refine (Prog.Ensures.ite (fun _ => Prog.keeps_pure _) fun h0 => .ite (fun hal => ?_) fun hal =>
    .ite (fun _ => Prog.Keeps.bind (hend _) fun _ => Prog.keeps_pure _) fun hbig => ?_)
    role le_rfl s₁ r s' hs hrun₁
  · refine running_sbrkPages hcurr fun _ => ⟨hal, hstart old ?_⟩
    rw [sbrkStart, if_neg (by omega), if_pos hal]
  · refine running_sbrkPages hcurr fun hi => ⟨pageUp_aligned old, hstart _ ?_⟩
    rw [sbrkStart, if_neg (by omega), if_neg hal, if_neg hbig, if_neg hi]

/-! ## The invariant -/

/-- The pages have roles, and the tasks and calls fit them. -/
structure RunRoles (L : Layout) (n : ℕ) (role : RoleMap) (r : CallRun) : Prop where
  roles : Roles L n r.initial r.kernel.vm.cr3 role r.kernel.vm
  curr : ∃ p ∈ r.started, r.kernel.sched.currTask = some p ∧
    r.kernel.vm.cr3 = (r.kernel.task p).tss.cr3
  exist : ∀ t ∈ r.started, t.Exists
  started : ∀ t ∈ r.started, TaskRuns role t (r.kernel.task t)
  task : ∀ t, t.Exists → TaskRoles role t (r.kernel.task t)
  call : ∀ p c, r.call p = some c → CallRoles role r.kernel.task p c
  slot : ∀ p c t, r.call p = some c → c.slot = some t → t.Exists

namespace RunRoles

variable {r : CallRun}

/-- The task that runs was started, and its directory is in use. -/
theorem current (h : RunRoles L n role r) (hp : r.kernel.sched.currTask = some p) :
    p ∈ r.started ∧ r.kernel.vm.cr3 = (r.kernel.task p).tss.cr3 := by
  obtain ⟨q, hq, hcurr, hcr3⟩ := h.curr
  obtain rfl := Option.some.inj (hcurr.symm.trans hp)
  exact ⟨hq, hcr3⟩

theorem running (h : RunRoles L n role r) (hp : r.kernel.sched.currTask = some p) :
    Running L n r.initial p r.kernel role r.kernel :=
  ⟨h.roles, (h.current hp).2, h.started p (h.current hp).1, rfl, fun _ _ => rfl⟩

/-- The task `p` has run; the calls of the others and what is in their variables stay. -/
theorem ran {call : TaskId → Option Call} (h : RunRoles L n role r)
    (hp : r.kernel.sched.currTask = some p) (hle : role ≤ role')
    (hs : Running L n r.initial p r.kernel role' s')
    (hcall : ∀ q c, call q = some c → r.call q = some c ∨ (CallRoles role' s'.task q c ∧ c.slot = none)) :
    RunRoles L n role' { r with kernel := s', call := call } := by
  have htask : ∀ u, TaskRuns role u (r.kernel.task u) → TaskRuns role' u (s'.task u) := fun u hu => by
    by_cases hup : u = p
    · exact hup ▸ hs.task
    · exact hs.other u hup ▸ hu.mono hle
  have hstack : ∀ u, Stacked role u (r.kernel.task u) → Stacked role' u (s'.task u) := fun u hu => by
    by_cases hup : u = p
    · exact hup ▸ hs.task.stack
    · exact hs.other u hup ▸ hu.keep fun _ _ _ => hle _ _
  refine ⟨hs.roles, ⟨p, (h.current hp).1, hs.curr.trans hp, hs.cr3⟩, h.exist,
    fun u hu => htask u (h.started u hu), fun u hu => ?_, fun q c hq => ?_, fun q c u hq hu => ?_⟩
  · by_cases hup : u = p
    · exact hup ▸ hs.task.roles
    · exact hs.other u hup ▸ (h.task u hu).mono hle
  · rcases hcall q c hq with hq | hq
    · exact (h.call q c hq).keep (fun _ _ _ => hle _ _) (fun _ _ _ => hle _ _)
        fun u _ => ⟨htask u, hstack u⟩
    · exact hq.1
  · rcases hcall q c hq with hq | hq
    · exact h.slot q c u hq hu
    · rw [hq.2] at hu
      cases hu

/-- The roles that only directories of no use have may be forgotten. -/
theorem forget (h : RunRoles L n role r) :
    RunRoles L n (role.forget r.kernel.vm.mem {d | DirInUse r d}) r := by
  have hplain : ∀ q k, k.Plain → role q = some k →
      role.forget r.kernel.vm.mem {d | DirInUse r d} q = some k := fun q k hk hq =>
    RoleMap.forget_plain hq hk
  have hdir : ∀ d, DirInUse r d → ∀ o, role d = some (.dir o) →
      role.forget r.kernel.vm.mem {d | DirInUse r d} d = some (.dir o) := fun d hd o hr =>
    RoleMap.forget_of hr (by simp) (fun _ _ => hd) fun _ _ hk => by cases hk
  have hcr3 : ∀ t, t.Exists → ∀ o, role (r.kernel.task t).tss.cr3 = some (.dir o) →
      DirInUse r (r.kernel.task t).tss.cr3 := fun t ht o hr =>
    .inr (.inl ⟨t, ht, rfl, (h.roles.dirPage hr).ne_zero⟩)
  have hruns : ∀ t, t.Exists → TaskRuns role t (r.kernel.task t) →
      TaskRuns (role.forget r.kernel.vm.mem {d | DirInUse r d}) t (r.kernel.task t) := fun t ht hr =>
    ⟨hdir _ (hcr3 t ht t hr.dir) _ hr.dir, hr.stack.keep hplain⟩
  refine ⟨h.roles.forget, h.curr, h.exist, fun t ht => hruns t (h.exist t ht) (h.started t ht),
    fun t ht => ⟨?_, ?_⟩, fun p c hp => ?_, h.slot⟩
  · exact (h.task t ht).dir.imp_right fun hr => hdir _ (hcr3 t ht t hr) _ hr
  · exact (h.task t ht).stack.imp_right fun hs => hs.keep hplain
  · exact (h.call p c hp).keep hplain (fun d hd o hr => hdir d (.inr (.inr ⟨p, c, hp, hd⟩)) o hr)
      fun t ht => ⟨hruns t (h.slot p c t hp ht), fun hs => hs.keep hplain⟩

theorem tablesApart (h : BufferFree r) :
    TablesApart (role.forget r.kernel.vm.mem {d | DirInUse r d}) := by
  intro q k hq hkernel hplain
  cases k with
  | fixed => exact absurd rfl (RoleMap.forget_eq hq (by simp)).2.1
  | dir o => exact h.1 q ((RoleMap.forget_eq hq (by simp)).2.2.1 o rfl)
  | table d i => exact h.2 q ((RoleMap.forget_eq hq (by simp)).2.2.2 d i rfl)
  | kernel => exact absurd rfl hkernel
  | _ => exact absurd trivial hplain

/-! ## Steps -/

theorem go_exec {pc : ExecPc} {next : ExecPc ⊕ ℤ} (h : RunRoles L n role r)
    (hcurr : r.kernel.sched.currTask = some p) (hc : r.call p = some (.exec pc))
    (hcare : CarefulExec r pc) (hrun : pc.step L p r.kernel = some (next, s')) :
    ∃ role', RunRoles L n role' (r.record p (.exec pc) (next.map .exec id) s') := by
  obtain ⟨role₁, h₁, hallowed⟩ : ∃ role₁, RunRoles L n role₁ r ∧ ExecAllowed role₁ r.kernel pc := by
    cases pc with
    | opening disk argsAt old new name argv =>
        exact ⟨_, h.forget, fun v hv => tablesApart (hcare.1 v hv)⟩
    | start disk argsAt name argv => exact ⟨role, h, trivial⟩
    | stack argsAt old new entry argv => exact ⟨role, h, trivial⟩
    | segments argsAt old new argv file hdr i phdr =>
        exact ⟨role, h, fun next hnext => (hcare next hnext).fits⟩
    | args argsAt old new entry argv => exact ⟨role, h, hcare⟩
    | destroy c d => exact ⟨role, h, hcare⟩
  have hroles : ExecRoles role₁ p pc := h₁.call p _ hc
  obtain ⟨role', hle, hs', hnext⟩ := hroles.step (h₁.running hcurr) hallowed hrun
  refine ⟨role', h₁.ran hcurr hle hs' fun q c hq => ?_⟩
  by_cases hqp : q = p
  · rw [hqp, Function.update_self] at hq
    cases next with
    | inl pc' =>
        obtain rfl := Option.some.inj hq
        rw [hqp]
        exact .inr ⟨hnext pc' rfl, rfl⟩
    | inr d => cases hq
  · exact .inl ((Function.update_of_ne hqp _ _).symm.trans hq)

theorem go_fork {pc : ForkPc} {next : ForkPc ⊕ ℤ} {residue : ℕ} (h : RunRoles L n role r)
    (hc : r.call p = some (.fork pc))
    (hcare : CarefulFork r p pc) (hrun : pc.step L residue p r.kernel = some (next, s')) :
    ∃ role', RunRoles L n role' (r.record p (.fork pc) (next.map .fork id) s') := by
  have hroles : ForkRoles role r.kernel.task pc := h.call p _ hc
  obtain ⟨role', hstep⟩ := hroles.step h.roles (fun t ht => h.task t (h.slot p _ t hc ht)) hcare.room
    hcare.spares hrun
  have hle := hstep.le
  have hslot : ∀ t, (Call.fork pc).slot = some t → t ∉ r.started ∧
      ∀ q c, q ≠ p → r.call q = some c → c.slot ≠ some t := fun t ht => by
    obtain ⟨⟨t', a⟩, hclaim, rfl⟩ := Option.map_eq_some_iff.mp ht
    exact hcare.slot t' a hclaim
  have hkept : ∀ u ∈ r.started, s'.task u = r.kernel.task u := fun u hu =>
    hstep.other u fun he => (hslot u he).1 hu
  have hcr3 : s'.vm.cr3 = r.kernel.vm.cr3 := hstep.roles.cr3
  have hstarts : ∀ u, u ∈ (r.record p (.fork pc) (next.map .fork id) s').started →
      u ∈ r.started ∨ pc.starts = some u := fun u hu => by
    rcases List.mem_append.mp hu with hu | hu
    · exact .inr (Option.mem_toList.mp hu)
    · exact .inl hu
  have hclaims : ∀ u, pc.starts = some u → (Call.fork pc).slot = some u := fun u hu => by
    cases pc with
    | copied t pageDir => exact hu
    | _ => cases hu
  obtain ⟨p₀, hp₀, hcurr, hcr3₀⟩ := h.curr
  refine ⟨role', ?_, ⟨p₀, ?_, ?_, ?_⟩, fun u hu => ?_, fun u hu => ?_, fun u hu => ?_, fun q c hq => ?_,
    fun q c u hq hu => ?_⟩
  · show Roles L n r.initial s'.vm.cr3 role' s'.vm
    rw [hcr3]
    exact hstep.roles
  · exact List.mem_append_right _ hp₀
  · exact hstep.curr.trans hcurr
  · show s'.vm.cr3 = (s'.task p₀).tss.cr3
    rw [hcr3, hkept p₀ hp₀]
    exact hcr3₀
  · rcases hstarts u hu with hu | hu
    · exact h.exist u hu
    · exact h.slot p _ u hc (hclaims u hu)
  · rcases hstarts u hu with hu | hu
    · show TaskRuns role' u (s'.task u)
      rw [hkept u hu]
      exact (h.started u hu).mono hle
    · exact hstep.starts u hu
  · by_cases hu' : (Call.fork pc).slot = some u
    · exact hstep.slot u hu'
    · show TaskRoles role' u (s'.task u)
      rw [hstep.other u hu']
      exact (h.task u hu).mono hle
  · by_cases hqp : q = p
    · change Function.update r.call p _ q = some c at hq
      rw [hqp, Function.update_self] at hq
      cases next with
      | inl pc' =>
          obtain rfl := Option.some.inj hq
          exact (hstep.next pc' rfl).1
      | inr d => cases hq
    · have hq' : r.call q = some c := (Function.update_of_ne hqp _ _).symm.trans hq
      refine (h.call q c hq').keep (fun _ _ _ => hle _ _) (fun _ _ _ => hle _ _) fun u hu => ?_
      show (_ → TaskRuns role' u (s'.task u)) ∧ (_ → Stacked role' u (s'.task u))
      rw [hstep.other u fun he => (hslot u he).2 q c hqp hq' hu]
      exact ⟨fun ht => ht.mono hle, fun hs => hs.keep fun _ _ _ => hle _ _⟩
  · by_cases hqp : q = p
    · change Function.update r.call p _ q = some c at hq
      rw [hqp, Function.update_self] at hq
      cases next with
      | inl pc' =>
          obtain rfl := Option.some.inj hq
          exact ((hstep.next pc' rfl).2 u hu).elim id fun he => h.slot p _ u hc he
      | inr d => cases hq
    · exact h.slot q c u ((Function.update_of_ne hqp _ _).symm.trans hq) hu

theorem sbrk {x : ℕ} (h : RunRoles L n role r) (hcurr : r.kernel.sched.currTask = some p)
    (hcare : CarefulSbrk (r.kernel.task p) incr r.kernel.vm)
    (hrun : sysSbrk incr r.kernel = some (x, s')) :
    ∃ role', RunRoles L n role' { r with kernel := s' } := by
  obtain ⟨role', hle, hs'⟩ := running_sysSbrk hcurr (h.running hcurr) hcare hrun
  exact ⟨role', h.ran hcurr hle hs' fun q c hq => .inl hq⟩

theorem switch (h : RunRoles L n role r) (ht : t ∈ r.started) :
    RunRoles L n role { r with kernel := r.kernel.resume t } :=
  { h with
    roles := h.roles.withCr3 _
    curr := ⟨t, ht, rfl, rfl⟩ }

/-- A task may write to its kernel stack and to the frames of its directory. -/
theorem mayWrite_plain {x : ℕ} (h : RunRoles L n role r) (hx : r.MayWrite x) :
    ∃ q k, role q = some k ∧ InPage q x ∧ ((∃ p, r.kernel.sched.currTask = some p ∧ k = .stack p) ∨
      ∃ page, k = .frame r.kernel.vm.cr3 page) := by
  rcases hx with ⟨p, hp, hin⟩ | ⟨v, hv, huser, hwalk⟩
  · obtain ⟨q, hq, hesp0⟩ := (h.started p (h.current hp).1).stack
    rw [hesp0, (Roles.stackTop h.roles hq).2] at hin
    exact ⟨q, _, hq, hin, .inl ⟨p, hp, rfl⟩⟩
  · obtain ⟨p, hp, hcurr, hcr3⟩ := h.curr
    have hdir : role r.kernel.vm.cr3 = some (.dir p) := by
      rw [hcr3]
      exact (h.started p hp).dir
    obtain ⟨q, hq, rfl⟩ := h.roles.walk_frame hdir (h.roles.userWritable_user hdir hv huser) hwalk
    refine ⟨q, _, hq, ?_, .inr ⟨_, rfl⟩⟩
    unfold InPage memPageSize
    omega

theorem write {mem : Mem} (h : RunRoles L n role r)
    (hmem : ∀ x, mem x ≠ r.kernel.vm.mem x → r.MayWrite x) :
    RunRoles L n role { r with kernel := { r.kernel with vm := { r.kernel.vm with mem := mem } } } := by
  have hout : ∀ x, (∀ q k, role q = some k → k.Plain → ¬ InPage q x) → mem x = r.kernel.vm.mem x := by
    intro x hx
    by_contra hne
    obtain ⟨q, k, hq, hin, ⟨p, -, rfl⟩ | ⟨page, rfl⟩⟩ := h.mayWrite_plain (hmem x hne)
    · exact hx q _ hq trivial hin
    · exact hx q _ hq trivial hin
  have hend := h.roles.ready.dir_end
  have hroles : Roles L n r.initial r.kernel.vm.cr3 role { r.kernel.vm with mem := mem } := by
    refine h.roles.congr rfl rfl (fun x hx => hout x fun q k hq hk hin => ?_) fun p k hp hk x hx =>
      hout x fun q k' hq hk' hin => hk ?_
    · have hge := (h.roles.bounds hq).2.1
      unfold InPage at hx hin
      omega
    · obtain rfl := InPage.unique (h.roles.bounds hp).1 (h.roles.bounds hq).1 hx hin
      rwa [Option.some.inj (hp.symm.trans hq)]
  exact { h with roles := hroles }

theorem enter {c : Call} (h : RunRoles L n role r) (hcurr : r.kernel.sched.currTask = some p)
    (hc : c.Enters (r.kernel.task p)) :
    RunRoles L n role { r with call := Function.update r.call p (some c) } := by
  have hroles : CallRoles role r.kernel.task p c ∧ c.slot = none := by
    cases c with
    | fork pc =>
        cases pc with
        | search => exact ⟨trivial, rfl⟩
        | _ => exact hc.elim
    | exec pc =>
        cases pc with
        | start disk argsAt name argv =>
            obtain ⟨q, hq, hesp0⟩ := (h.started p (h.current hcurr).1).stack
            obtain ⟨hge, hend⟩ := hc
            rw [hesp0, (Roles.stackTop h.roles hq).2] at hge hend
            exact ⟨⟨q, hq, hge, hend⟩, rfl⟩
        | _ => exact hc.elim
  refine h.ran hcurr le_rfl (h.running hcurr) fun q c' hq => ?_
  by_cases hqp : q = p
  · rw [hqp, Function.update_self] at hq
    obtain rfl := Option.some.inj hq
    rw [hqp]
    exact .inr hroles
  · exact .inl ((Function.update_of_ne hqp _ _).symm.trans hq)

theorem step {a : CallAction} {r' : CallRun} (h : RunRoles L n role r) (he : callEnabled r a)
    (hcare : Careful r a) (hs : callStep L r a = some r') : ∃ role', RunRoles L n role' r' := by
  cases a with
  | enter c =>
      obtain ⟨p, hp, rfl⟩ := Option.map_eq_some_iff.mp hs
      exact ⟨role, h.enter hp (he.2 p hp)⟩
  | go residue =>
      obtain ⟨p, hp, hgo⟩ := Option.bind_eq_some_iff.mp hs
      obtain ⟨c, hc, hrun⟩ := Option.bind_eq_some_iff.mp hgo
      obtain ⟨⟨next, s'⟩, hstep, rfl⟩ := Option.map_eq_some_iff.mp hrun
      have hcall := hcare p c hp hc
      cases c with
      | fork pc =>
          obtain ⟨next', s₁, hpc, hret⟩ := Prog.bind_eq_some.mp hstep
          obtain ⟨role', hr⟩ := h.go_fork hc hcall hpc
          cases next' with
          | inl pc' =>
              obtain ⟨rfl, rfl⟩ := Prog.pure_eq_some.mp hret
              exact ⟨role', hr⟩
          | inr d =>
              obtain ⟨rfl, rfl⟩ := Prog.pure_eq_some.mp hret
              exact ⟨role', hr⟩
      | exec pc =>
          obtain ⟨next', s₁, hpc, hret⟩ := Prog.bind_eq_some.mp hstep
          obtain ⟨role', hr⟩ := h.go_exec hp hc hcall hpc
          cases next' with
          | inl pc' =>
              obtain ⟨rfl, rfl⟩ := Prog.pure_eq_some.mp hret
              exact ⟨role', hr⟩
          | inr d =>
              obtain ⟨rfl, rfl⟩ := Prog.pure_eq_some.mp hret
              exact ⟨role', hr⟩
  | sbrk incr =>
      obtain ⟨⟨x, s'⟩, hrun, rfl⟩ := Option.map_eq_some_iff.mp hs
      obtain ⟨p, hp⟩ : ∃ p, r.kernel.sched.currTask = some p := by
        obtain ⟨p, s₁, hp, -⟩ := Prog.bind_eq_some.mp hrun
        rw [taskCurrent, Prog.gets_bind] at hp
        cases hcurr : r.kernel.sched.currTask with
        | none => rw [hcurr] at hp; cases hp
        | some p => exact ⟨p, rfl⟩
      exact h.sbrk hp (hcare p hp) hrun
  | switch t =>
      obtain rfl := Option.some.inj hs
      exact ⟨role, h.switch he⟩
  | write mem =>
      obtain rfl := Option.some.inj hs
      exact ⟨role, h.write he⟩

/-! ## The kernel half -/

theorem hasDir (h : RunRoles L n role r) (ht : HasDir r t) :
    role (r.kernel.task t).tss.cr3 = some (.dir t) := by
  rcases ht with ht | ⟨ht, hne⟩
  · exact (h.started t ht).dir
  · exact (h.task t ht).dir.resolve_left hne

theorem kernelHalf (h : RunRoles L n role r) : KernelHalf L r := by
  have hdir : ∀ i < pdeCnt, r.kernel.vm.mem.pde L.kernelPageDir i = r.initial.pde L.kernelPageDir i :=
    fun i hi => Mem.read32_congr fun x hx hx' => h.roles.kernelDir x (inPage_word hi hx hx')
  refine ⟨fun t ht i hi => ?_, hdir, fun i hi j hj => ?_, fun t ht v hv e he => ?_⟩
  · rw [hdir i (hi.trans (by decide))]
    exact (h.roles.dir _ t (h.hasDir ht)).kernel i hi
  · exact h.roles.kernelDir_pteWord hi hj
  · exact h.roles.kernel_supervisor (h.hasDir ht) hv he

end RunRoles

end Kernel

end X86Os
