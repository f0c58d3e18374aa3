import X86Os.ArgPassing
import X86Os.Frozen

/-!
# Other tasks leave a task intact

In a careful run nothing that other tasks do changes what a program sees: its tables, the bytes that
it reaches, its kernel stack, and its entry in the table of tasks. The one exception is the buffer that a
file is read into, which may lie in pages of any task.
-/

namespace X86Os

namespace Kernel

variable {L : Layout} {n : ℕ} {role : RoleMap} {r r' r'' : CallRun} {p t u : TaskId} {x : ℕ} {s' : Kernel}

/-- The program of the task reaches the byte, or it is on the kernel stack of the task. -/
def Owns (r : CallRun) (u : TaskId) (x : ℕ) : Prop := (∃ a, Reaches r u a x) ∨ OnStack r u x

structure Intact (u : TaskId) (r r' : CallRun) : Prop where
  started : u ∈ r'.started
  task : r'.kernel.task u = r.kernel.task u
  walk : ∀ a < 2 ^ 32, r'.kernel.vm.mem.walk (r'.kernel.task u).tss.cr3 a =
    r.kernel.vm.mem.walk (r.kernel.task u).tss.cr3 a
  byte : ∀ x, Owns r u x → r'.kernel.vm.mem x = r.kernel.vm.mem x

/-- No file is read into bytes of the task `u`. -/
def ReadsElsewhere (u : TaskId) (r : CallRun) : ExecPc → Prop
  | .opening _ _ _ _ name _ => ∀ v, load8 name r.kernel.vm = some (slash, v) → ∀ x, Owns r u x → ¬ InBuffer x
  | _ => True

/-- The action is not one by which the task `u` changes its own memory. -/
def Foreign (u : TaskId) (r : CallRun) : CallAction → Prop
  | .go _ => ∀ p pc, r.kernel.sched.currTask = some p → r.call p = some (.exec pc) →
    p ≠ u ∧ ReadsElsewhere u r pc
  | .sbrk _ => r.kernel.sched.currTask ≠ some u
  | .write _ => r.kernel.sched.currTask ≠ some u
  | _ => True

/-! ## Runs -/

theorem Intact.owns (h : Intact u r r') : Owns r' u x ↔ (u ∈ r'.started ∧ ((∃ a, UserAddr a ∧
    r.kernel.vm.mem.walk (r.kernel.task u).tss.cr3 a = some x) ∨
      InPage (u32Sub (r.kernel.task u).tss.esp0 memPageSize) x)) := by
  constructor
  · rintro (⟨a, -, ha, hwalk⟩ | ⟨hu, hin⟩)
    · exact ⟨h.started, .inl ⟨a, ha, (h.walk a ha.2).symm.trans hwalk⟩⟩
    · exact ⟨hu, .inr (h.task ▸ hin)⟩
  · rintro ⟨hu, ⟨a, ha, hwalk⟩ | hin⟩
    · exact .inl ⟨a, .inl hu, ha, (h.walk a ha.2).trans hwalk⟩
    · exact .inr ⟨hu, h.task.symm ▸ hin⟩

theorem Intact.refl (hu : u ∈ r.started) : Intact u r r :=
  ⟨hu, rfl, fun _ _ => rfl, fun _ _ => rfl⟩

theorem Intact.trans (h : Intact u r r') (h' : Intact u r' r'') : Intact u r r'' where
  started := h'.started
  task := h'.task.trans h.task
  walk a ha := (h'.walk a ha).trans (h.walk a ha)
  byte x hx := by
    have hown : Owns r' u x := h.owns.mpr ⟨h.started, hx.imp (fun ⟨a, ha⟩ => ⟨a, ha.2⟩) fun hs => hs.2⟩
    exact (h'.byte x hown).trans (h.byte x hx)

/-! ## Pages of the task -/

/-- The pages all of whose bytes are the task's. -/
def ownPages (r : CallRun) (u : TaskId) : Set ℕ := {q | ∀ x, InPage q x → Owns r u x}

/-- An address with the same number of a page. -/
theorem walk_samePage {m : Mem} {d a b q : ℕ} (hwalk : m.walk d a = some (q + a % memPageSize))
    (hab : a / memPageSize = b / memPageSize) : m.walk d b = some (q + b % memPageSize) := by
  have hindex : pdeIndex b = pdeIndex a ∧ pteIndex b = pteIndex a := by
    unfold pdeIndex pteIndex memPageSize at *
    omega
  rw [walk_eq, Option.map_eq_some_iff] at hwalk ⊢
  obtain ⟨e, he, hpage⟩ := hwalk
  exact ⟨e, by rw [hindex.1, hindex.2, he], by omega⟩

theorem RunRoles.owns (h : RunRoles L n role r) (hx : Owns r u x) :
    ∃ q k, role q = some k ∧ role.Frozen u (ownPages r u) q k ∧ k.Plain ∧ InPage q x := by
  rcases hx with ⟨a, ha⟩ | hs
  · obtain ⟨q, hq, hx, hal⟩ := h.reaches ha
    refine ⟨q, _, hq, ⟨h.hasDir ha.1, fun y hy => .inl ⟨a / memPageSize * memPageSize + (y - q), ?_⟩⟩,
      trivial, (page_eq hal hx).1⟩
    obtain ⟨hdir, huser, hwalk⟩ := ha
    rw [hx] at hwalk
    have hin : q ≤ y ∧ y < q + memPageSize := hy
    have hsame : a / memPageSize = (a / memPageSize * memPageSize + (y - q)) / memPageSize ∧
        (a / memPageSize * memPageSize + (y - q)) % memPageSize = y - q := by
      unfold memPageSize at *
      omega
    refine ⟨hdir, ?_, ?_⟩
    · unfold UserAddr memoryTaskBase memPageSize at *
      omega
    · rw [walk_samePage hwalk hsame.1, hsame.2]
      congr 1
      omega
  · obtain ⟨q, hq, hin⟩ := h.onStack hs
    obtain ⟨q', hq', hesp0⟩ := (h.started u hs.1).stack
    have hpage := hs.2
    rw [hesp0, (Roles.stackTop h.roles hq').2] at hpage
    obtain rfl := InPage.unique (h.roles.bounds hq).1 (h.roles.bounds hq').1 hin hpage
    refine ⟨q, _, hq, ⟨rfl, fun y hy => .inr ⟨hs.1, ?_⟩⟩, trivial, hin⟩
    rw [hesp0, (Roles.stackTop h.roles hq').2]
    exact hy

/-- Where the frozen pages are as they were, the task is intact. -/
theorem RunRoles.intact {c : ℕ} {role' : RoleMap} (h : RunRoles L n role r) (hu : u ∈ r.started)
    (hstarted : u ∈ r'.started) (hle : role.freeze u (ownPages r u) ≤ role')
    (hroles : Roles L n r.kernel.vm.mem c role' r'.kernel.vm)
    (htask : r'.kernel.task u = r.kernel.task u) : Intact u r r' := by
  have hdir := h.hasDir (.inl hu)
  have hfixed : ∀ q k x, role q = some k → role.Frozen u (ownPages r u) q k → InPage q x →
      r'.kernel.vm.mem x = r.kernel.vm.mem x := fun q k x hq hk hx =>
    hroles.fixed q (hle _ _ (RoleMap.freeze_fixed hq hk)) x hx
  have hkernel : ∀ q x, role q = some .kernel → InPage q x →
      r'.kernel.vm.mem x = r.kernel.vm.mem x := fun q x hq hx =>
    hroles.kernelTable q (hle _ _ (RoleMap.freeze_of hq id)) x hx
  have hbyte : ∀ x, Owns r u x → r'.kernel.vm.mem x = r.kernel.vm.mem x := fun x hx => by
    obtain ⟨q, k, hq, hk, -, hin⟩ := h.owns hx
    exact hfixed q k x hq hk hin
  have hguard : ∀ x, Guarded (r.kernel.task u).tss.cr3 (Owns r u) r.kernel.vm.mem x →
      r'.kernel.vm.mem x = r.kernel.vm.mem x := by
    rintro x (hx | ⟨i, hi, hpres, hx⟩ | hx)
    · exact hfixed _ _ x hdir rfl hx
    · rcases h.roles.dir_table hdir hi hpres with ht | ht
      · exact hkernel _ x ht hx
      · exact hfixed _ _ x ht hdir hx
    · exact hbyte x hx
  refine ⟨hstarted, htask, fun a ha => ?_, hbyte⟩
  rw [htask]
  exact (guarded_congr hguard).2 a ha

/-! ## Steps -/

theorem RunRoles.frozen (h : RunRoles L n role r) (u : TaskId) :
    Roles L n r.kernel.vm.mem r.kernel.vm.cr3 (role.freeze u (ownPages r u)) r.kernel.vm :=
  h.roles.frozen u _

theorem RunRoles.running_frozen (h : RunRoles L n role r) (hcurr : r.kernel.sched.currTask = some p)
    (hpu : p ≠ u) : Running L n r.kernel.vm.mem p r.kernel (role.freeze u (ownPages r u)) r.kernel :=
  ⟨h.frozen u, (h.current hcurr).2, (h.started p (h.current hcurr).1).freeze hpu, rfl, fun _ _ => rfl⟩

theorem RunRoles.exec_foreign {pc : ExecPc} {next : ExecPc ⊕ ℤ} (h : RunRoles L n role r)
    (hcurr : r.kernel.sched.currTask = some p) (hc : r.call p = some (.exec pc)) (hu : u ∈ r.started)
    (hcare : CarefulExec r pc) (hpu : p ≠ u) (hreads : ReadsElsewhere u r pc)
    (hrun : pc.step L p r.kernel = some (next, s')) :
    Intact u r (r.record p (.exec pc) (next.map .exec id) s') := by
  have h₁ := h.forget
  have hroles : ExecRoles _ p pc := h₁.call p _ hc
  have hallowed : ExecAllowed ((role.forget r.kernel.vm.mem {d | DirInUse r d}).freeze u (ownPages r u))
      r.kernel pc := by
    cases pc with
    | opening disk argsAt old new name argv =>
        intro v hv
        refine (tablesApart (hcare.1 v hv)).freeze fun q hq x hx => ?_
        exact hreads v hv x (hq x hx)
    | start disk argsAt name argv => exact trivial
    | stack argsAt old new entry argv => exact trivial
    | segments argsAt old new argv file hdr i phdr =>
        exact fun next hnext => (hcare next hnext).fits
    | args argsAt old new entry argv => exact hcare
    | destroy c d => exact hcare
  obtain ⟨role', hle, hs', -⟩ := (hroles.freeze hpu).step (h₁.running_frozen hcurr hpu) hallowed hrun
  exact h₁.intact hu hu hle hs'.roles (hs'.other u (Ne.symm hpu))

theorem RunRoles.fork_foreign {pc : ForkPc} {next : ForkPc ⊕ ℤ} {residue : ℕ} (h : RunRoles L n role r)
    (hc : r.call p = some (.fork pc)) (hu : u ∈ r.started) (hcare : CarefulFork r p pc)
    (hrun : pc.step L residue p r.kernel = some (next, s')) :
    Intact u r (r.record p (.fork pc) (next.map .fork id) s') := by
  have hslot : (Call.fork pc).slot ≠ some u := fun he => by
    obtain ⟨⟨t, a⟩, hclaim, rfl⟩ := Option.map_eq_some_iff.mp he
    exact (hcare.slot t a hclaim).1 hu
  have hroles : ForkRoles role r.kernel.task pc := h.call p _ hc
  have htask : ∀ t, (Call.fork pc).slot = some t →
      TaskRoles (role.freeze u (ownPages r u)) t (r.kernel.task t) := fun t ht =>
    (h.task t (h.slot p _ t hc ht)).freeze fun he => hslot (he ▸ ht)
  obtain ⟨role', hstep⟩ := (hroles.freeze hslot).step (h.frozen u) htask hcare.room hcare.spares hrun
  exact h.intact hu (List.mem_append_right _ hu) hstep.le hstep.roles (hstep.other u hslot)

theorem RunRoles.sbrk_foreign {incr : ℤ} {y : ℕ} (h : RunRoles L n role r)
    (hcurr : r.kernel.sched.currTask = some p) (hu : u ∈ r.started) (hpu : p ≠ u)
    (hcare : CarefulSbrk (r.kernel.task p) incr r.kernel.vm)
    (hrun : sysSbrk incr r.kernel = some (y, s')) :
    Intact u r { r with kernel := s' } := by
  obtain ⟨role', hle, hs'⟩ := running_sysSbrk hcurr (h.running_frozen hcurr hpu) hcare hrun
  exact h.intact hu hu hle hs'.roles (hs'.other u (Ne.symm hpu))

/-- A task writes to none of the pages that are frozen for another one. -/
theorem RunRoles.write_foreign {mem : Mem} (h : RunRoles L n role r)
    (hcurr : r.kernel.sched.currTask = some p) (hu : u ∈ r.started) (hpu : p ≠ u)
    (hmem : ∀ x, mem x ≠ r.kernel.vm.mem x → r.MayWrite x) :
    Intact u r { r with kernel := { r.kernel with vm := { r.kernel.vm with mem := mem } } } := by
  have hplain : ∀ x, r.MayWrite x → ∃ q k, (role.freeze u (ownPages r u)) q = some k ∧ k.Plain ∧
      InPage q x := fun x hx => by
    obtain ⟨q, k, hq, hin, ⟨p', hp', rfl⟩ | ⟨page, rfl⟩⟩ := h.mayWrite_plain hx
    · obtain rfl := Option.some.inj (hcurr.symm.trans hp')
      exact ⟨q, _, RoleMap.freeze_stack hq hpu, trivial, hin⟩
    · have hdir : role r.kernel.vm.cr3 = some (.dir p) := by
        rw [(h.current hcurr).2]
        exact (h.started p (h.current hcurr).1).dir
      exact ⟨q, _, RoleMap.freeze_frame hq (RoleMap.not_dir hdir hpu), trivial, hin⟩
  have hout : ∀ x, (∀ q k, (role.freeze u (ownPages r u)) q = some k → k.Plain → ¬ InPage q x) →
      mem x = r.kernel.vm.mem x := by
    intro x hx
    by_contra hne
    obtain ⟨q, k, hq, hk, hin⟩ := hplain x (hmem x hne)
    exact hx q k hq hk hin
  have hfrozen := h.frozen u
  refine h.intact hu hu le_rfl (hfrozen.congr rfl rfl (fun x hx => ?_)
    fun q k hq hk x hx => ?_) rfl
  · exact hout x fun q k hq _ hin => hfrozen.not_kernelDir hq hin hx
  · refine hout x fun q' k' hq' hk' hin => hk ?_
    rwa [hfrozen.role_unique hq hq' hx hin]

theorem RunRoles.step_foreign {a : CallAction} (h : RunRoles L n role r) (hu : u ∈ r.started)
    (he : callEnabled r a) (hcare : Careful r a) (hf : Foreign u r a) (hs : callStep L r a = some r') :
    Intact u r r' := by
  have hcurr : ∃ p, r.kernel.sched.currTask = some p := h.curr.imp fun _ hp => hp.2.1
  cases a with
  | enter c =>
      obtain ⟨p, -, rfl⟩ := Option.map_eq_some_iff.mp hs
      exact ⟨hu, rfl, fun _ _ => rfl, fun _ _ => rfl⟩
  | switch t =>
      obtain rfl := Option.some.inj hs
      exact ⟨hu, rfl, fun _ _ => rfl, fun _ _ => rfl⟩
  | go residue =>
      obtain ⟨p, hp, hgo⟩ := Option.bind_eq_some_iff.mp hs
      obtain ⟨c, hc, hrun⟩ := Option.bind_eq_some_iff.mp hgo
      obtain ⟨⟨next, s'⟩, hstep, rfl⟩ := Option.map_eq_some_iff.mp hrun
      cases c with
      | fork pc =>
          obtain ⟨next', s₁, hpc, hret⟩ := Prog.bind_eq_some.mp hstep
          have hdone := h.fork_foreign hc hu (hcare p _ hp hc) hpc
          cases next' with
          | inl pc' =>
              obtain ⟨rfl, rfl⟩ := Prog.pure_eq_some.mp hret
              exact hdone
          | inr d =>
              obtain ⟨rfl, rfl⟩ := Prog.pure_eq_some.mp hret
              exact hdone
      | exec pc =>
          obtain ⟨hpu, hreads⟩ := hf p pc hp hc
          obtain ⟨next', s₁, hpc, hret⟩ := Prog.bind_eq_some.mp hstep
          have hdone := h.exec_foreign hp hc hu (hcare p _ hp hc) hpu hreads hpc
          cases next' with
          | inl pc' =>
              obtain ⟨rfl, rfl⟩ := Prog.pure_eq_some.mp hret
              exact hdone
          | inr d =>
              obtain ⟨rfl, rfl⟩ := Prog.pure_eq_some.mp hret
              exact hdone
  | sbrk incr =>
      obtain ⟨⟨y, s'⟩, hrun, rfl⟩ := Option.map_eq_some_iff.mp hs
      obtain ⟨p, hp⟩ := hcurr
      exact h.sbrk_foreign hp hu (fun hpu => hf (hpu ▸ hp)) (hcare p hp) hrun
  | write mem =>
      obtain rfl := Option.some.inj hs
      obtain ⟨p, hp⟩ := hcurr
      exact h.write_foreign hp hu (fun hpu => hf (hpu ▸ hp)) he

end Kernel

end X86Os
