import X86Os.RoleBoot

/-!
# Address spaces have no page in common

In a careful run two tasks never share a directory or a kernel stack, and no page serves two addresses of
their user halves. What a program can reach is neither a table nor a kernel stack, and it is a page that the
allocator does not give out again.
-/

namespace X86Os

open Kernel (PageUsed)

variable {L : Layout} {n c d i x : ℕ} {m₀ : Mem} {role : RoleMap} {o : TaskId} {v : Vm}

/-- The byte lies in the directory or in one of its tables. -/
def InTables (m : Mem) (d x : ℕ) : Prop :=
  InPage d x ∨ ∃ i < pdeCnt, Present (m.pde d i) ∧ InPage (m.table d i) x

namespace Roles

/-- A byte of a page with a role is in no other page with a role. -/
theorem role_unique {p q : ℕ} {k k' : PageRole} (h : Roles L n m₀ c role v) (hp : role p = some k)
    (hq : role q = some k') (hx : InPage p x) (hx' : InPage q x) : k = k' := by
  obtain rfl := InPage.unique (h.bounds hp).1 (h.bounds hq).1 hx hx'
  exact Option.some.inj (hp.symm.trans hq)

/-- The tables of the kernel's directory are those of the kernel. -/
theorem kernelDir_table (h : Roles L n m₀ c role v) (hi : i < pdeCnt)
    (hp : Present (v.mem.pde L.kernelPageDir i)) : role (v.mem.table L.kernelPageDir i) = some .kernel := by
  have hpde : v.mem.pde L.kernelPageDir i = m₀.pde L.kernelPageDir i :=
    Mem.read32_congr fun x hx hx' => h.kernelDir x (inPage_word hi hx hx')
  rw [Mem.table, hpde]
  exact h.kernel i hi (hpde ▸ hp)

theorem dir_table (h : Roles L n m₀ c role v) (hd : role d = some (.dir o)) (hi : i < pdeCnt)
    (hp : Present (v.mem.pde d i)) :
    role (v.mem.table d i) = some .kernel ∨ role (v.mem.table d i) = some (.table d i) := by
  by_cases hk : i < userPdeStart
  · have hpde := (h.dir d o hd).kernel i hk
    rw [hpde] at hp
    refine .inl ?_
    rw [Mem.table, hpde]
    exact h.kernel i hi hp
  · rcases (h.dir d o hd).user i (not_lt.mp hk) hi with hzero | ⟨t, ht, hword⟩
    · rw [hzero] at hp
      cases hp
    · refine .inr ?_
      rw [Mem.table, hword, entryPaddr_add (h.tablePage ht).aligned (by decide)]
      exact ht

/-- The pages of the allocator are not in the kernel's directory. -/
theorem not_kernelDir {p : ℕ} {k : PageRole} (h : Roles L n m₀ c role v) (hp : role p = some k)
    (hx : InPage p x) : ¬ InPage L.kernelPageDir x := by
  have hend := h.ready.dir_end
  have hge := (h.bounds hp).2.1
  unfold InPage at *
  omega

/-- A page without a table lies in no table. -/
theorem plain_not_inTables {p : ℕ} {k : PageRole} (h : Roles L n m₀ c role v) (hp : role p = some k)
    (hk : k.Plain) (hx : InPage p x) (hd : d = L.kernelPageDir ∨ ∃ o, role d = some (.dir o)) :
    ¬ InTables v.mem d x := by
  rintro (hin | ⟨i, hi, hpres, hin⟩)
  · rcases hd with rfl | ⟨o, hd⟩
    · exact h.not_kernelDir hp hx hin
    · exact hk.ne_dir o (h.role_unique hp hd hx hin)
  · rcases hd with rfl | ⟨o, hd⟩
    · exact hk.ne_kernel (h.role_unique hp (h.kernelDir_table hi hpres) hx hin)
    · rcases h.dir_table hd hi hpres with ht | ht
      · exact hk.ne_kernel (h.role_unique hp ht hx hin)
      · exact hk.ne_table d i (h.role_unique hp ht hx hin)

end Roles

namespace Kernel

/-- What a program with the directory of the task `t` reaches at the address `a` of the user half. -/
def Reaches (r : CallRun) (t : TaskId) (a x : ℕ) : Prop :=
  HasDir r t ∧ UserAddr a ∧ r.kernel.vm.mem.walk (r.kernel.task t).tss.cr3 a = some x

/-- The byte is on the kernel stack of the task. -/
def OnStack (r : CallRun) (t : TaskId) (x : ℕ) : Prop :=
  t ∈ r.started ∧ InPage (u32Sub (r.kernel.task t).tss.esp0 memPageSize) x

structure SpacesApart (L : Layout) (n : ℕ) (r : CallRun) : Prop where
  dir : ∀ t u, HasDir r t → HasDir r u → (r.kernel.task t).tss.cr3 = (r.kernel.task u).tss.cr3 → t = u
  page : ∀ t u a b x y, Reaches r t a x → Reaches r u b y → x / memPageSize = y / memPageSize →
    t = u ∧ a / memPageSize = b / memPageSize
  used : ∀ t a x, Reaches r t a x → PageUsed n r.kernel.vm (x - x % memPageSize)
  stack : ∀ t u x, OnStack r t x → OnStack r u x → t = u
  reach_stack : ∀ t u a x, Reaches r t a x → ¬ OnStack r u x
  tables : ∀ t u a x, Reaches r t a x ∨ OnStack r t x → HasDir r u →
    ¬ InTables r.kernel.vm.mem (r.kernel.task u).tss.cr3 x
  kernelTables : ∀ t a x, Reaches r t a x ∨ OnStack r t x → ¬ InTables r.kernel.vm.mem L.kernelPageDir x
  current : ∃ t ∈ r.started, r.kernel.sched.currTask = some t ∧
    r.kernel.vm.cr3 = (r.kernel.task t).tss.cr3

variable {r : CallRun} {t u : TaskId} {a : ℕ}

theorem RunRoles.reaches (h : RunRoles L n role r) (hr : Reaches r t a x) :
    ∃ q, role q = some (.frame (r.kernel.task t).tss.cr3 (a / memPageSize)) ∧ x = q + a % memPageSize ∧
      q % memPageSize = 0 := by
  obtain ⟨hdir, ha, hwalk⟩ := hr
  obtain ⟨q, hq, hx⟩ := h.roles.walk_frame (h.hasDir hdir) ha hwalk
  exact ⟨q, hq, hx, (h.roles.bounds hq).1⟩

theorem RunRoles.onStack (h : RunRoles L n role r) (hs : OnStack r t x) :
    ∃ q, role q = some (.stack t) ∧ InPage q x := by
  obtain ⟨q, hq, hesp0⟩ := (h.started t hs.1).stack
  have hin := hs.2
  rw [hesp0, (Roles.stackTop h.roles hq).2] at hin
  exact ⟨q, hq, hin⟩

theorem page_eq {q : ℕ} (hq : q % memPageSize = 0) (hx : x = q + a % memPageSize) :
    InPage q x ∧ x - x % memPageSize = q ∧ x / memPageSize = q / memPageSize := by
  unfold InPage memPageSize at *
  omega

theorem RunRoles.spacesApart (h : RunRoles L n role r) : SpacesApart L n r := by
  have hplain : ∀ t a x, Reaches r t a x ∨ OnStack r t x →
      ∃ q k, role q = some k ∧ k.Plain ∧ InPage q x := by
    rintro t a x (hr | hs)
    · obtain ⟨q, hq, hx, hal⟩ := h.reaches hr
      exact ⟨q, _, hq, trivial, (page_eq hal hx).1⟩
    · obtain ⟨q, hq, hx⟩ := h.onStack hs
      exact ⟨q, _, hq, trivial, hx⟩
  refine ⟨fun t u ht hu he => ?_, fun t u a b x y hx hy he => ?_, fun t a x hx => ?_,
    fun t u x ht hu => ?_, fun t u a x hx hu => ?_, fun t u a x hx hu => ?_, fun t a x hx => ?_, h.curr⟩
  · exact PageRole.dir.inj (Option.some.inj ((h.hasDir ht).symm.trans (he ▸ h.hasDir hu)))
  · obtain ⟨q, hq, hxq, hal⟩ := h.reaches hx
    obtain ⟨q', hq', hyq, hal'⟩ := h.reaches hy
    have hqq : q = q' := by
      have hx' := (page_eq hal hxq).2.2
      have hy' := (page_eq hal' hyq).2.2
      unfold memPageSize at *
      omega
    have hframe := PageRole.frame.inj (Option.some.inj (hq.symm.trans (hqq ▸ hq')))
    have hdir := h.hasDir hx.1
    rw [hframe.1] at hdir
    exact ⟨PageRole.dir.inj (Option.some.inj (hdir.symm.trans (h.hasDir hy.1))), hframe.2⟩
  · obtain ⟨q, hq, hxq, hal⟩ := h.reaches hx
    rw [(page_eq hal hxq).2.1]
    exact h.roles.used q (by simp [hq])
  · obtain ⟨q, hq, hxq⟩ := h.onStack ht
    obtain ⟨q', hq', hxq'⟩ := h.onStack hu
    exact PageRole.stack.inj (h.roles.role_unique hq hq' hxq hxq')
  · obtain ⟨q, hq, hxq, hal⟩ := h.reaches hx
    obtain ⟨q', hq', hxq'⟩ := h.onStack hu
    cases h.roles.role_unique hq hq' (page_eq hal hxq).1 hxq'
  · obtain ⟨q, k, hq, hk, hin⟩ := hplain t a x hx
    exact h.roles.plain_not_inTables hq hk hin (.inr ⟨u, h.hasDir hu⟩)
  · obtain ⟨q, k, hq, hk, hin⟩ := hplain t a x hx
    exact h.roles.plain_not_inTables hq hk hin (.inl rfl)

end Kernel

end X86Os
