import X86Os.SpacesApart

/-!
# Pages that stay as they are

The pages of one task become fixed, against the memory of the moment. The roles of all other tasks are not
affected, so whatever they do goes on keeping roles, and thus the fixed pages stay as they are.
-/

namespace X86Os

open Kernel (Stacked TaskRoles TaskRuns ForkRoles ArgsRole Loading ExecRoles TablesApart)

variable {L : Layout} {n c d i p : ℕ} {m₀ : Mem} {role : RoleMap} {k : PageRole} {o t u : TaskId}
  {pages : Set ℕ} {v : Vm}

namespace RoleMap

/-- The page has its role for the task `u`; frames and kernel stacks count if they lie in `pages`. -/
def Frozen (role : RoleMap) (u : TaskId) (pages : Set ℕ) (p : ℕ) : PageRole → Prop
  | .dir o => o = u
  | .table d _ => role d = some (.dir u)
  | .frame d _ => role d = some (.dir u) ∧ p ∈ pages
  | .stack o => o = u ∧ p ∈ pages
  | _ => False

open Classical in
noncomputable def freeze (role : RoleMap) (u : TaskId) (pages : Set ℕ) : RoleMap := fun p =>
  (role p).map fun k => if role.Frozen u pages p k then .fixed else k

theorem freeze_fixed (h : role p = some k) (hs : role.Frozen u pages p k) :
    role.freeze u pages p = some .fixed := by
  rw [freeze, h, Option.map_some, if_pos hs]

theorem freeze_of (h : role p = some k) (hs : ¬ role.Frozen u pages p k) : role.freeze u pages p = some k := by
  rw [freeze, h, Option.map_some, if_neg hs]

theorem freeze_cases (h : role.freeze u pages p = some k) : (role p = some k ∧ ¬ role.Frozen u pages p k) ∨
    (k = .fixed ∧ ∃ k', role p = some k' ∧ role.Frozen u pages p k') := by
  obtain ⟨k', hk', hk⟩ := Option.map_eq_some_iff.mp h
  split_ifs at hk with hs
  · exact .inr ⟨hk.symm, k', hk', hs⟩
  · obtain rfl := hk
    exact .inl ⟨hk', hs⟩

theorem freeze_eq (h : role.freeze u pages p = some k) (hk : k ≠ .fixed) :
    role p = some k ∧ ¬ role.Frozen u pages p k :=
  (freeze_cases h).resolve_right fun hf => hk hf.1

/-! ## Pages of other tasks -/

theorem freeze_dir (h : role d = some (.dir o)) (ho : o ≠ u) : role.freeze u pages d = some (.dir o) :=
  freeze_of h ho

theorem freeze_stack (h : role p = some (.stack o)) (ho : o ≠ u) :
    role.freeze u pages p = some (.stack o) := freeze_of h fun hs => ho hs.1

theorem not_dir (hd : role d = some (.dir o)) (ho : o ≠ u) : role d ≠ some (.dir u) := fun hu =>
  ho (PageRole.dir.inj (Option.some.inj (hd.symm.trans hu)))

theorem freeze_table (h : role p = some (.table d i)) (hd : role d ≠ some (.dir u)) :
    role.freeze u pages p = some (.table d i) := freeze_of h hd

theorem freeze_frame {page : ℕ} (h : role p = some (.frame d page)) (hd : role d ≠ some (.dir u)) :
    role.freeze u pages p = some (.frame d page) := freeze_of h fun hs => hd hs.1

end RoleMap

namespace Roles

/-- The kernel's tables are still those of `memory_init`. -/
theorem rebase (h : Roles L n m₀ c role v) : KernelReady L n v.mem where
  dirPage := h.ready.dirPage
  dir_ge := h.ready.dir_ge
  dir_end := h.ready.dir_end
  top := h.ready.top
  table i hi hp := by
    have hpde : v.mem.pde L.kernelPageDir i = m₀.pde L.kernelPageDir i :=
      Mem.read32_congr fun x hx hx' => h.kernelDir x (inPage_word hi hx hx')
    rw [Mem.table, hpde]
    exact h.ready.table i hi (hpde ▸ hp)
  identity w hw := by
    have hword := h.kernelDir_pteWord (pdeIndex_lt hw) (pteIndex_lt w)
    rw [← h.ready.identity w hw, walk_eq, walk_eq, Mem.userEntry_eq_filter, Mem.userEntry_eq_filter, hword]
  user i hi j hj e he := h.ready.user i hi j hj e ((h.kernelDir_pteWord hi hj).symm.trans he)

/-- The task `u` no longer takes part. -/
theorem frozen (h : Roles L n m₀ c role v) (u : TaskId) (pages : Set ℕ) :
    Roles L n v.mem c (role.freeze u pages) v where
  ready := h.rebase
  managed := h.managed
  start := h.start
  cr3 := h.cr3
  used p hp := h.used p fun hnone => hp (by rw [RoleMap.freeze, hnone]; rfl)
  kernel i hi hp := RoleMap.freeze_of (h.kernelDir_table hi hp) id
  kernel_low p hp := h.kernel_low p (RoleMap.freeze_eq hp (by simp)).1
  kernelDir _ _ := rfl
  kernelTable _ _ _ _ := rfl
  fixed _ _ _ _ := rfl
  dir d o hd := by
    obtain ⟨hrole, ho⟩ := RoleMap.freeze_eq hd (by simp)
    have hdir := h.dir d o hrole
    refine ⟨hdir.identity, fun i hi => ?_, fun i hi hi' => (hdir.user i hi hi').imp_right ?_⟩
    · rw [hdir.kernel i hi]
      exact (Mem.read32_congr fun x hx hx' => h.kernelDir x (inPage_word (hi.trans (by decide)) hx hx')).symm
    · rintro ⟨t, ht, hw⟩
      exact ⟨t, RoleMap.freeze_table ht (RoleMap.not_dir hrole ho), hw⟩
  table t d i ht := by
    obtain ⟨hrole, hd⟩ := RoleMap.freeze_eq ht (by simp)
    have htable := h.table t d i hrole
    exact ⟨htable.identity, fun j hj => (htable.word j hj).imp_right fun ⟨hp, hf⟩ =>
      ⟨hp, RoleMap.freeze_frame hf hd⟩⟩

end Roles

/-! ## Tasks and calls -/

namespace Kernel

variable {task : Task}

theorem Stacked.freeze (h : Stacked role t task) (ht : t ≠ u) : Stacked (role.freeze u pages) t task :=
  h.imp fun _ hq => ⟨RoleMap.freeze_stack hq.1 ht, hq.2⟩

theorem TaskRuns.freeze (h : TaskRuns role t task) (ht : t ≠ u) : TaskRuns (role.freeze u pages) t task :=
  ⟨RoleMap.freeze_dir h.dir ht, h.stack.freeze ht⟩

theorem TaskRoles.freeze (h : TaskRoles role t task) (ht : t ≠ u) : TaskRoles (role.freeze u pages) t task :=
  ⟨h.dir.imp_right fun hd => RoleMap.freeze_dir hd ht, h.stack.imp_right fun hs => hs.freeze ht⟩

theorem building_freeze {pc : CopyPc} (h : pc.Building role t) (ht : t ≠ u) :
    pc.Building (role.freeze u pages) t := by
  cases pc with
  | create dir => exact trivial
  | pde dir dest i => exact ⟨RoleMap.freeze_dir h.1 ht, h.2⟩
  | pte dir dest i table j => exact ⟨RoleMap.freeze_dir h.1 ht, h.2⟩
  | map dir dest i table j perm page =>
      obtain ⟨hd, hi, hi', hj, hperm, hp⟩ := h
      exact ⟨RoleMap.freeze_dir hd ht, hi, hi', hj, hperm, RoleMap.freeze_frame hp (RoleMap.not_dir hd ht)⟩
  | _ => exact h

/-- A fork that sets up another slot. -/
theorem ForkRoles.freeze {tasks : TaskId → Task} {pc : ForkPc} (h : ForkRoles role tasks pc)
    (hu : (Call.fork pc).slot ≠ some u) : ForkRoles (role.freeze u pages) tasks pc := by
  have hne : ∀ t, (Call.fork pc).slot = some t → t ≠ u := fun t ht he => hu (he ▸ ht)
  cases pc with
  | stack t esp0 eip esp sel kernelStack => exact RoleMap.freeze_stack h (hne t rfl)
  | dir t esp0 pageDir => exact ⟨h.1.freeze (hne t rfl), RoleMap.freeze_dir h.2 (hne t rfl)⟩
  | named t esp0 => exact TaskRuns.freeze h (hne t rfl)
  | inserted t esp0 => exact TaskRuns.freeze h (hne t rfl)
  | copying t c => exact ⟨h.1.freeze (hne t rfl), building_freeze h.2 (hne t rfl)⟩
  | copied t pageDir => exact ⟨h.1.freeze (hne t rfl), RoleMap.freeze_dir h.2 (hne t rfl)⟩
  | undo t sel kernelStack => exact Or.imp_right (fun hs => RoleMap.freeze_stack hs (hne t rfl)) h
  | undoStack t kernelStack => exact Or.imp_right (fun hs => RoleMap.freeze_stack hs (hne t rfl)) h
  | _ => exact trivial

theorem ArgsRole.freeze {argsAt : ℕ} (h : ArgsRole role t argsAt) (ht : t ≠ u) :
    ArgsRole (role.freeze u pages) t argsAt := h.imp fun _ hq => ⟨RoleMap.freeze_stack hq.1 ht, hq.2⟩

theorem Loading.freeze {argsAt old new : ℕ} (h : Loading role t argsAt old new) (ht : t ≠ u) :
    Loading (role.freeze u pages) t argsAt old new :=
  ⟨h.args.freeze ht, RoleMap.freeze_dir h.old ht, RoleMap.freeze_dir h.new ht⟩

theorem ExecRoles.freeze {pc : ExecPc} (h : ExecRoles role t pc) (ht : t ≠ u) :
    ExecRoles (role.freeze u pages) t pc := by
  cases pc with
  | start disk argsAt name argv => exact ArgsRole.freeze h ht
  | destroy r c => exact h
  | _ => exact Loading.freeze h ht

/-- The tables of all tasks and the frozen pages are apart from the buffer. -/
theorem TablesApart.freeze (h : TablesApart role) (hpages : ∀ p ∈ pages, OutsideBuffer p) :
    TablesApart (role.freeze u pages) := by
  intro p k hp hkernel hplain
  rcases RoleMap.freeze_cases hp with ⟨hp, -⟩ | ⟨-, k', hp, hs⟩
  · exact h p k hp hkernel hplain
  · cases k' with
    | dir o => exact h p _ hp (by simp) id
    | table d i => exact h p _ hp (by simp) id
    | frame d page => exact hpages p hs.2
    | stack o => exact hpages p hs.2
    | _ => exact hs.elim

end Kernel

end X86Os
