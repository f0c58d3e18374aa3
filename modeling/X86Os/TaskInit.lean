import X86Os.ForkAtomic

/-!
# A task that gets its resources

What `task_init` leaves when nothing runs out: a stack page, a directory with the kernel's half, a
descriptor and the fields of the task.
-/

namespace X86Os

namespace Kernel

variable {L : Layout} {n i : ℕ} {s s' : Kernel} {t : TaskId} {entry esp : ℕ} {name : TaskName}

/-- The allocator and the kernel's directory are in order. -/
structure MemoryReady (L : Layout) (n : ℕ) (v : Vm) : Prop where
  managed : v.alloc.Managed n
  usable : ∀ p ∈ v.alloc.clearPages, KernelPage p
  kernelDir : KernelPage L.kernelPageDir
  kernelDir_unused : L.kernelPageDir ∉ v.alloc.clearPages

/-- The task `t` has the stack `p` and the directory `d`. -/
structure TaskReady (L : Layout) (n : ℕ) (t : TaskId) (i p d : ℕ) (s s' : Kernel) : Prop where
  stack : p ∈ s.vm.alloc.clearPages
  dir : d ∈ s.vm.alloc.clearPages
  apart : d ≠ p
  owned : (Space.empty d).Owned n s'.vm
  clear : s'.vm.alloc.clearPages = (s.vm.alloc.clearPages.erase p).erase d
  cr3 : s'.vm.cr3 = s.vm.cr3
  out : ∀ x, ¬ InPage d x → s'.vm.mem x = s.vm.mem x
  kernel : ∀ k < userPdeStart,
    s'.vm.mem.read32 (d + 4 * k) = s.vm.mem.read32 (L.kernelPageDir + 4 * k)
  tss_cr3 : (s'.task t).tss.cr3 = d
  tss_esp0 : (s'.task t).tss.esp0 = p + memPageSize
  tssSel : (s'.task t).tssSel = 8 * i
  gdt : s'.gdt = (withDesc L t i s).gdt
  other : ∀ u, u ≠ t → s'.task u = s.task u
  appSels : s'.appCodeSel = s.appCodeSel ∧ s'.appDataSel = s.appDataSel

/-- The first of two pages is taken. -/
theorem MemoryReady.alloc {v : Vm} (hm : MemoryReady L n v) (hroom : 2 ≤ v.alloc.clearPages.card) :
    ∃ p ∈ v.alloc.clearPages, (addrAllocPage v.alloc 1).1 = p ∧
      MemoryReady L n { v with alloc := (addrAllocPage v.alloc 1).2 } ∧
      (addrAllocPage v.alloc 1).2.clearPages = v.alloc.clearPages.erase p ∧
      (addrAllocPage v.alloc 1).2.clearPages.Nonempty := by
  obtain ⟨p, hp, hret, hclear⟩ := AddrAlloc.exists_allocPage hm.managed (Finset.card_pos.mp (by omega))
  have hsub : (addrAllocPage v.alloc 1).2.clearPages ⊆ v.alloc.clearPages := by
    rw [hclear]
    exact Finset.erase_subset p _
  refine ⟨p, hp, hret, ⟨hm.managed.allocPage 1, fun q hq => hm.usable q (hsub hq), hm.kernelDir,
    fun h => hm.kernelDir_unused (hsub h)⟩, hclear, ?_⟩
  have hcard := Finset.card_erase_add_one hp
  rw [← Finset.card_pos, hclear]
  omega

theorem tssInit_spec (hdesc : gdtFree s.gdt = some i) (hm : MemoryReady L n s.vm)
    (hroom : 2 ≤ s.vm.alloc.clearPages.card) : ∃ p d s',
      tssInit L t entry esp name s = some (0, s') ∧ TaskReady L n t i p d s s' ∧
        s'.sched = s.sched := by
  obtain ⟨p, hp, halloc, hm₁, hclear₁, hroom₁⟩ := hm.alloc hroom
  have hp' := (hm.usable p hp).identity.lt
  let v₁ : Vm := { s.vm with alloc := (addrAllocPage s.vm.alloc 1).2 }
  obtain ⟨d, hd, v₂, hv₂, howned, hclear₂, hcr₂, hout, hword⟩ :=
    memoryCreateUvm_spec hm₁.managed hm₁.usable hm₁.kernelDir hm₁.kernelDir_unused hroom₁
  have hdp := hm₁.usable d hd
  have hlt : 8 * i < 2 ^ 16 := by
    have := (gdtFree_eq_some hdesc).2.1
    unfold gdtTableSize at this
    omega
  have hwrap : u32 (p + memPageSize) = p + memPageSize := u32_of_lt (by unfold memPageSize; omega)
  have hd' : d ≠ p ∧ d ∈ s.vm.alloc.clearPages := by
    rw [hclear₁] at hd
    exact Finset.mem_erase.mp hd
  have hstack : (addrAllocPage s.vm.alloc 1).1 ≠ 0 := halloc ▸ (hm.usable p hp).ne_zero
  let code := if isIdleTaskName name then kernelSelectorCs
    else (withStack L t i s).appCodeSel ||| segRpl3
  let data := if isIdleTaskName name then kernelSelectorDs
    else (withStack L t i s).appDataSel ||| segRpl3
  let task : Task :=
    { (s.task t).withTss .zero with tss := initialTss entry esp p code data, tssSel := 8 * i % 2 ^ 16 }
  let s₂ : Kernel :=
    { withDesc L t i s with
      vm := v₂
      task := Function.update (Function.update (withDesc L t i s).task t task) t
        (task.withTss (task.tss.withCr3 d)) }
  refine ⟨p, d, s₂, ?_, ⟨hp, hd'.2, hd'.1, howned, ?_, hcr₂, hout, hword, ?_, ?_, ?_, rfl, ?_, rfl,
    rfl⟩, rfl⟩
  · rw [tssInit_desc hdesc, Prog.bind_of_eq allocStack, if_neg hstack, tssInitStack, Prog.gets_bind,
      Prog.gets_bind, halloc]
    have hset : setTask t (fun u =>
        { u with tss := initialTss entry esp p code data, tssSel := 8 * i % 2 ^ 16 })
        (withStack L t i s) = some ((), { withStack L t i s with
          task := Function.update (withDesc L t i s).task t task }) := by
      rw [setTask_eq_some]
      have htask : (withStack L t i s).task t = (s.task t).withTss .zero := Function.update_self _ _ _
      rw [htask]
      rfl
    have hcreate : onVm (memoryCreateUvm L) { withStack L t i s with
        task := Function.update (withDesc L t i s).task t task } = some (d, { withStack L t i s with
          task := Function.update (withDesc L t i s).task t task
          vm := v₂ }) := onVm_eq_some.mpr ⟨v₂, hv₂, rfl⟩
    rw [show (if isIdleTaskName name then kernelSelectorCs else
      (withStack L t i s).appCodeSel ||| segRpl3) = code from rfl]
    rw [Prog.bind_of_eq hset, Prog.bind_of_eq hcreate, if_neg hdp.ne_zero]
    have hlast : setTask t (fun u => u.withTss (u.tss.withCr3 d)) { withStack L t i s with
        task := Function.update (withDesc L t i s).task t task
        vm := v₂ } = some ((), s₂) := by
      rw [setTask_eq_some]
      simp only [Function.update_self]
      rfl
    rw [Prog.bind_of_eq hlast]
    rfl
  · show v₂.alloc.clearPages = _
    rw [hclear₂, hclear₁]
  · show (s₂.task t).tss.cr3 = d
    simp only [s₂, Function.update_self]
    rfl
  · simp only [s₂, Function.update_self]
    exact hwrap
  · simp only [s₂, Function.update_self]
    exact Nat.mod_eq_of_lt hlt
  · intro u hu
    simp only [s₂, withDesc, Function.update_of_ne hu]

theorem strncpyBytes_pure {S : Type} (f : ℕ → BitVec 8) (size i : ℕ) (r : S) :
    ∃ bytes, strncpyBytes (fun i => (pure (f i) : Prog S (BitVec 8))) size i r =
      some (bytes, r) := by
  induction size generalizing i with
  | zero => exact ⟨[], rfl⟩
  | succ size ih =>
      rw [strncpyBytes, Prog.pure_bind]
      by_cases hc : f i = 0
      · rw [if_pos hc]
        exact ⟨[], rfl⟩
      · obtain ⟨rest, hrest⟩ := ih (i + 1)
        rw [if_neg hc, Prog.bind_of_eq hrest]
        exact ⟨f i :: rest, rfl⟩

theorem taskInit_spec (hdesc : gdtFree s.gdt = some i) (hm : MemoryReady L n s.vm)
    (hroom : 2 ≤ s.vm.alloc.clearPages.card) : ∃ p d s',
      taskInit L t name entry esp s = some (0, s') ∧ TaskReady L n t i p d s s' ∧
        s'.sched = X86Os.taskInit t s.sched := by
  have hspec : ∃ p d s', tssInit L t entry esp name s = some (0, s') ∧
      TaskReady L n t i p d s s' ∧ s'.sched = s.sched := tssInit_spec hdesc hm hroom
  obtain ⟨p, d, s₁, htss, hr, hsched⟩ := hspec
  obtain ⟨bytes, hbytes⟩ := strncpyBytes_pure
    (fun i => if h : i < taskNameSize then name ⟨i, h⟩ else 0) taskNameSize 0 s₁
  let task : Task :=
    { s₁.task t with
      name := (s₁.task t).name.set bytes
      pid := i32 (taskAddr L t)
      parent := none
      heapStart := 0
      heapEnd := 0 }
  let s₂ : Kernel :=
    { s₁ with task := Function.update s₁.task t task, sched := X86Os.taskInit t s₁.sched }
  have hset : setTask t (fun u =>
      { u with
        name := u.name.set bytes
        pid := i32 (taskAddr L t)
        parent := none
        heapStart := 0
        heapEnd := 0 }) s₁ = some ((), { s₁ with task := Function.update s₁.task t task }) := rfl
  have hself : s₂.task t = task := Function.update_self _ _ _
  refine ⟨p, d, s₂, ?_, ⟨hr.stack, hr.dir, hr.apart, hr.owned, hr.clear, hr.cr3, hr.out, hr.kernel,
    ?_, ?_, ?_, hr.gdt, fun u hu => ?_, hr.appSels⟩, ?_⟩
  · rw [taskInit, Prog.bind_of_eq htss, if_neg (by norm_num), Prog.bind_of_eq hbytes,
      Prog.bind_of_eq hset]
    rfl
  · rw [hself]
    exact hr.tss_cr3
  · rw [hself]
    exact hr.tss_esp0
  · rw [hself]
    exact hr.tssSel
  · rw [← hr.other u hu]
    exact Function.update_of_ne hu _ _
  · show X86Os.taskInit t s₁.sched = _
    rw [hsched]

end Kernel

end X86Os
