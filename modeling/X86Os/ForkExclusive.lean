import X86Os.ForkWindow
import X86Os.TaskInit

/-!
# Concurrent forks do not get in each other's way

Every step of a call of `sys_fork` keeps the invariant, whatever other calls there are, if nobody looks
for a slot while one is found and not named, and if no page is given back in place of a kernel stack. So
in such runs slots, pids, selectors and kernel stacks are not shared. Without the first condition two
calls find the same slot.
-/

namespace X86Os

namespace Kernel

variable {L : Layout} {n i residue esp0 pageDir x : ℕ} {r r' : ForkRun} {s : Kernel} {p q t u : TaskId}
  {pc pc' : ForkPc} {next : ForkPc ⊕ ℤ}

namespace ForkInv

/-! ## After the window -/

/-- What a step outside the window leaves of a task. -/
structure SameTasks (s s' : Kernel) : Prop where
  hold : ∀ u, ForkPc.SameHold (s.task u) (s'.task u)
  pid : ∀ u, (s'.task u).pid = (s.task u).pid
  name : ∀ u, (s'.task u).name = (s.task u).name

theorem sameTasks_of_eq {s' : Kernel} (h : s'.task = s.task) : SameTasks s s' where
  hold u := by rw [h]; exact ⟨rfl, rfl⟩
  pid u := by rw [h]
  name u := by rw [h]

theorem sameTasks_put {s₁ : Kernel} {task : Task} (h : s₁.task = s.task)
    (hhold : ForkPc.SameHold (s.task t) task) (hpid : task.pid = (s.task t).pid)
    (hname : task.name = (s.task t).name) : SameTasks s (ForkPc.putTask s₁ t task) := by
  have hu : ∀ u, u ≠ t → (ForkPc.putTask s₁ t task).task u = s.task u := fun u hu => by
    rw [ForkPc.putTask_of_ne hu, h]
  refine ⟨fun u => ?_, fun u => ?_, fun u => ?_⟩
  all_goals by_cases hut : u = t
  · rw [hut, ForkPc.putTask_self]
    exact hhold
  · rw [hu u hut]
    exact ⟨rfl, rfl⟩
  · rw [hut, ForkPc.putTask_self]
    exact hpid
  · rw [hu u hut]
  · rw [hut, ForkPc.putTask_self]
    exact hname
  · rw [hu u hut]

theorem keeps_record {a : Stage} (hp : (r.pc p).claim = some (t, a)) (ha : a ≠ .found)
    (hnext : ∀ u b, next.getLeft?.bind ForkPc.claim = some (u, b) → u = t ∧ b ≠ .found)
    (hs : SameTasks r.kernel s) (hgdt : s.gdt = r.kernel.gdt)
    (hpage : ∀ u x, Resource.kernelStack.Held r u x → PageUsed n r.kernel.vm x → PageUsed n s.vm x) :
    SameHoldings n r (r.record p next s) where
  named u := by
    show (s.task u).name 0 ≠ 0 ↔ (r.kernel.task u).name 0 ≠ 0
    rw [hs.name u]
  pid := hs.pid
  hold := hs.hold
  call q := by
    by_cases hq : q = p
    · refine .inr ⟨fun u hu => ?_, fun u hu => ?_⟩
      · rw [hq, r.claim_pc p, hp] at hu
        exact ha (Prod.mk.inj (Option.some.inj hu)).2
      · rw [hq, ForkRun.record_claim, Function.update_self] at hu
        exact (hnext u _ hu).2 rfl
    · exact .inl (ForkRun.record_of_ne hq _ _)
  claim q u b hq := by
    rw [ForkRun.record_claim] at hq
    by_cases hqp : q = p
    · rw [hqp, Function.update_self] at hq
      rw [hqp, r.claim_pc p, hp, (hnext u b hq).1]
      exact ⟨a, rfl⟩
    · rw [Function.update_of_ne hqp] at hq
      exact ⟨b, hq⟩
  gdt := hgdt
  page := hpage

theorem step_named (h : ForkInv L n r) (hpc : r.pc p = .named t esp0)
    (hstep : ForkPc.step L residue p (.named t esp0) r.kernel = some (next, s)) :
    ForkInv L n (r.record p next s) := by
  have hp : (r.pc p).claim = some (t, .named) := by rw [hpc]; rfl
  have hclaim := (r.claim_pc p).trans hp
  have hunlisted : t ∉ r.listed := (h.sound.fits p t _ hclaim).2
  obtain ⟨rfl, rfl⟩ := ForkPc.step_named hstep
  have hclaims : (r.record p (.inl (.inserted t esp0))
      { r.kernel with sched := X86Os.taskInit t r.kernel.sched }).claims =
      { r.claims with
        claim := Function.update r.claims.claim p (some (t, .listed))
        listed := t :: r.listed } :=
    record_claims rfl (fun _ => .rfl) (by rw [hpc]; rfl) (by rw [hpc]; rfl)
  refine h.keep (keeps_record hp (by simp) (fun u b hu => ?_) (sameTasks_of_eq rfl) rfl
    fun _ _ _ hx => hx) ?_ ?_ ?_
  · obtain ⟨rfl, rfl⟩ := Prod.mk.inj (Option.some.inj hu)
    exact ⟨rfl, by simp⟩
  · obtain ⟨q, hq⟩ := h.tracks
    have hinit := hq.init hunlisted
    rw [ForkRun.schedRun, ForkRun.record, hpc]
    exact ⟨_, hinit⟩
  · rw [hclaims]
    exact h.sound.step (.list t hclaim)
  · rw [ForkRun.record, hpc]
    intro u hu
    rcases List.mem_cons.mp hu with rfl | hu
    · obtain ⟨i, hi, rfl⟩ := h.claimed p u _ hclaim
      exact hi
    · exact h.listed u hu

/-- A step between the insertion into `task_list` and the start of the task. -/
theorem step_between (h : ForkInv L n r) (hp : (r.pc p).claim = some (t, .listed))
    (hstarts : (r.pc p).starts = none) (hpc' : pc'.claim = some (t, .listed))
    (hs : SameTasks r.kernel s) (hsched : s.sched = r.kernel.sched) (hgdt : s.gdt = r.kernel.gdt)
    (hpage : ∀ u x, Resource.kernelStack.Held r u x → PageUsed n r.kernel.vm x → PageUsed n s.vm x) :
    ForkInv L n (r.record p (.inl pc') s) := by
  have hi : (r.pc p).inserts = none := by
    cases hpc : r.pc p with
    | named t => 
        rw [hpc] at hp
        cases hp
    | _ => rfl
  have hclaims : (r.record p (.inl pc') s).claims = r.claims := by
    refine record_quiet (hpc'.trans hp.symm) (fun u => ?_) hi hstarts
    rw [hs.name u]
    exact .rfl
  refine h.keep (keeps_record hp (by simp) (fun u b hu => ?_) hs hgdt hpage) ?_ ?_ ?_
  · obtain ⟨rfl, rfl⟩ := Prod.mk.inj (Option.some.inj (hpc'.symm.trans hu))
    exact ⟨rfl, by simp⟩
  · rw [record_schedRun hsched hi hstarts]
    exact h.tracks
  · rw [hclaims]
    exact h.sound
  · rw [show (r.record p (.inl pc') s).listed = r.listed from congrArg Claims.listed hclaims]
    exact h.listed

theorem step_inserted (h : ForkInv L n r) (hpc : r.pc p = .inserted t esp0)
    (hstep : ForkPc.step L residue p (.inserted t esp0) r.kernel = some (next, s)) :
    ForkInv L n (r.record p next s) := by
  have hp : (r.pc p).claim = some (t, .listed) := by rw [hpc]; rfl
  obtain ⟨task, dir, hhold, hpid, hname, rfl, rfl⟩ := ForkPc.step_inserted hstep
  exact h.step_between hp (by rw [hpc]; rfl) rfl (sameTasks_put rfl hhold hpid hname) rfl rfl
    fun _ _ _ hx => hx

theorem step_copying (h : ForkInv L n r) {c : CopyPc} (hpc : r.pc p = .copying t c)
    (hspare : SparesStacks r p)
    (hstep : ForkPc.step L residue p (.copying t c) r.kernel = some (next, s)) :
    ForkInv L n (r.record p next s) := by
  have hp : (r.pc p).claim = some (t, .listed) := by rw [hpc]; rfl
  obtain ⟨copy, v, hcopy, rfl, rfl⟩ := ForkPc.step_copying hstep
  have hpage : ∀ u x, Resource.kernelStack.Held r u x → PageUsed n r.kernel.vm x → PageUsed n v x := by
    intro u x hx hm
    refine hm.keep fun i hi haddr => keepsTaken_copyStep (fun page next hc => ?_) _ _ _ hcopy
    have hne := (hspare page (by rw [hpc, hc]; rfl)).2 u x hx
    rwa [← haddr, PageUsed.index hi] at hne
  cases copy with
  | inl c' => exact h.step_between hp (by rw [hpc]; rfl) rfl (sameTasks_of_eq rfl) rfl rfl hpage
  | inr dir => exact h.step_between hp (by rw [hpc]; rfl) rfl (sameTasks_of_eq rfl) rfl rfl hpage

theorem step_copied (h : ForkInv L n r) (hpc : r.pc p = .copied t pageDir)
    (hcurr : r.kernel.sched.currTask = some p) (hidle : p ≠ .idle)
    (hstep : ForkPc.step L residue p (.copied t pageDir) r.kernel = some (next, s)) :
    ForkInv L n (r.record p next s) := by
  have hp : (r.pc p).claim = some (t, .listed) := by rw [hpc]; rfl
  have hclaim := (r.claim_pc p).trans hp
  obtain ⟨hn, hl, hst⟩ : t ∈ r.claims.named ∧ t ∈ r.listed ∧ t ∉ r.started := h.sound.fits p t _ hclaim
  obtain ⟨task, hhold, hpid, hname, hs, rfl⟩ := ForkPc.step_copied hstep
  have hsame : SameTasks r.kernel s := by
    rw [hs]
    exact sameTasks_put rfl hhold hpid hname
  have hkernel : s.sched = X86Os.taskStart .idle t r.kernel.sched ∧ s.gdt = r.kernel.gdt ∧
      s.vm = r.kernel.vm := by
    rw [hs]
    exact ⟨rfl, rfl, rfl⟩
  have hclaims : (r.record p (.inr task.pid) s).claims =
      { r.claims with
        claim := Function.update r.claims.claim p none
        started := t :: r.started } :=
    record_claims rfl (fun u => by rw [hsame.name u]; exact .rfl) (by rw [hpc]; rfl) (by rw [hpc]; rfl)
  refine h.keep (keeps_record hp (by simp) (fun u b hu => by cases hu) hsame hkernel.2.1
    fun _ _ _ hx => hkernel.2.2 ▸ hx) ?_ ?_ ?_
  · obtain ⟨q, hq⟩ := h.tracks
    have hq' : q.curr ≠ .idle := by
      rintro he
      have hc := hq.rep.curr.symm.trans hcurr
      rw [he] at hc
      exact hidle (Option.some.inj hc).symm
    have hne : t ≠ .idle := by
      obtain ⟨i, -, rfl⟩ := h.claimed p t _ hclaim
      simp
    have hstart := hq.start hq' hl hst hne
    rw [ForkRun.schedRun, ForkRun.record, hpc, hkernel.1]
    exact ⟨_, hstart⟩
  · rw [hclaims]
    exact h.sound.step (.start t hclaim)
  · rw [ForkRun.record, hpc]
    exact h.listed

/-! ## Every step -/

theorem fork (h : ForkInv L n r) (hcurr : r.kernel.sched.currTask = some p) (hidle : p ≠ .idle)
    (halone : Alone r p) (hspare : SparesStacks r p)
    (hstep : (r.pc p).step L residue p r.kernel = some (next, s)) : ForkInv L n (r.record p next s) := by
  cases hpc : r.pc p with
  | search => exact h.step_search hpc halone (hpc ▸ hstep)
  | found t => exact h.step_found hpc (hpc ▸ hstep)
  | desc t esp0 eip esp sel => exact h.step_desc hpc (hpc ▸ hstep)
  | stack t esp0 eip esp sel kernelStack => exact h.step_stack hpc (hpc ▸ hstep)
  | dir t esp0 pageDir => exact h.step_dir hpc hcurr hidle (hpc ▸ hstep)
  | named t esp0 => exact h.step_named hpc (hpc ▸ hstep)
  | inserted t esp0 => exact h.step_inserted hpc (hpc ▸ hstep)
  | copying t c => exact h.step_copying hpc hspare (hpc ▸ hstep)
  | copied t pageDir => exact h.step_copied hpc hcurr hidle (hpc ▸ hstep)
  | undo t sel kernelStack => exact h.step_undo hpc (hpc ▸ hstep)
  | undoStack t kernelStack => exact h.step_undoStack hpc hspare (hpc ▸ hstep)
  | failed t => exact h.step_failed hpc (hpc ▸ hstep)
  | uninitSel t => exact h.step_uninitSel hpc (hpc ▸ hstep)
  | uninitStack t => exact h.step_uninitStack hpc hspare (hpc ▸ hstep)
  | clear t => exact h.step_clear hpc (hpc ▸ hstep)

/-- What changes neither the tasks nor the allocator. -/
theorem of_kernel (h : ForkInv L n r) (htask : s.task = r.kernel.task) (hgdt : s.gdt = r.kernel.gdt)
    (halloc : s.vm.alloc = r.kernel.vm.alloc)
    (ht : ∃ q, Tracks .idle { r.schedRun with sched := s.sched } q) :
    ForkInv L n { r with kernel := s } := by
  have hs := sameTasks_of_eq htask
  have hclaims : ForkRun.claims { r with kernel := s } = r.claims := by
    rw [ForkRun.claims, htask]
    rfl
  refine h.keep ⟨fun u => ?_, hs.pid, hs.hold, fun q => .inl rfl, fun q u a hq => ⟨a, hq⟩, hgdt,
    fun u x _ hx => hx.congr halloc⟩ ht (hclaims ▸ h.sound) h.listed
  rw [hclaims]

theorem switchTo_same (s : Kernel) (sched : KernelSched) : (switchTo s sched).task = s.task ∧
    (switchTo s sched).gdt = s.gdt ∧ (switchTo s sched).vm.alloc = s.vm.alloc ∧
    (switchTo s sched).sched = sched := by
  unfold switchTo
  dsimp only
  split_ifs
  · exact ⟨rfl, rfl, rfl, rfl⟩
  · exact ⟨rfl, rfl, rfl, rfl⟩

theorem sched (h : ForkInv L n r) {op : SchedOp TaskId Unit Unit} {sched : KernelSched}
    (he : op.enabled .idle r.schedRun) (hop : ∀ t, op ≠ .init t ∧ op ≠ .start t)
    (hs : op.exec .idle r.kernel.sched = some sched) :
    ForkInv L n { r with kernel := switchTo r.kernel sched } := by
  obtain ⟨htask, hgdt, halloc, hsched⟩ := switchTo_same r.kernel sched
  refine h.of_kernel htask hgdt halloc ?_
  obtain ⟨q, hq⟩ := h.tracks
  obtain ⟨sched', hs', ht⟩ := hq.step he
  obtain rfl : sched' = sched := Option.some.inj (hs'.symm.trans hs)
  have hrecord : op.record r.schedRun sched' = { r.schedRun with sched := sched' } := by
    cases op with
    | init t => exact absurd rfl (hop t).1
    | start t => exact absurd rfl (hop t).2
    | _ => rfl
  rw [hsched, ← hrecord]
  exact ⟨_, ht⟩

end ForkInv

/-! ## Every run -/

theorem ForkReady.claim (h : ForkReady L n r) (p : TaskId) : r.claims.claim p = none := by
  rw [ForkRun.claims_claim, h.call p]
  rfl

theorem ForkReady.inv (h : ForkReady L n r) : ForkInv L n r where
  tracks := h.tracks
  sound := by
    obtain ⟨q, hq⟩ := h.tracks
    exact .of_none h.claim ⟨fun t ht => (h.named t).mpr ht, hq.started, h.listed_nodup, h.started_nodup⟩
  slot p t hp := by simp [h.claim p] at hp
  listed := h.listed
  claimed p t a hp := by simp [h.claim p] at hp
  pid t ht := h.pid t ((h.named t).mp ht)
  clear t ht _ := h.clear t fun hl => ht ((h.named t).mpr hl)
  fresh p pc hp := by simp [h.call p] at hp
  sels := h.sels
  kernelStacks := h.kernelStacks

theorem forkInv_of_reach (h : ((forkMachine L n).restrict Undisturbed).Reach r) : ForkInv L n r := by
  apply h.invariant (I := ForkInv L n)
  · exact fun r hr => hr.inv
  · rintro r a r' hr ⟨he, hc⟩ hs
    cases a with
    | fork residue =>
        obtain ⟨p, hcurr, hs⟩ := Option.bind_eq_some_iff.mp hs
        obtain ⟨⟨next, s⟩, hstep, rfl⟩ := Option.map_eq_some_iff.mp hs
        have hidle : p ≠ .idle := by
          rintro rfl
          exact he hcurr
        obtain ⟨halone, hspare⟩ := hc p hcurr
        exact hr.fork hcurr hidle halone hspare hstep
    | sched op =>
        obtain ⟨sched, hop, rfl⟩ := Option.map_eq_some_iff.mp hs
        exact hr.sched he.1 he.2 hop
    | write mem =>
        obtain rfl := Option.some.inj hs
        exact hr.of_kernel rfl rfl rfl hr.tracks

theorem ForkInv.exclusive (hL : TasksApart L) (h : ForkInv L n r) : Exclusive r := by
  obtain ⟨q, hq⟩ := h.tracks
  have ho := h.sound.inOrder
  have hn : ∀ t ∈ r.listed, t ∈ r.claims.named := ho.named
  refine ⟨h.sound.exclusive, fun p t a hp => ⟨h.sound.notMem_started hp, h.sound.fits p t a hp⟩,
    fun t ht u hu heq => ?_, fun t ht u hu heq => ?_, fun t ht u hu heq => ?_, ?_,
    ⟨ho.listed_nodup, ho.started_nodup, fun t ht => ho.listed t ht⟩, hq.queueInvariant⟩
  · have haddr : i32 (taskAddr L t) = i32 (taskAddr L u) :=
      (h.pid t (hn t ht)).symm.trans (heq.trans (h.pid u (hn u hu)))
    refine hL.apart t u (h.listed t ht) (h.listed u hu) ?_
    have ht' := hL.lt t (h.listed t ht)
    have hu' := hL.lt u (h.listed u hu)
    rw [i32_cast ht', i32_cast hu'] at haddr
    split_ifs at haddr <;> omega
  · exact h.sels.exclusive t u _ (.inl ⟨hn t ht, rfl⟩) (.inl ⟨hn u hu, heq.symm⟩)
  · exact h.kernelStacks.exclusive t u _ (.inl ⟨hn t ht, rfl⟩)
      (.inl ⟨hn u hu, congrArg (fun esp0 => u32Sub esp0 memPageSize) heq.symm⟩)
  · show (r.schedRun.sched.tasksOn .taskList).Perm r.listed
    rw [hq.rep.tasksOn_eq]
    exact (List.perm_ext_iff_of_nodup (hq.placed.nodup _) ho.listed_nodup).mpr hq.initialised

/-- A search while another call has found a slot finds the same slot. -/
theorem ForkInv.shared (h : ForkInv L n r) (hcurr : r.kernel.sched.currTask = some p)
    (halone : ¬ Alone r p) (hs : r.fork L residue = some r') : ¬ Exclusive r' := by
  obtain ⟨hpc, hfound⟩ := Classical.not_imp.mp halone
  push Not at hfound
  obtain ⟨q, t, hq⟩ := hfound
  have hp : r.claims.claim p = none := by
    rw [r.claim_pc p, hpc]
    rfl
  have hqp : q ≠ p := by
    rintro rfl
    simp [hp] at hq
  obtain ⟨i, hi, rfl⟩ := Option.map_eq_some_iff.mp (h.slot q t hq)
  rw [ForkRun.fork, hcurr] at hs
  obtain ⟨⟨next, s⟩, hstep, rfl⟩ := Option.map_eq_some_iff.mp hs
  rw [hpc] at hstep
  obtain ⟨rfl, ⟨hnone, -⟩ | ⟨j, hj, rfl⟩⟩ := ForkPc.step_search hstep
  · rw [hi] at hnone
    cases hnone
  · obtain rfl := Option.some.inj (hi.symm.trans hj)
    intro hex
    refine hqp (hex.slots q p (.slot i) .found .found ?_ ?_)
    · exact (ForkRun.claim_congr (ForkRun.record_of_ne hqp _ _)).trans hq
    · rw [ForkRun.record_claim, Function.update_self]
      rfl

/-- The page of a kernel stack is clear after `addr_free_page` took its number for a distance. -/
theorem pageUsed_cleared {v v₁ v' : Vm} {page : ℕ} (h : PageUsed n v x)
    (heq : i32 (u32Sub page memExtStart) = (u32Sub x memExtStart / memPageSize : ℕ))
    (hs : freePages page 1 v = some ((), v₁)) (halloc : v'.alloc = v₁.alloc) : ¬ PageUsed n v' x := by
  obtain ⟨i, hi, rfl⟩ := h
  rw [PageUsed.index hi] at heq
  obtain ⟨-, rfl⟩ := freePages_eq_some.mp hs
  have hbit : v'.alloc.bitmap.bitAt i = false := by
    rw [halloc]
    show (addrFreePage v.alloc page 1).bitmap.bitAt i = false
    rw [bitAt_freePage hi.managed hi.start hi.lt, if_pos heq]
  rintro ⟨j, hj, haddr⟩
  have hsame : v'.alloc.pageAddr i = v.alloc.pageAddr i := by
    rw [halloc]
    rfl
  obtain rfl := AddrAlloc.pageAddr_inj hj.managed hj.lt hi.lt (haddr.trans hsame.symm)
  have hbit' := hj.bit
  rw [hbit] at hbit'
  cases hbit'

/-- A call that has no kernel stack of its own takes a step. -/
theorem held_record (hno : ∀ task, Resource.kernelStack.ofCall task (r.pc p) = none)
    (htask : s.task = r.kernel.task) (h : Resource.kernelStack.Held r t x) :
    Resource.kernelStack.Held (r.record p next s) t x := by
  rcases h with ⟨hn, hx⟩ | ⟨q, pc, a, hcall, hclaim, hof⟩
  · refine .inl ⟨?_, ?_⟩
    · show (s.task t).name 0 ≠ 0
      rwa [htask]
    · show Resource.kernelStack.field (s.task t) = x
      rwa [htask]
  · have hqp : q ≠ p := by
      rintro rfl
      have hpc : r.pc q = pc := by rw [ForkRun.pc, hcall]; rfl
      rw [← hpc, hno] at hof
      cases hof
    refine .inr ⟨q, pc, a, (ForkRun.record_of_ne hqp _ _).trans hcall, hclaim, ?_⟩
    show Resource.kernelStack.ofCall (s.task t) pc = some x
    rwa [htask]

/-- Giving back a page in place of a kernel stack leaves the stack in use and its page free. -/
theorem ForkInv.unmarked (h : ForkInv L n r) (hcurr : r.kernel.sched.currTask = some p)
    (hspare : ¬ SparesStacks r p) (hs : r.fork L residue = some r') :
    ∃ t x, Resource.kernelStack.Held r' t x ∧ ¬ PageUsed n r'.kernel.vm x := by
  unfold SparesStacks at hspare
  push Not at hspare
  obtain ⟨page, hrel, htaken⟩ := hspare
  rw [ForkRun.fork, hcurr] at hs
  obtain ⟨⟨next, s⟩, hstep, rfl⟩ := Option.map_eq_some_iff.mp hs
  obtain ⟨v, hfree, halloc, htask⟩ := ForkPc.step_releases hrel hstep
  obtain ⟨t, x, hx, heq⟩ := htaken (freePages_eq_some.mp hfree).1
  refine ⟨t, x, held_record (fun task => ?_) htask hx,
    pageUsed_cleared (h.kernelStacks.marked t x hx) heq hfree halloc⟩
  cases hpc : r.pc p with
  | stack t | dir t =>
      rw [hpc] at hrel
      cases hrel
  | _ => rfl

/-! ## From the slot to its name -/

/-- Nothing but the task `t` has changed in the tasks, and nothing in the lists. -/
structure Aside (t : TaskId) (s s' : Kernel) : Prop where
  sched : s'.sched = s.sched
  task : ∀ u, u ≠ t → s'.task u = s.task u

theorem Aside.trans {s' s'' : Kernel} (h : Aside t s s') (h' : Aside t s' s'') : Aside t s s'' :=
  ⟨h'.sched.trans h.sched, fun u hu => (h'.task u hu).trans (h.task u hu)⟩

theorem aside_put {s₁ : Kernel} {task : Task} (hsched : s₁.sched = s.sched) (htask : s₁.task = s.task) :
    Aside t s (ForkPc.putTask s₁ t task) :=
  ⟨hsched, fun u hu => (ForkPc.putTask_of_ne hu _ _).trans (congrFun htask u)⟩

namespace ForkPc

theorem found_returns (hstack : HasStack s p) (hfree : gdtFree s.gdt = some i) : ∃ esp0 eip esp s',
    step L residue p (.found t) s = some (.inl (.desc t esp0 eip esp (8 * i)), s') ∧
      Aside t s s' ∧ s'.vm = s.vm := by
  obtain ⟨eip, heip⟩ := frameWord_of_stack hstack (show 13 < frameWords by decide)
  obtain ⟨esp, hesp⟩ := frameWord_of_stack hstack (show 20 < frameWords by decide)
  have hpos := (gdtFree_eq_some hfree).1
  rw [step, Prog.gets_bind, Prog.bind_of_eq heip, Prog.bind_of_eq hesp,
    Prog.bind_of_eq (gdtAllocDesc_some hfree), if_neg (by omega)]
  exact ⟨_, eip, _, _, rfl, ⟨rfl, fun _ _ => rfl⟩, rfl⟩

theorem desc_returns {eip esp sel : ℕ} (hpage : (addrAllocPage s.vm.alloc 1).1 ≠ 0) : ∃ s',
    step L residue p (.desc t esp0 eip esp sel) s =
      some (.inl (.stack t esp0 eip esp sel (addrAllocPage s.vm.alloc 1).1), s') ∧ Aside t s s' ∧
        s'.vm = { s.vm with alloc := (addrAllocPage s.vm.alloc 1).2 } := by
  let s₁ : Kernel := { s with
    gdt := X86Os.segmentDescSet s.gdt sel (taskAddr L t + tssOffset) tssSize
      (segPPresent ||| segDpl0 ||| segTypeTss) }
  let s₂ : Kernel := putTask s₁ t ((s₁.task t).withTss .zero)
  have hdesc : segmentDescSet sel (taskAddr L t + tssOffset) tssSize
      (segPPresent ||| segDpl0 ||| segTypeTss) s = some ((), s₁) := rfl
  have htask : setTask t (fun task => task.withTss .zero) s₁ = some ((), s₂) := rfl
  have halloc : onVm memoryAllocPage s₂ = some ((addrAllocPage s.vm.alloc 1).1,
      { s₂ with vm := { s.vm with alloc := (addrAllocPage s.vm.alloc 1).2 } }) := rfl
  rw [step, Prog.bind_of_eq hdesc, Prog.bind_of_eq htask, Prog.bind_of_eq halloc, if_neg hpage]
  have haside : Aside t s s₂ := aside_put rfl rfl
  exact ⟨_, rfl, ⟨haside.sched, haside.task⟩, rfl⟩

theorem stack_returns {eip esp sel kernelStack : ℕ} (hm : MemoryReady L n s.vm)
    (hroom : s.vm.alloc.clearPages.Nonempty) : ∃ d s',
    step L residue p (.stack t esp0 eip esp sel kernelStack) s = some (.inl (.dir t esp0 d), s') ∧
      Aside t s s' := by
  obtain ⟨d, hd, v, hv, -⟩ :=
    memoryCreateUvm_spec hm.managed hm.usable hm.kernelDir hm.kernelDir_unused hroom
  obtain ⟨s₁, htss, hvm, haside⟩ : ∃ s₁,
      setTss t eip esp (s.task p).name sel kernelStack s = some ((), s₁) ∧ s₁.vm = s.vm ∧
        Aside t s s₁ := ⟨_, rfl, rfl, aside_put rfl rfl⟩
  have hcreate : onVm (memoryCreateUvm L) s₁ = some (d, { s₁ with vm := v }) :=
    onVm_eq_some.mpr ⟨v, hvm ▸ hv, rfl⟩
  rw [step, parentName, Prog.gets_bind, Prog.bind_of_eq htss, Prog.bind_of_eq hcreate,
    if_neg (hm.usable d hd).ne_zero]
  exact ⟨d, _, rfl, haside.sched, haside.task⟩

theorem dir_returns (hname : HasName (s.task p)) : ∃ s', step L residue p (.dir t esp0 pageDir) s =
    some (.inl (.named t esp0), s') ∧ Aside t s s' ∧ HasName (s'.task t) := by
  obtain ⟨s₁, hcr3⟩ : ∃ s₁, setCr3 t pageDir s = some ((), s₁) := ⟨_, rfl⟩
  obtain ⟨bytes, hbytes⟩ := strncpyBytes_pure
    (fun i => if h : i < taskNameSize then (s₁.task p).name ⟨i, h⟩ else 0) taskNameSize 0 s₁
  have hcopy : nameBytes (s₁.task p).name s₁ = some (bytes, s₁) := hbytes
  obtain ⟨s₂, hset⟩ : ∃ s₂, setFields L t bytes s₁ = some ((), s₂) := ⟨_, rfl⟩
  have hstep : step L residue p (.dir t esp0 pageDir) s = some (.inl (.named t esp0), s₂) := by
    rw [step, Prog.bind_of_eq hcr3, parentName, Prog.gets_bind, Prog.bind_of_eq hcopy,
      Prog.bind_of_eq hset]
    rfl
  obtain ⟨task, -, -, hnamed, rfl, -⟩ := step_dir hstep
  refine ⟨_, hstep, aside_put rfl rfl, ?_⟩
  rw [putTask_self]
  exact hnamed hname

end ForkPc

/-- A step that is no search and gives nothing back. -/
theorem reach_fork (h : ((forkMachine L n).restrict Undisturbed).Reach r)
    (hcurr : r.kernel.sched.currTask = some p) (hidle : p ≠ .idle) (hpc : r.pc p = pc)
    (hsearch : pc ≠ .search) (hrel : pc.releases r.kernel = none)
    (hstep : pc.step L 0 p r.kernel = some (next, s)) :
    ((forkMachine L n).restrict Undisturbed).Reach (r.record p next s) := by
  have hfork : r.fork L 0 = some (r.record p next s) := by
    rw [ForkRun.fork, hcurr, Option.bind_some, hpc, hstep]
    rfl
  have hne : r.kernel.sched.currTask ≠ some .idle :=
    fun he => hidle (Option.some.inj (hcurr.symm.trans he))
  refine .step (a := .fork 0) h ⟨hne, fun q hq => ?_⟩ hfork
  obtain rfl : p = q := Option.some.inj (hcurr.symm.trans hq)
  rw [Alone, SparesStacks, hpc, hrel]
  exact ⟨fun hs => absurd hs hsearch, fun page hpage => by cases hpage⟩

theorem record_call : (r.record p (.inl pc') s).call p = some pc' := Function.update_self ..

theorem record_pc : (r.record p (.inl pc') s).pc p = pc' := by
  rw [ForkRun.pc, record_call]
  rfl

/-- A call that has found a slot gets to the name, if there are a descriptor and two pages. -/
theorem reach_named {m : ℕ} (h : ((forkMachine L n).restrict Undisturbed).Reach r)
    (hcurr : r.kernel.sched.currTask = some p) (hidle : p ≠ .idle) (hpc : r.pc p = .found t)
    (hpt : p ≠ t) (hstack : HasStack r.kernel p) (hfree : gdtFree r.kernel.gdt = some i)
    (hm : MemoryReady L m r.kernel.vm) (hroom : 2 ≤ r.kernel.vm.alloc.clearPages.card)
    (hname : HasName (r.kernel.task p)) :
    ∃ r', ((forkMachine L n).restrict Undisturbed).Reach r' ∧
      (∃ esp0, r'.call p = some (.named t esp0)) ∧ (∀ q, q ≠ p → r'.call q = r.call q) ∧
      Aside t r.kernel r'.kernel ∧ HasName (r'.kernel.task t) := by
  obtain ⟨q, hq, halloc, hm', -, hroom'⟩ := hm.alloc hroom
  have hpage : (addrAllocPage r.kernel.vm.alloc 1).1 ≠ 0 := by
    rw [halloc]
    exact (hm.usable q hq).ne_zero
  have hfound : ∃ esp0 eip esp s₁, ForkPc.step L 0 p (.found t) r.kernel =
      some (.inl (.desc t esp0 eip esp (8 * i)), s₁) ∧ Aside t r.kernel s₁ ∧ s₁.vm = r.kernel.vm :=
    ForkPc.found_returns hstack hfree
  obtain ⟨esp0, eip, esp, s₁, hs₁, ha₁, hvm₁⟩ := hfound
  have hcurr₁ : s₁.sched.currTask = some p := by rw [ha₁.sched, hcurr]
  have hdesc : ∃ s₂, ForkPc.step L 0 p (.desc t esp0 eip esp (8 * i)) s₁ =
      some (.inl (.stack t esp0 eip esp (8 * i) (addrAllocPage s₁.vm.alloc 1).1), s₂) ∧
        Aside t s₁ s₂ ∧ s₂.vm = { s₁.vm with alloc := (addrAllocPage s₁.vm.alloc 1).2 } :=
    ForkPc.desc_returns (by rw [hvm₁]; exact hpage)
  obtain ⟨s₂, hs₂, ha₂, hvm₂⟩ := hdesc
  have hcurr₂ : s₂.sched.currTask = some p := by rw [ha₂.sched, hcurr₁]
  rw [hvm₁] at hvm₂
  have hstack₂ : ∃ d s₃, ForkPc.step L 0 p
      (.stack t esp0 eip esp (8 * i) (addrAllocPage s₁.vm.alloc 1).1) s₂ =
        some (.inl (.dir t esp0 d), s₃) ∧ Aside t s₂ s₃ :=
    ForkPc.stack_returns (hvm₂ ▸ hm') (by rw [hvm₂]; exact hroom')
  obtain ⟨d, s₃, hs₃, ha₃⟩ := hstack₂
  have hcurr₃ : s₃.sched.currTask = some p := by rw [ha₃.sched, hcurr₂]
  have ha := (ha₁.trans ha₂).trans ha₃
  have hdir : ∃ s₄, ForkPc.step L 0 p (.dir t esp0 d) s₃ = some (.inl (.named t esp0), s₄) ∧
      Aside t s₃ s₄ ∧ HasName (s₄.task t) :=
    ForkPc.dir_returns (by rw [ha.task p hpt]; exact hname)
  obtain ⟨s₄, hs₄, ha₄, hname₄⟩ := hdir
  have h₁ := reach_fork h hcurr hidle hpc (by simp) rfl hs₁
  have h₂ := reach_fork h₁ hcurr₁ hidle record_pc (by simp) rfl hs₂
  have h₃ := reach_fork h₂ hcurr₂ hidle record_pc (by simp) rfl hs₃
  have h₄ := reach_fork h₃ hcurr₃ hidle record_pc (by simp) rfl hs₄
  refine ⟨_, h₄, ⟨esp0, record_call⟩, fun q hq => ?_, ha.trans ha₄, hname₄⟩
  rw [ForkRun.record_of_ne hq, ForkRun.record_of_ne hq, ForkRun.record_of_ne hq,
    ForkRun.record_of_ne hq]

/-! ## Three tasks -/

/-- The number of the first task, the idle task and the task in the first slot. -/
def sampleNumber : TaskId → Option ℕ
  | .first => some 0
  | .idle => some 1
  | .slot 0 => some 2
  | .slot (_ + 1) => none

/-- A task with a name and a descriptor and a page of its own. -/
def sampleTask (t : TaskId) (k : ℕ) : Task :=
  { Task.zero with
    name := fun _ => 0x61
    tss := { Tss.zero with esp0 := memExtStart + memPageSize * (k + 1) }
    tssSel := 8 * (4 + k)
    pid := i32 (taskAddr sampleLayout t) }

/-- The scheduler with the three tasks; the time slice of the first one ends at the next tick. -/
def sampleSched : KernelSched :=
  (X86Os.taskStart .idle (.slot 0) (X86Os.taskInit (.slot 0)
    (schedBoot .idle .first .zeroed))).setTask .first { TaskSched.created with sliceTicks := 1 }

/-- Eight pages, three of which are taken. -/
def sampleAlloc : AddrAlloc :=
  let alloc := addrAllocInit (fun _ => 0) memExtStart (8 * memPageSize) memPageSize
  (addrAllocPage (addrAllocPage (addrAllocPage alloc 1).2 1).2 1).2

def threeTasks : ForkRun where
  kernel :=
    { vm := { mem := Mem.zero, alloc := sampleAlloc, cr3 := 0, frees := [] }
      tempPos := 0
      gdt := fun i => if i < 7 then { SegmentDesc.zero with attr := segPPresent } else .zero
      gdtFrees := []
      task := fun t => (sampleNumber t).elim .zero (sampleTask t)
      sched := sampleSched
      appCodeSel := 0
      appDataSel := 0 }
  call _ := none
  listed := [.slot 0, .first, .idle]
  started := [.slot 0, .first]

theorem sampleNumber_lt {k : ℕ} (h : sampleNumber t = some k) : k < 3 := by
  rcases t with _ | _ | (_ | i) <;> simp [sampleNumber] at h <;> omega

theorem sampleNumber_inj {k : ℕ} (ht : sampleNumber t = some k) (hu : sampleNumber u = some k) :
    t = u := by
  rcases t with _ | _ | (_ | i) <;> rcases u with _ | _ | (_ | j) <;>
    simp [sampleNumber] at ht hu ⊢ <;> omega

theorem threeTasks_task {k : ℕ} (h : sampleNumber t = some k) :
    threeTasks.kernel.task t = sampleTask t k := by
  show (sampleNumber t).elim .zero (sampleTask t) = _
  rw [h]
  rfl

theorem threeTasks_named : t ∈ threeTasks.claims.named ↔ ∃ k, sampleNumber t = some k := by
  show ((sampleNumber t).elim .zero (sampleTask t)).name 0 ≠ 0 ↔ _
  cases sampleNumber t with
  | none => exact iff_of_false (not_not.mpr rfl) (by simp)
  | some k =>
      have hname : (0x61 : BitVec 8) ≠ 0 := by decide
      exact iff_of_true hname ⟨k, rfl⟩

theorem threeTasks_held {c : Resource} (h : c.Held threeTasks t x) :
    ∃ k, sampleNumber t = some k ∧ c.field (sampleTask t k) = x := by
  rcases h with ⟨hn, hx⟩ | ⟨p, pc, a, hcall, -⟩
  · obtain ⟨k, hk⟩ := threeTasks_named.mp hn
    rw [threeTasks_task hk] at hx
    exact ⟨k, hk, hx⟩
  · cases hcall

theorem threeTasks_tracks : ∃ q, Tracks .idle threeTasks.schedRun q := by
  obtain ⟨q, hq⟩ := tracks_boot (M := Unit) (S := Unit) (show TaskId.first ≠ .idle by decide)
    Sched.zeroed_free
  have hinit := hq.init (t := .slot 0) (by decide)
  have hcurr : (q.initTask (.slot 0)).curr ≠ .idle := hinit.curr_ne_idle (by decide)
  have hstart := hinit.start hcurr (t := .slot 0) (by decide) (by decide) (by decide)
  exact ⟨_, hstart.setTask .first { TaskSched.created with sliceTicks := 1 }⟩

theorem sampleAlloc_managed : sampleAlloc.Managed 8 := by
  have hm : (addrAllocInit (fun _ => 0) memExtStart (8 * memPageSize) memPageSize).Managed 8 :=
    AddrAlloc.managed_init (by decide) (by decide)
  exact ((hm.allocPage 1).allocPage 1).allocPage 1

theorem sampleAlloc_taken {k : ℕ} (h : k < 3) : Taken 8 k threeTasks.kernel.vm := by
  refine ⟨sampleAlloc_managed, rfl, by omega, ?_⟩
  interval_cases k
  · decide
  · decide
  · decide

theorem sampleAlloc_page {k : ℕ} (hk : k < 8) :
    KernelPage (sampleAlloc.pageAddr k) ∧ sampleLayout.kernelPageDir ≠ sampleAlloc.pageAddr k := by
  have haddr : sampleAlloc.pageAddr k = memExtStart + k * memPageSize :=
    u32_of_lt (show memExtStart + k * memPageSize < 2 ^ 32 by unfold memExtStart memPageSize; omega)
  have hdir : sampleLayout.kernelPageDir = 0x20000 := rfl
  rw [haddr, hdir]
  unfold memExtStart memPageSize
  refine ⟨⟨?_, .inr ⟨?_, ?_⟩, by omega⟩, by omega⟩
  · unfold memPageSize
    omega
  · unfold memExtStart
    omega
  · unfold memExtLimit
    omega

theorem threeTasks_memory : MemoryReady sampleLayout 8 threeTasks.kernel.vm where
  managed := sampleAlloc_managed
  usable p hp := by
    obtain ⟨k, hk, -, rfl⟩ := (AddrAlloc.mem_clearPages sampleAlloc_managed).mp hp
    exact (sampleAlloc_page hk).1
  kernelDir := ⟨by decide, by decide, by decide⟩
  kernelDir_unused hp := by
    obtain ⟨k, hk, -, heq⟩ := (AddrAlloc.mem_clearPages sampleAlloc_managed).mp hp
    exact (sampleAlloc_page hk).2 heq.symm

theorem threeTasks_room : 2 ≤ threeTasks.kernel.vm.alloc.clearPages.card := by
  have hclear : ∀ k, 3 ≤ k → k < 8 → sampleAlloc.pageAddr k ∈ sampleAlloc.clearPages := by
    intro k h1 h2
    refine (AddrAlloc.mem_clearPages sampleAlloc_managed).mpr ⟨k, h2, ?_, rfl⟩
    interval_cases k <;> decide
  have hne : sampleAlloc.pageAddr 3 ≠ sampleAlloc.pageAddr 4 := by decide
  rw [← Finset.card_pair hne]
  exact Finset.card_le_card (Finset.insert_subset (hclear 3 (by omega) (by omega))
    (Finset.singleton_subset_iff.mpr (hclear 4 (by omega) (by omega))))

theorem threeTasks_ready : ForkReady sampleLayout 8 threeTasks where
  call _ := rfl
  tracks := threeTasks_tracks
  listed_nodup := by decide
  started_nodup := by decide
  listed t ht := by
    rcases t with _ | _ | (_ | i)
    · trivial
    · trivial
    · exact show 0 < taskNr by decide
    · simp [threeTasks] at ht
  named t := by
    rw [threeTasks_named]
    rcases t with _ | _ | (_ | i) <;> simp [threeTasks, sampleNumber]
  pid t ht := by
    have hk : ∃ k, sampleNumber t = some k := by
      rcases t with _ | _ | (_ | i) <;> simp [threeTasks, sampleNumber] at ht ⊢
    obtain ⟨k, hk⟩ := hk
    rw [threeTasks_task hk, sampleTask]
  clear t ht := by
    have hk : sampleNumber t = none := by
      rcases t with _ | _ | (_ | i) <;> simp [threeTasks, sampleNumber] at ht ⊢
    show ((sampleNumber t).elim .zero (sampleTask t)).tssSel = 0
    rw [hk]
    rfl
  sels := by
    refine ⟨fun t x hx => ?_, fun t u x hx hx' => ?_⟩
    · obtain ⟨k, hk, rfl⟩ := threeTasks_held hx
      have hlt := sampleNumber_lt hk
      refine ⟨4 + k, rfl, by omega, by unfold gdtTableSize; omega, ?_⟩
      show (if 4 + k < 7 then _ else _ : SegmentDesc).attr ≠ 0
      rw [if_pos (by omega)]
      exact show segPPresent ≠ 0 by decide
    · obtain ⟨k, hk, rfl⟩ := threeTasks_held hx
      obtain ⟨j, hj, heq⟩ := threeTasks_held hx'
      have hkj : 8 * (4 + j) = 8 * (4 + k) := heq
      obtain rfl : j = k := by omega
      exact sampleNumber_inj hk hj
  kernelStacks := by
    have hpage : ∀ k < 3, ∀ t, Resource.kernelStack.field (sampleTask t k) =
        memExtStart + memPageSize * k := by
      intro k hk t
      have hesp0 : (sampleTask t k).tss.esp0 = memExtStart + memPageSize * (k + 1) := by
        rw [sampleTask]
      show u32Sub (sampleTask t k).tss.esp0 memPageSize = _
      rw [hesp0]
      unfold u32Sub u32 memExtStart memPageSize
      omega
    refine ⟨fun t x hx => ?_, fun t u x hx hx' => ?_⟩
    · obtain ⟨k, hk, rfl⟩ := threeTasks_held hx
      have hlt := sampleNumber_lt hk
      have ht := sampleAlloc_taken hlt
      refine ⟨k, ht, ?_⟩
      rw [pageAddr_eq ht, hpage k hlt]
      unfold u32 memExtStart memPageSize
      omega
    · obtain ⟨k, hk, rfl⟩ := threeTasks_held hx
      obtain ⟨j, hj, heq⟩ := threeTasks_held hx'
      rw [hpage j (sampleNumber_lt hj), hpage k (sampleNumber_lt hk)] at heq
      obtain rfl : j = k := by
        unfold memPageSize at heq
        omega
      exact sampleNumber_inj hk hj

theorem sampleLayout_apart : TasksApart sampleLayout where
  lt t ht := by
    cases t with
    | first => decide
    | idle => decide
    | slot i =>
        have hi : i < taskNr := ht
        show 0x21000 + taskSize * i < 2 ^ 32
        unfold taskNr taskSize at *
        omega
  apart t u ht hu h := by
    have hslot : ∀ i, TaskId.Exists (.slot i) → 0x21000 ≤ taskAddr sampleLayout (.slot i) ∧
        taskAddr sampleLayout (.slot i) < 0x28000 := by
      intro i hi
      have hi' : i < taskNr := hi
      show 0x21000 ≤ 0x21000 + taskSize * i ∧ 0x21000 + taskSize * i < 0x28000
      unfold taskNr taskSize at *
      omega
    have hfirst : taskAddr sampleLayout .first = 0x28000 := rfl
    have hidle : taskAddr sampleLayout .idle = 0x280C4 := rfl
    cases t with
    | first =>
        cases u with
        | first => rfl
        | idle => omega
        | slot j =>
            have := hslot j hu
            omega
    | idle =>
        cases u with
        | first => omega
        | idle => rfl
        | slot j =>
            have := hslot j hu
            omega
    | slot i =>
        cases u with
        | first =>
            have := hslot i ht
            omega
        | idle =>
            have := hslot i ht
            omega
        | slot j =>
            have haddr : 0x21000 + taskSize * i = 0x21000 + taskSize * j := h
            unfold taskSize at haddr
            obtain rfl : i = j := by omega
            rfl

theorem forkStep_tick {sched : KernelSched} (h : taskTimeTick .idle r.kernel.sched = some sched) :
    forkStep L r (.sched .tick) = some { r with kernel := switchTo r.kernel sched } := by
  have hexec : SchedOp.exec .idle r.kernel.sched .tick = some sched := h
  rw [forkStep, hexec]
  rfl

/-- A call of `sys_fork` begins with its search. -/
theorem fork_search (hcurr : r.kernel.sched.currTask = some p) (hcall : r.call p = none)
    (hslot : r.kernel.freeSlot = some i) :
    r.fork L residue = some (r.record p (.inl (.found (.slot i))) r.kernel) := by
  have hstep : ForkPc.step L residue p .search r.kernel =
      some (.inl (.found (.slot i)), r.kernel) := by
    rw [ForkPc.step, allocTask, Prog.gets_bind, hslot]
    rfl
  have hpc : r.pc p = .search := by rw [ForkRun.pc, hcall]; rfl
  rw [ForkRun.fork, hcurr, Option.bind_some, hpc, hstep]
  rfl

theorem reach_search (h : ((forkMachine L n).restrict Undisturbed).Reach r)
    (hcurr : r.kernel.sched.currTask = some p) (hidle : p ≠ .idle) (hcall : r.call p = none)
    (hslot : r.kernel.freeSlot = some i) (halone : ∀ q t, r.claims.claim q ≠ some (t, .found)) :
    ((forkMachine L n).restrict Undisturbed).Reach
      (r.record p (.inl (.found (.slot i))) r.kernel) := by
  have hne : r.kernel.sched.currTask ≠ some .idle :=
    fun he => hidle (Option.some.inj (hcurr.symm.trans he))
  refine .step (a := .fork 0) h ⟨hne, fun q hq => ⟨fun _ => halone, fun page hpage => ?_⟩⟩
    (fork_search hcurr hcall hslot)
  obtain rfl : p = q := Option.some.inj (hcurr.symm.trans hq)
  rw [ForkRun.pc, hcall] at hpage
  cases hpage

/-- The first task has found the second slot. -/
def firstFound : ForkRun :=
  threeTasks.record .first (.inl (.found (.slot 1))) threeTasks.kernel

theorem firstFound_reach : ((forkMachine sampleLayout 8).restrict Undisturbed).Reach firstFound :=
  reach_search (.init threeTasks_ready) rfl (by decide) rfl rfl fun q t hq => by cases hq

/-- At the next tick the task in the first slot runs. -/
theorem tick_firstFound : ∃ sched : KernelSched,
    taskTimeTick .idle firstFound.kernel.sched = some sched ∧ sched.currTask = some (.slot 0) :=
  ⟨_, rfl, rfl⟩

/-! ## Exclusive slots -/

/-- While a search meets no slot that is found and not named, and nothing is given back in place of a
kernel stack, forks are exclusive. A step that breaks this ends it, or it leaves a kernel stack in use
whose page the allocator gives away. -/
theorem fork_exclusive (hL : TasksApart L) (h : ((forkMachine L n).restrict Undisturbed).Reach r) :
    Exclusive r ∧ ∀ residue r', ¬ Undisturbed r (.fork residue) →
      (forkMachine L n).step r (.fork residue) = some r' → ¬ Exclusive r' ∨
        ∃ t page, Resource.kernelStack.Held r' t page ∧ ¬ PageUsed n r'.kernel.vm page := by
  have hinv := forkInv_of_reach h
  refine ⟨hinv.exclusive hL, fun residue r' hc hs => ?_⟩
  obtain ⟨p, hc⟩ := not_forall.mp hc
  obtain ⟨hcurr, hc⟩ := Classical.not_imp.mp hc
  by_cases halone : Alone r p
  · exact .inr (hinv.unmarked hcurr (fun hspare => hc ⟨halone, hspare⟩) hs)
  · exact .inl (hinv.shared hcurr halone hs)

/-- The first task has named the second slot when it is interrupted, and the task in the first slot finds
the third one. -/
theorem fork_exclusive_twoForks : ∃ r, ((forkMachine sampleLayout 8).restrict Undisturbed).Reach r ∧
    (∃ esp0, r.call .first = some (.named (.slot 1) esp0)) ∧
    r.call (.slot 0) = some (.found (.slot 2)) ∧ Exclusive r := by
  have hstack : HasStack firstFound.kernel .first :=
    ⟨memExtStart, ⟨by decide, by decide, by decide⟩, rfl⟩
  have hnamed : HasName (firstFound.kernel.task .first) := show (0x61 : BitVec 8) ≠ 0 by decide
  have hfree : gdtFree firstFound.kernel.gdt = some 7 := rfl
  obtain ⟨r, hr, ⟨esp0, hfirst⟩, hother, ha, hname⟩ := reach_named firstFound_reach rfl (by decide) rfl
    (by decide) hstack hfree threeTasks_memory threeTasks_room hnamed
  obtain ⟨sched, htick, hcurr⟩ := tick_firstFound
  let r₁ : ForkRun := { r with kernel := switchTo r.kernel sched }
  obtain ⟨htask, -, -, hsched⟩ := ForkInv.switchTo_same r.kernel sched
  have hcurr₁ : r₁.kernel.sched.currTask = some (.slot 0) := by rw [← hcurr, ← hsched]
  have hstep : forkStep sampleLayout r (.sched .tick) = some r₁ := forkStep_tick (ha.sched ▸ htick)
  have hr₁ : ((forkMachine sampleLayout 8).restrict Undisturbed).Reach r₁ :=
    .step (a := .sched .tick) hr ⟨⟨trivial, fun t => by simp⟩, trivial⟩ hstep
  have hslot : r₁.kernel.freeSlot = some 2 := by
    have h₀ : (r₁.kernel.task (.slot 0)).name 0 ≠ 0 := by
      rw [htask, ha.task _ (by decide)]
      decide
    have h₁ : (r₁.kernel.task (.slot 1)).name 0 ≠ 0 := by
      rw [htask]
      exact hname
    have h₂ : (r₁.kernel.task (.slot 2)).name 0 = 0 := by
      rw [htask, ha.task _ (by decide)]
      rfl
    show slotSearch r₁.kernel.task (125 + 3) 0 = some 2
    rw [slotSearch, if_neg h₀, slotSearch, if_neg h₁, slotSearch, if_pos h₂]
  have hnone : ∀ q, q ≠ .first → r₁.call q = none := fun q hq =>
    (hother q hq).trans (Function.update_of_ne hq _ _)
  have halone : ∀ q t, r₁.claims.claim q ≠ some (t, .found) := by
    intro q t hq
    rw [ForkRun.claims_claim] at hq
    by_cases hqf : q = .first
    · rw [hqf, hfirst] at hq
      cases hq
    · rw [hnone q hqf] at hq
      cases hq
  have hreach := reach_search hr₁ hcurr₁ (by decide) (hnone _ (by decide)) hslot halone
  refine ⟨_, hreach, ⟨esp0, ?_⟩, record_call, (fork_exclusive sampleLayout_apart hreach).1⟩
  exact (ForkRun.record_of_ne (by decide) _ _).trans hfirst

/-- The first task is interrupted after its search, and the other one finds the same slot. -/
theorem fork_shares_slot : ¬ ∀ (L : Layout) (n : ℕ) (r : ForkRun), TasksApart L →
    (forkMachine L n).Reach r → Exclusive r := by
  intro hall
  obtain ⟨sched, htick, hcurr⟩ := tick_firstFound
  let r : ForkRun := { firstFound with kernel := switchTo firstFound.kernel sched }
  let r' := r.record (.slot 0) (.inl (.found (.slot 1))) r.kernel
  obtain ⟨htask, -, -, hsched⟩ := ForkInv.switchTo_same firstFound.kernel sched
  have hcurr' : r.kernel.sched.currTask = some (.slot 0) := by rw [← hcurr, ← hsched]
  have hslot : r.kernel.freeSlot = some 1 := by
    show slotSearch (switchTo firstFound.kernel sched).task _ _ = _
    rw [htask]
    rfl
  have htick' : forkStep sampleLayout firstFound (.sched .tick) = some r := forkStep_tick htick
  have hfork : r.fork sampleLayout 0 = some r' := fork_search hcurr' rfl hslot
  have hidle : r.kernel.sched.currTask ≠ some .idle := by simp [hcurr']
  have hreach : (forkMachine sampleLayout 8).Reach r' :=
    .step (a := .fork 0) (.step (a := .sched .tick) firstFound_reach.of_restrict
      ⟨trivial, fun t => by simp⟩ htick') hidle hfork
  have hex := hall sampleLayout 8 r' sampleLayout_apart hreach
  have hsame := hex.slots .first (.slot 0) (.slot 1) .found .found rfl rfl
  cases hsame

end Kernel

end X86Os
