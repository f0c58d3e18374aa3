import X86Os.ForkRun
import X86Os.Gdt

/-!
# What the steps of concurrent forks keep

The invariant of the runs of `sys_fork`: the claims on the slots are sound, and a ledger says which
selector and which kernel stack belongs to which slot. Steps outside the window in which a slot is found
and not named change none of it. Steps in the window change it for one slot, and no other call is there.
-/

namespace X86Os

/-! ## The scheduler -/

namespace Tracks

variable {T M S : Type} [DecidableEq T] [DecidableEq M] [DecidableEq S]
variable {idle t : T} {r : SchedRun T M S} {q : Queues T M S}

theorem setTask (ht : Tracks idle r q) (t : T) (v : TaskSched) :
    Tracks idle { r with sched := r.sched.setTask t v } (q.setTask t v) :=
  ⟨ht.rep.setTask t v, ht.placed, ht.curr, ht.initialised, ht.started, ht.idle_initialised⟩

/-- The nodes of a task that is on no list. -/
theorem initNode (ht : Tracks idle r q) (hn : t ∉ r.initialised) (kind : NodeKind) :
    Tracks idle { r with sched := r.sched.initNode ⟨t, kind⟩ } q := by
  have hno : ∀ l, t ∉ q.queue l := by
    intro l hm
    by_cases hl : l = .taskList
    · exact hn ((ht.initialised t).mp (hl ▸ hm))
    · exact hn (ht.started t ((ht.placed.started_iff t).mp ⟨l, hl, hm⟩))
  refine ⟨⟨fun l => (ht.rep.lists l).congr fun node hnode => ?_, ht.rep.apart, ht.rep.curr,
    ht.rep.task, ht.rep.mutex, ht.rep.sem⟩, ht.placed, ht.curr, ht.initialised, ht.started,
    ht.idle_initialised⟩
  apply Function.update_of_ne
  rintro rfl
  exact hno l (mem_nodes_iff.mp hnode).2

/-- The current task is started. -/
theorem curr_started (ht : Tracks idle r q) (hi : q.curr ≠ idle) : q.curr ∈ r.started := by
  have hm := curr_mem_of_ne ht.curr hi
  exact (ht.placed.started_iff _).mp ⟨.readyList, by simp, hm⟩

end Tracks

theorem Tracks.clearTask {r : SchedRun TaskId Unit Unit} {q : Queues TaskId Unit Unit} {t : TaskId}
    (ht : Tracks .idle r q) (hn : t ∉ r.initialised) :
    Tracks .idle { r with sched := r.sched.clearTask t } (q.setTask t .zero) :=
  (((ht.setTask t .zero).initNode hn .runNode).initNode hn .allNode).initNode hn .waitNode

namespace Kernel

variable {L : Layout} {n i residue : ℕ} {v v' : Vm} {r r' : ForkRun} {s : Kernel} {p q t u : TaskId}
  {a b : Stage} {x sel : ℕ} {c : Resource} {pc : ForkPc}

/-! ## Pages and descriptors -/

/-- Copying an address space keeps a page, but for the pages that it gives back. -/
theorem keepsTaken_copyStep {pc : CopyPc}
    (h : ∀ page next, pc = .free page next → i32 (u32Sub page memExtStart) ≠ i) :
    Prog.Along (KeepsTaken n i) (pc.step L residue) := by
  have hload : ∀ w, Prog.Along (KeepsTaken n i) (load32 w) := fun w => keepsTaken_of_eq (load32_along w)
  cases pc with
  | create dir =>
      exact (keepsTaken_createUvm L).bind fun _ => (Prog.along_pure _).ite (Prog.along_pure _)
  | pde dir dest k =>
      exact ((hload _).bind fun _ => (Prog.along_pure _).ite (Prog.along_pure _)).ite
        (Prog.along_pure _)
  | pte dir dest k table j =>
      refine Prog.Along.ite ((hload _).bind fun _ => .ite ?_ (Prog.along_pure _)) (Prog.along_pure _)
      exact keepsTaken_allocPage.bind fun _ => (Prog.along_pure _).ite (Prog.along_pure _)
  | map dir dest k table j perm page =>
      refine (keepsTaken_createMap _ _ _ _ _).bind fun _ => (Prog.along_pure _).ite ?_
      exact (keepsTaken_sameAlloc (sameAlloc_kernelMemcpy _ _ _)).bind fun _ => Prog.along_pure _
  | destroyPde dest k =>
      exact ((hload _).bind fun _ => (Prog.along_pure _).ite (Prog.along_pure _)).ite
        (Prog.along_pure _)
  | destroyPte dest k table j =>
      exact ((hload _).bind fun _ => (Prog.along_pure _).ite (Prog.along_pure _)).ite
        ((hload _).bind fun _ => Prog.along_pure _)
  | free page next => exact (keepsTaken_free (h page next rfl)).bind fun _ => Prog.along_pure _

theorem pageAddr_eq (ht : Taken n i v) : v.alloc.pageAddr i = u32 (memExtStart + i * memPageSize) := by
  rw [AddrAlloc.pageAddr, ht.start, ht.managed.pageSize]

theorem PageUsed.keep (h : PageUsed n v x)
    (hk : ∀ i, Taken n i v → v.alloc.pageAddr i = x → KeepsTaken n i v v') : PageUsed n v' x := by
  obtain ⟨i, hi, rfl⟩ := h
  have hi' := hk i hi rfl hi
  exact ⟨i, hi', by rw [pageAddr_eq hi, pageAddr_eq hi']⟩

/-- A new page was not in use and is now. -/
theorem pageUsed_alloc (hm : v.alloc.Managed n) (hstart : v.alloc.start = memExtStart)
    (hpage : (addrAllocPage v.alloc 1).1 ≠ 0) :
    ¬ PageUsed n v (addrAllocPage v.alloc 1).1 ∧
      PageUsed n { v with alloc := (addrAllocPage v.alloc 1).2 } (addrAllocPage v.alloc 1).1 := by
  rcases v.alloc.firstClear_or with ⟨k, hk⟩ | hfull
  · have hlt : k < n := by
      have := hk.1
      rw [hm.bitCount] at this
      exact_mod_cast this
    rw [AddrAlloc.allocPage_found hk] at hpage ⊢
    refine ⟨?_, k, ⟨?_, hstart, hlt, ?_⟩, rfl⟩
    · rintro ⟨j, hj, haddr⟩
      have hbit := hj.bit
      rw [AddrAlloc.pageAddr_inj hm hj.lt hlt haddr, hk.2.1] at hbit
      cases hbit
    · have hm' := hm.allocPage 1
      rwa [AddrAlloc.allocPage_found hk] at hm'
    · show (bitmapSetBit v.alloc.bitmap k 1 (-1)).bitAt k = true
      rw [Bitmap.bitAt_setBit_one _ hk.1, if_pos rfl]
      rfl
  · rw [AddrAlloc.allocPage_none hfull] at hpage
    exact absurd rfl hpage

/-- The number of a page in use. -/
theorem PageUsed.index (ht : Taken n i v) :
    u32Sub (v.alloc.pageAddr i) memExtStart / memPageSize = i := by
  have hpages := ht.managed.pages
  have hlt := ht.lt
  rw [pageAddr_eq ht]
  unfold u32Sub u32 memExtStart memPageSize
  omega

/-- A page that is not the one given back. -/
theorem PageUsed.free {page : ℕ} (h : PageUsed n v x)
    (hne : i32 (u32Sub page memExtStart) ≠ (u32Sub x memExtStart / memPageSize : ℕ))
    (hs : freePages page 1 v = some ((), v')) : PageUsed n v' x := by
  refine h.keep fun i hi hx => keepsTaken_free ?_ v () v' hs
  rwa [← hx, PageUsed.index hi] at hne

/-- Selectors fit into the field `tss_sel`. -/
theorem SelUsed.lt (h : SelUsed s.gdt sel) : sel < 2 ^ 16 := by
  obtain ⟨i, rfl, -, hi, -⟩ := h
  unfold gdtTableSize at hi
  omega

theorem SelUsed.alloc {gdt : Gdt} {sel : ℕ} (h : SelUsed gdt sel) (i : ℕ) :
    SelUsed (Function.update gdt i { gdt i with attr := segPPresent }) sel := by
  obtain ⟨j, rfl, h1, hj, hattr⟩ := h
  refine ⟨j, rfl, h1, hj, ?_⟩
  by_cases hji : j = i
  · rw [hji, Function.update_self]
    exact show segPPresent ≠ 0 by decide
  · rwa [Function.update_of_ne hji]

/-- A new selector was not in use and is now. -/
theorem selUsed_alloc {gdt : Gdt} {i : ℕ} (h : gdtFree gdt = some i) : ¬ SelUsed gdt (8 * i) ∧
    SelUsed (Function.update gdt i { gdt i with attr := segPPresent }) (8 * i) := by
  obtain ⟨hpos, hlt, hattr⟩ := gdtFree_eq_some h
  refine ⟨?_, i, rfl, hpos, hlt, ?_⟩
  · rintro ⟨j, hj, -, -, hj'⟩
    obtain rfl : i = j := by omega
    exact hj' hattr
  · rw [Function.update_self]
    exact show segPPresent ≠ 0 by decide

theorem SelUsed.set {gdt : Gdt} {sel attr : ℕ} (h : SelUsed gdt sel) (hattr : attr ≠ 0)
    (sel' base limit : ℕ) : SelUsed (X86Os.segmentDescSet gdt sel' base limit attr) sel := by
  obtain ⟨j, rfl, h1, hj, hj'⟩ := h
  refine ⟨j, rfl, h1, hj, ?_⟩
  by_cases hji : j = sel' / 8
  · rw [hji]
    exact segmentDescSet_attr_ne_zero gdt sel' base limit hattr
  · rwa [segmentDescSet_of_ne gdt base limit hji]

theorem SelUsed.free {gdt : Gdt} {sel sel' : ℕ} (h : SelUsed gdt sel) (hne : sel / 8 ≠ sel' / 8) :
    SelUsed (X86Os.gdtFreeSel gdt sel') sel := by
  obtain ⟨j, rfl, h1, hj, hj'⟩ := h
  refine ⟨j, rfl, h1, hj, ?_⟩
  rwa [X86Os.gdtFreeSel, Function.update_of_ne (by omega)]

/-! ## Slots and claims -/

theorem slotSearch_congr {task task' : TaskId → Task}
    (h : ∀ i, (task' (.slot i)).name 0 = 0 ↔ (task (.slot i)).name 0 = 0) (k i : ℕ) :
    slotSearch task' k i = slotSearch task k i := by
  induction k generalizing i with
  | zero => rfl
  | succ k ih => simp only [slotSearch, h, ih]

theorem slotSearch_eq_some {task : TaskId → Task} {k i j : ℕ} (h : slotSearch task k i = some j) :
    j < i + k ∧ (task (.slot j)).name 0 = 0 := by
  induction k generalizing i with
  | zero => cases h
  | succ k ih =>
      rw [slotSearch] at h
      split_ifs at h with h0
      · obtain rfl := Option.some.inj h
        exact ⟨by omega, h0⟩
      · obtain ⟨hj, hname⟩ := ih h
        exact ⟨by omega, hname⟩

theorem freeSlot_eq_some (h : s.freeSlot = some i) : i < taskNr ∧ (s.task (.slot i)).name 0 = 0 := by
  obtain ⟨hlt, hname⟩ := slotSearch_eq_some h
  exact ⟨by omega, hname⟩

namespace ForkRun

theorem claims_claim (r : ForkRun) (p : TaskId) :
    r.claims.claim p = (r.call p).bind ForkPc.claim := rfl

theorem claim_pc (r : ForkRun) (p : TaskId) : r.claims.claim p = (r.pc p).claim := by
  rw [claims_claim, pc]
  cases r.call p with
  | none => rfl
  | some pc => rfl

theorem claim_eq (h : r.call p = some pc) : r.claims.claim p = pc.claim := by
  rw [claims_claim, h]
  rfl

theorem call_eq (h : (r.pc p).claim ≠ none) : r.call p = some (r.pc p) := by
  rw [pc] at h ⊢
  cases hcall : r.call p with
  | none =>
      rw [hcall] at h
      exact absurd rfl h
  | some pc => rfl

theorem record_self (r : ForkRun) (p : TaskId) (next : ForkPc ⊕ ℤ) (s : Kernel) :
    (r.record p next s).call p = next.getLeft? := Function.update_self _ _ _

theorem record_of_ne (hq : q ≠ p) (next : ForkPc ⊕ ℤ) (s : Kernel) :
    (r.record p next s).call q = r.call q := Function.update_of_ne hq _ _

theorem claim_congr (h : r'.call q = r.call q) : r'.claims.claim q = r.claims.claim q := by
  rw [claims_claim, claims_claim, h]

theorem record_claim (r : ForkRun) (p : TaskId) (next : ForkPc ⊕ ℤ) (s : Kernel) :
    (r.record p next s).claims.claim =
      Function.update r.claims.claim p (next.getLeft?.bind ForkPc.claim) := by
  funext q
  by_cases hq : q = p
  · rw [hq, Function.update_self, claims_claim, record_self]
  · rw [Function.update_of_ne hq]
    exact claim_congr (record_of_ne hq next s)

end ForkRun

/-! ## What is held -/

namespace Resource

theorem ofCall_congr {task task' : Task} (h : c.field task' = c.field task) (pc : ForkPc) :
    c.ofCall task' pc = c.ofCall task pc := by
  cases pc with
  | dir t esp0 pageDir => exact congrArg some h
  | _ => rfl

/-- A call holds something only before it names the slot. -/
theorem ofCall_early {task : Task} (h : c.ofCall task pc = some x) : ∃ t, pc.claim = some (t, .found) := by
  cases pc with
  | dir t esp0 pageDir => exact ⟨t, rfl⟩
  | _ => exact c.early _ x h

end Resource

/-- No task and no call has a selector of the same descriptor. -/
def SelFree (r : ForkRun) (sel : ℕ) : Prop := ∀ t x, Resource.sel.Held r t x → x / 8 ≠ sel / 8

/-- The selector in the slot of a call, and one that a failed call has still to give back, are nobody
else's. -/
def Fresh (r : ForkRun) : ForkPc → Prop
  | .found t => (r.kernel.task t).tssSel = 0
  | .desc t _ _ _ _ => (r.kernel.task t).tssSel = 0
  | .stack t _ _ _ _ _ => (r.kernel.task t).tssSel = 0
  | .undo t sel _ => SelFree r sel ∧ SelFree r (r.kernel.task t).tssSel
  | .undoStack t _ => SelFree r (r.kernel.task t).tssSel
  | .failed t => SelFree r (r.kernel.task t).tssSel
  | .uninitSel t => SelFree r (r.kernel.task t).tssSel
  | _ => True

theorem fresh_of_not_found (h : ∀ t, pc.claim ≠ some (t, .found)) : Fresh r pc := by
  cases pc with
  | found t => exact absurd rfl (h t)
  | desc t => exact absurd rfl (h t)
  | stack t => exact absurd rfl (h t)
  | undo t => exact absurd rfl (h t)
  | undoStack t => exact absurd rfl (h t)
  | failed t => exact absurd rfl (h t)
  | uninitSel t => exact absurd rfl (h t)
  | _ => trivial

theorem Fresh.congr (h : Fresh r pc) (hsel : ∀ t, (r'.kernel.task t).tssSel = (r.kernel.task t).tssSel)
    (hfree : ∀ sel, SelFree r sel → SelFree r' sel) : Fresh r' pc := by
  cases pc with
  | found t => exact (hsel t).trans h
  | desc t => exact (hsel t).trans h
  | stack t => exact (hsel t).trans h
  | undo t => exact ⟨hfree _ h.1, by rw [hsel t]; exact hfree _ h.2⟩
  | undoStack t => exact (congrArg (SelFree r') (hsel t)).mpr (hfree _ h)
  | failed t => exact (congrArg (SelFree r') (hsel t)).mpr (hfree _ h)
  | uninitSel t => exact (congrArg (SelFree r') (hsel t)).mpr (hfree _ h)
  | _ => trivial

/-- The invariant of the runs whose steps are undisturbed. -/
structure ForkInv (L : Layout) (n : ℕ) (r : ForkRun) : Prop where
  tracks : ∃ q, Tracks .idle r.schedRun q
  sound : r.claims.Sound
  slot : ∀ p t, r.claims.claim p = some (t, .found) → r.kernel.freeSlot.map TaskId.slot = some t
  listed : ∀ t ∈ r.listed, t.Exists
  claimed : ∀ p t a, r.claims.claim p = some (t, a) → ∃ i < taskNr, t = .slot i
  pid : ∀ t ∈ r.claims.named, (r.kernel.task t).pid = i32 (taskAddr L t)
  clear : ∀ t ∉ r.claims.named, (∀ p a, r.claims.claim p ≠ some (t, a)) → (r.kernel.task t).tssSel = 0
  fresh : ∀ p pc, r.call p = some pc → Fresh r pc
  sels : Ledger (Resource.sel.Held r) (SelUsed r.kernel.gdt)
  kernelStacks : Ledger (Resource.kernelStack.Held r) (PageUsed n r.kernel.vm)

/-! ## Steps outside the window -/

/-- A step that changes nothing of what is claimed or held. -/
structure SameHoldings (n : ℕ) (r r' : ForkRun) : Prop where
  named : ∀ t, t ∈ r'.claims.named ↔ t ∈ r.claims.named
  pid : ∀ t, (r'.kernel.task t).pid = (r.kernel.task t).pid
  hold : ∀ t, ForkPc.SameHold (r.kernel.task t) (r'.kernel.task t)
  call : ∀ q, r'.call q = r.call q ∨
    ((∀ t, r.claims.claim q ≠ some (t, .found)) ∧ ∀ t, r'.claims.claim q ≠ some (t, .found))
  claim : ∀ q t a, r'.claims.claim q = some (t, a) → ∃ b, r.claims.claim q = some (t, b)
  gdt : r'.kernel.gdt = r.kernel.gdt
  page : ∀ t x, Resource.kernelStack.Held r t x → PageUsed n r.kernel.vm x → PageUsed n r'.kernel.vm x

theorem freeSlot_congr (h : ∀ t, t ∈ r'.claims.named ↔ t ∈ r.claims.named) :
    r'.kernel.freeSlot = r.kernel.freeSlot :=
  slotSearch_congr (fun i => not_iff_not.mp (h (.slot i))) _ _

namespace SameHoldings

theorem held (hk : SameHoldings n r r')
    (hfield : ∀ t, c.field (r'.kernel.task t) = c.field (r.kernel.task t)) (h : c.Held r' t x) :
    c.Held r t x := by
  rcases h with ⟨hn, hx⟩ | ⟨p, pc, a, hcall, hclaim, hof⟩
  · exact .inl ⟨(hk.named t).mp hn, (hfield t).symm.trans hx⟩
  · obtain ⟨u, hu⟩ := Resource.ofCall_early hof
    rcases hk.call p with hsame | ⟨-, hnot⟩
    · exact .inr ⟨p, pc, a, hsame.symm.trans hcall, hclaim,
        (Resource.ofCall_congr (hfield t) pc).symm.trans hof⟩
    · exact absurd ((ForkRun.claim_eq hcall).trans hu) (hnot u)

theorem held_sel (hk : SameHoldings n r r') (h : Resource.sel.Held r' t x) : Resource.sel.Held r t x :=
  hk.held (fun t => (hk.hold t).tssSel) h

theorem held_kernelStack (hk : SameHoldings n r r') (h : Resource.kernelStack.Held r' t x) :
    Resource.kernelStack.Held r t x :=
  hk.held (fun t => congrArg (fun esp0 => u32Sub esp0 memPageSize) (hk.hold t).esp0) h

/-- The calls in the window stay where they are. -/
theorem found (hk : SameHoldings n r r') : r'.claims.claim q = some (t, .found) ↔
    r.claims.claim q = some (t, .found) := by
  rcases hk.call q with hsame | ⟨hnot, hnot'⟩
  · rw [ForkRun.claim_congr hsame]
  · exact iff_of_false (hnot' t) (hnot t)

end SameHoldings

theorem ForkInv.keep (h : ForkInv L n r) (hk : SameHoldings n r r') (ht : ∃ q, Tracks .idle r'.schedRun q)
    (hs : r'.claims.Sound) (hl : ∀ t ∈ r'.listed, t.Exists) : ForkInv L n r' where
  tracks := ht
  sound := hs
  slot p t hp := by
    rw [freeSlot_congr hk.named]
    exact h.slot p t (hk.found.mp hp)
  listed := hl
  claimed p t a hp := by
    obtain ⟨b, hb⟩ := hk.claim p t a hp
    exact h.claimed p t b hb
  pid t ht := (hk.pid t).trans (h.pid t ((hk.named t).mp ht))
  clear t hn hno := by
    have hn' : t ∉ r.claims.named := fun hm => hn ((hk.named t).mpr hm)
    refine (hk.hold t).tssSel.trans (h.clear t hn' fun p a hp => ?_)
    obtain rfl := h.sound.stage_of_notMem hp hn'
    exact hno p .found (hk.found.mpr hp)
  fresh p pc hcall := by
    rcases hk.call p with hsame | ⟨-, hnot⟩
    · exact (h.fresh p pc (hsame.symm.trans hcall)).congr (fun t => (hk.hold t).tssSel)
        fun sel hfree t x hx => hfree t x (hk.held_sel hx)
    · exact fresh_of_not_found fun t ht => hnot t ((ForkRun.claim_eq hcall).trans ht)
  sels := h.sels.keep (fun _ _ => hk.held_sel) fun _ _ _ hm => hk.gdt ▸ hm
  kernelStacks := h.kernelStacks.keep (fun _ _ => hk.held_kernelStack)
    fun t x hx => hk.page t x (hk.held_kernelStack hx)

/-! ## Steps in the window -/

/-- The call of `p` takes a step in the window, with the slot `t` and no other call in the window. -/
structure Window (p t : TaskId) (o : Option ForkPc) (r r' : ForkRun) : Prop where
  call : r'.call = Function.update r.call p o
  claim : ∀ pc, o = some pc → ∃ a, pc.claim = some (t, a)
  task : ∀ u, u ≠ t → r'.kernel.task u = r.kernel.task u
  slot : r.kernel.freeSlot.map TaskId.slot = some t
  own : ∀ u a, r.claims.claim p = some (u, a) → u = t
  other : ∀ q, q ≠ p → ∀ u, r.claims.claim q ≠ some (u, .found)

namespace Window

variable {o : Option ForkPc}

theorem unnamed (hw : Window p t o r r') : t ∉ r.claims.named := by
  obtain ⟨i, hi, rfl⟩ := Option.map_eq_some_iff.mp hw.slot
  exact not_not.mpr (freeSlot_eq_some hi).2

theorem self (hw : Window p t o r r') : r'.call p = o := by
  rw [hw.call, Function.update_self]

theorem of_ne (hw : Window p t o r r') (hq : q ≠ p) : r'.call q = r.call q := by
  rw [hw.call, Function.update_of_ne hq]

theorem claim_of_ne (hw : Window p t o r r') (hq : q ≠ p) : r'.claims.claim q = r.claims.claim q :=
  ForkRun.claim_congr (hw.of_ne hq)

theorem named_of_ne (hw : Window p t o r r') (hu : u ≠ t) :
    u ∈ r'.claims.named ↔ u ∈ r.claims.named := by
  show (r'.kernel.task u).name 0 ≠ 0 ↔ (r.kernel.task u).name 0 ≠ 0
  rw [hw.task u hu]

theorem held_of_ne (hw : Window p t o r r') (hu : u ≠ t) (h : c.Held r' u x) : c.Held r u x := by
  rcases h with ⟨hn, hx⟩ | ⟨q, pc, a, hcall, hclaim, hof⟩
  · exact .inl ⟨(hw.named_of_ne hu).mp hn, by rwa [hw.task u hu] at hx⟩
  · rw [hw.task u hu] at hof
    by_cases hq : q = p
    · rw [hq, hw.self] at hcall
      obtain ⟨b, hb⟩ := hw.claim pc hcall
      rw [hclaim] at hb
      exact absurd (Prod.mk.inj (Option.some.inj hb)).1 hu
    · exact .inr ⟨q, pc, a, (hw.of_ne hq).symm.trans hcall, hclaim, hof⟩

/-- What is held for the slot after the step: by the task, if it is named now, or by the call. -/
theorem held_self (hw : Window p t o r r') (h : c.Held r' t x) :
    (t ∈ r'.claims.named ∧ c.field (r'.kernel.task t) = x) ∨
      ∃ pc, o = some pc ∧ c.ofCall (r'.kernel.task t) pc = some x := by
  rcases h with hn | ⟨q, pc, a, hcall, hclaim, hof⟩
  · exact .inl hn
  · by_cases hq : q = p
    · exact .inr ⟨pc, by rw [← hw.self, ← hq, hcall], hof⟩
    · obtain ⟨u, hu⟩ := Resource.ofCall_early hof
      exact absurd ((ForkRun.claim_eq ((hw.of_ne hq).symm.trans hcall)).trans hu) (hw.other q hq u)

theorem held (hw : Window p t o r r') (hself : ∀ x, c.Held r' t x → c.Held r t x)
    (h : c.Held r' u x) : c.Held r u x := by
  by_cases hu : u = t
  · rw [hu] at h ⊢
    exact hself x h
  · exact hw.held_of_ne hu h

end Window

theorem ForkInv.window {o : Option ForkPc} (h : ForkInv L n r) (hw : Window p t o r r')
    (ht : ∃ q, Tracks .idle r'.schedRun q) (hs : r'.claims.Sound) (hl : r'.listed = r.listed)
    (hpid : t ∈ r'.claims.named → (r'.kernel.task t).pid = i32 (taskAddr L t) ∧
      ∀ pc, o = some pc → ∀ u, pc.claim ≠ some (u, .found))
    (hclear : o = none → (r'.kernel.task t).tssSel = 0) (hfresh : ∀ pc, o = some pc → Fresh r' pc)
    (hsels : Ledger (Resource.sel.Held r') (SelUsed r'.kernel.gdt))
    (hstacks : Ledger (Resource.kernelStack.Held r') (PageUsed n r'.kernel.vm)) : ForkInv L n r' where
  tracks := ht
  sound := hs
  slot q u hq := by
    by_cases hqp : q = p
    · rw [hqp, ForkRun.claims_claim, hw.self] at hq
      obtain ⟨pc, ho, hpc⟩ := Option.bind_eq_some_iff.mp hq
      obtain ⟨b, hb⟩ := hw.claim pc ho
      have hut : u = t := by
        rw [hpc] at hb
        exact (Prod.mk.inj (Option.some.inj hb)).1
      have hn : t ∉ r'.claims.named := fun hm => (hpid hm).2 pc ho u hpc
      have hsame : ∀ u, u ∈ r'.claims.named ↔ u ∈ r.claims.named := by
        intro u
        by_cases hu : u = t
        · rw [hu]
          exact iff_of_false hn hw.unnamed
        · exact hw.named_of_ne hu
      rw [freeSlot_congr hsame, hut]
      exact hw.slot
    · rw [hw.claim_of_ne hqp] at hq
      exact absurd hq (hw.other q hqp u)
  listed := hl ▸ h.listed
  claimed q u a hq := by
    by_cases hqp : q = p
    · rw [hqp, ForkRun.claims_claim, hw.self] at hq
      obtain ⟨pc, ho, hpc⟩ := Option.bind_eq_some_iff.mp hq
      obtain ⟨b, hb⟩ := hw.claim pc ho
      rw [hpc] at hb
      obtain ⟨i, hi, hslot⟩ := Option.map_eq_some_iff.mp hw.slot
      exact ⟨i, (freeSlot_eq_some hi).1, ((Prod.mk.inj (Option.some.inj hb)).1).trans hslot.symm⟩
    · rw [hw.claim_of_ne hqp] at hq
      exact h.claimed q u a hq
  pid u hu := by
    by_cases hut : u = t
    · rw [hut] at hu ⊢
      exact (hpid hu).1
    · rw [hw.task u hut]
      exact h.pid u ((hw.named_of_ne hut).mp hu)
  clear u hu hno := by
    by_cases hut : u = t
    · rw [hut] at hno ⊢
      apply hclear
      cases ho : o with
      | none => rfl
      | some pc =>
          obtain ⟨b, hb⟩ := hw.claim pc ho
          exact absurd ((ForkRun.claim_eq (hw.self.trans ho)).trans hb) (hno p b)
    · rw [hw.task u hut]
      refine h.clear u (fun hm => hu ((hw.named_of_ne hut).mpr hm)) fun q a hq => ?_
      by_cases hqp : q = p
      · exact hut (hw.own u a (hqp ▸ hq))
      · exact hno q a ((hw.claim_of_ne hqp).trans hq)
  fresh q pc hcall := by
    by_cases hqp : q = p
    · exact hfresh pc (by rw [← hw.self, ← hqp, hcall])
    · rw [hw.of_ne hqp] at hcall
      exact fresh_of_not_found fun u hu => hw.other q hqp u ((ForkRun.claim_eq hcall).trans hu)
  sels := hsels
  kernelStacks := hstacks

end Kernel

end X86Os
