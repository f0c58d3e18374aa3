import X86Os.Exec
import X86Os.ForkAtomic
import X86Os.Populated
import X86Os.RangeFill

/-!
# The heap

The model of `memory_alloc_page_for` and `sys_sbrk`. Every address is a 32-bit number and the increment
an `int`. While the new end does not wrap, all the ways through `sys_sbrk` do the same: they map the
pages between the rounded ends of the heap. So a sequence of calls does what one call for the sum does.
-/

namespace X86Os

/-- `up2` for whole pages, without wrap-around. -/
def pageCeil (x : ℕ) : ℕ := (x + memPageSize - 1) / memPageSize * memPageSize

/-- A user program can write to the address. -/
def UserWritable (m : Mem) (dir v : ℕ) : Prop :=
  ∃ e, m.entryAt dir v = some e ∧ e % 8 = 7 ∧ m.pde dir (pdeIndex v) % 8 = 7

theorem Space.Owned.entryAt_eq {sp : Space} {n v : ℕ} {s : Vm} (h : sp.Owned n s) (hv : UserAddr v) :
    s.mem.entryAt sp.dir v = sp.entry (pdeIndex v) (pteIndex v) :=
  h.shape.userEntry_eq hv.indices.1 hv.indices.2 (pteIndex_lt v)

/-- Every table of the user half is entered with all permissions. -/
theorem Space.Owned.userWritable_iff {sp : Space} {n v : ℕ} {s : Vm} (h : sp.Owned n s)
    (hv : UserAddr v) : UserWritable s.mem sp.dir v ↔
      ∃ e, sp.entry (pdeIndex v) (pteIndex v) = some e ∧ e % 8 = 7 := by
  rw [UserWritable, h.entryAt_eq hv]
  constructor
  · rintro ⟨e, he, hperm, -⟩
    exact ⟨e, he, hperm⟩
  · rintro ⟨e, he, hperm⟩
    obtain ⟨t, ht⟩ := (h.shape.present _ _ e he).2.2
    have hal := (h.tablePage ht).aligned
    have hpde : s.mem.pde sp.dir (pdeIndex v) = t + 7 := by
      refine (h.shape.pde _ hv.indices.1 hv.indices.2).trans ?_
      rw [ht]
      rfl
    refine ⟨e, he, hperm, ?_⟩
    rw [hpde]
    unfold memPageSize at hal
    omega

namespace Kernel

def memoryAllocPageFor (addr size perm : ℕ) : Prog Kernel ℤ := do
  let t ← taskCurrent
  let dir ← Prog.gets fun s => (s.task t).tss.cr3
  onVm (memoryAllocForPageDir dir addr size perm)

def setHeapEnd (t : TaskId) (newEnd : ℕ) : Prog Kernel Unit :=
  setTask t fun task => { task with heapEnd := newEnd }

/-- `(char *)-1`. -/
def sbrkError : ℕ := 2 ^ 32 - 1

def sbrkMap (start : ℕ) (incr : ℤ) (newEnd : ℕ) : Prog Kernel ℤ :=
  if incr ≠ 0 then memoryAllocPageFor start (u32Sub newEnd start) (pteP ||| pteU ||| pteW)
  else pure 0

/-- `sys_sbrk` from the moment `start` is at the boundary of a page. -/
def sbrkPages (t : TaskId) (preHeapEnd start : ℕ) (incr : ℤ) (newEnd : ℕ) : Prog Kernel ℕ := do
  let err ← sbrkMap start incr newEnd
  if err < 0 then pure sbrkError
  else
    setHeapEnd t newEnd
    pure preHeapEnd

def sysSbrk (incr : ℤ) : Prog Kernel ℕ := do
  let t ← taskCurrent
  let preHeapEnd ← Prog.gets fun s => (s.task t).heapEnd
  Prog.require (0 ≤ incr)
  if incr = 0 then pure preHeapEnd
  else
    let newEnd := u32 (preHeapEnd + incr.toNat)
    let startOffset := preHeapEnd % memPageSize
    if startOffset = 0 then sbrkPages t preHeapEnd preHeapEnd incr newEnd
    else if i32 (startOffset + incr) ≤ memPageSize then
      -- The sum is an `int` and wraps for the largest increments.
      setHeapEnd t newEnd
      pure preHeapEnd
    else
      let currSize := memPageSize - startOffset
      sbrkPages t preHeapEnd (u32 (preHeapEnd + currSize)) (i32 (incr - currSize)) newEnd

/-- A sequence of calls with the results. -/
def sbrkAll : List ℕ → Prog Kernel (List ℕ)
  | [] => pure []
  | incr :: rest => do
    let r ← sysSbrk incr
    let rs ← sbrkAll rest
    pure (r :: rs)

/-! ## All the ways through `sys_sbrk` -/

variable {sp sp' : Space} {n old newEnd mid incr r : ℕ} {t : TaskId} {s s' : Kernel}

/-- Map the pages between the rounded ends, and move the end. -/
def growHeap (t : TaskId) (dir old newEnd : ℕ) : Prog Kernel ℕ := do
  let err ← onVm (memoryAllocForPageDir dir (pageCeil old) (newEnd - pageCeil old) 7)
  if err < 0 then pure sbrkError
  else
    setHeapEnd t newEnd
    pure old

theorem onVm_of_eq {A : Type} {f : Prog Vm A} {a : A} {v : Vm} (h : f s.vm = some (a, v)) :
    onVm f s = some (a, { s with vm := v }) := onVm_eq_some.mpr ⟨v, h, rfl⟩

theorem onVm_of_none {A : Type} {f : Prog Vm A} (h : f s.vm = none) : onVm f s = none := by
  rw [onVm, Prog.zoom, h]
  rfl

theorem pageCeil_eq (x : ℕ) : pageCeil x =
    if x % memPageSize = 0 then x else x + (memPageSize - x % memPageSize) := by
  unfold pageCeil memPageSize
  split_ifs <;> omega

/-- Nothing is mapped for an end in the same page. -/
theorem growHeap_same (dir : ℕ) (h : newEnd ≤ pageCeil old) :
    growHeap t dir old newEnd s =
      some (old, { s with task := Function.update s.task t { s.task t with heapEnd := newEnd } }) := by
  have hzero : newEnd - pageCeil old = 0 := by omega
  have hcall : memoryAllocForPageDir dir (pageCeil old) 0 7 s.vm = some (0, s.vm) := by
    rw [memoryAllocForPageDir, show up2 0 memPageSize / memPageSize = 0 by decide]
    rfl
  rw [growHeap, hzero, Prog.bind_of_eq (onVm_of_eq hcall), if_neg (by norm_num)]
  rfl

theorem sbrkPages_eq (hcurr : s.sched.currTask = some t) {start : ℕ} {i : ℤ}
    (hstart : start = pageCeil old) (hle : start ≤ newEnd) (hend : newEnd < 2 ^ 32) (hi : i ≠ 0) :
    sbrkPages t old start i newEnd s = growHeap t (s.task t).tss.cr3 old newEnd s := by
  have hperm : pteP ||| pteU ||| pteW = 7 := by decide
  rw [sbrkPages, growHeap, sbrkMap, if_pos hi, u32Sub_of_le hle hend, hperm, hstart,
    memoryAllocPageFor]
  rw [Prog.bind_apply, Prog.bind_of_eq (taskCurrent_eq hcurr), Prog.gets_bind]
  rfl

theorem sysSbrk_zero (hcurr : s.sched.currTask = some t) :
    sysSbrk 0 s = some ((s.task t).heapEnd, s) := by
  rw [sysSbrk, Prog.bind_of_eq (taskCurrent_eq hcurr), Prog.gets_bind,
    Prog.bind_of_eq (Prog.require_of le_rfl)]
  rfl

/-- The way of an increment that stays in the page, as the code compares it. -/
theorem sysSbrk_fast {i : ℤ} (hcurr : s.sched.currTask = some t) (hold : (s.task t).heapEnd = old)
    (hi : 0 < i) (hoff : old % memPageSize ≠ 0) (hsum : i32 ((old % memPageSize : ℕ) + i) ≤ memPageSize) :
    sysSbrk i s = some (old, { s with
      task := Function.update s.task t { s.task t with heapEnd := u32 (old + i.toNat) } }) := by
  rw [sysSbrk, Prog.bind_of_eq (taskCurrent_eq hcurr), Prog.gets_bind, hold,
    Prog.bind_of_eq (Prog.require_of hi.le), if_neg (by omega)]
  simp only [if_neg hoff, if_pos hsum]
  rfl

/-- While the end of a heap in the user half does not wrap, there is one way through `sys_sbrk`. -/
theorem sysSbrk_eq (incr : ℕ) (hcurr : s.sched.currTask = some t) (hold : (s.task t).heapEnd = old)
    (huser : memoryTaskBase ≤ old) (hend : old + incr < 2 ^ 32) :
    sysSbrk incr s = growHeap t (s.task t).tss.cr3 old (old + incr) s := by
  have hceil := pageCeil_eq old
  have hoff : old % memPageSize < memPageSize := Nat.mod_lt _ (by decide)
  have hwrap : u32 (old + (incr : ℤ).toNat) = old + incr := u32_of_lt hend
  rw [sysSbrk, Prog.bind_of_eq (taskCurrent_eq hcurr), Prog.gets_bind, hold,
    Prog.bind_of_eq (Prog.require_of (Int.natCast_nonneg incr))]
  simp only [hwrap, Nat.cast_eq_zero]
  by_cases hzero : incr = 0
  · subst incr
    have hsame : Function.update s.task t { s.task t with heapEnd := old } = s.task := by
      subst old
      exact Function.update_eq_self t s.task
    rw [if_pos rfl, Nat.add_zero, growHeap_same _ (by split_ifs at hceil <;> omega), hsame]
    rfl
  · rw [if_neg hzero]
    by_cases hal : old % memPageSize = 0
    · rw [if_pos hal] at hceil
      rw [if_pos hal]
      exact sbrkPages_eq hcurr hceil.symm (by omega) hend (by exact_mod_cast hzero)
    · rw [if_neg hal] at hceil
      rw [if_neg hal]
      -- The user half starts at `2 ^ 31`, so the sum of offset and increment is an `int`.
      have hsmall : old % memPageSize + incr < 2 ^ 31 := by
        unfold memPageSize memoryTaskBase at *
        omega
      rw [i32_of_bounds (x := (old % memPageSize : ℕ) + (incr : ℤ)) (by omega) (by omega)]
      by_cases hfast : ((old % memPageSize : ℕ) : ℤ) + incr ≤ memPageSize
      · rw [if_pos hfast, growHeap_same _ (by omega)]
        rfl
      · rw [if_neg hfast]
        have hstart : u32 (old + (memPageSize - old % memPageSize)) = pageCeil old := by
          rw [hceil]
          exact u32_of_lt (by omega)
        have hrest : i32 ((incr : ℤ) - (memPageSize - old % memPageSize : ℕ)) ≠ 0 := by
          rw [i32_of_bounds (by omega) (by omega)]
          omega
        exact sbrkPages_eq hcurr hstart (by omega) hend hrest

/-! ## What a call grants -/

/-- The current task owns its address space, its heap ends in the user half, and the page in which
the heap ends is mapped. -/
structure UserHeap (sp : Space) (n : ℕ) (t : TaskId) (s : Kernel) : Prop where
  current : s.sched.currTask = some t
  dir : (s.task t).tss.cr3 = sp.dir
  owned : sp.Owned n s.vm
  user : UserAddr (s.task t).heapEnd
  lastPage : (s.task t).heapEnd % memPageSize ≠ 0 →
    UserWritable s.vm.mem sp.dir ((s.task t).heapEnd - 1)

/-- The call returned the old end, moved it by `incr`, and mapped exactly the pages between. -/
structure SbrkGrants (dir : ℕ) (t : TaskId) (incr : ℕ) (s : Kernel) (r : ℕ) (s' : Kernel) : Prop where
  result : r = (s.task t).heapEnd
  heapEnd : (s'.task t).heapEnd = (s.task t).heapEnd + incr
  writable : ∀ v, (s.task t).heapEnd ≤ v → v < (s.task t).heapEnd + incr →
    UserWritable s'.vm.mem dir v
  added : ∀ v, UserAddr v → (s.vm.mem.walk dir v = none ∧ s'.vm.mem.walk dir v ≠ none ↔
    pageCeil (s.task t).heapEnd ≤ v ∧ v < pageCeil ((s.task t).heapEnd + incr))
  kept : ∀ v x, UserAddr v → s.vm.mem.walk dir v = some x →
    s'.vm.mem.walk dir v = some x ∧ s'.vm.mem x = s.vm.mem x

/-- The pages between the rounded ends. -/
def heapPages (old newEnd : ℕ) : ℕ := (pageCeil newEnd - pageCeil old) / memPageSize

theorem heapPages_eq (h : old ≤ newEnd) (hold : memoryTaskBase ≤ old) (hend : newEnd < 2 ^ 32) :
    up2 (newEnd - pageCeil old) memPageSize / memPageSize = heapPages old newEnd ∧
      pageCeil old + heapPages old newEnd * memPageSize = pageCeil newEnd ∧
      pageCeil old + up2 (newEnd - pageCeil old) memPageSize = pageCeil newEnd ∧
      pageCeil newEnd ≤ 2 ^ 32 ∧ memoryTaskBase ≤ pageCeil old ∧ pageCeil old % memPageSize = 0 := by
  unfold heapPages up2 u32 pageCeil memPageSize memoryTaskBase at *
  omega

/-- A run that does not return an error. -/
theorem growHeap_run {dir : ℕ} (hrun : growHeap t dir old newEnd s = some (r, s'))
    (hr : r ≠ sbrkError) : ∃ v, r = old ∧
      memoryAllocForPageDir dir (pageCeil old) (newEnd - pageCeil old) 7 s.vm = some (0, v) ∧
      s' = { s with
        vm := v, task := Function.update s.task t { s.task t with heapEnd := newEnd } } := by
  obtain ⟨err, s₁, hcall, hrest⟩ := Prog.bind_eq_some.mp hrun
  obtain ⟨v, hv, rfl⟩ := onVm_eq_some.mp hcall
  split_ifs at hrest with herr
  · exact absurd (Prog.pure_eq_some.mp hrest).1 hr
  · obtain ⟨u, s₂, hset, hret⟩ := Prog.bind_eq_some.mp hrest
    obtain rfl := setTask_eq_some.mp hset
    obtain ⟨rfl, rfl⟩ := Prog.pure_eq_some.mp hret
    obtain ⟨rfl, -⟩ := allocLoop_of_call hv (by omega)
    exact ⟨v, rfl, hv, rfl⟩

/-- The end of the heap after a call that does not return an error. -/
theorem sysSbrk_heapEnd {i : ℤ} (hcurr : s.sched.currTask = some t)
    (hlt : (s.task t).heapEnd < 2 ^ 32) (hrun : sysSbrk i s = some (r, s')) (hr : r ≠ sbrkError) :
    (s'.task t).heapEnd < 2 ^ 32 := by
  have hset : ∀ e s₁ u, setHeapEnd t (u32 e) s₁ = some (u, s') → (s'.task t).heapEnd < 2 ^ 32 := by
    intro e s₁ u hset
    obtain rfl := setTask_eq_some.mp hset
    simpa using u32_lt e
  have hpages : ∀ pre start j e, sbrkPages t pre start j (u32 e) s = some (r, s') →
      (s'.task t).heapEnd < 2 ^ 32 := by
    intro pre start j e hpages
    rw [sbrkPages] at hpages
    obtain ⟨err, s₁, -, hrest⟩ := Prog.bind_eq_some.mp hpages
    split_ifs at hrest
    · exact absurd (Prog.pure_eq_some.mp hrest).1 hr
    · obtain ⟨u, s₂, hs₂, hret⟩ := Prog.bind_eq_some.mp hrest
      obtain ⟨-, rfl⟩ := Prog.pure_eq_some.mp hret
      exact hset e s₁ u hs₂
  rw [sysSbrk, Prog.bind_of_eq (taskCurrent_eq hcurr), Prog.gets_bind] at hrun
  obtain ⟨u, s₁, hreq, hrest⟩ := Prog.bind_eq_some.mp hrun
  obtain ⟨-, rfl⟩ := Prog.require_eq_some.mp hreq
  simp only at hrest
  split_ifs at hrest
  · obtain ⟨-, rfl⟩ := Prog.pure_eq_some.mp hrest
    exact hlt
  · exact hpages _ _ _ _ hrest
  · obtain ⟨u, s₂, hs₂, hret⟩ := Prog.bind_eq_some.mp hrest
    obtain ⟨-, rfl⟩ := Prog.pure_eq_some.mp hret
    exact hset _ _ _ hs₂
  · exact hpages _ _ _ _ hrest

theorem growHeap_of {dir : ℕ} {v : Vm}
    (hv : memoryAllocForPageDir dir (pageCeil old) (newEnd - pageCeil old) 7 s.vm = some (0, v)) :
    growHeap t dir old newEnd s = some (old, { s with
      vm := v, task := Function.update s.task t { s.task t with heapEnd := newEnd } }) := by
  rw [growHeap, Prog.bind_of_eq (onVm_of_eq hv), if_neg (by norm_num)]
  rfl

/-- The rest of the page in which the heap ends is mapped. -/
theorem UserHeap.rest_entry {w : ℕ} (h : UserHeap sp n t s) (hw : (s.task t).heapEnd ≤ w)
    (hw' : w < pageCeil (s.task t).heapEnd) (hlt : w < 2 ^ 32) :
    ∃ e, sp.entry (pdeIndex w) (pteIndex w) = some e ∧ e % 8 = 7 := by
  have hceil := pageCeil_eq (s.task t).heapEnd
  have huser := h.user
  have hne : (s.task t).heapEnd % memPageSize ≠ 0 := by
    intro hz
    rw [if_pos hz] at hceil
    omega
  rw [if_neg hne] at hceil
  have hlast : UserAddr ((s.task t).heapEnd - 1) := by
    unfold UserAddr memoryTaskBase memPageSize at *
    omega
  have hwa : UserAddr w := ⟨huser.1.trans hw, hlt⟩
  obtain ⟨e, he, hperm⟩ := (h.owned.userWritable_iff hlast).mp (h.lastPage hne)
  have hpage : w / memPageSize = ((s.task t).heapEnd - 1) / memPageSize := by
    unfold memPageSize at *
    omega
  have hsame : s.vm.mem.entryAt sp.dir w = s.vm.mem.entryAt sp.dir ((s.task t).heapEnd - 1) :=
    (same_page hpage).2
  rw [h.owned.entryAt_eq hwa, h.owned.entryAt_eq hlast] at hsame
  exact ⟨e, hsame.trans he, hperm⟩

/-- The task after its heap has grown over a range. -/
theorem UserHeap.grown {v : Vm} (h : UserHeap sp n t s) (hend : (s.task t).heapEnd + incr < 2 ^ 32)
    (hfilled : RangeFilled sp n s.vm (pageCeil (s.task t).heapEnd) 7
      (heapPages (s.task t).heapEnd ((s.task t).heapEnd + incr)) sp' v)
    (hvm : s'.vm = v) (hheap : (s'.task t).heapEnd = (s.task t).heapEnd + incr) :
    SbrkGrants sp.dir t incr s (s.task t).heapEnd s' := by
  obtain ⟨-, hstop, -, hstop', hstart, hal⟩ :=
    heapPages_eq (Nat.le_add_right _ incr) h.user.1 hend
  have hceil := pageCeil_eq (s.task t).heapEnd
  have hceil' := pageCeil_eq ((s.task t).heapEnd + incr)
  have hoff : (s.task t).heapEnd % memPageSize < memPageSize := Nat.mod_lt _ (by decide)
  have hold : ∀ w, UserAddr w → s.vm.mem.entryAt sp.dir w = sp.entry (pdeIndex w) (pteIndex w) :=
    fun w hw => h.owned.entryAt_eq hw
  have hnew : ∀ w, UserAddr w →
      s'.vm.mem.entryAt sp.dir w = sp'.entry (pdeIndex w) (pteIndex w) := by
    intro w hw
    rw [hvm, ← hfilled.dir]
    exact hfilled.owned.entryAt_eq hw
  have huser := h.user
  -- The rounded start is at most the rounded end.
  have hle : pageCeil (s.task t).heapEnd ≤ pageCeil ((s.task t).heapEnd + incr) := by omega
  have hend' : (s.task t).heapEnd + incr ≤ pageCeil ((s.task t).heapEnd + incr) := by
    split_ifs at hceil' <;> omega
  have hin : ∀ w, pageCeil (s.task t).heapEnd ≤ w → w < pageCeil ((s.task t).heapEnd + incr) →
      sp.entry (pdeIndex w) (pteIndex w) = none ∧
        ∃ p, KernelPage p ∧ sp'.entry (pdeIndex w) (pteIndex w) = some (p + 7) :=
    fun w hw hw' => hfilled.entry_in hal hw (by rwa [hstop])
  have hout : ∀ w, w < pageCeil (s.task t).heapEnd ∨ pageCeil ((s.task t).heapEnd + incr) ≤ w →
      sp'.entry (pdeIndex w) (pteIndex w) = sp.entry (pdeIndex w) (pteIndex w) :=
    fun w hw => hfilled.entry_out hal (by rwa [hstop])
  refine ⟨rfl, hheap, fun v hv hv' => ?_, fun v hv => ?_, fun v x hv hx => ?_⟩
  · rw [hvm, ← hfilled.dir, hfilled.owned.userWritable_iff ⟨huser.1.trans hv, by omega⟩]
    by_cases hlow : v < pageCeil (s.task t).heapEnd
    · rw [hout v (.inl hlow)]
      exact h.rest_entry hv hlow (by omega)
    · obtain ⟨-, p, hp, he⟩ := hin v (by omega) (by omega)
      refine ⟨_, he, ?_⟩
      have := hp.aligned
      unfold memPageSize at this
      omega
  · rw [Ne, walk_eq_none, walk_eq_none, hold v hv, hnew v hv]
    constructor
    · rintro ⟨hnone, hsome⟩
      by_contra hno
      exact hsome ((hout v (by omega)).trans hnone)
    · rintro ⟨hv₁, hv₂⟩
      obtain ⟨hnone, p, -, he⟩ := hin v hv₁ hv₂
      exact ⟨hnone, by rw [he]; exact Option.some_ne_none _⟩
  · obtain ⟨e, he, rfl⟩ := walk_eq_some.mp hx
    have hentry := (hold v hv).symm.trans he
    have hkept : sp'.entry (pdeIndex v) (pteIndex v) = some e := by
      by_cases hrange : pageCeil (s.task t).heapEnd ≤ v ∧ v < pageCeil ((s.task t).heapEnd + incr)
      · rw [(hin v hrange.1 hrange.2).1] at hentry
        cases hentry
      · exact (hout v (by omega)).trans hentry
    refine ⟨walk_eq_some.mpr ⟨e, (hnew v hv).trans hkept, rfl⟩, ?_⟩
    have hslot : sp.page (.frame (pdeIndex v) (pteIndex v)) = some (entryPaddr e) := by
      rw [Space.page, hentry]
      rfl
    rw [hvm]
    exact hfilled.frame_same h.owned hslot walk_in_frame

/-- With enough pages the heap grows over pages that are not mapped. -/
theorem UserHeap.growHeap_total (h : UserHeap sp n t s)
    (hend : (s.task t).heapEnd + incr < 2 ^ 32)
    (hnone : ∀ w, pageCeil (s.task t).heapEnd ≤ w → w < pageCeil ((s.task t).heapEnd + incr) →
      sp.entry (pdeIndex w) (pteIndex w) = none)
    (hroom : rangeNeed sp (pageCeil (s.task t).heapEnd)
      (heapPages (s.task t).heapEnd ((s.task t).heapEnd + incr)) ≤ s.vm.alloc.clearPages.card) :
    ∃ s', growHeap t sp.dir (s.task t).heapEnd ((s.task t).heapEnd + incr) s =
      some ((s.task t).heapEnd, s') ∧ (s'.task t).heapEnd = (s.task t).heapEnd + incr := by
  obtain ⟨hcount, hstop, hsize, hstop', hstart, -⟩ :=
    heapPages_eq (Nat.le_add_right _ incr) h.user.1 hend
  have hfree : ∀ k < heapPages (s.task t).heapEnd ((s.task t).heapEnd + incr),
      sp.entry (pdeIndex (pageCeil (s.task t).heapEnd + k * memPageSize))
        (pteIndex (pageCeil (s.task t).heapEnd + k * memPageSize)) = none := by
    intro k hk
    have hlt := Nat.mul_lt_mul_of_pos_right hk (show 0 < memPageSize by decide)
    exact hnone _ (Nat.le_add_right _ _) (by omega)
  rw [← hcount] at hfree hroom
  obtain ⟨sp', v, hcall, -⟩ := rangeFilled_total h.owned hstart (hsize.trans_le hstop') hfree hroom
    (show Present 7 by decide) (by decide)
  exact ⟨_, growHeap_of hcall, by simp⟩

/-- A call that does not return an error grants what it returns exactly if the new end of the heap
does not wrap. -/
theorem sbrk_grants (h : UserHeap sp n t s) (hrun : sysSbrk incr s = some (r, s'))
    (hr : r ≠ sbrkError) :
    SbrkGrants sp.dir t incr s r s' ↔ (s.task t).heapEnd + incr < 2 ^ 32 := by
  constructor
  · intro hgrants
    rw [← hgrants.heapEnd]
    exact sysSbrk_heapEnd h.current h.user.2 hrun hr
  · intro hend
    rw [sysSbrk_eq _ h.current rfl h.user.1 hend, h.dir] at hrun
    obtain ⟨v, rfl, hcall, rfl⟩ := growHeap_run hrun hr
    obtain ⟨hcount, -, hstop, hstop', hstart, -⟩ :=
      heapPages_eq (Nat.le_add_right _ incr) h.user.1 hend
    rcases rangeFilled_of_call h.owned hstart (by rwa [hstop]) (show Present 7 by decide) (by decide)
      hcall with ⟨-, sp', hfilled⟩ | hfail
    · rw [hcount] at hfilled
      exact h.grown hend hfilled rfl (by simp)
    · norm_num at hfail

/-- A task with one page, in which its heap ends. -/
def heapKernel (heapEnd : ℕ) : Kernel where
  vm := onePageVm
  tempPos := 0
  gdt _ := .zero
  gdtFrees := []
  task _ := { Task.zero with heapEnd := heapEnd, tss := { Tss.zero with cr3 := 0x200000 } }
  sched := { Sched.zeroed with currTask := some .first }
  appCodeSel := 0x20
  appDataSel := 0x18

theorem heapKernel_userHeap (heapEnd : ℕ) (h : 0x80000000 < heapEnd) (h' : heapEnd ≤ 0x80001000) :
    UserHeap onePage 8 .first (heapKernel heapEnd) := by
  refine ⟨rfl, rfl, onePage_owned, ⟨h.le, h'.trans_lt (by decide)⟩, fun _ => ?_⟩
  have huser : UserAddr (heapEnd - 1) :=
    ⟨by unfold memoryTaskBase; omega, by omega⟩
  have hi : pdeIndex (heapEnd - 1) = 512 := by
    unfold pdeIndex
    omega
  have hj : pteIndex (heapEnd - 1) = 0 := by
    unfold pteIndex
    omega
  show UserWritable onePageVm.mem onePage.dir (heapEnd - 1)
  rw [onePage_owned.userWritable_iff huser, hi, hj]
  exact ⟨0x202007, rfl, by decide⟩

theorem heapKernel_room {newEnd : ℕ} (h : newEnd ≤ 0x80003000) :
    rangeNeed onePage 0x80001000 (heapPages 0x80000800 newEnd) ≤
      onePageVm.alloc.clearPages.card := by
  rw [onePageVm_card]
  have hneed := rangeNeed_le onePage 0x80001000 (heapPages 0x80000800 newEnd)
  unfold heapPages pageCeil memPageSize at *
  omega

theorem heapKernel_unmapped {w : ℕ} (h : 0x80001000 ≤ w) (h' : w < 0x80003000) :
    onePage.entry (pdeIndex w) (pteIndex w) = none := by
  have hj : pteIndex w ≠ 0 := by
    unfold pteIndex
    omega
  simp [onePage, Space.addEntry, Space.addTable, Space.empty, hj]

/-- The heap grows into the next page. -/
theorem sbrk_grants_nextPage : ∃ s, sysSbrk 0x1000 (heapKernel 0x80000800) = some (0x80000800, s) ∧
    SbrkGrants onePage.dir .first 0x1000 (heapKernel 0x80000800) 0x80000800 s := by
  have h := heapKernel_userHeap 0x80000800 (by norm_num) (by norm_num)
  have hend : ((heapKernel 0x80000800).task .first).heapEnd + 0x1000 < 2 ^ 32 := by decide
  obtain ⟨s, hrun, -⟩ := h.growHeap_total hend
    (fun w hw hw' => heapKernel_unmapped hw (hw'.trans_le (by decide))) (heapKernel_room (by decide))
  have hcall : sysSbrk (0x1000 : ℕ) (heapKernel 0x80000800) = some (0x80000800, s) :=
    (sysSbrk_eq 0x1000 rfl rfl (by decide) (by decide)).trans hrun
  exact ⟨s, hcall, (sbrk_grants h hcall (by decide)).mpr (by decide)⟩

/-- The largest increment: the sum with the offset in the page is negative as an `int`, so the end is
moved to zero and nothing is mapped. -/
theorem sbrk_grants_counterexample : ∃ s,
    sysSbrk (2 ^ 31 - 1) (heapKernel 0x80000001) = some (0x80000001, s) ∧ (s.task .first).heapEnd = 0 ∧
      s.vm = (heapKernel 0x80000001).vm ∧
      ¬ SbrkGrants onePage.dir .first (2 ^ 31 - 1) (heapKernel 0x80000001) 0x80000001 s := by
  have hsum : i32 (1 + (2 ^ 31 - 1)) ≤ 4096 := by decide
  have hrun := sysSbrk_fast (s := heapKernel 0x80000001) (i := 2 ^ 31 - 1) rfl rfl (by decide)
    (by decide) hsum
  refine ⟨_, hrun, rfl, rfl, fun hgrants => ?_⟩
  have hend := hgrants.heapEnd
  revert hend
  decide

/-! ## Calls in a row -/

/-- Growing the heap in two steps is growing it in one. -/
theorem growHeap_split {dir : ℕ} (mid : ℕ) (hmid : old ≤ mid) (hnew : mid ≤ newEnd)
    (huser : memoryTaskBase ≤ old) (hend : newEnd < 2 ^ 32) (hold : old ≠ sbrkError)
    (hrun : growHeap t dir old newEnd s = some (old, s')) :
    ∃ s₁, growHeap t dir old mid s = some (old, s₁) ∧ growHeap t dir mid newEnd s₁ = some (mid, s') ∧
      s₁.sched = s.sched ∧ (s₁.task t).tss = (s.task t).tss ∧ (s₁.task t).heapEnd = mid := by
  obtain ⟨v, -, hcall, rfl⟩ := growHeap_run hrun hold
  obtain ⟨-, hloop⟩ := allocLoop_of_call hcall le_rfl
  obtain ⟨hcount, hstop, -⟩ := heapPages_eq (hmid.trans hnew) huser hend
  obtain ⟨hcount₁, hstop₁, -⟩ := heapPages_eq hmid huser (hnew.trans_lt hend)
  obtain ⟨hcount₂, hstop₂, -⟩ := heapPages_eq hnew (huser.trans hmid) hend
  have hpages : heapPages old newEnd = heapPages old mid + heapPages mid newEnd := by
    unfold memPageSize at *
    omega
  rw [hcount, hpages] at hloop
  obtain ⟨v₁, hfirst, hrest⟩ := allocLoop_split hloop
  rw [hstop₁] at hrest
  have hcall₁ : memoryAllocForPageDir dir (pageCeil old) (mid - pageCeil old) 7 s.vm =
      some (0, v₁) := by
    rw [memoryAllocForPageDir, hcount₁, Prog.bind_of_eq hfirst]
    rfl
  have hcall₂ : memoryAllocForPageDir dir (pageCeil mid) (newEnd - pageCeil mid) 7 v₁ =
      some (0, v) := by
    rw [memoryAllocForPageDir, hcount₂, Prog.bind_of_eq hrest]
    rfl
  refine ⟨_, growHeap_of hcall₁, ?_, rfl, by simp, by simp⟩
  rw [growHeap_of hcall₂]
  simp

/-- The ends of the heap that a sequence of calls returns. -/
def heapEnds : ℕ → List ℕ → List ℕ
  | _, [] => []
  | old, incr :: rest => old :: heapEnds (old + incr) rest

theorem sbrkAll_eq {incs : List ℕ} (hcurr : s.sched.currTask = some t)
    (hold : (s.task t).heapEnd = old) (huser : memoryTaskBase ≤ old)
    (hend : old + incs.sum < sbrkError)
    (hrun : growHeap t (s.task t).tss.cr3 old (old + incs.sum) s = some (old, s')) :
    sbrkAll incs s = some (heapEnds old incs, s') := by
  have hlt : old + incs.sum < 2 ^ 32 := hend.trans (by decide)
  induction incs generalizing s old with
  | nil =>
      have hsame : sysSbrk 0 s = some (old, s') := (sysSbrk_eq 0 hcurr hold huser hlt).trans hrun
      rw [sysSbrk_zero hcurr] at hsame
      obtain ⟨-, rfl⟩ := Prod.mk.inj (Option.some.inj hsame)
      rfl
  | cons incr rest ih =>
      rw [List.sum_cons] at hend hlt hrun
      rw [← Nat.add_assoc] at hend hlt hrun
      obtain ⟨s₁, hfirst, hrest, hsched, htss, hmid⟩ :=
        growHeap_split (old + incr) (by omega) (by omega) huser hlt (by omega) hrun
      have hcall : sysSbrk incr s = some (old, s₁) :=
        (sysSbrk_eq incr hcurr hold huser (by omega)).trans hfirst
      have hall := ih (hsched ▸ hcurr) hmid (by omega) hend (htss ▸ hrest) hlt
      rw [sbrkAll, Prog.bind_of_eq hcall, Prog.bind_of_eq hall]
      rfl

/-- Calls in a row leave the same state as one call for the sum of their increments, as long as the
pages for it suffice and the heap stays below the stack. -/
theorem sbrk_additive {incs : List ℕ} (h : UserHeap sp n t s)
    (hend : (s.task t).heapEnd + incs.sum ≤ memTaskStackTop - memTaskStackSize)
    (hnone : ∀ w, pageCeil (s.task t).heapEnd ≤ w → w < pageCeil ((s.task t).heapEnd + incs.sum) →
      sp.entry (pdeIndex w) (pteIndex w) = none)
    (hroom : rangeNeed sp (pageCeil (s.task t).heapEnd)
      (heapPages (s.task t).heapEnd ((s.task t).heapEnd + incs.sum)) ≤ s.vm.alloc.clearPages.card) :
    ∃ s', sysSbrk incs.sum s = some ((s.task t).heapEnd, s') ∧
      sbrkAll incs s = some (heapEnds (s.task t).heapEnd incs, s') ∧
      (s'.task t).heapEnd = (s.task t).heapEnd + incs.sum := by
  have hlt : (s.task t).heapEnd + incs.sum < sbrkError := by
    unfold memTaskStackTop memTaskStackSize memPageSize at hend
    unfold sbrkError
    omega
  obtain ⟨s', hrun, hheap⟩ := h.growHeap_total (hlt.trans (by decide)) hnone hroom
  refine ⟨s', ?_, sbrkAll_eq h.current rfl h.user.1 hlt (by rwa [h.dir]), hheap⟩
  rw [sysSbrk_eq _ h.current rfl h.user.1 (hlt.trans (by decide)), h.dir, hrun]

/-- Three increments: inside the page, to its end, and over the next one. -/
theorem sbrk_additive_threeCalls : ∃ s,
    sysSbrk 0x1801 (heapKernel 0x80000800) = some (0x80000800, s) ∧
      sbrkAll [0x400, 0x400, 0x1001] (heapKernel 0x80000800) =
        some ([0x80000800, 0x80000C00, 0x80001000], s) ∧
      (s.task .first).heapEnd = 0x80002001 := by
  have hend : ((heapKernel 0x80000800).task .first).heapEnd + [0x400, 0x400, 0x1001].sum ≤
      memTaskStackTop - memTaskStackSize := by decide
  obtain ⟨s, hsum, hall, hmoved⟩ :=
    sbrk_additive (heapKernel_userHeap 0x80000800 (by norm_num) (by norm_num)) hend
      (fun w hw hw' => heapKernel_unmapped hw (hw'.trans_le (by decide)))
      (heapKernel_room (by decide))
  exact ⟨s, hsum, hall, hmoved⟩

end Kernel

end X86Os
