import X86Os.SemProtocol

/-!
# A new semaphore

The runs after `sem_init` on a semaphore for which nobody waits, until somebody notifies it. Every
call of `sem_wait` is remembered with whether its task was still runnable afterwards. The initial
count is not stored, so that no call returns, whatever the count.
-/

set_option linter.unusedSectionVars false

namespace X86Os

open LinkedChain

variable {T M S : Type} [DecidableEq T] [DecidableEq M] [DecidableEq S]

structure WaitRun (T M S : Type) where
  run : SchedRun T M S
  calls : List (T × Bool)

/-- The observation after the operation `op` led to `r`. -/
def WaitRun.next (x : S) (g : WaitRun T M S) (op : SchedOp T M S) (r : SchedRun T M S) :
    WaitRun T M S where
  run := r
  calls := g.calls ++ if op = .wait x then
    g.run.sched.currTask.toList.map fun t => (t, decide (t ∈ r.sched.tasksOn .readyList)) else []

/-- The scheduler from a call of `sem_init` on, as long as nobody notifies the semaphore. -/
def waitMachine (idle first : T) (x : S) (initCount : ℤ) :
    Machine (WaitRun T M S) (SchedOp T M S) where
  init g := ∃ r, (schedMachine idle first).Reach r ∧ r.sched.tasksOn (.semWaitList x) = [] ∧
    g.run = { r with sched := semInit x initCount r.sched } ∧ g.calls = []
  enabled g op := op.enabled idle g.run ∧ op ≠ .notify x
  step g op := ((schedMachine idle first).step g.run op).map fun r => g.next x op r

/-- The first `n` calls returned at once, and the tasks of the others wait in call order. -/
structure CountedFrom (x : S) (n : ℕ) (g : WaitRun T M S) : Prop where
  returned : ∀ i (h : i < g.calls.length), g.calls[i].2 = decide (i < n)
  waiting : g.run.sched.tasksOn (.semWaitList x) = (g.calls.drop n).map Prod.fst
  blocked : ∀ t ∈ g.run.sched.tasksOn (.semWaitList x), t ∉ g.run.sched.tasksOn .readyList

/-- The semaphore has no unit and all callers wait. -/
structure NoUnits (idle : T) (x : S) (q : Queues T M S) (g : WaitRun T M S) : Prop where
  tracks : Tracks idle g.run q
  count : (q.sem x).count = 0
  waiting : q.queue (.semWaitList x) = g.calls.map Prod.fst
  returned : ∀ c ∈ g.calls, c.2 = false

variable {idle first : T} {x : S} {q : Queues T M S} {g g' : WaitRun T M S}
  {r r' : SchedRun T M S} {op : SchedOp T M S}

/-- `sem_init` on a semaphore for which nobody waits. -/
theorem Tracks.semInit (ht : Tracks idle r q) (hq : q.queue (.semWaitList x) = []) (n : ℤ) :
    Tracks idle { r with sched := semInit x n r.sched } (q.setSem x { count := 0 }) := by
  have hr := ht.rep.setSem x { count := 0 }
  refine ⟨⟨fun l => ?_, hr.apart, hr.curr, hr.task, hr.mutex, hr.sem⟩, ht.placed, ht.curr,
    ht.initialised, ht.started, ht.idle_initialised⟩
  by_cases hl : l = .semWaitList x
  · subst l
    simp only [X86Os.semInit, Sched.initList, Function.update_self, Queues.setSem_queue, hq]
    exact IsList.init _
  · simp only [X86Os.semInit, Sched.initList, Function.update_of_ne hl]
    exact hr.lists l

namespace NoUnits

theorem start (hne : first ≠ idle) {n : ℤ} (h : (waitMachine idle first x n).init g) :
    ∃ q, NoUnits idle x q g := by
  obtain ⟨r, hreach, hnobody, hrun, hcalls⟩ := h
  obtain ⟨q, ht⟩ := tracks_of_reach hne hreach
  have hq : q.queue (.semWaitList x) = [] := (ht.rep.tasksOn_eq _).symm.trans hnobody
  refine ⟨q.setSem x { count := 0 }, hrun ▸ ht.semInit hq n, ?_, ?_, ?_⟩
  · simp only [Queues.setSem, Function.update_self]
  · rw [Queues.setSem_queue, hq, hcalls]
    rfl
  · simp [hcalls]

theorem step (h : NoUnits idle x q g) (he : op.enabled idle g.run) (hn : op ≠ .notify x)
    (ht : Tracks idle r' (op.queues idle q)) :
    NoUnits idle x (op.queues idle q) (g.next x op r') := by
  by_cases hw : op = .wait x
  · subst op
    have hzero : ¬ (q.sem x).count > 0 := by
      rw [h.count]
      exact lt_irrefl 0
    obtain ⟨hqueue, hsem⟩ := Queues.wait_blocked idle hzero
    have hcurr : g.run.sched.currTask.toList = [q.curr] := by
      rw [h.tracks.rep.curr]
      rfl
    have hmem : q.curr ∈ (q.wait idle x).queue (.semWaitList x) := by simp [hqueue]
    have hnot : q.curr ∉ r'.sched.tasksOn .readyList := by
      rw [ht.rep.tasksOn_eq]
      exact ht.placed.notMem_of_mem (l := .semWaitList x) (by simp) (by simp) hmem (by simp)
    have hcalls : (g.next x (.wait x) r').calls = g.calls ++ [(q.curr, false)] := by
      simp [WaitRun.next, hcurr, hnot]
    refine ⟨ht, (congrArg Sem.count (congrFun hsem x)).trans h.count, ?_, ?_⟩
    · rw [hcalls, List.map_append, ← h.waiting]
      exact hqueue
    · intro c hc
      rw [hcalls, List.mem_append, List.mem_singleton] at hc
      rcases hc with hc | rfl
      · exact h.returned c hc
      · rfl
  · have hcalls : (g.next x op r').calls = g.calls := by simp [WaitRun.next, hw]
    have hqueue : (op.queues idle q).queue (.semWaitList x) = q.queue (.semWaitList x) :=
      Queues.queues_frame (by cases op <;> simp_all [SchedOp.touches, eq_comm])
    have hsem : (op.queues idle q).sem x = q.sem x := Queues.queues_sem hw hn
    refine ⟨ht, by rw [hsem, h.count], ?_, ?_⟩
    · rw [hqueue, h.waiting, hcalls]
    · rw [hcalls]
      exact h.returned

end NoUnits

theorem noUnits_of_reach (hne : first ≠ idle) {n : ℤ} (h : (waitMachine idle first x n).Reach g) :
    ∃ q, NoUnits idle x q g := by
  apply h.invariant (I := fun g : WaitRun T M S => ∃ q, NoUnits idle x q g)
  · exact fun g hg => NoUnits.start hne hg
  · rintro g op g' ⟨q, hi⟩ ⟨he, hn⟩ hs
    obtain ⟨s', hs', ht⟩ := hi.tracks.step he
    have hg : g.next x op (op.record g.run s') = g' := by
      simpa [waitMachine, schedMachine, hs'] using hs
    exact ⟨_, hg ▸ hi.step he hn ht⟩

/-- In any run after `sem_init` the semaphore behaves as one with the initial count it was given
exactly if that is zero, or until the first call of `sem_wait`. -/
theorem sem_init_count_iff (hne : first ≠ idle) {n : ℕ} (h : (waitMachine idle first x n).Reach g) :
    CountedFrom x n g ↔ n = 0 ∨ g.calls = [] := by
  obtain ⟨q, hi⟩ := noUnits_of_reach hne h
  have hwaiting : g.run.sched.tasksOn (.semWaitList x) = g.calls.map Prod.fst :=
    (hi.tracks.rep.tasksOn_eq _).trans hi.waiting
  have hblocked : ∀ t ∈ g.run.sched.tasksOn (.semWaitList x),
      t ∉ g.run.sched.tasksOn .readyList := by
    intro t ht
    rw [hi.tracks.rep.tasksOn_eq] at ht ⊢
    exact hi.tracks.placed.notMem_of_mem (by simp) (by simp) ht (by simp)
  constructor
  · intro hc
    by_contra! hno
    have hpos : 0 < g.calls.length := List.length_pos_of_ne_nil hno.2
    have hfirst := hc.returned 0 hpos
    rw [hi.returned _ (List.getElem_mem hpos), decide_eq_true (by omega)] at hfirst
    cases hfirst
  · rintro (rfl | hnil)
    · refine ⟨fun i hlt => ?_, hwaiting, hblocked⟩
      rw [hi.returned _ (List.getElem_mem hlt)]
      rfl
    · refine ⟨fun i hlt => ?_, ?_, hblocked⟩
      · simp [hnil] at hlt
      · rw [hwaiting, hnil, List.drop_nil]

/-- The first task boots, makes a semaphore with the given count and waits for it. -/
theorem waitOnce_reach (n : ℕ) : ∃ g : WaitRun Bool Unit Unit,
    (waitMachine false true () n).Reach g ∧ g.calls = [(true, false)] := by
  have hinit : (waitMachine false true () (n : ℤ)).init
      ⟨{ (SemRun.booted false true 0 : SemRun Bool Unit Unit).run with
        sched := semInit () n (SemRun.booted false true 0).run.sched }, []⟩ :=
    ⟨_, SemRun.booted_reach false true 0, rfl, rfl, rfl⟩
  have hcurr : some true ≠ some false := by simp
  have hfirst : (SchedOp.wait () : SchedOp Bool Unit Unit) ≠ .notify () := by simp
  exact ⟨_, .step (a := .wait ()) (.init hinit) ⟨hcurr, hfirst⟩ rfl, rfl⟩

/-- The first call blocks, which is right for the count zero and wrong for one. -/
theorem sem_init_count_iff_waitOnce :
    (∃ g : WaitRun Bool Unit Unit, g.calls = [(true, false)] ∧ CountedFrom () 0 g) ∧
      ∃ g : WaitRun Bool Unit Unit, g.calls = [(true, false)] ∧ ¬ CountedFrom () 1 g := by
  obtain ⟨g, hg, hcalls⟩ := waitOnce_reach 0
  obtain ⟨g', hg', hcalls'⟩ := waitOnce_reach 1
  refine ⟨⟨g, hcalls, (sem_init_count_iff (by decide) hg).mpr (.inl rfl)⟩, g', hcalls', fun h => ?_⟩
  rcases (sem_init_count_iff (by decide) hg').mp h with hone | hnil
  · cases hone
  · rw [hcalls'] at hnil
    cases hnil

/-- A semaphore made with one unit blocks its first caller. -/
theorem sem_init_loses_count : ¬ ∀ (n : ℕ) (g : WaitRun Bool Unit Unit),
    (waitMachine false true () n).Reach g → CountedFrom () n g := by
  intro h
  obtain ⟨g, hg, hcalls⟩ := waitOnce_reach 1
  have hfirst := (h 1 g hg).returned 0 (by simp [hcalls])
  simp [hcalls] at hfirst

end X86Os
