import X86Os.SchedRun

/-!
# The semaphore protocol

For one semaphore `x` a run of the scheduler is observed together with counters that the source does
not keep: the calls of `sem_wait` that were issued and those that were granted, the calls of
`sem_notify`, and the tasks whose call of `sem_wait` is not over, in call order. A call is granted as
soon as its task is runnable. A notification either increments the counter or goes straight to the
task that waited longest, and none is lost.
-/

set_option linter.unusedSectionVars false

namespace X86Os

variable {T M S : Type} [DecidableEq T] [DecidableEq M] [DecidableEq S]

structure SemRun (T M S : Type) where
  run : SchedRun T M S
  pending : List T
  issued : ℕ
  granted : ℕ
  notified : ℕ

namespace SemRun

/-- The observation after the operation `op` led to `r`. -/
def next (x : S) (g : SemRun T M S) (op : SchedOp T M S) (r : SchedRun T M S) : SemRun T M S :=
  let called := if op = .wait x then g.run.sched.currTask.toList else []
  let waiting := g.pending ++ called
  { run := r
    pending := waiting.filter fun t => t ∉ r.sched.tasksOn .readyList
    issued := g.issued + called.length
    granted := g.granted + (waiting.filter fun t => t ∈ r.sched.tasksOn .readyList).length
    notified := if op = .notify x then g.notified + 1 else g.notified }

end SemRun

/-- The scheduler observed at the semaphore `x`, from any state in which nobody waits for it and
its count is `c`. -/
def semMachine (idle first : T) (x : S) (c : ℕ) : Machine (SemRun T M S) (SchedOp T M S) where
  init g := (schedMachine idle first).Reach g.run ∧
    g.run.sched.tasksOn (.semWaitList x) = [] ∧ (g.run.sched.sem x).count = c ∧ c < 2 ^ 31 ∧
    g.pending = [] ∧ g.issued = 0 ∧ g.granted = 0 ∧ g.notified = 0
  enabled g op := op.enabled idle g.run
  step g op := ((schedMachine idle first).step g.run op).map fun r => g.next x op r

/-- No call of `sem_notify` finds the largest value of the `int`. -/
def BoundedCount (x : S) (g : SemRun T M S) (op : SchedOp T M S) : Prop :=
  op = .notify x → (g.run.sched.sem x).count < 2 ^ 31 - 1

namespace Queues

variable {idle : T} {q : Queues T M S}

theorem setReady_sem (t : T) : (q.setReady idle t).sem = q.sem := by
  unfold setReady
  split_ifs <;> rfl

theorem setBlock_sem (t : T) : (q.setBlock idle t).sem = q.sem := by
  unfold setBlock
  split_ifs <;> rfl

theorem dispatch_sem : (q.dispatch idle).sem = q.sem := by
  unfold dispatch
  dsimp only
  split_ifs <;> rfl

theorem setSleep_sem (t : T) (ticks : ℕ) : (q.setSleep t ticks).sem = q.sem := by
  unfold setSleep
  split_ifs <;> rfl

theorem wake_sem (ts : List T) : (q.wake idle ts).sem = q.sem := by
  induction ts generalizing q with
  | nil => rfl
  | cons t ts ih =>
      rw [wake, ih]
      simp only [wakeOne]
      split_ifs
      · rw [setReady_sem]
        rfl
      · rfl

theorem sliceTick_sem : (q.sliceTick idle).sem = q.sem := by
  simp only [sliceTick]
  split_ifs
  · rw [setReady_sem, setBlock_sem]
    rfl
  · rfl

/-- Only `sem_wait` and `sem_notify` change a semaphore. -/
theorem queues_sem {op : SchedOp T M S} {x : S} (hw : op ≠ .wait x) (hn : op ≠ .notify x) :
    (op.queues idle q).sem x = q.sem x := by
  cases op with
  | init t => rfl
  | start t => exact congrFun (setReady_sem t) x
  | yield =>
      simp only [SchedOp.queues, yield]
      split_ifs
      · rw [dispatch_sem, setReady_sem, setBlock_sem]
      · rfl
  | msleep ms =>
      simp only [SchedOp.queues, msleep]
      rw [dispatch_sem, setSleep_sem, setBlock_sem]
  | lock m =>
      simp only [SchedOp.queues, lock]
      split_ifs
      · rfl
      · rfl
      · rw [dispatch_sem, setBlock_sem]
        rfl
  | unlock m =>
      simp only [SchedOp.queues, unlock]
      split_ifs
      · split
        · rfl
        · rw [dispatch_sem, setReady_sem]
          rfl
      · rfl
      · rfl
  | wait y =>
      have hne : x ≠ y := fun he => hw (he ▸ rfl)
      simp only [SchedOp.queues, wait]
      split_ifs
      · exact Function.update_of_ne hne _ _
      · rw [dispatch_sem]
        exact congrFun (setBlock_sem _) x
  | notify y =>
      have hne : x ≠ y := fun he => hn (he ▸ rfl)
      simp only [SchedOp.queues, notify]
      split
      · exact Function.update_of_ne hne _ _
      · rw [dispatch_sem, setReady_sem]
        rfl
  | tick =>
      simp only [SchedOp.queues, tick, dispatch_sem, wake_sem, sliceTick_sem]

variable (idle) in
/-- A call of `sem_wait` that finds no unit appends its task to those that wait. -/
theorem wait_blocked {x : S} (h : ¬ (q.sem x).count > 0) :
    (q.wait idle x).queue (.semWaitList x) = q.queue (.semWaitList x) ++ [q.curr] ∧
      (q.wait idle x).sem = q.sem := by
  have hwait : q.wait idle x =
      ((q.setBlock idle q.curr).push (.semWaitList x) q.curr).dispatch idle := by
    simp only [wait, if_neg h]
  constructor
  · rw [hwait, dispatch_queue, push_queue, Function.update_self, setBlock_frame (by simp)]
  · rw [hwait, dispatch_sem]
    exact setBlock_sem _

end Queues

/-- The counter of the semaphore and its waiting tasks agree with what was observed. -/
structure SemInv (idle : T) (x : S) (c : ℕ) (q : Queues T M S) (g : SemRun T M S) : Prop where
  tracks : Tracks idle g.run q
  pending : q.queue (.semWaitList x) = g.pending
  issued : g.issued = g.granted + g.pending.length
  count : (q.sem x).count + g.granted = c + g.notified
  nonneg : 0 ≤ (q.sem x).count
  bound : (q.sem x).count < 2 ^ 31
  empty : 0 < (q.sem x).count → g.pending = []

/-- Waiting tasks stay where they are while the ready queue changes around them. -/
theorem Tracks.filter_waiting {idle : T} {r : SchedRun T M S} {q : Queues T M S}
    (ht : Tracks idle r q) {l : ListId M S} (hl : l ≠ .taskList) (hr : l ≠ .readyList) (ts : List T)
    (hts : ∀ t ∈ ts, t ∈ q.queue l) :
    (ts.filter fun t => t ∈ r.sched.tasksOn .readyList) = [] ∧
      (ts.filter fun t => t ∉ r.sched.tasksOn .readyList) = ts := by
  have hno : ∀ t ∈ ts, t ∉ r.sched.tasksOn .readyList := by
    intro t hm
    rw [ht.rep.tasksOn_eq]
    exact ht.placed.notMem_of_mem hl (by simp) (hts t hm) hr.symm
  refine ⟨List.filter_eq_nil_iff.mpr ?_, List.filter_eq_self.mpr ?_⟩
  · intro t hm
    simpa using hno t hm
  · intro t hm
    simpa using hno t hm

namespace SemInv

variable {idle : T} {x : S} {c : ℕ} {q : Queues T M S} {g : SemRun T M S} {r' : SchedRun T M S}
  {op : SchedOp T M S}

/-- Nothing is observed when no waiting task becomes ready and no call is issued. -/
theorem next_kept (hop : op ≠ .wait x) {q' : Queues T M S} (ht : Tracks idle r' q')
    (hq : q'.queue (.semWaitList x) = g.pending) :
    (g.next x op r').pending = g.pending ∧ (g.next x op r').issued = g.issued ∧
      (g.next x op r').granted = g.granted := by
  obtain ⟨hnil, hsame⟩ := ht.filter_waiting (l := .semWaitList x) (by simp) (by simp) g.pending
    fun t h => hq ▸ h
  simp only [SemRun.next, if_neg hop, List.append_nil, hnil, hsame]
  exact ⟨trivial, rfl, rfl⟩

/-- Operations that are neither a wait nor a notification leave the protocol alone. -/
theorem other (hi : SemInv idle x c q g) (ht : Tracks idle r' (op.queues idle q))
    (hw : op ≠ .wait x) (hn : op ≠ .notify x) :
    SemInv idle x c (op.queues idle q) (g.next x op r') := by
  have hq : (op.queues idle q).queue (.semWaitList x) = g.pending :=
    (Queues.queues_frame (by
      cases op <;> simp_all [SchedOp.touches, eq_comm])).trans hi.pending
  have hx : (op.queues idle q).sem x = q.sem x := Queues.queues_sem hw hn
  obtain ⟨hp, hissued, hgranted⟩ := next_kept hw ht hq
  have hnot : (g.next x op r').notified = g.notified := if_neg hn
  exact ⟨ht, hq.trans hp.symm, by rw [hp, hissued, hgranted]; exact hi.issued,
    by rw [hx, hgranted, hnot]; exact hi.count, hx ▸ hi.nonneg, hx ▸ hi.bound,
    by rw [hx, hp]; exact hi.empty⟩

theorem wait (hi : SemInv idle x c q g) (hidle : q.curr ≠ idle)
    (ht : Tracks idle r' (q.wait idle x)) :
    SemInv idle x c (q.wait idle x) (g.next x (.wait x) r') := by
  have hcurr : g.run.sched.currTask.toList = [q.curr] := by rw [hi.tracks.rep.curr]; rfl
  have hnot : (g.next x (.wait x) r').notified = g.notified := by simp [SemRun.next]
  have hissued : (g.next x (.wait x) r').issued = g.issued + 1 := by
    simp [SemRun.next, hcurr]
  have hbound := hi.bound
  have hnonneg := hi.nonneg
  have hcount := hi.count
  by_cases hpos : (q.sem x).count > 0
  · have hwait : q.wait idle x = q.setSem x { count := i32 ((q.sem x).count - 1) } := by
      simp only [Queues.wait, if_pos hpos]
    have hnil := hi.empty hpos
    have hmem : q.curr ∈ r'.sched.tasksOn .readyList := by
      rw [ht.rep.tasksOn_eq, hwait]
      exact curr_mem_of_ne hi.tracks.curr hidle
    have hp : (g.next x (.wait x) r').pending = [] := by
      simp [SemRun.next, hcurr, hnil, hmem]
    have hg : (g.next x (.wait x) r').granted = g.granted + 1 := by
      simp [SemRun.next, hcurr, hnil, hmem]
    have hdec : ((q.wait idle x).sem x).count = (q.sem x).count - 1 := by
      rw [hwait]
      simp only [Queues.setSem, Function.update_self]
      exact i32_of_bounds (by omega) (by omega)
    have hold := hi.issued
    rw [hnil] at hold
    refine ⟨ht, ?_, ?_, ?_, by omega, by omega, fun _ => hp⟩
    · rw [hp, hwait, Queues.setSem_queue, hi.pending, hnil]
    · rw [hp, hissued, hg, hold]
      rfl
    · rw [hdec, hg, hnot]
      push_cast
      omega
  · obtain ⟨hqueue, hsem⟩ := Queues.wait_blocked idle hpos
    have hq : (q.wait idle x).queue (.semWaitList x) = g.pending ++ [q.curr] := by
      rw [hqueue, hi.pending]
    have hx : (q.wait idle x).sem x = q.sem x := congrFun hsem x
    obtain ⟨hnil, hsame⟩ := ht.filter_waiting (l := .semWaitList x) (by simp) (by simp)
      (g.pending ++ [q.curr]) fun t h => hq ▸ h
    have hp : (g.next x (.wait x) r').pending = g.pending ++ [q.curr] := by
      simp only [SemRun.next, if_true, hcurr, hsame]
    have hg : (g.next x (.wait x) r').granted = g.granted := by
      simp only [SemRun.next, if_true, hcurr, hnil, List.length_nil, Nat.add_zero]
    refine ⟨ht, hq.trans hp.symm, ?_, by rw [hx, hg, hnot]; exact hcount, hx ▸ hnonneg, hx ▸ hbound,
      fun h => absurd (hx ▸ h) hpos⟩
    rw [hp, hissued, hg, hi.issued, List.length_append, List.length_singleton]
    omega

/-- A notification that finds nobody is counted. -/
theorem notify_counted (hi : SemInv idle x c q g) (hw : g.pending = [])
    (hb : (q.sem x).count < 2 ^ 31 - 1) (ht : Tracks idle r' (q.notify idle x)) :
    SemInv idle x c (q.notify idle x) (g.next x (.notify x) r') := by
  have hnotify : q.notify idle x = q.setSem x { count := i32 ((q.sem x).count + 1) } := by
    simp only [Queues.notify, hi.pending, hw]
  have hq : (q.notify idle x).queue (.semWaitList x) = g.pending := by
    rw [hnotify, Queues.setSem_queue, hi.pending]
  have hop : SchedOp.notify x ≠ (.wait x : SchedOp T M S) := by simp
  obtain ⟨hp, hissued, hgranted⟩ := next_kept hop ht hq
  have hnot : (g.next x (.notify x) r').notified = g.notified + 1 := if_pos rfl
  have hnonneg := hi.nonneg
  have hinc : ((q.notify idle x).sem x).count = (q.sem x).count + 1 := by
    rw [hnotify]
    simp only [Queues.setSem, Function.update_self]
    exact i32_of_bounds (by omega) (by omega)
  have hcount := hi.count
  refine ⟨ht, hq.trans hp.symm, by rw [hp, hissued, hgranted]; exact hi.issued, ?_, by omega,
    by omega, fun _ => hp.trans hw⟩
  rw [hinc, hgranted, hnot]
  push_cast
  omega

/-- A notification goes to the task that waited longest. -/
theorem notify_handed (hi : SemInv idle x c q g) {t : T} {ts : List T} (hw : g.pending = t :: ts)
    (ht : Tracks idle r' (q.notify idle x)) :
    SemInv idle x c (q.notify idle x) (g.next x (.notify x) r') ∧
      (g.next x (.notify x) r').pending = ts ∧
      (g.next x (.notify x) r').granted = g.granted + 1 ∧
      (q.notify idle x).queue .readyList = q.queue .readyList ++ [t] := by
  have hqt : q.queue (.semWaitList x) = t :: ts := hi.pending.trans hw
  have hnotify : q.notify idle x = ((q.drop (.semWaitList x) t).setReady idle t).dispatch idle := by
    simp only [Queues.notify, hqt]
  have hidle : t ≠ idle := hi.tracks.placed.ne_idle (l := .semWaitList x) (by simp) (by simp [hqt])
  have hqueue : (q.notify idle x).queue (.semWaitList x) = ts := by
    rw [hnotify, Queues.dispatch_queue, Queues.setReady_queue _ hidle]
    simp [hqt]
  have hready : (q.notify idle x).queue .readyList = q.queue .readyList ++ [t] := by
    rw [hnotify, Queues.dispatch_queue, Queues.setReady_queue _ hidle]
    simp
  have hx : (q.notify idle x).sem x = q.sem x := by
    rw [hnotify, Queues.dispatch_sem, Queues.setReady_sem]
    rfl
  obtain ⟨hnil, hsame⟩ := ht.filter_waiting (l := .semWaitList x) (by simp) (by simp) ts
    fun u h => hqueue ▸ h
  have hmem : t ∈ r'.sched.tasksOn .readyList := by
    rw [ht.rep.tasksOn_eq, hready]
    simp
  have hp : (g.next x (.notify x) r').pending = ts := by
    simpa [SemRun.next, hw, hmem] using hsame
  have hg : (g.next x (.notify x) r').granted = g.granted + 1 := by
    simp only [SemRun.next, reduceCtorEq, if_false, List.append_nil, hw, List.filter_cons, hmem,
      decide_true, if_true, hnil, List.length_singleton]
  have hissued : (g.next x (.notify x) r').issued = g.issued := by
    simp [SemRun.next]
  have hnot : (g.next x (.notify x) r').notified = g.notified + 1 := if_pos rfl
  have hzero : ¬ 0 < (q.sem x).count := fun h => by
    rw [hi.empty h] at hw
    cases hw
  have hold := hi.issued
  have hcount := hi.count
  rw [hw, List.length_cons] at hold
  refine ⟨⟨ht, hqueue.trans hp.symm, ?_, ?_, hx ▸ hi.nonneg, hx ▸ hi.bound,
    fun h => absurd (hx ▸ h) hzero⟩, hp, hg, hready⟩
  · rw [hp, hg, hissued, hold]
    omega
  · rw [hx, hg, hnot]
    push_cast
    omega

theorem step (hi : SemInv idle x c q g) (he : op.enabled idle g.run) (hb : BoundedCount x g op)
    (ht : Tracks idle r' (op.queues idle q)) :
    SemInv idle x c (op.queues idle q) (g.next x op r') := by
  by_cases hw : op = .wait x
  · subst op
    exact hi.wait (hi.tracks.curr_ne_idle he) ht
  · by_cases hn : op = .notify x
    · subst op
      cases hp : g.pending with
      | nil =>
          have hlt := hb rfl
          rw [hi.tracks.rep.sem] at hlt
          exact hi.notify_counted hp hlt ht
      | cons t ts => exact (hi.notify_handed hp ht).1
    · exact hi.other ht hw hn

theorem start {first : T} (hne : first ≠ idle) (hg : (semMachine idle first x c).init g) :
    ∃ q, SemInv idle x c q g := by
  obtain ⟨hreach, hwait, hcount, hc, hpending, hissued, hgranted, hnotified⟩ := hg
  obtain ⟨q, ht⟩ := tracks_of_reach hne hreach
  rw [ht.rep.tasksOn_eq] at hwait
  have hx : (q.sem x).count = c := by rw [← ht.rep.sem, hcount]
  refine ⟨q, ht, hwait.trans hpending.symm, ?_, ?_, by omega, by omega, fun _ => hpending⟩
  · rw [hissued, hgranted, hpending]
    rfl
  · rw [hx, hgranted, hnotified]

end SemInv

theorem semMachine_step {idle : T} (first : T) (x : S) (c : ℕ) {q : Queues T M S}
    {g : SemRun T M S} (ht : Tracks idle g.run q) {op : SchedOp T M S}
    (he : op.enabled idle g.run) :
    ∃ r', (semMachine idle first x c).step g op = some (g.next x op r') ∧
      Tracks idle r' (op.queues idle q) := by
  obtain ⟨s', hs, ht'⟩ := ht.step he
  exact ⟨op.record g.run s', by simp [semMachine, schedMachine, hs], ht'⟩

theorem semInv_of_reach {idle first : T} (hne : first ≠ idle) {x : S} {c : ℕ} {g : SemRun T M S}
    (h : ((semMachine idle first x c).restrict (BoundedCount x)).Reach g) :
    ∃ q, SemInv idle x c q g := by
  apply h.invariant (I := fun g : SemRun T M S => ∃ q, SemInv idle x c q g)
  · exact fun g hg => SemInv.start hne hg
  · rintro g op g' ⟨q, hi⟩ ⟨he, hb⟩ hs
    obtain ⟨r', hs', ht⟩ := semMachine_step first x c hi.tracks he
    have hg : g.next x op r' = g' := by simpa [hs', Machine.restrict] using hs
    exact ⟨_, hg ▸ hi.step he hb ht⟩

/-- Conservation of the semaphore's units in one state of an observed run. -/
structure SemProtocol (idle first : T) (x : S) (c : ℕ) (g : SemRun T M S) : Prop where
  granted : g.granted = min g.issued (c + g.notified)
  count : (g.run.sched.sem x).count = (c + g.notified : ℕ) - (g.granted : ℤ)
  positive : 0 < (g.run.sched.sem x).count → g.run.sched.tasksOn (.semWaitList x) = []
  waiting : g.run.sched.tasksOn (.semWaitList x) = g.pending
  once : g.pending.Nodup
  blocked : ∀ t ∈ g.pending, t ∉ g.run.sched.tasksOn .readyList
  issued : g.issued = g.granted + g.pending.length
  handed : g.run.sched.currTask ≠ some idle → ∀ t ts, g.pending = t :: ts →
    ∃ g', (semMachine idle first x c).step g (.notify x) = some g' ∧ g'.pending = ts ∧
      g'.granted = g.granted + 1 ∧
      g'.run.sched.tasksOn .readyList = g.run.sched.tasksOn .readyList ++ [t] ∧
      (g.run.sched.tasksOn .readyList ++ [t]).Nodup

theorem SemInv.protocol {idle first : T} {x : S} {c : ℕ} {q : Queues T M S} {g : SemRun T M S}
    (hi : SemInv idle x c q g) : SemProtocol idle first x c g := by
  have hx : g.run.sched.sem x = q.sem x := by rw [hi.tracks.rep.sem]
  have hcount := hi.count
  have hissued := hi.issued
  have hnonneg := hi.nonneg
  have hwaiting : g.run.sched.tasksOn (.semWaitList x) = g.pending :=
    (hi.tracks.rep.tasksOn_eq _).trans hi.pending
  refine ⟨?_, ?_, fun hpos => ?_, hwaiting, ?_, fun t ht => ?_, hissued, fun hc t ts hw => ?_⟩
  · by_cases hpos : 0 < (q.sem x).count
    · rw [hi.empty hpos, List.length_nil] at hissued
      omega
    · omega
  · rw [hx]
    push_cast
    omega
  · rw [hx] at hpos
    exact hwaiting.trans (hi.empty hpos)
  · rw [← hi.pending]
    exact hi.tracks.placed.nodup _
  · rw [hi.tracks.rep.tasksOn_eq]
    exact hi.tracks.placed.notMem_of_mem (l := .semWaitList x) (by simp) (by simp)
      (hi.pending ▸ ht) (by simp)
  · have he : (SchedOp.notify x).enabled idle g.run := hc
    obtain ⟨r', hs, ht⟩ := semMachine_step first x c hi.tracks he
    obtain ⟨-, hp, hg, hready⟩ := hi.notify_handed hw ht
    have hold : g.run.sched.tasksOn .readyList = q.queue .readyList :=
      hi.tracks.rep.tasksOn_eq _
    have hnew : r'.sched.tasksOn .readyList = q.queue .readyList ++ [t] :=
      (ht.rep.tasksOn_eq _).trans hready
    refine ⟨_, hs, hp, hg, hnew.trans (by rw [hold]), ?_⟩
    rw [hold, ← hready]
    exact ht.placed.nodup _

/-- While no notification finds the largest count of an `int`, every reachable state conserves the
units of the semaphore. -/
theorem sem_protocol {idle first : T} (hne : first ≠ idle) {x : S} {c : ℕ} {g : SemRun T M S}
    (h : ((semMachine idle first x c).restrict (BoundedCount x)).Reach g) :
    SemProtocol idle first x c g := by
  obtain ⟨q, hi⟩ := semInv_of_reach hne h
  exact hi.protocol

/-- After booting with all semaphores at the count `c`. -/
def SemRun.booted (idle first : T) (c : ℕ) : SemRun T M S where
  run := { sched := schedBoot idle first { Sched.zeroed with sem := fun _ => { count := c } },
           initialised := [first, idle], started := [first] }
  pending := []
  issued := 0
  granted := 0
  notified := 0

theorem SemRun.booted_reach (idle first : T) (c : ℕ) :
    (schedMachine idle first).Reach (SemRun.booted idle first c : SemRun T M S).run :=
  .init ⟨_, ⟨fun _ => ⟨rfl, rfl⟩, fun _ => rfl⟩, rfl⟩

/-- The first task waits, and the second one may hand it a unit. -/
theorem sem_protocol_waiter : ∃ g : SemRun (Fin 3) Unit Unit,
    g.pending = [1] ∧ g.run.sched.currTask = some 2 ∧ SemProtocol 0 1 () 0 g := by
  have hne : (1 : Fin 3) ≠ 0 := by decide
  refine ⟨_, rfl, rfl, sem_protocol hne
    (.step (a := .wait ()) (.step (a := .start 2) (.step (a := .init 2)
      (.init ⟨SemRun.booted_reach 0 1 0, rfl, rfl, by omega, rfl, rfl, rfl, rfl⟩)
        ⟨⟨by decide, by decide⟩, nofun⟩ rfl)
          ⟨⟨by decide, by decide, by decide, by decide⟩, nofun⟩ rfl)
            ⟨show _ ≠ _ by decide, nofun⟩ rfl)⟩

/-- A notification that finds the count at `2 ^ 31 - 1` makes it negative, and the next call of
`sem_wait` blocks. -/
theorem sem_protocol_counterexample : ∃ g : SemRun Bool Unit Unit,
    (semMachine false true () (2 ^ 31 - 1)).Reach g ∧ g.issued = 1 ∧ g.notified = 1 ∧
      g.granted = 0 ∧ ¬ SemProtocol false true () (2 ^ 31 - 1) g := by
  refine ⟨_, .step (a := .wait ()) (.step (a := .notify ())
    (.init ⟨SemRun.booted_reach false true _, rfl, rfl, by omega, rfl, rfl, rfl, rfl⟩)
      (show _ ≠ _ by decide) rfl) (show _ ≠ _ by decide) rfl, rfl, rfl, rfl, fun hprotocol => ?_⟩
  have hgranted : 0 = min 1 (2 ^ 31 - 1 + 1) := hprotocol.granted
  omega

end X86Os
