import X86Os.SchedRun

/-!
# The mutex protocol

For one mutex `m` a run of the scheduler is observed together with two counters that the source does
not keep: `pending`, the tasks whose call of `mutex_lock` is not over, in call order, and `depth`, for
every task the number of its calls that are over and not yet matched by `mutex_unlock`. Both are read
off the runs of tasks only: a call is over as soon as its task is runnable, and a call of
`mutex_unlock` matches one call that is over, if there is one. What follows relates them to the fields
of `mutex_t`.
-/

set_option linter.unusedSectionVars false

namespace X86Os

variable {T M S : Type} [DecidableEq T] [DecidableEq M] [DecidableEq S]

structure MutexRun (T M S : Type) where
  run : SchedRun T M S
  pending : List T
  depth : T → ℕ

namespace MutexRun

/-- The observation after the operation `op` led to `r`. -/
def next (m : M) (g : MutexRun T M S) (op : SchedOp T M S) (r : SchedRun T M S) :
    MutexRun T M S :=
  let curr := g.run.sched.currTask
  let called := if op = .lock m then g.pending ++ curr.toList else g.pending
  let ended := called.filter fun t => t ∈ r.sched.tasksOn .readyList
  { run := r
    pending := called.filter fun t => t ∉ r.sched.tasksOn .readyList
    depth := fun t =>
      (if op = .unlock m ∧ curr = some t then g.depth t - 1 else g.depth t) + ended.count t }

end MutexRun

/-- The scheduler observed at the mutex `m`. -/
def mutexMachine (idle first : T) (m : M) : Machine (MutexRun T M S) (SchedOp T M S) where
  init g := (schedMachine idle first).init g.run ∧ g.pending = [] ∧ ∀ t, g.depth t = 0
  enabled g op := op.enabled idle g.run
  step g op := ((schedMachine idle first).step g.run op).map fun r => g.next m op r

/-- No call of `mutex_lock` nests deeper than its `int` can count. -/
def BoundedNesting (m : M) (g : MutexRun T M S) (op : SchedOp T M S) : Prop :=
  op = .lock m → ∀ t, g.run.sched.currTask = some t → g.depth t < 2 ^ 31 - 1

/-- The fields of the mutex and its waiting tasks agree with what was observed. -/
structure MutexInv (idle : T) (m : M) (q : Queues T M S) (g : MutexRun T M S) : Prop where
  tracks : Tracks idle g.run q
  pending : q.queue (.mutexWaitList m) = g.pending
  free : (q.mutex m).owner = none →
    (q.mutex m).lockedCount = 0 ∧ g.pending = [] ∧ ∀ t, g.depth t = 0
  held : ∀ o, (q.mutex m).owner = some o →
    (q.mutex m).lockedCount = g.depth o ∧ 0 < g.depth o ∧ g.depth o < 2 ^ 31 ∧
      ∀ t, t ≠ o → g.depth t = 0

namespace MutexInv

variable {idle : T} {m : M} {q : Queues T M S} {g : MutexRun T M S}

theorem boot {first : T} (hne : first ≠ idle) (hg : (mutexMachine idle first m).init g) :
    ∃ q, MutexInv idle m q g := by
  obtain ⟨⟨s, hs, hrun⟩, hpending, hdepth⟩ := hg
  obtain ⟨q, ht⟩ := tracks_boot hne hs
  have hsched : (schedBoot idle first s).mutex m = s.mutex m := by
    simp only [schedBoot, taskFirstInit, taskManagerInit, taskStart, taskSetReady, if_true,
      if_neg hne]
    rfl
  have hm : q.mutex m = { owner := none, lockedCount := 0 } := by
    rw [← ht.rep.mutex]
    exact hsched.trans (hs.1 m).1
  have hq : q.queue (.mutexWaitList m) = [] := by
    have hl : (schedBoot idle first s).list (.mutexWaitList m) = s.list (.mutexWaitList m) := by
      simp only [schedBoot, taskFirstInit, taskManagerInit, taskStart, taskSetReady, if_true,
        if_neg hne]
      rfl
    have hc := ht.rep.count_eq (.mutexWaitList m)
    rw [show listCount (((schedBoot idle first s)).list (.mutexWaitList m)) = 0 by
      rw [hl, (hs.1 m).2]; rfl] at hc
    exact List.eq_nil_of_length_eq_zero (by exact_mod_cast hc.symm)
  refine ⟨q, hrun ▸ ht, hq.trans hpending.symm, fun _ => ⟨by rw [hm], hpending, hdepth⟩, ?_⟩
  intro o ho
  rw [hm] at ho
  cases ho

theorem pending_notMem_ready (hi : MutexInv idle m q g) {t : T} (ht : t ∈ g.pending) :
    t ∉ q.queue .readyList :=
  hi.tracks.placed.notMem_of_mem (l := .mutexWaitList m) (by simp) (by simp)
    (hi.pending ▸ ht) (by simp)

/-- Waiting tasks stay where they are while the ready queue changes around them. -/
theorem filter_pending {r' : SchedRun T M S} {q' : Queues T M S} (ht : Tracks idle r' q')
    (ts : List T) (hts : ∀ t ∈ ts, t ∈ q'.queue (.mutexWaitList m)) :
    (ts.filter fun t => t ∈ r'.sched.tasksOn .readyList) = [] ∧
      (ts.filter fun t => t ∉ r'.sched.tasksOn .readyList) = ts := by
  have hno : ∀ t ∈ ts, t ∉ r'.sched.tasksOn .readyList := by
    intro t hm
    rw [ht.rep.tasksOn_eq]
    exact ht.placed.notMem_of_mem (l := .mutexWaitList m) (by simp) (by simp) (hts t hm) (by simp)
  refine ⟨List.filter_eq_nil_iff.mpr ?_, List.filter_eq_self.mpr ?_⟩
  · intro t hm
    simpa using hno t hm
  · intro t hm
    simpa using hno t hm

/-- Operations that are neither a lock nor an unlock of `m` leave its protocol alone. -/
theorem other (hi : MutexInv idle m q g) {op : SchedOp T M S} {r' : SchedRun T M S}
    (ht : Tracks idle r' (op.queues idle q)) (hl : op ≠ .lock m) (hu : op ≠ .unlock m) :
    MutexInv idle m (op.queues idle q) (g.next m op r') := by
  have hq : (op.queues idle q).queue (.mutexWaitList m) = g.pending :=
    (Queues.queues_frame (by
      cases op <;> simp_all [SchedOp.touches, eq_comm])).trans hi.pending
  have hm : (op.queues idle q).mutex m = q.mutex m := Queues.queues_mutex hl hu
  obtain ⟨hnil, hsame⟩ := filter_pending (m := m) ht g.pending fun t h => hq ▸ h
  have hpend : (g.next m op r').pending = g.pending := by
    simp only [MutexRun.next, if_neg hl, hsame]
  have hdepth : (g.next m op r').depth = g.depth := by
    funext t
    simp only [MutexRun.next, if_neg hl, hnil, hu, false_and, if_false, List.count_nil, add_zero]
  exact ⟨ht, hq.trans hpend.symm, by rw [hm, hpend, hdepth]; exact hi.free,
    by rw [hm, hdepth]; exact hi.held⟩

/-- A task that runs is not waiting for the mutex. -/
theorem curr_notMem_pending (hi : MutexInv idle m q g) (hc : q.curr ≠ idle) :
    q.curr ∉ g.pending := fun hm =>
  hi.pending_notMem_ready hm (curr_mem_of_ne hi.tracks.curr hc)

/-- The call of the current task is over at once when the ready queue did not change. -/
theorem next_lock_granted (hi : MutexInv idle m q g) (hc : q.curr ≠ idle) {r' : SchedRun T M S}
    {q' : Queues T M S} (ht : Tracks idle r' q') (hq : q'.queue = q.queue) :
    (g.next m (.lock m) r').pending = g.pending ∧
      (g.next m (.lock m) r').depth =
        fun t => g.depth t + if t = q.curr then 1 else 0 := by
  have hr : r'.sched.tasksOn .readyList = q.queue .readyList := by
    rw [ht.rep.tasksOn_eq, hq]
  have hcurr : g.run.sched.currTask.toList = [q.curr] := by rw [hi.tracks.rep.curr]; rfl
  have hmem := curr_mem_of_ne hi.tracks.curr hc
  obtain ⟨hnil, hsame⟩ := filter_pending (m := m) ht g.pending fun t h => by
    rw [hq, hi.pending]
    exact h
  rw [hr] at hnil hsame
  constructor
  · simp only [MutexRun.next, if_true, hcurr, hr, List.filter_append, hsame]
    simp [hmem]
  · funext t
    simp only [MutexRun.next, if_true, hcurr, hr, List.filter_append, hnil]
    by_cases he : t = q.curr
    · subst t
      simp [hmem]
    · simp [hmem, he, Ne.symm he]

theorem lock (hi : MutexInv idle m q g) (hc : q.curr ≠ idle) {r' : SchedRun T M S}
    (ht : Tracks idle r' (q.lock idle m)) (hb : BoundedNesting m g (.lock m)) :
    MutexInv idle m (q.lock idle m) (g.next m (.lock m) r') := by
  have hnot := hi.curr_notMem_pending hc
  by_cases hz : (q.mutex m).lockedCount = 0
  · have hlock : q.lock idle m = q.setMutex m { owner := some q.curr, lockedCount := 1 } := by
      simp only [Queues.lock, if_pos hz]
    obtain ⟨hp, hd⟩ := hi.next_lock_granted hc ht (by rw [hlock]; rfl)
    have hfree : (q.mutex m).owner = none := by
      cases ho : (q.mutex m).owner with
      | none => rfl
      | some o =>
          have := hi.held o ho
          omega
    obtain ⟨-, hpend, hdepth⟩ := hi.free hfree
    refine ⟨ht, by rw [hlock, hp]; exact hi.pending, ?_, ?_⟩
    · intro ho
      simp [hlock, Queues.setMutex] at ho
    · intro o ho
      obtain rfl : q.curr = o := by simpa [hlock, Queues.setMutex] using ho
      rw [hd]
      refine ⟨by simp [hlock, Queues.setMutex, hdepth], by simp, by simp [hdepth], ?_⟩
      intro t hne
      simp [hdepth, hne]
  · by_cases ho : (q.mutex m).owner = some q.curr
    · have hlock : q.lock idle m = q.setMutex m
          { q.mutex m with lockedCount := i32 ((q.mutex m).lockedCount + 1) } := by
        simp only [Queues.lock, if_neg hz, if_pos ho]
      obtain ⟨hp, hd⟩ := hi.next_lock_granted hc ht (by rw [hlock]; rfl)
      obtain ⟨hcount, hpos, -, hothers⟩ := hi.held _ ho
      have hlt := hb rfl q.curr hi.tracks.rep.curr
      refine ⟨ht, by rw [hlock, hp]; exact hi.pending, ?_, ?_⟩
      · intro hno
        simp [hlock, Queues.setMutex, ho] at hno
      · intro o ho'
        obtain rfl : q.curr = o := by simpa [hlock, Queues.setMutex, ho] using ho'
        rw [hd]
        refine ⟨?_, by simp, by simp; omega, ?_⟩
        · simp only [hlock, Queues.setMutex, Function.update_self, hcount, if_true]
          rw [i32_of_bounds (by omega) (by omega), Nat.cast_add, Nat.cast_one]
        · intro t hne
          simp [hothers t hne, hne]
    · have hlock : q.lock idle m =
          ((q.push (.mutexWaitList m) q.curr).setBlock idle q.curr).dispatch idle := by
        simp only [Queues.lock, if_neg hz, if_neg ho]
      have hq : (q.lock idle m).queue (.mutexWaitList m) = g.pending ++ [q.curr] := by
        rw [hlock, Queues.dispatch_queue, Queues.setBlock_frame (by simp)]
        simp [hi.pending]
      have hm : (q.lock idle m).mutex m = q.mutex m := by
        rw [hlock, Queues.dispatch_mutex, Queues.setBlock_mutex]
        rfl
      have hcurr : g.run.sched.currTask.toList = [q.curr] := by rw [hi.tracks.rep.curr]; rfl
      obtain ⟨hnil, hsame⟩ := filter_pending (m := m) ht (g.pending ++ [q.curr])
        fun t h => hq ▸ h
      have hp : (g.next m (.lock m) r').pending = g.pending ++ [q.curr] := by
        simp only [MutexRun.next, if_true, hcurr, hsame]
      have hd : (g.next m (.lock m) r').depth = g.depth := by
        funext t
        simp [MutexRun.next, hcurr, hnil]
      refine ⟨ht, hq.trans hp.symm, ?_, by rw [hm, hd]; exact hi.held⟩
      intro hno
      rw [hm] at hno
      exact absurd (hi.free hno).1 hz

/-- What a step adds when nobody leaves the queue of waiting tasks. -/
theorem next_unlock_kept (hi : MutexInv idle m q g) {r' : SchedRun T M S} {q' : Queues T M S}
    (ht : Tracks idle r' q') (hq : q'.queue (.mutexWaitList m) = g.pending) :
    (g.next m (.unlock m) r').pending = g.pending ∧
      (g.next m (.unlock m) r').depth =
        fun t => if t = q.curr then g.depth t - 1 else g.depth t := by
  obtain ⟨hnil, hsame⟩ := filter_pending (m := m) ht g.pending fun t h => hq ▸ h
  constructor
  · simpa [MutexRun.next] using hsame
  · funext t
    by_cases he : t = q.curr
    · subst t
      simp [MutexRun.next, hnil, hi.tracks.rep.curr]
    · simp [MutexRun.next, hnil, hi.tracks.rep.curr, he, Ne.symm he]

theorem depth_curr_of_foreign (hi : MutexInv idle m q g) {t : T}
    (ho : (q.mutex m).owner ≠ some t) : g.depth t = 0 := by
  cases hcase : (q.mutex m).owner with
  | none => exact (hi.free hcase).2.2 t
  | some o =>
      apply (hi.held o hcase).2.2.2
      rintro rfl
      exact ho hcase

/-- An unlock by a task that does not own the mutex. -/
theorem unlock_foreign (hi : MutexInv idle m q g) (ho : (q.mutex m).owner ≠ some q.curr)
    {r' : SchedRun T M S} (ht : Tracks idle r' q) :
    (g.next m (.unlock m) r').pending = g.pending ∧ (g.next m (.unlock m) r').depth = g.depth := by
  obtain ⟨hp, hd⟩ := hi.next_unlock_kept ht hi.pending
  have hzero := hi.depth_curr_of_foreign ho
  refine ⟨hp, hd.trans ?_⟩
  funext t
  by_cases he : t = q.curr
  · simp [he, hzero]
  · simp [he]

/-- An unlock that leaves its owner with the mutex. -/
theorem unlock_inner (hi : MutexInv idle m q g) (ho : (q.mutex m).owner = some q.curr)
    (hn : g.depth q.curr ≠ 1) {r' : SchedRun T M S} (ht : Tracks idle r' (q.unlock idle m)) :
    MutexInv idle m (q.unlock idle m) (g.next m (.unlock m) r') := by
  obtain ⟨hcount, hpos, hlt, hothers⟩ := hi.held _ ho
  have hdec : i32 ((q.mutex m).lockedCount - 1) = ((g.depth q.curr - 1 : ℕ) : ℤ) := by
    rw [hcount, i32_of_bounds (by omega) (by omega)]
    omega
  have hne : i32 ((q.mutex m).lockedCount - 1) ≠ 0 := by
    rw [hdec]
    omega
  have hunlock : q.unlock idle m = q.setMutex m
      { q.mutex m with lockedCount := i32 ((q.mutex m).lockedCount - 1) } := by
    simp only [Queues.unlock, if_pos ho, if_neg hne]
  obtain ⟨hp, hd⟩ := hi.next_unlock_kept ht (by rw [hunlock]; exact hi.pending)
  refine ⟨ht, by rw [hunlock, hp]; exact hi.pending, ?_, ?_⟩
  · intro hno
    simp [hunlock, Queues.setMutex, ho] at hno
  · intro o ho'
    obtain rfl : q.curr = o := by simpa [hunlock, Queues.setMutex, ho] using ho'
    rw [hd]
    refine ⟨by simp [hunlock, Queues.setMutex, hdec], by simp; omega, by simp; omega, ?_⟩
    intro t hne
    simp [hothers t hne, hne]

/-- The outermost unlock when nobody waits. -/
theorem unlock_last (hi : MutexInv idle m q g) (ho : (q.mutex m).owner = some q.curr)
    (h1 : g.depth q.curr = 1) (hw : g.pending = []) {r' : SchedRun T M S}
    (ht : Tracks idle r' (q.unlock idle m)) :
    MutexInv idle m (q.unlock idle m) (g.next m (.unlock m) r') := by
  obtain ⟨hcount, -, -, hothers⟩ := hi.held _ ho
  have hdec : i32 ((q.mutex m).lockedCount - 1) = 0 := by
    rw [hcount, h1]
    decide
  have hunlock : q.unlock idle m = q.setMutex m { owner := none, lockedCount := 0 } := by
    simp only [Queues.unlock, if_pos ho, if_pos hdec, hi.pending, hw]
  obtain ⟨hp, hd⟩ := hi.next_unlock_kept ht (by rw [hunlock]; exact hi.pending)
  refine ⟨ht, by rw [hunlock, hp]; exact hi.pending, fun _ => ⟨?_, hp.trans hw, ?_⟩, ?_⟩
  · simp [hunlock, Queues.setMutex]
  · intro t
    rw [hd]
    by_cases he : t = q.curr
    · simp [he, h1]
    · simp [he, hothers t he]
  · intro o ho'
    simp [hunlock, Queues.setMutex] at ho'

/-- The outermost unlock hands the mutex to the task that waited longest. -/
theorem unlock_handover (hi : MutexInv idle m q g) (ho : (q.mutex m).owner = some q.curr)
    (h1 : g.depth q.curr = 1) {t : T} {ts : List T} (hw : g.pending = t :: ts)
    {r' : SchedRun T M S} (ht : Tracks idle r' (q.unlock idle m)) :
    MutexInv idle m (q.unlock idle m) (g.next m (.unlock m) r') ∧
      (q.unlock idle m).mutex m = { owner := some t, lockedCount := 1 } ∧
      (g.next m (.unlock m) r').pending = ts ∧ (g.next m (.unlock m) r').depth t = 1 := by
  obtain ⟨hcount, -, -, hothers⟩ := hi.held _ ho
  have hdec : i32 ((q.mutex m).lockedCount - 1) = 0 := by
    rw [hcount, h1]
    decide
  have hqt : q.queue (.mutexWaitList m) = t :: ts := hi.pending.trans hw
  have hunlock : q.unlock idle m =
      (((q.drop (.mutexWaitList m) t).setMutex m { owner := some t, lockedCount := 1 }).setReady
        idle t).dispatch idle := by
    simp only [Queues.unlock, if_pos ho, if_pos hdec, hqt]
  have hidle : t ≠ idle := hi.tracks.placed.ne_idle (l := .mutexWaitList m) (by simp) (by simp [hqt])
  have hnodup := hi.tracks.placed.nodup (.mutexWaitList m)
  rw [hqt] at hnodup
  have hmutex : (q.unlock idle m).mutex m = { owner := some t, lockedCount := 1 } := by
    rw [hunlock, Queues.dispatch_mutex, Queues.setReady_mutex]
    simp [Queues.setMutex]
  have hqueue : (q.unlock idle m).queue (.mutexWaitList m) = ts := by
    rw [hunlock, Queues.dispatch_queue, Queues.setReady_queue _ hidle]
    simp [hqt]
  have hready : t ∈ (q.unlock idle m).queue .readyList := by
    rw [hunlock, Queues.dispatch_queue, Queues.setReady_queue _ hidle]
    simp
  have hcurr : t ≠ q.curr := by
    rintro rfl
    have hmem : q.curr ∈ g.pending := by simp [hw]
    exact hi.curr_notMem_pending hidle hmem
  obtain ⟨hnil, hsame⟩ := filter_pending (m := m) ht ts fun u h => hqueue ▸ h
  rw [← ht.rep.tasksOn_eq] at hready
  have hp : (g.next m (.unlock m) r').pending = ts := by
    simpa [MutexRun.next, hw, hready] using hsame
  have hd : (g.next m (.unlock m) r').depth = fun u => if u = t then 1 else 0 := by
    funext u
    simp only [MutexRun.next, hw, reduceCtorEq, if_false, List.filter_cons, hready, decide_true,
      if_true, hnil, hi.tracks.rep.curr, Option.some.injEq, true_and]
    by_cases hut : u = t
    · subst u
      simp [hothers t hcurr, Ne.symm hcurr]
    · by_cases huc : u = q.curr
      · subst u
        simp [h1, Ne.symm hcurr, hcurr]
      · simp [hut, Ne.symm hut, Ne.symm huc, hothers u huc]
  refine ⟨⟨ht, hqueue.trans hp.symm, ?_, ?_⟩, hmutex, hp, by rw [hd]; simp⟩
  · intro hno
    rw [hmutex] at hno
    cases hno
  · intro o ho'
    rw [hmutex] at ho'
    obtain rfl : t = o := by simpa using ho'
    rw [hmutex, hd]
    refine ⟨by simp, by simp, by simp, ?_⟩
    intro u hu
    simp [hu]

theorem unlock (hi : MutexInv idle m q g) {r' : SchedRun T M S}
    (ht : Tracks idle r' (q.unlock idle m)) :
    MutexInv idle m (q.unlock idle m) (g.next m (.unlock m) r') := by
  by_cases ho : (q.mutex m).owner = some q.curr
  · by_cases h1 : g.depth q.curr = 1
    · cases hw : g.pending with
      | nil => exact hi.unlock_last ho h1 hw ht
      | cons t ts => exact (hi.unlock_handover ho h1 hw ht).1
    · exact hi.unlock_inner ho h1 ht
  · have hq : q.unlock idle m = q := by simp only [Queues.unlock, if_neg ho]
    rw [hq] at ht ⊢
    obtain ⟨hp, hd⟩ := hi.unlock_foreign ho ht
    exact ⟨ht, hi.pending.trans hp.symm, by rw [hp, hd]; exact hi.free, by rw [hd]; exact hi.held⟩

end MutexInv

theorem MutexInv.step {idle : T} {m : M} {q : Queues T M S} {g : MutexRun T M S}
    (hi : MutexInv idle m q g) {op : SchedOp T M S} (he : op.enabled idle g.run)
    (hb : BoundedNesting m g op) {r' : SchedRun T M S}
    (ht : Tracks idle r' (op.queues idle q)) :
    MutexInv idle m (op.queues idle q) (g.next m op r') := by
  by_cases hl : op = .lock m
  · subst op
    exact hi.lock (hi.tracks.curr_ne_idle he) ht hb
  · by_cases hu : op = .unlock m
    · subst op
      exact hi.unlock ht
    · exact hi.other ht hl hu

/-- A step of the observed scheduler is a step of the scheduler. -/
theorem mutexMachine_step {idle : T} (first : T) (m : M) {q : Queues T M S} {g : MutexRun T M S}
    (ht : Tracks idle g.run q) {op : SchedOp T M S} (he : op.enabled idle g.run) :
    ∃ r', (mutexMachine idle first m).step g op = some (g.next m op r') ∧
      Tracks idle r' (op.queues idle q) := by
  obtain ⟨s', hs, ht'⟩ := ht.step he
  exact ⟨op.record g.run s', by simp [mutexMachine, schedMachine, hs], ht'⟩

theorem mutexInv_of_reach {idle first : T} (hne : first ≠ idle) {m : M} {g : MutexRun T M S}
    (h : ((mutexMachine idle first m).restrict (BoundedNesting m)).Reach g) :
    ∃ q, MutexInv idle m q g := by
  apply h.invariant (I := fun g : MutexRun T M S => ∃ q, MutexInv idle m q g)
  · exact fun g hg => MutexInv.boot hne hg
  · rintro g op g' ⟨q, hi⟩ ⟨he, hb⟩ hs
    obtain ⟨r', hs', ht⟩ := mutexMachine_step first m hi.tracks he
    have hg : g.next m op r' = g' := by
      simpa [hs', Machine.restrict] using hs
    exact ⟨_, hg ▸ hi.step he hb ht⟩

/-- Nothing has been locked since the scheduler started on cleared variables. -/
def MutexRun.booted (idle first : T) : MutexRun T M S where
  run :=
    { sched := schedBoot idle first Sched.zeroed
      initialised := [first, idle]
      started := [first] }
  pending := []
  depth _ := 0

theorem booted_init (idle first : T) (m : M) :
    (mutexMachine idle first m).init (MutexRun.booted idle first : MutexRun T M S) :=
  ⟨⟨_, Sched.zeroed_free, rfl⟩, rfl, fun _ => rfl⟩

/-- Mutual exclusion with nesting, and no lost waiter, in one state of an observed run. -/
structure MutexProtocol (idle first : T) (m : M) (g : MutexRun T M S) : Prop where
  exclusive : ∀ t u, 0 < g.depth t → 0 < g.depth u → t = u
  owner : ∀ t, 0 < g.depth t ↔ (g.run.sched.mutex m).owner = some t
  count : ∀ t, 0 < g.depth t → (g.run.sched.mutex m).lockedCount = g.depth t
  free : (g.run.sched.mutex m).lockedCount = 0 ↔ (g.run.sched.mutex m).owner = none
  waiting : g.run.sched.tasksOn (.mutexWaitList m) = g.pending
  once : g.pending.Nodup
  blocked : ∀ t ∈ g.pending, t ∉ g.run.sched.tasksOn .readyList
  owned : g.pending ≠ [] → (g.run.sched.mutex m).owner ≠ none
  handover : ∀ o, g.run.sched.currTask = some o → o ≠ idle → g.depth o = 1 →
    ∀ t ts, g.pending = t :: ts → ∃ g', (mutexMachine idle first m).step g (.unlock m) = some g' ∧
      g'.run.sched.mutex m = { owner := some t, lockedCount := 1 } ∧ g'.pending = ts ∧
        g'.depth t = 1
  foreign : (g.run.sched.mutex m).owner ≠ g.run.sched.currTask →
    (mutexMachine idle first m).step g (.unlock m) = some g

theorem MutexInv.protocol {idle first : T} {m : M} {q : Queues T M S} {g : MutexRun T M S}
    (hi : MutexInv idle m q g) : MutexProtocol idle first m g := by
  have hm : g.run.sched.mutex m = q.mutex m := by rw [hi.tracks.rep.mutex]
  have howner : ∀ t, 0 < g.depth t ↔ (q.mutex m).owner = some t := by
    intro t
    constructor
    · intro hpos
      by_contra hne
      rw [hi.depth_curr_of_foreign hne] at hpos
      omega
    · exact fun ho => (hi.held t ho).2.1
  refine ⟨fun t u ht hu => ?_, by rwa [hm], fun t ht => ?_, ?_, ?_, ?_, fun t ht => ?_, ?_, ?_, ?_⟩
  · exact Option.some.inj (((howner t).mp ht).symm.trans ((howner u).mp hu))
  · rw [hm]
    exact (hi.held t ((howner t).mp ht)).1
  · rw [hm]
    constructor
    · intro hz
      cases ho : (q.mutex m).owner with
      | none => rfl
      | some o =>
          obtain ⟨hcount, hpos, -, -⟩ := hi.held o ho
          omega
    · exact fun ho => (hi.free ho).1
  · exact (hi.tracks.rep.tasksOn_eq _).trans hi.pending
  · rw [← hi.pending]
    exact hi.tracks.placed.nodup _
  · rw [hi.tracks.rep.tasksOn_eq]
    exact hi.pending_notMem_ready ht
  · intro hp ho
    rw [hm] at ho
    exact hp (hi.free ho).2.1
  · intro o hc hidle h1 t ts hw
    obtain rfl : q.curr = o := Option.some.inj (hi.tracks.rep.curr.symm.trans hc)
    have henabled : (SchedOp.unlock m).enabled idle g.run := by
      show g.run.sched.currTask ≠ some idle
      rw [hc]
      exact fun he => hidle (Option.some.inj he)
    obtain ⟨r', hs, ht⟩ := mutexMachine_step first m hi.tracks henabled
    obtain ⟨-, hmutex, hp, hd⟩ := hi.unlock_handover ((howner _).mp (by omega)) h1 hw ht
    have hm' : r'.sched.mutex m = (q.unlock idle m).mutex m := by
      rw [ht.rep.mutex]
      rfl
    exact ⟨_, hs, hm'.trans hmutex, hp, hd⟩
  · intro hne
    have hunlock : mutexUnlock idle m g.run.sched = some g.run.sched := by
      simp only [mutexUnlock, if_neg hne]
    have ho : (q.mutex m).owner ≠ some q.curr := by
      rw [hm, hi.tracks.rep.curr] at hne
      exact hne
    obtain ⟨hp, hd⟩ := hi.unlock_foreign ho hi.tracks
    have hsame : g.next m (.unlock m) g.run = g := by
      calc g.next m (.unlock m) g.run
          = { run := g.run, pending := (g.next m (.unlock m) g.run).pending,
              depth := (g.next m (.unlock m) g.run).depth } := rfl
        _ = g := by rw [hp, hd]
    simp only [mutexMachine, schedMachine, SchedOp.exec, hunlock, Option.map_some]
    exact congrArg some hsame

/-- While no task nests its calls deeper than an `int` can count, every reachable state meets the
protocol. -/
theorem mutex_protocol {idle first : T} (hne : first ≠ idle) {m : M} {g : MutexRun T M S}
    (h : ((mutexMachine idle first m).restrict (BoundedNesting m)).Reach g) :
    MutexProtocol idle first m g := by
  obtain ⟨q, hi⟩ := mutexInv_of_reach hne h
  exact hi.protocol

/-- A second task waits for the mutex of the first one. -/
theorem mutex_protocol_waiter : ∃ g : MutexRun (Fin 3) Unit Unit,
    g.pending = [2] ∧ g.run.sched.currTask = some 1 ∧ MutexProtocol 0 1 () g := by
  have hne : (1 : Fin 3) ≠ 0 := by decide
  have hdepth : ∀ {g : MutexRun (Fin 3) Unit Unit} {t : Fin 3}, g.depth t = 0 →
      g.depth t < 2 ^ 31 - 1 := by omega
  refine ⟨_, rfl, rfl, mutex_protocol (S := Unit) hne
    (.step (a := .lock ()) (.step (a := .yield) (.step (a := .lock ()) (.step (a := .start 2)
      (.step (a := .init 2) (.init (booted_init 0 1 ())) ⟨⟨by decide, by decide⟩, nofun⟩ rfl)
        ⟨⟨by decide, by decide, by decide, by decide⟩, nofun⟩ rfl)
          ⟨show _ ≠ _ by decide, fun _ t _ => hdepth rfl⟩ rfl)
            ⟨show _ ≠ _ by decide, nofun⟩ rfl)
              ⟨show _ ≠ _ by decide, fun _ t ht => ?_⟩ rfl)⟩
  obtain rfl : 2 = t := Option.some.inj (show some 2 = some t from ht)
  exact hdepth rfl

/-! ## Nesting without bound -/

theorem schedReach_of_mutexReach {idle first : T} {m : M} {g : MutexRun T M S}
    (h : (mutexMachine idle first m).Reach g) : (schedMachine idle first).Reach g.run := by
  induction h with
  | init h => exact .init h.1
  | @step g g' op _ he hs ih =>
      obtain ⟨r', hr, hg⟩ := Option.map_eq_some_iff.mp hs
      exact .step ih he (hr.trans (by rw [← hg]; rfl))

/-- What repeated calls of `mutex_lock` by `t` alone keep. -/
def NestedBy (t : T) (m : M) (g : MutexRun T M S) : Prop :=
  g.run.sched.currTask = some t ∧ g.pending = [] ∧
    (g.run.sched.mutex m).lockedCount = i32 (g.depth t) ∧
    ((g.run.sched.mutex m).lockedCount = 0 ∨ (g.run.sched.mutex m).owner = some t)

theorem lock_nested {idle first t : T} (hne : first ≠ idle) (ht : t ≠ idle) {m : M}
    {g : MutexRun T M S} (h : (mutexMachine idle first m).Reach g) (hn : NestedBy t m g) :
    ∃ g' : MutexRun T M S, (mutexMachine idle first m).Reach g' ∧ NestedBy t m g' ∧
      g'.depth t = g.depth t + 1 := by
  obtain ⟨hc, hp, hcount, howned⟩ := hn
  obtain ⟨q, htr⟩ := tracks_of_reach hne (schedReach_of_mutexReach h)
  have hqc : q.curr = t := Option.some.inj (htr.rep.curr.symm.trans hc)
  have hmem : t ∈ g.run.sched.tasksOn .readyList := by
    rw [htr.rep.tasksOn_eq, ← hqc]
    exact curr_mem_of_ne htr.curr (hqc ▸ ht)
  let mx : Mutex T := { owner := some t, lockedCount := i32 (g.depth t + 1) }
  let r' : SchedRun T M S := { g.run with sched := g.run.sched.setMutex m mx }
  have hlock : mutexLock idle m g.run.sched = some (g.run.sched.setMutex m mx) := by
    by_cases hz : (g.run.sched.mutex m).lockedCount = 0
    · have h1 : i32 (g.depth t + 1) = 1 := by
        rw [← i32_succ, ← hcount, hz]
        decide
      simp only [mutexLock, if_pos hz, mx, hc, h1]
    · have ho := howned.resolve_left hz
      rw [hcount] at hz
      simp [mutexLock, hz, ho, hc, mx, hcount, i32_succ]
  have hstep : (mutexMachine idle first m).step g (.lock m) = some (g.next m (.lock m) r') := by
    simp [mutexMachine, schedMachine, SchedOp.exec, hlock, SchedOp.record, r']
  have henabled : (SchedOp.lock m).enabled idle g.run := by
    show g.run.sched.currTask ≠ some idle
    rw [hc]
    exact fun he => ht (Option.some.inj he)
  have hready : r'.sched.tasksOn .readyList = g.run.sched.tasksOn .readyList := rfl
  have hdepth : (g.next m (.lock m) r').depth t = g.depth t + 1 := by
    simp [MutexRun.next, hp, hc, hready, hmem]
  have hmutex : (g.next m (.lock m) r').run.sched.mutex m = mx := by
    simp [MutexRun.next, r', Sched.setMutex]
  refine ⟨_, .step (a := .lock m) h henabled hstep, ⟨hc, ?_, ?_, ?_⟩, hdepth⟩
  · simp [MutexRun.next, hp, hc, hready, hmem]
  · rw [hmutex, hdepth, Nat.cast_succ]
  · rw [hmutex]
    exact .inr rfl

theorem nested_locks {idle first t : T} (hne : first ≠ idle) (ht : t ≠ idle) {m : M}
    {g : MutexRun T M S} (h : (mutexMachine idle first m).Reach g) (hn : NestedBy t m g) (n : ℕ) :
    ∃ g' : MutexRun T M S, (mutexMachine idle first m).Reach g' ∧ NestedBy t m g' ∧
      g'.depth t = g.depth t + n := by
  induction n with
  | zero => exact ⟨g, h, hn, rfl⟩
  | succ n ih =>
      obtain ⟨g', h', hn', hd'⟩ := ih
      obtain ⟨g'', h'', hn'', hd''⟩ := lock_nested hne ht h' hn'
      exact ⟨g'', h'', hn'', by rw [hd'', hd']; rfl⟩

/-- After `2 ^ 31` nested calls `locked_count` is negative. -/
theorem mutex_protocol_counterexample :
    ∃ g : MutexRun Bool Unit Unit, (mutexMachine false true ()).Reach g ∧ g.depth true = 2 ^ 31 ∧
      (g.run.sched.mutex ()).lockedCount = -2 ^ 31 ∧ ¬ MutexProtocol false true () g := by
  have hbooted : NestedBy true () (MutexRun.booted false true : MutexRun Bool Unit Unit) :=
    ⟨rfl, rfl, by decide, .inl rfl⟩
  obtain ⟨g, hreach, ⟨-, -, hcount, -⟩, hd⟩ := nested_locks (by decide) (by decide)
    (.init (booted_init false true ())) hbooted (2 ^ 31)
  have hdepth : g.depth true = 2 ^ 31 := by
    rw [hd]
    simp [MutexRun.booted]
  have hwrap : (g.run.sched.mutex ()).lockedCount = -2 ^ 31 := by
    rw [hcount, hdepth]
    decide
  refine ⟨g, hreach, hdepth, hwrap, fun hprotocol => ?_⟩
  have hc := hprotocol.count true (by omega)
  rw [hwrap, hdepth] at hc
  omega

end X86Os
