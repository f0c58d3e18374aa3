import X86Os.SchedRefine

/-!
# The scheduler operations one by one

For every operation two facts: on a represented state whose current task is the one the ready queue
asks for, the operation of the source completes and is represented by its abstract counterpart; and
the abstract operation keeps every started task on exactly one queue.
-/

set_option linter.unusedSectionVars false

namespace X86Os

open LinkedChain

variable {T M S : Type} [DecidableEq T] [DecidableEq M] [DecidableEq S]
variable {idle : T} {started : List T} {s : Sched T M S} {q : Queues T M S}

theorem ne_taskList_of_runNode {l : ListId M S} (hk : l.kind = .runNode) : l ≠ .taskList := by
  rintro rfl
  cases hk

theorem ne_taskList_of_waitNode {l : ListId M S} (hk : l.kind = .waitNode) : l ≠ .taskList := by
  rintro rfl
  cases hk

namespace Placed

theorem notMem_of_mem {f : ListId M S → List T} (hp : Placed idle started f) {l l' : ListId M S}
    {t : T} (hl : l ≠ .taskList) (hl' : l' ≠ .taskList) (ht : t ∈ f l) (hne : l' ≠ l) : t ∉ f l' :=
  fun hm => hne (hp.unique t l' l hl' hl hm ht)

/-- Taking a task off `l` and putting it at the end of `l'` may be done in either order. -/
theorem move_comm (f : ListId M S → List T) {l l' : ListId M S} (hne : l' ≠ l) (t : T) :
    Function.update (Function.update f l' (f l' ++ [t])) l ((f l).erase t) = move f l l' t := by
  unfold move
  dsimp only
  rw [Function.update_comm hne, Function.update_of_ne hne]

theorem requeue (hp : Placed idle started q.queue) {t : T}
    (ht : t ≠ idle → t ∈ q.queue .readyList) :
    Placed idle started ((q.setBlock idle t).setReady idle t).queue := by
  by_cases hi : t = idle
  · simpa only [Queues.setReady, Queues.setBlock, if_pos hi] using hp
  · rw [Queues.setReady_queue _ hi, Queues.setBlock_queue _ hi]
    have hr : ListId.readyList ≠ (ListId.taskList : ListId M S) := by simp
    exact hp.move_placed hr hr (ht hi)

end Placed

theorem Represents.requeue (hr : Represents s q) (hp : Placed idle started q.queue) {t : T}
    (ht : t ≠ idle → t ∈ q.queue .readyList) :
    Represents (taskSetReady idle t (taskSetBlock idle t s))
      ((q.setBlock idle t).setReady idle t) := by
  apply (hr.setBlock ht).setReady
  intro hi l hk
  rw [Queues.setBlock_queue _ hi]
  exact hp.notMem_erase (by simp) (ne_taskList_of_runNode hk) (ht hi)

theorem curr_mem_of_ne (hc : q.curr = q.nextRun idle) (hi : q.curr ≠ idle) :
    q.curr ∈ q.queue .readyList := by
  obtain ⟨ts, hts⟩ := Queues.curr_mem_ready hc hi
  rw [hts]
  exact List.mem_cons_self

/-! ## `sys_yield` -/

theorem Represents.yield (hr : Represents s q) (hp : Placed idle started q.queue)
    (hc : q.curr = q.nextRun idle) :
    ∃ s', sysYield idle s = some s' ∧ Represents s' (q.yield idle) := by
  unfold sysYield Queues.yield
  rw [hr.count_eq, hr.curr]
  by_cases hlen : 1 < (q.queue .readyList).length
  · rw [if_pos hlen, if_pos (by exact_mod_cast hlen)]
    exact ⟨_, rfl, (hr.requeue hp (curr_mem_of_ne hc)).dispatch⟩
  · rw [if_neg hlen, if_neg (by exact_mod_cast hlen)]
    exact ⟨s, rfl, hr⟩

theorem Placed.yield (hp : Placed idle started q.queue) (hc : q.curr = q.nextRun idle) :
    Placed idle started (q.yield idle).queue := by
  unfold Queues.yield
  split_ifs
  · rw [Queues.dispatch_queue]
    exact hp.requeue (curr_mem_of_ne hc)
  · exact hp

theorem Queues.yield_curr (hc : q.curr = q.nextRun idle) :
    (q.yield idle).curr = (q.yield idle).nextRun idle := by
  unfold Queues.yield
  split_ifs
  · exact Queues.dispatch_nextRun _
  · exact hc

/-! ## `task_time_tick` -/

theorem Represents.sliceTick (hr : Represents s q) (hp : Placed idle started q.queue)
    (hc : q.curr = q.nextRun idle) :
    Represents (taskSliceTick idle q.curr s) (q.sliceTick idle) := by
  simp only [taskSliceTick, Queues.sliceTick, hr.task]
  split_ifs
  · exact ((hr.setTask _ _).setTask _ _).requeue hp (curr_mem_of_ne hc)
  · exact hr.setTask _ _

theorem Placed.sliceTick (hp : Placed idle started q.queue) (hc : q.curr = q.nextRun idle) :
    Placed idle started (q.sliceTick idle).queue := by
  simp only [Queues.sliceTick]
  split_ifs
  · exact Placed.requeue (q := (q.setTask _ _).setTask _ _) hp (curr_mem_of_ne hc)
  · exact hp

theorem Queues.sliceTick_curr : (q.sliceTick idle).curr = q.curr := by
  simp only [Queues.sliceTick]
  split_ifs
  · rw [Queues.setReady_curr, Queues.setBlock_curr]
    rfl
  · rfl

theorem Queues.wakeOne_queue {t : T} (hi : t ≠ idle) : (q.wakeOne idle t).queue =
    if (q.task t).sleepTicks - 1 = 0 then Placed.move q.queue .sleepList .readyList t
    else q.queue := by
  simp only [Queues.wakeOne]
  split_ifs
  · rw [Queues.setReady_queue _ hi]
    rfl
  · rfl

theorem Placed.wakeOne (hp : Placed idle started q.queue) {t : T} (ht : t ∈ q.queue .sleepList) :
    Placed idle started (q.wakeOne idle t).queue := by
  rw [Queues.wakeOne_queue (hp.ne_idle (by simp) ht)]
  split_ifs
  · exact hp.move_placed (by simp) (by simp) ht
  · exact hp

/-- One sleeping task is looked at. -/
theorem Queues.wakeOne_lists (hp : Placed idle started q.queue) {kept ts : List T} {t : T}
    (hq : q.queue .sleepList = kept ++ t :: ts) :
    ((q.task t).sleepTicks - 1 = 0 →
      (q.wakeOne idle t).queue .sleepList = kept ++ ts ∧
        (q.wakeOne idle t).queue .readyList = q.queue .readyList ++ [t]) ∧
      ((q.task t).sleepTicks - 1 ≠ 0 →
        (q.wakeOne idle t).queue .sleepList = (kept ++ [t]) ++ ts ∧
          (q.wakeOne idle t).queue .readyList = q.queue .readyList) := by
  have ht : t ∈ q.queue .sleepList := by simp [hq]
  have hk : t ∉ kept := by
    have hnodup := hp.nodup .sleepList
    rw [hq, List.nodup_append] at hnodup
    exact fun hm => hnodup.2.2 t hm t List.mem_cons_self rfl
  rw [Queues.wakeOne_queue (hp.ne_idle (by simp) ht)]
  refine ⟨fun hz => ?_, fun hz => ?_⟩
  · rw [if_pos hz]
    simp [Placed.move, hq, List.erase_append_right _ hk]
  · rw [if_neg hz]
    simp [hq]

/-- The sleepers that remain to be visited are still asleep after one was looked at. -/
theorem Queues.wakeOne_sleepList (hp : Placed idle started q.queue) {kept ts : List T} {t : T}
    (hq : q.queue .sleepList = kept ++ t :: ts) :
    ∃ kept', (q.wakeOne idle t).queue .sleepList = kept' ++ ts := by
  obtain ⟨hdue, hlater⟩ := Queues.wakeOne_lists hp hq
  by_cases hz : (q.task t).sleepTicks - 1 = 0
  · exact ⟨kept, (hdue hz).1⟩
  · exact ⟨kept ++ [t], (hlater hz).1⟩

theorem Represents.wakeOne (hr : Represents s q) (hp : Placed idle started q.queue) {t : T}
    (ht : t ∈ q.queue .sleepList) :
    Represents
      (let c := s.task t
       let s := s.setTask t { c with sleepTicks := c.sleepTicks - 1 }
       if c.sleepTicks - 1 = 0 then taskSetReady idle t (taskSetWakeup t s) else s)
      (q.wakeOne idle t) := by
  simp only [Queues.wakeOne, hr.task]
  split_ifs
  · apply Represents.setReady ((hr.setTask t _).remove (l := .sleepList) ht)
    intro _ l hk
    exact hp.notMem_erase (l := .sleepList) (by simp) (ne_taskList_of_runNode hk) ht
  · exact hr.setTask _ _

theorem Queues.wakeOne_curr (t : T) : (q.wakeOne idle t).curr = q.curr := by
  simp only [Queues.wakeOne]
  split_ifs
  · rw [Queues.setReady_curr]
    rfl
  · rfl

/-- The walk over the sleeping tasks ends, although it relinks the list while it follows it. -/
theorem Represents.wakeLoop (ts : List T) {s : Sched T M S} {q : Queues T M S} {kept : List T}
    (hr : Represents s q) (hp : Placed idle started q.queue)
    (hq : q.queue .sleepList = kept ++ ts) :
    ∃ s', taskWakeLoop idle ts.length (ts.head?.map fun t => ⟨t, .runNode⟩) s = some s' ∧
      Represents s' (q.wake idle ts) ∧ Placed idle started (q.wake idle ts).queue := by
  induction ts generalizing s q kept with
  | nil => exact ⟨s, rfl, hr, hp⟩
  | cons t ts ih =>
      have ht : t ∈ q.queue .sleepList := by simp [hq]
      have hnext : listNodeNext s.nodes ⟨t, .runNode⟩ =
          ts.head?.map fun t => (⟨t, .runNode⟩ : TaskNode T) := by
        have hl := (hr.lists .sleepList).chain
        rw [hq, List.map_append, List.map_cons] at hl
        simpa [listNodeNext, ListId.kind, List.head?_map] using hl.next_eq
      obtain ⟨kept', hkept⟩ := Queues.wakeOne_sleepList hp hq
      obtain ⟨s', hs, hr', hp'⟩ := ih (hr.wakeOne hp ht) (hp.wakeOne ht) hkept
      refine ⟨s', ?_, hr', hp'⟩
      rw [← hs, List.head?_cons, Option.map_some, List.length_cons, taskWakeLoop, hnext]

theorem Queues.wake_curr (ts : List T) : (q.wake idle ts).curr = q.curr := by
  induction ts generalizing q with
  | nil => rfl
  | cons t ts ih => rw [Queues.wake, ih, Queues.wakeOne_curr]

theorem Represents.tick (hr : Represents s q) (hp : Placed idle started q.queue)
    (hc : q.curr = q.nextRun idle) :
    ∃ s', taskTimeTick idle s = some s' ∧ Represents s' (q.tick idle) ∧
      Placed idle started (q.tick idle).queue := by
  have hr' := hr.sliceTick hp hc
  obtain ⟨s', hs, hr'', hp''⟩ := hr'.wakeLoop
    ((q.sliceTick idle).queue .sleepList) (hp.sliceTick hc) (List.nil_append _).symm
  refine ⟨taskDispatch idle s', ?_, hr''.dispatch, ?_⟩
  · have hcount := hr'.count_eq .sleepList
    rw [listCount] at hcount
    simp only [taskTimeTick, hr.curr, Option.bind_some]
    rw [hr'.first_eq, hcount, Int.toNat_natCast, show (ListId.sleepList : ListId M S).kind =
      .runNode from rfl, hs, Option.map_some]
  · rw [Queues.tick, Queues.dispatch_queue]
    exact hp''

theorem Queues.tick_curr : (q.tick idle).curr = (q.tick idle).nextRun idle :=
  Queues.dispatch_nextRun _

/-! ## `sys_msleep` -/

theorem Represents.msleep (hr : Represents s q) (hp : Placed idle started q.queue)
    (hc : q.curr = q.nextRun idle) (hi : q.curr ≠ idle) (ms : ℕ) :
    ∃ s', sysMsleep idle ms s = some s' ∧ Represents s' (q.msleep idle ms) := by
  have hmem := curr_mem_of_ne hc hi
  simp only [sysMsleep, Queues.msleep, hr.curr, Option.map_some]
  refine ⟨_, rfl, ((hr.setBlock fun _ => hmem).setSleep ?_).dispatch⟩
  intro l hk
  rw [Queues.setBlock_queue _ hi]
  exact hp.notMem_erase (by simp) (ne_taskList_of_runNode hk) hmem

/-- The ticks that `sys_msleep` computes from its argument. -/
def msleepTicks (ms : ℕ) : ℕ :=
  u32 ((if ms < osTickMs then osTickMs else ms) + (osTickMs - 1)) / osTickMs

theorem msleepTicks_pos {ms : ℕ} (h : ms < 2 ^ 32 - 9) : msleepTicks ms ≠ 0 := by
  unfold msleepTicks u32 osTickMs
  split_ifs <;> omega

theorem Queues.msleep_eq (idle : T) (q : Queues T M S) (ms : ℕ) : q.msleep idle ms =
    ((q.setBlock idle q.curr).setSleep q.curr (msleepTicks ms)).dispatch idle := rfl

theorem Placed.msleep (hp : Placed idle started q.queue) (hc : q.curr = q.nextRun idle)
    (hi : q.curr ≠ idle) {ms : ℕ} (h : msleepTicks ms ≠ 0) :
    Placed idle started (q.msleep idle ms).queue := by
  simp only [Queues.msleep_eq, Queues.dispatch_queue, Queues.setSleep, if_neg h,
    Queues.push_queue, Queues.setTask_queue, Queues.setBlock_queue _ hi]
  exact hp.move_placed (by simp) (by simp) (curr_mem_of_ne hc hi)

/-- With no ticks to sleep the current task is on no list any more. -/
theorem Placed.msleep_lost (hp : Placed idle started q.queue) (hc : q.curr = q.nextRun idle)
    (hi : q.curr ≠ idle) {ms : ℕ} (h : msleepTicks ms = 0) :
    Placed idle (started.filter fun u => u ≠ q.curr) (q.msleep idle ms).queue := by
  simp only [Queues.msleep_eq, Queues.dispatch_queue, Queues.setSleep, if_pos h,
    Queues.setBlock_queue _ hi]
  exact hp.erase_placed (by simp) (curr_mem_of_ne hc hi)

/-! ## `mutex_lock` and `mutex_unlock` -/

theorem Represents.lock (hr : Represents s q) (hp : Placed idle started q.queue)
    (hc : q.curr = q.nextRun idle) (hi : q.curr ≠ idle) (m : M) :
    ∃ s', mutexLock idle m s = some s' ∧ Represents s' (q.lock idle m) := by
  have hmem := curr_mem_of_ne hc hi
  simp only [mutexLock, Queues.lock, hr.mutex, hr.curr, ne_eq, reduceCtorEq, not_false_eq_true,
    and_true, Option.map_some]
  split_ifs
  · exact ⟨_, rfl, hr.setMutex _ _⟩
  · exact ⟨_, rfl, hr.setMutex _ _⟩
  · refine ⟨_, rfl, ((hr.insertLast (l := .mutexWaitList m) ?_).setBlock fun _ => ?_).dispatch⟩
    · intro l hk
      exact hp.notMem_of_mem (by simp) (ne_taskList_of_waitNode hk) hmem
        (by rintro rfl; cases hk)
    · simpa using hmem

theorem Placed.lock (hp : Placed idle started q.queue) (hc : q.curr = q.nextRun idle)
    (hi : q.curr ≠ idle) (m : M) : Placed idle started (q.lock idle m).queue := by
  simp only [Queues.lock]
  split_ifs
  · exact hp
  · exact hp
  · rw [Queues.dispatch_queue, Queues.setBlock_queue _ hi, Queues.push_queue,
      Function.update_of_ne (by simp), Placed.move_comm _ (by simp)]
    exact hp.move_placed (by simp) (by simp) (curr_mem_of_ne hc hi)

theorem Queues.lock_curr (hc : q.curr = q.nextRun idle) (m : M) :
    (q.lock idle m).curr = (q.lock idle m).nextRun idle := by
  simp only [Queues.lock]
  split_ifs
  · exact hc
  · exact hc
  · exact Queues.dispatch_nextRun _

theorem Represents.unlock (hr : Represents s q) (hp : Placed idle started q.queue) (m : M) :
    ∃ s', mutexUnlock idle m s = some s' ∧ Represents s' (q.unlock idle m) := by
  have hr' : Represents
      ((s.setMutex m { q.mutex m with lockedCount := i32 ((q.mutex m).lockedCount - 1) }).setMutex m
        { owner := none, lockedCount := 0 }) (q.setMutex m { owner := none, lockedCount := 0 }) := by
    have := (hr.setMutex m { q.mutex m with lockedCount := i32 ((q.mutex m).lockedCount - 1) }).setMutex
      m { owner := none, lockedCount := 0 }
    simpa only [Queues.setMutex, Function.update_idem] using this
  simp only [mutexUnlock, Queues.unlock, hr.mutex, hr.curr]
  split_ifs with ho hz hw
  · cases hq : q.queue (.mutexWaitList m) with
    | nil => exact absurd (by rw [hr'.count_eq]; simp [hq]) hw
    | cons t ts =>
        obtain ⟨hfirst, hrem⟩ := hr'.removeFirst (l := .mutexWaitList m) hq
        rw [hfirst]
        refine ⟨_, rfl, (Represents.setReady ?_ ?_).dispatch⟩
        · have := hrem.setMutex m { owner := some t, lockedCount := 1 }
          simpa only [Queues.setMutex, Queues.drop, Function.update_idem] using this
        · intro _ l hk
          exact hp.notMem_erase (l := .mutexWaitList m) (by simp) (ne_taskList_of_runNode hk)
            (by simp [hq])
  · cases hq : q.queue (.mutexWaitList m) with
    | nil => exact ⟨_, rfl, hr'⟩
    | cons t ts =>
        rw [hr'.count_eq] at hw
        simp only [Queues.setMutex_queue, hq, List.length_cons, ne_eq, Nat.cast_eq_zero,
          Nat.succ_ne_zero, not_false_eq_true, not_true_eq_false] at hw
  · exact ⟨_, rfl, hr.setMutex _ _⟩
  · exact ⟨_, rfl, hr⟩

theorem Placed.unlock (hp : Placed idle started q.queue) (m : M) :
    Placed idle started (q.unlock idle m).queue := by
  simp only [Queues.unlock]
  split_ifs
  · cases hq : q.queue (.mutexWaitList m) with
    | nil => exact hp
    | cons t ts =>
        have ht : t ∈ q.queue (.mutexWaitList m) := by simp [hq]
        dsimp only
        rw [Queues.dispatch_queue, Queues.setReady_queue _ (hp.ne_idle (by simp) ht),
          Queues.setMutex_queue, Queues.drop_queue]
        exact hp.move_placed (by simp) (by simp) ht
  · exact hp
  · exact hp

theorem Queues.unlock_curr (hc : q.curr = q.nextRun idle) (m : M) :
    (q.unlock idle m).curr = (q.unlock idle m).nextRun idle := by
  simp only [Queues.unlock]
  split_ifs
  · split
    · exact hc
    · exact Queues.dispatch_nextRun _
  · exact hc
  · exact hc

/-! ## `sem_wait` and `sem_notify` -/

theorem Represents.wait (hr : Represents s q) (hp : Placed idle started q.queue)
    (hc : q.curr = q.nextRun idle) (hi : q.curr ≠ idle) (x : S) :
    ∃ s', semWait idle x s = some s' ∧ Represents s' (q.wait idle x) := by
  have hmem := curr_mem_of_ne hc hi
  simp only [semWait, Queues.wait, hr.sem, hr.curr, Option.map_some]
  split_ifs
  · exact ⟨_, rfl, hr.setSem _ _⟩
  · refine ⟨_, rfl, ((hr.setBlock fun _ => hmem).insertLast (l := .semWaitList x) ?_).dispatch⟩
    intro l hk
    rw [Queues.setBlock_queue _ hi]
    exact hp.notMem_erase (by simp) (ne_taskList_of_waitNode hk) hmem

theorem Placed.wait (hp : Placed idle started q.queue) (hc : q.curr = q.nextRun idle)
    (hi : q.curr ≠ idle) (x : S) : Placed idle started (q.wait idle x).queue := by
  simp only [Queues.wait]
  split_ifs
  · exact hp
  · rw [Queues.dispatch_queue, Queues.push_queue, Queues.setBlock_queue _ hi]
    exact hp.move_placed (by simp) (by simp) (curr_mem_of_ne hc hi)

theorem Queues.wait_curr (hc : q.curr = q.nextRun idle) (x : S) :
    (q.wait idle x).curr = (q.wait idle x).nextRun idle := by
  simp only [Queues.wait]
  split_ifs
  · exact hc
  · exact Queues.dispatch_nextRun _

theorem Represents.notify (hr : Represents s q) (hp : Placed idle started q.queue) (x : S) :
    ∃ s', semNotify idle x s = some s' ∧ Represents s' (q.notify idle x) := by
  simp only [semNotify, Queues.notify, hr.sem, hr.count_eq]
  cases hq : q.queue (.semWaitList x) with
  | nil => exact ⟨_, rfl, hr.setSem _ _⟩
  | cons t ts =>
      obtain ⟨hfirst, hrem⟩ := hr.removeFirst hq
      rw [if_pos (by exact_mod_cast Nat.succ_ne_zero ts.length), hfirst]
      refine ⟨_, rfl, (hrem.setReady ?_).dispatch⟩
      intro _ l hk
      exact hp.notMem_erase (l := .semWaitList x) (by simp) (ne_taskList_of_runNode hk)
        (by simp [hq])

theorem Placed.notify (hp : Placed idle started q.queue) (x : S) :
    Placed idle started (q.notify idle x).queue := by
  simp only [Queues.notify]
  cases hq : q.queue (.semWaitList x) with
  | nil => exact hp
  | cons t ts =>
      have ht : t ∈ q.queue (.semWaitList x) := by simp [hq]
      dsimp only
      rw [Queues.dispatch_queue, Queues.setReady_queue _ (hp.ne_idle (by simp) ht),
        Queues.drop_queue]
      exact hp.move_placed (by simp) (by simp) ht

theorem Queues.notify_curr (hc : q.curr = q.nextRun idle) (x : S) :
    (q.notify idle x).curr = (q.notify idle x).nextRun idle := by
  simp only [Queues.notify]
  split
  · exact hc
  · exact Queues.dispatch_nextRun _

end X86Os
