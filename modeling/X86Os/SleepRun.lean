import Mathlib.Algebra.Order.Floor.Div
import X86Os.SchedFairness

/-!
# Sleeping tasks

The scheduler as user programs see it: `sys_msleep` takes every 32-bit argument, for nothing between
the call gate and the handler looks at it. A tick counts every sleeper down by one and moves those
whose time is over to the ready list; no other operation touches a sleeper. A caller whose argument
wraps around is put on no list at all, so the invariant speaks of the tasks that are still on one.
-/

set_option linter.unusedSectionVars false

namespace X86Os

variable {T M S : Type} [DecidableEq T] [DecidableEq M] [DecidableEq S]

/-- As `SchedOp.enabled`, with any 32-bit argument of `sys_msleep`. -/
def SchedOp.gate (idle : T) (r : SchedRun T M S) : SchedOp T M S → Prop
  | .msleep ms => r.sched.currTask ≠ some idle ∧ ms < 2 ^ 32
  | op => op.enabled idle r

def gateMachine (idle first : T) : Machine (SchedRun T M S) (SchedOp T M S) where
  init := (schedMachine idle first).init
  enabled r op := op.gate idle r
  step := (schedMachine idle first).step

/-- What `task_time_tick` does to the sleeping tasks: every counter goes down by one, the tasks whose
counter reaches zero go to the end of the ready list in their order, the others stay in theirs. Before
that the current task may have been moved to the end of the ready list. -/
structure TickLaw (s s' : Sched T M S) : Prop where
  counts : ∀ t ∈ s.tasksOn .sleepList, (s'.task t).sleepTicks = (s.task t).sleepTicks - 1
  others : ∀ t, t ∉ s.tasksOn .sleepList → (s'.task t).sleepTicks = (s.task t).sleepTicks
  asleep : s'.tasksOn .sleepList =
    (s.tasksOn .sleepList).filter fun t => (s'.task t).sleepTicks ≠ 0
  woken : ∃ front, (front = s.tasksOn .readyList ∨ front = (s.tasksOn .readyList).rotate 1) ∧
    s'.tasksOn .readyList =
      front ++ (s.tasksOn .sleepList).filter fun t => (s'.task t).sleepTicks = 0

/-! ## Ticks -/

theorem msleepTicks_eq {ms : ℕ} (h : ms < 2 ^ 32 - 9) :
    msleepTicks ms = max ms osTickMs ⌈/⌉ osTickMs := by
  rw [Nat.ceilDiv_eq_add_pred_div, msleepTicks]
  unfold u32 osTickMs
  split_ifs <;> omega

theorem le_msleepTicks {ms : ℕ} (h : ms < 2 ^ 32 - 9) : ms ≤ msleepTicks ms * osTickMs := by
  unfold msleepTicks u32 osTickMs
  split_ifs <;> omega

/-- The sum wraps around. -/
theorem msleepTicks_zero {ms : ℕ} (h1 : 2 ^ 32 - 9 ≤ ms) (h2 : ms < 2 ^ 32) :
    msleepTicks ms = 0 := by
  unfold msleepTicks u32 osTickMs
  split_ifs <;> omega

namespace Queues

variable {idle : T} {started : List T} {q : Queues T M S}

theorem sleepTicks_state (c : TaskSched) (st : TaskState) :
    TaskSched.sleepTicks { c with state := st } = c.sleepTicks := rfl

theorem wakeOne_sleepTicks (t u : T) : ((q.wakeOne idle t).task u).sleepTicks =
    if u = t then (q.task u).sleepTicks - 1 else (q.task u).sleepTicks := by
  have hset : ((q.setTask t { q.task t with sleepTicks := (q.task t).sleepTicks - 1 }).task
      u).sleepTicks = if u = t then (q.task u).sleepTicks - 1 else (q.task u).sleepTicks := by
    by_cases hu : u = t
    · subst u
      simp [setTask]
    · simp [setTask, hu]
  rw [← hset]
  simp only [wakeOne]
  split_ifs
  · rw [setReady_field sleepTicks_state]
    rfl
  · rfl

/-- The walk over the sleeping tasks, as a whole. -/
theorem wake_lists (ts : List T) {q : Queues T M S} {kept : List T}
    (hp : Placed idle started q.queue) (hq : q.queue .sleepList = kept ++ ts) :
    (q.wake idle ts).queue .sleepList =
        kept ++ ts.filter (fun t => (q.task t).sleepTicks - 1 ≠ 0) ∧
      (q.wake idle ts).queue .readyList =
        q.queue .readyList ++ ts.filter (fun t => (q.task t).sleepTicks - 1 = 0) ∧
      ∀ u, ((q.wake idle ts).task u).sleepTicks =
        if u ∈ ts then (q.task u).sleepTicks - 1 else (q.task u).sleepTicks := by
  induction ts generalizing q kept with
  | nil => exact ⟨by simpa [wake] using hq, by simp [wake], fun u => by simp [wake]⟩
  | cons t ts ih =>
      have ht : t ∈ q.queue .sleepList := by simp [hq]
      have hnot : t ∉ ts := by
        have hnodup := hp.nodup .sleepList
        rw [hq, List.nodup_append] at hnodup
        exact (List.nodup_cons.mp hnodup.2.1).1
      have hsame : ∀ u ∈ ts, ((q.wakeOne idle t).task u).sleepTicks = (q.task u).sleepTicks := by
        intro u hu
        rw [wakeOne_sleepTicks, if_neg fun he : u = t => hnot (he ▸ hu)]
      obtain ⟨hdue, hlater⟩ := wakeOne_lists hp hq
      have hticks : ∀ u, (((q.wakeOne idle t).wake idle ts).task u).sleepTicks =
          (if u ∈ ts then ((q.wakeOne idle t).task u).sleepTicks - 1
            else ((q.wakeOne idle t).task u).sleepTicks) →
          (((q.wakeOne idle t).wake idle ts).task u).sleepTicks =
            if u ∈ t :: ts then (q.task u).sleepTicks - 1 else (q.task u).sleepTicks := by
        intro u hu
        rw [hu, wakeOne_sleepTicks]
        by_cases hut : u = t
        · subst u
          simp [hnot]
        · simp [hut]
      by_cases hz : (q.task t).sleepTicks - 1 = 0
      · obtain ⟨hsleep, hready, hall⟩ := ih (hp.wakeOne ht) (hdue hz).1
        refine ⟨?_, ?_, fun u => hticks u (hall u)⟩
        · rw [wake, hsleep, List.filter_cons_of_neg (by simpa using hz)]
          exact congrArg (kept ++ ·) (List.filter_congr fun u hu => by rw [hsame u hu])
        · rw [wake, hready, (hdue hz).2, List.filter_cons_of_pos (by simpa using hz),
            List.append_assoc, List.singleton_append]
          refine congrArg (q.queue .readyList ++ t :: ·) (List.filter_congr fun u hu => ?_)
          rw [hsame u hu]
      · obtain ⟨hsleep, hready, hall⟩ := ih (hp.wakeOne ht) (hlater hz).1
        refine ⟨?_, ?_, fun u => hticks u (hall u)⟩
        · rw [wake, hsleep, List.filter_cons_of_pos (by simpa using hz), List.append_assoc,
            List.singleton_append]
          exact congrArg (kept ++ t :: ·) (List.filter_congr fun u hu => by rw [hsame u hu])
        · rw [wake, hready, (hlater hz).2, List.filter_cons_of_neg (by simpa using hz)]
          exact congrArg (q.queue .readyList ++ ·) (List.filter_congr fun u hu => by
            rw [hsame u hu])

theorem setTask_sleepTicks (p : Queues T M S) {t : T} {v : TaskSched}
    (hv : v.sleepTicks = (p.task t).sleepTicks) (u : T) :
    ((p.setTask t v).task u).sleepTicks = (p.task u).sleepTicks :=
  setTask_field (f := TaskSched.sleepTicks) hv u

theorem sliceTick_sleepTicks (u : T) :
    ((q.sliceTick idle).task u).sleepTicks = (q.task u).sleepTicks := by
  simp only [sliceTick]
  split_ifs
  · rw [setReady_field sleepTicks_state, setBlock_field TaskSched.sleepTicks]
    rw [setTask_sleepTicks _ (by simp [setTask]), setTask_sleepTicks q (by simp)]
  · rw [setTask_sleepTicks q (by simp)]

theorem sliceTick_ready (hc : q.curr = q.nextRun idle) :
    (q.sliceTick idle).queue .readyList = q.queue .readyList ∨
      (q.sliceTick idle).queue .readyList = (q.queue .readyList).rotate 1 := by
  simp only [sliceTick]
  split_ifs
  · by_cases hi : q.curr = idle
    · exact .inl (by simp [setReady, setBlock, hi])
    · obtain ⟨ts, hts⟩ := curr_mem_ready hc hi
      refine .inr ((requeue_ready (q := (q.setTask _ _).setTask _ _) hc hi).trans ?_)
      rw [setTask_queue, setTask_queue, hts, List.rotate_cons_succ, List.rotate_zero]
      rfl
  · exact .inl rfl

/-- The sleeping tasks after a tick. -/
theorem tick_lists (hp : Placed idle started q.queue) (hc : q.curr = q.nextRun idle) :
    (q.tick idle).queue .sleepList =
        (q.queue .sleepList).filter (fun t => (q.task t).sleepTicks - 1 ≠ 0) ∧
      (q.tick idle).queue .readyList = (q.sliceTick idle).queue .readyList ++
        (q.queue .sleepList).filter (fun t => (q.task t).sleepTicks - 1 = 0) ∧
      ∀ u, ((q.tick idle).task u).sleepTicks =
        if u ∈ q.queue .sleepList then (q.task u).sleepTicks - 1 else (q.task u).sleepTicks := by
  obtain ⟨hsleep, hready, hall⟩ := wake_lists ((q.sliceTick idle).queue .sleepList)
    (hp.sliceTick hc) (List.nil_append _).symm
  simp only [sliceTick_sleepTicks] at hsleep hready hall
  rw [sliceTick_frame (by simp)] at hsleep hready hall
  simp only [tick, dispatch_queue, dispatch_field sleepTicks_state]
  rw [sliceTick_frame (by simp)]
  exact ⟨hsleep, hready, hall⟩

/-- `sys_msleep` of the current task. -/
theorem msleep_lists (idle : T) (q : Queues T M S) {ms : ℕ} (h : msleepTicks ms ≠ 0) :
    (q.msleep idle ms).queue .sleepList = q.queue .sleepList ++ [q.curr] ∧
      ((q.msleep idle ms).task q.curr).sleepTicks = msleepTicks ms := by
  have hs : (q.setBlock idle q.curr).setSleep q.curr (msleepTicks ms) = _ := if_neg h
  rw [msleep_eq, dispatch_queue, dispatch_field sleepTicks_state, hs]
  exact ⟨by simp [setBlock_frame], by simp [push, setTask]⟩

theorem msleep_lost {ms : ℕ} (h : msleepTicks ms = 0) :
    q.msleep idle ms = (q.setBlock idle q.curr).dispatch idle := by
  have hs : (q.setBlock idle q.curr).setSleep q.curr (msleepTicks ms) = _ := if_pos h
  exact congrArg (Queues.dispatch idle) hs

/-- Only the tick counts a sleeping task down. -/
theorem queues_sleepTicks {op : SchedOp T M S} {u : T} (htick : op ≠ .tick) (hinit : op ≠ .init u)
    (hsleep : ∀ ms, op = .msleep ms → u ≠ q.curr) :
    ((op.queues idle q).task u).sleepTicks = (q.task u).sleepTicks := by
  refine queues_field sleepTicks_state htick hinit fun ms hop ticks => ?_
  simp only [setSleep]
  split_ifs
  · exact setBlock_field TaskSched.sleepTicks _ u
  · simp [push, setTask, hsleep ms hop, setBlock_field TaskSched.sleepTicks]

end Queues

/-- The run `r` is tracked, where only the tasks `alive` count as started: the others were lost. Every
sleeping task has a tick left to wait. -/
structure SleepTracks (idle : T) (r : SchedRun T M S) (alive : List T) (q : Queues T M S) :
    Prop where
  tracks : Tracks idle { r with started := alive } q
  alive : ∀ t ∈ alive, t ∈ r.started
  ticks : ∀ t ∈ q.queue .sleepList, 1 ≤ (q.task t).sleepTicks

namespace SleepTracks

variable {idle first : T} {r r' : SchedRun T M S} {alive : List T} {q : Queues T M S}
  {op : SchedOp T M S}

theorem currTask (h : SleepTracks idle r alive q) : r.sched.currTask = some q.curr :=
  h.tracks.rep.curr

theorem tasksOn (h : SleepTracks idle r alive q) (l : ListId M S) :
    r.sched.tasksOn l = q.queue l := h.tracks.rep.tasksOn_eq l

theorem task (h : SleepTracks idle r alive q) : r.sched.task = q.task := h.tracks.rep.task

/-- A sleeping task is not initialised again. -/
theorem not_init (h : SleepTracks idle r alive q) (he : op.gate idle r) {t : T}
    (ht : t ∈ q.queue .sleepList) : op ≠ .init t := by
  rintro rfl
  exact he.2 (h.tracks.started t ((h.tracks.placed.started_iff t).mp ⟨.sleepList, by simp, ht⟩))

theorem ne_curr (h : SleepTracks idle r alive q) (hi : q.curr ≠ idle) {t : T}
    (ht : t ∈ q.queue .sleepList) : t ≠ q.curr := by
  rintro rfl
  exact h.tracks.placed.notMem_of_mem (l := .readyList) (by simp) (by simp)
    (curr_mem_of_ne h.tracks.curr hi) (by simp) ht

/-- Any other operation leaves a sleeping task where it is. -/
theorem keeps (h : SleepTracks idle r alive q) (he : op.gate idle r) (htick : op ≠ .tick) {t : T}
    (ht : t ∈ q.queue .sleepList) : t ∈ (op.queues idle q).queue .sleepList ∧
      ((op.queues idle q).task t).sleepTicks = (q.task t).sleepTicks := by
  refine ⟨?_, Queues.queues_sleepTicks htick (h.not_init he ht) fun ms hop => ?_⟩
  · by_cases hop : ∃ ms, op = .msleep ms
    · obtain ⟨ms, rfl⟩ := hop
      by_cases hms : msleepTicks ms = 0
      · rw [SchedOp.queues, Queues.msleep_lost hms, Queues.dispatch_queue,
          Queues.setBlock_frame (by simp)]
        exact ht
      · rw [SchedOp.queues, (Queues.msleep_lists idle q hms).1]
        exact List.mem_append_left _ ht
    · rw [Queues.queues_frame]
      · exact ht
      · cases op with
        | tick => exact absurd rfl htick
        | msleep ms => exact absurd ⟨ms, rfl⟩ hop
        | _ => simp [SchedOp.touches]
  · subst hop
    exact h.ne_curr (h.tracks.curr_ne_idle he.1) ht

/-- Only `sys_msleep` of the current task and the tick change which tasks sleep. -/
theorem step_ticks (h : SleepTracks idle r alive q) (he : op.gate idle r) :
    ∀ t ∈ (op.queues idle q).queue .sleepList, 1 ≤ ((op.queues idle q).task t).sleepTicks := by
  intro t ht
  have hold : op ≠ .tick → t ∈ q.queue .sleepList →
      1 ≤ ((op.queues idle q).task t).sleepTicks := by
    intro htick hm
    rw [(h.keeps he htick hm).2]
    exact h.ticks t hm
  by_cases htick : op = .tick
  · subst htick
    obtain ⟨hsleep, -, hall⟩ := Queues.tick_lists h.tracks.placed h.tracks.curr
    rw [SchedOp.queues, hsleep, List.mem_filter] at ht
    have hpos := h.ticks t ht.1
    rw [SchedOp.queues, hall, if_pos ht.1]
    have hne : (q.task t).sleepTicks - 1 ≠ 0 := by simpa using ht.2
    omega
  · by_cases hop : ∃ ms, op = .msleep ms
    · obtain ⟨ms, rfl⟩ := hop
      by_cases hms : msleepTicks ms = 0
      · rw [SchedOp.queues, Queues.msleep_lost hms, Queues.dispatch_queue,
          Queues.setBlock_frame (by simp)] at ht
        exact hold htick ht
      · obtain ⟨hsleep, hticks⟩ := Queues.msleep_lists idle q hms
        rw [SchedOp.queues, hsleep, List.mem_append, List.mem_singleton] at ht
        rcases ht with ht | rfl
        · exact hold htick ht
        · rw [SchedOp.queues, hticks]
          exact_mod_cast Nat.one_le_iff_ne_zero.mpr hms
    · refine hold htick ?_
      rwa [Queues.queues_frame] at ht
      cases op with
      | tick => exact absurd rfl htick
      | msleep ms => exact absurd ⟨ms, rfl⟩ hop
      | _ => simp [SchedOp.touches]

/-- A call of `sys_msleep` that wraps around loses the current task. -/
theorem msleep_tracks (h : SleepTracks idle r alive q) (ms : ℕ)
    (he : r.sched.currTask ≠ some idle) : ∃ s' alive', sysMsleep idle ms r.sched = some s' ∧
      Tracks idle { r with sched := s', started := alive' } (q.msleep idle ms) ∧
        ∀ t ∈ alive', t ∈ alive := by
  have ht := h.tracks
  have hi : q.curr ≠ idle := ht.curr_ne_idle he
  obtain ⟨s', hs, hr⟩ := ht.rep.msleep ht.placed ht.curr hi ms
  have hcurr : (q.msleep idle ms).curr = (q.msleep idle ms).nextRun idle :=
    Queues.dispatch_nextRun _
  by_cases hms : msleepTicks ms = 0
  · refine ⟨s', alive.filter fun u => u ≠ q.curr, hs, ⟨hr, ht.placed.msleep_lost ht.curr hi hms,
      hcurr, fun t => ?_, fun t hm => ht.started t (List.mem_filter.mp hm).1,
      ht.idle_initialised⟩, fun t hm => (List.mem_filter.mp hm).1⟩
    have hall : ((SchedOp.msleep ms).queues idle q).queue .taskList = q.queue .taskList :=
      Queues.queues_taskList (by simp)
    rw [SchedOp.queues] at hall
    rw [hall]
    exact ht.initialised t
  · exact ⟨s', alive, hs, ht.of_queues (.msleep ms) (by simp) hr
      (ht.placed.msleep ht.curr hi hms) hcurr, fun t hm => hm⟩

/-- Every operation completes and keeps the invariant. -/
theorem step (h : SleepTracks idle r alive q) (he : op.gate idle r) :
    ∃ s' alive', op.exec idle r.sched = some s' ∧
      SleepTracks idle (op.record r s') alive' (op.queues idle q) := by
  have hticks := h.step_ticks he
  by_cases hop : ∃ ms, op = .msleep ms
  · obtain ⟨ms, rfl⟩ := hop
    obtain ⟨s', alive', hs, ht, hsub⟩ := h.msleep_tracks ms he.1
    exact ⟨s', alive', hs, ht, fun t hm => h.alive t (hsub t hm), hticks⟩
  · have he' : op.enabled idle { r with started := alive } := by
      cases op with
      | msleep ms => exact absurd ⟨ms, rfl⟩ hop
      | start t => exact ⟨he.1, he.2.1, fun hm => he.2.2.1 (h.alive t hm), he.2.2.2⟩
      | _ => exact he
    obtain ⟨s', hs, ht⟩ := h.tracks.step he'
    refine ⟨s', (op.record { r with started := alive } s').started, hs, ?_, ?_, hticks⟩
    · cases op <;> exact ht
    · intro t hm
      cases op with
      | start u =>
          rcases List.mem_cons.mp hm with rfl | hm
          · exact List.mem_cons_self
          · exact List.mem_cons_of_mem _ (h.alive t hm)
      | _ => exact h.alive t hm

end SleepTracks

/-! ## All runs -/

section Runs

variable {idle first : T} {r r' : SchedRun T M S} {t : T}

theorem sleepTracks_of_reach (hne : first ≠ idle) (h : (gateMachine idle first).Reach r) :
    ∃ alive q, SleepTracks idle r alive q := by
  apply h.invariant (I := fun r : SchedRun T M S => ∃ alive q, SleepTracks idle r alive q)
  · rintro _ ⟨s, hs, rfl⟩
    obtain ⟨q, ht⟩ := tracks_boot hne hs
    refine ⟨[first], q, ht, fun t hm => hm, fun t hm => ?_⟩
    have hcount := ht.rep.count_eq .sleepList
    rw [listCount, schedBoot_list hne hs (by simp) (by simp)] at hcount
    have hnil : q.queue .sleepList = [] :=
      List.eq_nil_of_length_eq_zero (by simpa [listInit] using hcount.symm)
    simp [hnil] at hm
  · rintro r op r' ⟨alive, q, ht⟩ he hs
    obtain ⟨s', alive', hs', ht'⟩ := ht.step he
    have hr : r' = op.record r s' := by
      simpa [gateMachine, schedMachine, hs'] using hs.symm
    exact ⟨alive', _, hr ▸ ht'⟩

/-- A step of a tracked run. -/
theorem SleepTracks.next (first : T) {alive : List T} {q : Queues T M S}
    (h : SleepTracks idle r alive q) (op : SchedOp T M S) (he : op.gate idle r) : ∃ r' alive',
      (gateMachine idle first).step r op = some r' ∧
        SleepTracks idle r' alive' (op.queues idle q) := by
  obtain ⟨s', alive', hs, ht⟩ := h.step he
  exact ⟨op.record r s', alive', by simp [gateMachine, schedMachine, hs], ht⟩

theorem SleepTracks.tickLaw {alive alive' : List T} {q : Queues T M S}
    (h : SleepTracks idle r alive q) (h' : SleepTracks idle r' alive' (q.tick idle)) :
    TickLaw r.sched r'.sched := by
  obtain ⟨hsleep, hready, hall⟩ := Queues.tick_lists h.tracks.placed h.tracks.curr
  have hdown : ∀ t ∈ q.queue .sleepList,
      ((q.tick idle).task t).sleepTicks = (q.task t).sleepTicks - 1 := by
    intro t ht
    rw [hall, if_pos ht]
  constructor
  · intro t ht
    rw [h.tasksOn] at ht
    rw [h.task, h'.task, hdown t ht]
  · intro t ht
    rw [h.tasksOn] at ht
    rw [h.task, h'.task, hall, if_neg ht]
  · rw [h.tasksOn, h'.tasksOn, hsleep, h'.task]
    exact List.filter_congr fun t ht => by rw [hdown t ht]
  · refine ⟨(q.sliceTick idle).queue .readyList, ?_, ?_⟩
    · rw [h.tasksOn]
      exact Queues.sliceTick_ready h.tracks.curr
    · rw [h.tasksOn, h'.tasksOn, hready, h'.task]
      exact congrArg ((q.sliceTick idle).queue .readyList ++ ·)
        (List.filter_congr fun t ht => by rw [hdown t ht])

theorem tick_of_reach (hne : first ≠ idle) (h : (gateMachine idle first).Reach r) :
    ∃ r', (gateMachine idle first).step r .tick = some r' ∧ TickLaw r.sched r'.sched := by
  obtain ⟨alive, q, ht⟩ := sleepTracks_of_reach hne h
  obtain ⟨r', alive', hs, ht'⟩ := ht.next first .tick trivial
  exact ⟨r', hs, ht.tickLaw ht'⟩

theorem notMem_ready_of_asleep (hne : first ≠ idle) (h : (gateMachine idle first).Reach r)
    (ht : t ∈ r.sched.tasksOn .sleepList) : t ∉ r.sched.tasksOn .readyList := by
  obtain ⟨alive, q, htr⟩ := sleepTracks_of_reach hne h
  rw [htr.tasksOn] at ht ⊢
  exact htr.tracks.placed.notMem_of_mem (by simp) (by simp) ht (by simp)

/-- A sleeping task in one step: only a tick counts it down, and only its last tick wakes it. -/
theorem asleep_step (hne : first ≠ idle) (h : (gateMachine idle first).Reach r)
    {op : SchedOp T M S} (he : op.gate idle r) (hs : (gateMachine idle first).step r op = some r')
    (ht : t ∈ r.sched.tasksOn .sleepList) :
    (op ≠ .tick → t ∈ r'.sched.tasksOn .sleepList ∧
      (r'.sched.task t).sleepTicks = (r.sched.task t).sleepTicks) ∧
    (op = .tick → TickLaw r.sched r'.sched) := by
  obtain ⟨alive, q, htr⟩ := sleepTracks_of_reach hne h
  obtain ⟨r₁, alive', hs', htr'⟩ := htr.next first op he
  obtain rfl : r₁ = r' := Option.some.inj (hs'.symm.trans hs)
  refine ⟨fun htick => ?_, fun htick => ?_⟩
  · rw [htr.tasksOn] at ht
    rw [htr'.tasksOn, htr'.task, htr.task]
    exact htr.keeps he htick ht
  · subst htick
    exact htr.tickLaw htr'

/-- As long as a run has fewer ticks than a sleeping task waits for, the task goes on sleeping. -/
theorem asleep_final (hne : first ≠ idle) {tr : List (SchedOp T M S × SchedRun T M S)}
    (h : (gateMachine idle first).Reach r) (hp : (gateMachine idle first).Path r tr)
    (ht : t ∈ r.sched.tasksOn .sleepList) (hlt : (tickCount tr : ℤ) < (r.sched.task t).sleepTicks) :
    t ∈ (Machine.final r tr).sched.tasksOn .sleepList ∧
      ((Machine.final r tr).sched.task t).sleepTicks =
        (r.sched.task t).sleepTicks - tickCount tr := by
  induction hp with
  | nil r => exact ⟨ht, by simp [tickCount, Machine.final]⟩
  | @cons r r' op tr he hs hp ih =>
      obtain ⟨hother, htick⟩ := asleep_step hne h he hs ht
      by_cases hop : op = .tick
      · have hlaw := htick hop
        have hdown := hlaw.counts t ht
        have hcount : tickCount ((op, r') :: tr) = tickCount tr + 1 := by
          simp [tickCount, hop]
        rw [hcount] at hlt ⊢
        push_cast at hlt ⊢
        have hmem : t ∈ r'.sched.tasksOn .sleepList := by
          rw [hlaw.asleep, List.mem_filter]
          exact ⟨ht, by simpa using by omega⟩
        obtain ⟨hasleep, hticks⟩ := ih (.step h he hs) hmem (by omega)
        exact ⟨hasleep, by rw [Machine.final, hticks]; omega⟩
      · obtain ⟨hmem, hsame⟩ := hother hop
        have hcount : tickCount ((op, r') :: tr) = tickCount tr := by
          simp [tickCount, hop]
        rw [hcount] at hlt ⊢
        rw [← hsame] at hlt ⊢
        exact ih (.step h he hs) hmem hlt

/-- The task `t` sleeps through every run from `r` with fewer than `n` ticks, and the `n`-th tick takes
it off the list of sleeping tasks and puts it on the ready list once. -/
def WakesAt (idle first : T) (r : SchedRun T M S) (t : T) (n : ℕ) : Prop :=
  ∀ tr, (gateMachine idle first).Path r tr →
    (tickCount tr < n → t ∈ (Machine.final r tr).sched.tasksOn .sleepList ∧
      t ∉ (Machine.final r tr).sched.tasksOn .readyList) ∧
    (tickCount tr + 1 = n → ∃ r', (gateMachine idle first).step (Machine.final r tr) .tick = some r' ∧
      t ∉ r'.sched.tasksOn .sleepList ∧ (r'.sched.tasksOn .readyList).count t = 1 ∧
      TickLaw (Machine.final r tr).sched r'.sched)

theorem TickLaw.wakes {s s' : Sched T M S} (h : TickLaw s s') (ht : t ∈ s.tasksOn .sleepList)
    (hone : (s.task t).sleepTicks = 1) : t ∉ s'.tasksOn .sleepList ∧ t ∈ s'.tasksOn .readyList := by
  have hzero : (s'.task t).sleepTicks = 0 := by rw [h.counts t ht, hone]; rfl
  obtain ⟨front, -, hready⟩ := h.woken
  refine ⟨?_, ?_⟩
  · rw [h.asleep, List.mem_filter]
    rintro ⟨-, hne⟩
    simp [hzero] at hne
  · rw [hready]
    exact List.mem_append_right _ (List.mem_filter.mpr ⟨ht, by simp [hzero]⟩)

theorem wakesAt (hne : first ≠ idle) (h : (gateMachine idle first).Reach r)
    (ht : t ∈ r.sched.tasksOn .sleepList) {n : ℕ} (hn : (r.sched.task t).sleepTicks = n) :
    WakesAt idle first r t n := by
  intro tr hp
  have hfinal := h.final hp
  refine ⟨fun hlt => ?_, fun heq => ?_⟩
  · obtain ⟨hasleep, -⟩ := asleep_final hne h hp ht (by omega)
    exact ⟨hasleep, notMem_ready_of_asleep hne hfinal hasleep⟩
  · obtain ⟨hasleep, hticks⟩ := asleep_final hne h hp ht (by omega)
    obtain ⟨r', hs, hlaw⟩ := tick_of_reach hne hfinal
    obtain ⟨hout, hin⟩ := hlaw.wakes hasleep (by omega)
    obtain ⟨alive, q, htr⟩ := sleepTracks_of_reach hne (hfinal.step (a := .tick) trivial hs)
    have hnodup : (r'.sched.tasksOn .readyList).Nodup := by
      rw [htr.tasksOn]
      exact htr.tracks.placed.nodup _
    exact ⟨r', hs, hout, List.count_eq_one_of_mem hnodup hin, hlaw⟩

/-- `sys_msleep` of the current task, when its ticks do not wrap around. -/
theorem msleep_of_reach (hne : first ≠ idle) (h : (gateMachine idle first).Reach r)
    (hc : r.sched.currTask = some t) (hi : t ≠ idle) {ms : ℕ} (hms : ms < 2 ^ 32 - 9) :
    ∃ r', (gateMachine idle first).step r (.msleep ms) = some r' ∧
      (gateMachine idle first).Reach r' ∧ t ∈ r'.sched.tasksOn .sleepList ∧
      (r'.sched.task t).sleepTicks = msleepTicks ms := by
  obtain ⟨alive, q, htr⟩ := sleepTracks_of_reach hne h
  obtain rfl : q.curr = t := Option.some.inj (htr.currTask.symm.trans hc)
  have he : (SchedOp.msleep ms).gate idle r :=
    ⟨by rw [hc]; simpa using hi, by omega⟩
  obtain ⟨r', alive', hs, htr'⟩ := htr.next first (.msleep ms) he
  obtain ⟨hsleep, hticks⟩ := Queues.msleep_lists idle q (msleepTicks_pos hms)
  refine ⟨r', hs, .step (a := .msleep ms) h he hs, ?_, ?_⟩
  · rw [htr'.tasksOn, SchedOp.queues, hsleep]
    exact List.mem_append_right _ List.mem_cons_self
  · rw [htr'.task, SchedOp.queues, hticks]

end Runs

/-- Sleeping tasks wake on exactly the right tick: every tick counts each of them down by one and
wakes those that are through, and a call of `sys_msleep` is over after its time rounded up to
ticks. -/
theorem sleepers_wake_on_time {idle first : T} (hne : first ≠ idle) {r : SchedRun T M S}
    (h : (gateMachine idle first).Reach r) :
    (∀ t ∈ r.sched.tasksOn .sleepList, 1 ≤ (r.sched.task t).sleepTicks) ∧
      (∃ r', (gateMachine idle first).step r .tick = some r' ∧ TickLaw r.sched r'.sched) ∧
      ∀ t ms, r.sched.currTask = some t → t ≠ idle → 1 ≤ ms → ms ≤ 2 ^ 31 - 1 →
        ∃ r', (gateMachine idle first).step r (.msleep ms) = some r' ∧
          WakesAt idle first r' t (max ms osTickMs ⌈/⌉ osTickMs) := by
  refine ⟨fun t ht => ?_, tick_of_reach hne h, fun t ms hc hi h1 h2 => ?_⟩
  · obtain ⟨alive, q, htr⟩ := sleepTracks_of_reach hne h
    rw [htr.tasksOn] at ht
    rw [htr.task]
    exact htr.ticks t ht
  · have hms : ms < 2 ^ 32 - 9 := by omega
    obtain ⟨r', hs, hr, hasleep, hticks⟩ := msleep_of_reach hne h hc hi hms
    rw [← msleepTicks_eq hms]
    exact ⟨r', hs, wakesAt hne hr hasleep hticks⟩

/-- The idle task `false` and the first task `true` after the boot. -/
def bootedRun : SchedRun Bool Unit Unit where
  sched := schedBoot false true Sched.zeroed
  initialised := [true, false]
  started := [true]

theorem bootedRun_reach : (gateMachine false true).Reach bootedRun :=
  .init ⟨_, Sched.zeroed_free, rfl⟩

/-- The first task sleeps for 25 milliseconds and wakes at the third tick. -/
theorem sleepers_wake_on_time_booted : ∃ r' : SchedRun Bool Unit Unit,
    (gateMachine false true).step bootedRun (.msleep 25) = some r' ∧
      WakesAt false true r' true 3 :=
  (sleepers_wake_on_time (by decide) bootedRun_reach).2.2 true 25 rfl (by decide) (by decide)
    (by decide)

/-! ## Arguments of `sys_msleep` near `2 ^ 32` -/

/-- The task `t` sleeps for at least `ms` milliseconds and a later tick puts it on the ready list. -/
structure SleepsFor (idle first : T) (r : SchedRun T M S) (t : T) (ms : ℕ) : Prop where
  asleep : t ∈ r.sched.tasksOn .sleepList
  ticks : 1 ≤ (r.sched.task t).sleepTicks
  long : (ms : ℤ) ≤ (r.sched.task t).sleepTicks * osTickMs
  woken : ∀ tr, (gateMachine idle first).Path r tr →
    (r.sched.task t).sleepTicks ≤ tickCount tr →
      ∃ x ∈ tr, x.1 = .tick ∧ t ∈ x.2.sched.tasksOn .readyList

section Lost

variable {idle first : T} {r : SchedRun T M S} {t : T}

/-- A run with enough ticks wakes a sleeping task. -/
theorem woken_in_path (hne : first ≠ idle) {tr : List (SchedOp T M S × SchedRun T M S)}
    (h : (gateMachine idle first).Reach r) (hp : (gateMachine idle first).Path r tr)
    (ht : t ∈ r.sched.tasksOn .sleepList) (hle : (r.sched.task t).sleepTicks ≤ tickCount tr)
    (hpos : 1 ≤ (r.sched.task t).sleepTicks) :
    ∃ x ∈ tr, x.1 = .tick ∧ t ∈ x.2.sched.tasksOn .readyList := by
  induction hp with
  | nil r =>
      simp only [tickCount, List.countP_nil] at hle
      omega
  | @cons r r' op tr he hs hp ih =>
      obtain ⟨hother, htick⟩ := asleep_step hne h he hs ht
      have htail : t ∈ r'.sched.tasksOn .sleepList → 1 ≤ (r'.sched.task t).sleepTicks →
          (r'.sched.task t).sleepTicks ≤ tickCount tr →
          ∃ x ∈ (op, r') :: tr, x.1 = .tick ∧ t ∈ x.2.sched.tasksOn .readyList := by
        intro hmem hone hle
        obtain ⟨x, hx, hready⟩ := ih (.step h he hs) hmem hle hone
        exact ⟨x, List.mem_cons_of_mem _ hx, hready⟩
      by_cases hop : op = .tick
      · have hlaw := htick hop
        by_cases hone : (r.sched.task t).sleepTicks = 1
        · exact ⟨(op, r'), List.mem_cons_self, hop, (hlaw.wakes ht hone).2⟩
        · have hdown := hlaw.counts t ht
          have hcount : tickCount ((op, r') :: tr) = tickCount tr + 1 := by
            simp [tickCount, hop]
          refine htail ?_ (by omega) (by omega)
          rw [hlaw.asleep, List.mem_filter]
          exact ⟨ht, by simpa using by omega⟩
      · obtain ⟨hmem, hsame⟩ := hother hop
        have hcount : tickCount ((op, r') :: tr) = tickCount tr := by
          simp [tickCount, hop]
        exact htail hmem (by omega) (by omega)

/-- When the sum wraps around, the caller is on no list afterwards. -/
theorem msleep_lost_of_reach (hne : first ≠ idle) (h : (gateMachine idle first).Reach r)
    (hc : r.sched.currTask = some t) (hi : t ≠ idle) {ms : ℕ} (h1 : 2 ^ 32 - 9 ≤ ms)
    (h2 : ms < 2 ^ 32) : ∃ r', (gateMachine idle first).step r (.msleep ms) = some r' ∧
      ∀ l : ListId M S, l ≠ .taskList → t ∉ r'.sched.tasksOn l := by
  obtain ⟨alive, q, htr⟩ := sleepTracks_of_reach hne h
  obtain rfl : q.curr = t := Option.some.inj (htr.currTask.symm.trans hc)
  obtain ⟨r', alive', hs, htr'⟩ := htr.next first (.msleep ms)
    ⟨by rw [hc]; simpa using hi, h2⟩
  refine ⟨r', hs, fun l hl => ?_⟩
  have hmem := curr_mem_of_ne htr.tracks.curr hi
  rw [htr'.tasksOn, SchedOp.queues, Queues.msleep_lost (msleepTicks_zero h1 h2),
    Queues.dispatch_queue, Queues.setBlock_queue _ hi]
  exact htr.tracks.placed.notMem_erase (by simp) hl hmem

end Lost

/-- `sys_msleep` keeps the caller exactly when rounding its argument up does not wrap around. -/
theorem msleep_keeps_caller {idle first : T} (hne : first ≠ idle) {r : SchedRun T M S}
    (h : (gateMachine idle first).Reach r) {t : T} (hc : r.sched.currTask = some t)
    (hi : t ≠ idle) {ms : ℕ} (hms : ms < 2 ^ 32) :
    ∃ r', (gateMachine idle first).step r (.msleep ms) = some r' ∧
      (SleepsFor idle first r' t ms ↔ ms < 2 ^ 32 - 9) := by
  by_cases hlt : ms < 2 ^ 32 - 9
  · obtain ⟨r', hs, hr, hasleep, hticks⟩ := msleep_of_reach hne h hc hi hlt
    have hpos : 1 ≤ (r'.sched.task t).sleepTicks := by
      have hne := msleepTicks_pos hlt
      omega
    refine ⟨r', hs, iff_of_true ⟨hasleep, hpos, ?_, fun tr hp hle => ?_⟩ hlt⟩
    · rw [hticks]
      exact_mod_cast le_msleepTicks hlt
    · exact woken_in_path hne hr hp hasleep hle hpos
  · obtain ⟨r', hs, hlost⟩ := msleep_lost_of_reach hne h hc hi (by omega) hms
    exact ⟨r', hs, iff_of_false (fun hsleep => hlost .sleepList (by simp) hsleep.asleep) hlt⟩

theorem msleep_keeps_caller_booted : ∃ r' : SchedRun Bool Unit Unit,
    (gateMachine false true).step bootedRun (.msleep (2 ^ 31)) = some r' ∧
      (SleepsFor false true r' true (2 ^ 31) ↔ 2 ^ 31 < 2 ^ 32 - 9) :=
  msleep_keeps_caller (by decide) bootedRun_reach rfl (by decide) (by decide)

/-- The first task asks for the longest sleep there is and is gone. -/
theorem msleep_keeps_caller_counterexample :
    ¬ ∀ r : SchedRun Bool Unit Unit, (gateMachine false true).Reach r → ∀ t ms,
      r.sched.currTask = some t → t ≠ false → ms < 2 ^ 32 →
        ∀ r', (gateMachine false true).step r (.msleep ms) = some r' →
          SleepsFor false true r' t ms := by
  intro h
  have hcall : ∃ r', (gateMachine false true).step bootedRun (.msleep (2 ^ 32 - 1)) = some r' ∧
      ∀ l : ListId Unit Unit, l ≠ .taskList → true ∉ r'.sched.tasksOn l :=
    msleep_lost_of_reach (by decide) bootedRun_reach rfl (by decide) (by decide) (by decide)
  obtain ⟨r', hs, hlost⟩ := hcall
  have hsleep := h _ bootedRun_reach true (2 ^ 32 - 1) rfl (by decide) (by decide) r' hs
  exact hlost .sleepList (by simp) hsleep.asleep

end X86Os
