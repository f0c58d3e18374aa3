import X86Os.SchedRun

/-!
# Fairness of the ready list

No operation lets a task overtake another one on the ready list. The time slices that are left to the
tasks ahead of a waiting task are a potential: they never grow, and every timer tick uses up at least
one of them. A task that waits is therefore reached after a bounded number of ticks.
-/

set_option linter.unusedSectionVars false

namespace X86Os

variable {T M S : Type} [DecidableEq T] [DecidableEq M] [DecidableEq S]

/-- The tasks on the ready list that do not run. -/
def Sched.waitingReady (s : Sched T M S) : List T :=
  (s.tasksOn .readyList).filter fun t => s.currTask ≠ some t

/-- The tasks ahead of `t` on the ready list. -/
def Sched.ahead (t : T) (s : Sched T M S) : List T :=
  (s.tasksOn .readyList).takeWhile fun u => u ≠ t

/-- The time slices left to the tasks ahead of `t`. -/
def Sched.sliceAhead (t : T) (s : Sched T M S) : ℤ :=
  ((s.ahead t).map fun u => (s.task u).sliceTicks).sum

/-- The fields of a task that say how long it may run. -/
def TaskSched.slices (c : TaskSched) : ℤ × ℤ := (c.timeSlice, c.sliceTicks)

/-! ## Lists -/

theorem takeWhile_append_of_mem {l : List T} {t : T} (h : t ∈ l) (new : List T) :
    (l ++ new).takeWhile (fun u => u ≠ t) = l.takeWhile fun u => u ≠ t := by
  induction l with
  | nil => cases h
  | cons u l ih =>
      by_cases hu : u = t
      · simp [hu]
      · have ht : t ∈ l := (List.mem_cons.mp h).resolve_left (Ne.symm hu)
        simp only [List.cons_append, List.takeWhile_cons, hu, ne_eq, not_false_eq_true, decide_true,
          if_true, ih ht]

theorem length_takeWhile_ne {l : List T} {k : ℕ} {t : T} (hn : l.Nodup) (h : l[k]? = some t) :
    (l.takeWhile fun u => u ≠ t).length = k := by
  induction l generalizing k with
  | nil => simp at h
  | cons u l ih =>
      obtain ⟨hu, hl⟩ := List.nodup_cons.mp hn
      cases k with
      | zero =>
          obtain rfl : u = t := by simpa using h
          simp
      | succ k =>
          have ht : l[k]? = some t := by simpa using h
          have hne : u ≠ t := fun he => hu (he ▸ List.mem_of_getElem? ht)
          have hih := ih hl ht
          simpa [hne] using hih

namespace Queues

variable {idle : T} {q : Queues T M S}

/-! ## Fields that dispatching leaves alone -/

section Field

variable {α : Type} {f : TaskSched → α}

theorem setTask_field {t : T} {v : TaskSched} (hv : f v = f (q.task t)) (u : T) :
    f ((q.setTask t v).task u) = f (q.task u) := by
  by_cases hu : u = t
  · subst u
    simpa [setTask] using hv
  · simp [setTask, hu]

theorem setBlock_field (f : TaskSched → α) (t u : T) :
    f ((q.setBlock idle t).task u) = f (q.task u) := by
  unfold setBlock
  split_ifs <;> rfl

variable (hf : ∀ c st, f { c with state := st } = f c)

include hf

theorem setReady_field (t u : T) : f ((q.setReady idle t).task u) = f (q.task u) := by
  unfold setReady
  split_ifs
  · rfl
  · apply setTask_field (q := q.push .readyList t)
    exact hf _ _

theorem dispatch_field (u : T) : f ((q.dispatch idle).task u) = f (q.task u) := by
  unfold dispatch
  dsimp only
  split_ifs
  · rfl
  · apply setTask_field (q := { q with curr := q.nextRun idle })
    exact hf _ _

/-- Apart from the tick and `task_init`, only `task_set_sleep` writes a field other than `state`. -/
theorem queues_field {op : SchedOp T M S} {u : T} (htick : op ≠ .tick) (hinit : op ≠ .init u)
    (hsleep : ∀ ms, op = .msleep ms → ∀ ticks : ℕ,
      f (((q.setBlock idle q.curr).setSleep q.curr ticks).task u) = f (q.task u)) :
    f ((op.queues idle q).task u) = f (q.task u) := by
  cases op with
  | init t =>
      have hne : u ≠ t := fun he => hinit (he ▸ rfl)
      simp [SchedOp.queues, initTask, push, setTask, hne]
  | start t => exact setReady_field hf t u
  | yield =>
      simp only [SchedOp.queues, yield]
      split_ifs
      · rw [dispatch_field hf, setReady_field hf, setBlock_field f]
      · rfl
  | msleep ms =>
      simp only [SchedOp.queues, msleep]
      rw [dispatch_field hf, hsleep ms rfl]
  | lock m =>
      simp only [SchedOp.queues, lock]
      split_ifs
      · rfl
      · rfl
      · rw [dispatch_field hf, setBlock_field f]
        rfl
  | unlock m =>
      simp only [SchedOp.queues, unlock]
      split_ifs
      · split
        · rfl
        · rw [dispatch_field hf, setReady_field hf]
          rfl
      · rfl
      · rfl
  | wait x =>
      simp only [SchedOp.queues, wait]
      split_ifs
      · rfl
      · rw [dispatch_field hf]
        exact setBlock_field f _ u
  | notify x =>
      simp only [SchedOp.queues, notify]
      split
      · rfl
      · rw [dispatch_field hf, setReady_field hf]
        rfl
  | tick => exact absurd rfl htick

end Field

/-! ## Time slices -/

theorem slices_state (c : TaskSched) (st : TaskState) :
    TaskSched.slices { c with state := st } = c.slices := rfl

theorem setSleep_slices (t : T) (ticks : ℕ) (u : T) :
    ((q.setSleep t ticks).task u).slices = (q.task u).slices := by
  unfold setSleep
  split_ifs
  · rfl
  · apply setTask_field (q := q)
    rfl

theorem wake_slices (ts : List T) (u : T) : ((q.wake idle ts).task u).slices = (q.task u).slices := by
  induction ts generalizing q with
  | nil => rfl
  | cons t ts ih =>
      rw [wake, ih]
      simp only [wakeOne]
      split_ifs
      · rw [setReady_field slices_state]
        apply setTask_field (q := q)
        rfl
      · apply setTask_field (q := q)
        rfl

/-- Only the tick changes time slices, and only those of the current task. -/
theorem queues_slices {op : SchedOp T M S} {u : T} (htick : op = .tick → u ≠ q.curr)
    (hinit : op ≠ .init u) : ((op.queues idle q).task u).slices = (q.task u).slices := by
  by_cases hop : op = .tick
  · subst hop
    have hne := htick rfl
    simp only [SchedOp.queues, tick]
    rw [dispatch_field slices_state, wake_slices, sliceTick]
    dsimp only
    split_ifs
    · rw [setReady_field slices_state, setBlock_field TaskSched.slices]
      simp [setTask, hne]
    · simp [setTask, hne]
  · refine queues_field slices_state hop hinit fun _ _ ticks => ?_
    rw [setSleep_slices, setBlock_field TaskSched.slices]

/-- The current task at a tick. -/
theorem tick_slices (idle : T) (q : Queues T M S) : ((q.tick idle).task q.curr).slices =
    ((q.task q.curr).timeSlice,
      if (q.task q.curr).sliceTicks - 1 = 0 then (q.task q.curr).timeSlice
      else (q.task q.curr).sliceTicks - 1) := by
  rw [tick, dispatch_field slices_state, wake_slices, sliceTick]
  dsimp only
  split_ifs
  · rw [setReady_field slices_state, setBlock_field TaskSched.slices]
    simp [setTask, TaskSched.slices]
  · simp [setTask, TaskSched.slices]

/-! ## The ready queue -/

theorem setReady_ready (idle : T) (q : Queues T M S) (t : T) :
    ∃ new, (q.setReady idle t).queue .readyList = q.queue .readyList ++ new := by
  by_cases ht : t = idle
  · exact ⟨[], by simp [setReady, ht]⟩
  · exact ⟨[t], by simp [setReady_queue q ht]⟩

theorem setSleep_ready (t : T) (ticks : ℕ) :
    (q.setSleep t ticks).queue .readyList = q.queue .readyList := by
  unfold setSleep
  split_ifs
  · rfl
  · simp

theorem wake_ready (idle : T) (q : Queues T M S) (ts : List T) :
    ∃ new, (q.wake idle ts).queue .readyList = q.queue .readyList ++ new := by
  induction ts generalizing q with
  | nil => exact ⟨[], by simp [wake]⟩
  | cons t ts ih =>
      have hone : ∃ new, (q.wakeOne idle t).queue .readyList = q.queue .readyList ++ new := by
        simp only [wakeOne]
        split_ifs
        · obtain ⟨new, h⟩ := setReady_ready idle ((q.setTask t
            { q.task t with sleepTicks := (q.task t).sleepTicks - 1 }).drop .sleepList t) t
          exact ⟨new, by simpa using h⟩
        · exact ⟨[], by simp⟩
      obtain ⟨new, h⟩ := hone
      obtain ⟨new', h'⟩ := ih (q.wakeOne idle t)
      exact ⟨new ++ new', by rw [wake, h', h, List.append_assoc]⟩

/-- The head of the ready queue stays, or it leaves its place; others only join at the end. -/
def Advances (q q' : Queues T M S) : Prop :=
  (∃ new, q'.queue .readyList = q.queue .readyList ++ new) ∨
    ∃ new, q'.queue .readyList = (q.queue .readyList).tail ++ new

theorem Advances.of_eq {q' : Queues T M S} (h : q'.queue .readyList = q.queue .readyList) :
    Advances q q' := .inl ⟨[], by simpa using h⟩

theorem setBlock_ready (hc : q.curr = q.nextRun idle) (hi : q.curr ≠ idle) :
    (q.setBlock idle q.curr).queue .readyList = (q.queue .readyList).tail := by
  obtain ⟨ts, hts⟩ := curr_mem_ready hc hi
  simp [setBlock_queue q hi, hts]

theorem requeue_ready (hc : q.curr = q.nextRun idle) (hi : q.curr ≠ idle) :
    ((q.setBlock idle q.curr).setReady idle q.curr).queue .readyList =
      (q.queue .readyList).tail ++ [q.curr] := by
  rw [setReady_queue _ hi, Function.update_self, setBlock_ready hc hi]

theorem advances_unlock (m : M) : Advances q (q.unlock idle m) := by
  simp only [unlock]
  split_ifs
  · cases q.queue (.mutexWaitList m) with
    | nil => exact .of_eq rfl
    | cons t ts =>
        obtain ⟨new, h⟩ := setReady_ready idle ((q.drop (.mutexWaitList m) t).setMutex m
          { owner := some t, lockedCount := 1 }) t
        exact .inl ⟨new, by simpa using h⟩
  · exact .of_eq rfl
  · exact .of_eq rfl

theorem advances_notify (x : S) : Advances q (q.notify idle x) := by
  simp only [notify]
  cases q.queue (.semWaitList x) with
  | nil => exact .of_eq rfl
  | cons t ts =>
      obtain ⟨new, h⟩ := setReady_ready idle (q.drop (.semWaitList x) t) t
      exact .inl ⟨new, by simpa using h⟩

/-- At a tick the head stays only if it has time left. -/
theorem advances_tick (hc : q.curr = q.nextRun idle) :
    (∃ new, (q.tick idle).queue .readyList = q.queue .readyList ++ new ∧
      (q.curr ≠ idle → (q.task q.curr).sliceTicks - 1 ≠ 0)) ∨
      ∃ new, (q.tick idle).queue .readyList = (q.queue .readyList).tail ++ new := by
  obtain ⟨new, h⟩ := wake_ready idle (q.sliceTick idle)
    ((q.sliceTick idle).queue .sleepList)
  simp only [tick, dispatch_queue, h]
  by_cases hi : q.curr = idle
  · refine .inl ⟨new, ?_, fun hne => absurd hi hne⟩
    have hsame : (q.sliceTick idle).queue .readyList = q.queue .readyList := by
      simp only [sliceTick]
      split_ifs
      · simp [setReady, setBlock, hi]
      · rfl
    rw [hsame]
  · by_cases hz : (q.task q.curr).sliceTicks - 1 = 0
    · refine .inr ⟨q.curr :: new, ?_⟩
      have hr : (q.sliceTick idle).queue .readyList = (q.queue .readyList).tail ++ [q.curr] := by
        simp only [sliceTick, if_pos hz]
        exact requeue_ready (q := (q.setTask _ _).setTask _ _) hc hi
      rw [hr, List.append_assoc]
      rfl
    · refine .inl ⟨new, ?_, fun _ => hz⟩
      rw [sliceTick]
      simp only [if_neg hz]
      rfl

theorem advances {op : SchedOp T M S} (hc : q.curr = q.nextRun idle)
    (hi : op ≠ .tick → q.curr ≠ idle) : Advances q (op.queues idle q) := by
  cases op with
  | init t => exact .of_eq (by simp [SchedOp.queues, initTask])
  | start t => exact .inl (setReady_ready idle q t)
  | yield =>
      simp only [SchedOp.queues, yield]
      split_ifs
      · refine .inr ⟨[q.curr], ?_⟩
        rw [dispatch_queue, requeue_ready hc (hi (by simp))]
      · exact .of_eq rfl
  | msleep ms =>
      refine .inr ⟨[], ?_⟩
      simp only [SchedOp.queues, msleep, dispatch_queue, setSleep_ready, List.append_nil]
      exact setBlock_ready hc (hi (by simp))
  | lock m =>
      simp only [SchedOp.queues, lock]
      split_ifs
      · exact .of_eq rfl
      · exact .of_eq rfl
      · refine .inr ⟨[], ?_⟩
        have hblock := setBlock_ready (q := q.push (.mutexWaitList m) q.curr)
          (hc.trans (nextRun_congr (by simp))) (hi (by simp))
        rw [dispatch_queue, List.append_nil]
        exact hblock.trans (by simp)
  | unlock m => exact advances_unlock m
  | wait x =>
      simp only [SchedOp.queues, wait]
      split_ifs
      · exact .of_eq rfl
      · refine .inr ⟨[], ?_⟩
        rw [dispatch_queue, List.append_nil, ← setBlock_ready hc (hi (by simp))]
        simp
  | notify x => exact advances_notify x
  | tick => exact (advances_tick hc).imp (Exists.imp fun _ h => h.1) id

/-- The head of the ready queue stays and loses no more than time, or it leaves. -/
theorem head_step {op : SchedOp T M S} (hc : q.curr = q.nextRun idle) (hidle : q.curr ≠ idle)
    {rest : List T} (hq : q.queue .readyList = q.curr :: rest) (hinit : op ≠ .init q.curr) :
    ∃ new, ((op.queues idle q).queue .readyList = q.curr :: (rest ++ new) ∧
      ((op.queues idle q).task q.curr).sliceTicks ≤ (q.task q.curr).sliceTicks ∧
      (op = .tick →
        ((op.queues idle q).task q.curr).sliceTicks = (q.task q.curr).sliceTicks - 1)) ∨
      (op.queues idle q).queue .readyList = rest ++ new := by
  by_cases htick : op = .tick
  · subst op
    rcases advances_tick hc with ⟨new, h, hz⟩ | ⟨new, h⟩
    · have hslices := tick_slices idle q
      rw [if_neg (hz hidle)] at hslices
      have hslice : ((SchedOp.tick.queues idle q).task q.curr).sliceTicks =
          (q.task q.curr).sliceTicks - 1 := congrArg Prod.snd hslices
      rw [hq] at h
      exact ⟨new, .inl ⟨h, by omega, fun _ => hslice⟩⟩
    · rw [hq] at h
      exact ⟨new, .inr h⟩
  · have hslices : ((op.queues idle q).task q.curr).slices = (q.task q.curr).slices :=
      queues_slices (fun h => absurd h htick) hinit
    have hslice := congrArg Prod.snd hslices
    rcases (advances hc fun _ => hidle : Advances q (op.queues idle q)) with ⟨new, h⟩ | ⟨new, h⟩
    · rw [hq] at h
      exact ⟨new, .inl ⟨h, le_of_eq hslice, fun h => absurd h htick⟩⟩
    · rw [hq] at h
      exact ⟨new, .inr h⟩

end Queues

/-! ## One step -/

/-- Every task has between one and all of its time slices left. -/
def SlicesInRange (r : SchedRun T M S) : Prop :=
  ∀ t ∈ r.initialised, (r.sched.task t).timeSlice = taskTimeSliceDefault ∧
    1 ≤ (r.sched.task t).sliceTicks ∧ (r.sched.task t).sliceTicks ≤ (r.sched.task t).timeSlice

/-- The operation `op` from `r` to `r'` lets nobody overtake. -/
structure FairStep (op : SchedOp T M S) (r r' : SchedRun T M S) : Prop where
  order : r.sched.waitingReady.Sublist (r'.sched.tasksOn .readyList)
  nearer : ∀ t ∈ r.sched.waitingReady,
    (r'.sched.tasksOn .readyList).idxOf t ≤ (r.sched.tasksOn .readyList).idxOf t
  slices : ∀ t ∈ r.sched.waitingReady, r'.sched.sliceAhead t ≤ r.sched.sliceAhead t
  tick : op = .tick → ∀ t ∈ r.sched.waitingReady,
    r'.sched.sliceAhead t + 1 ≤ r.sched.sliceAhead t

theorem mem_record_initialised {op : SchedOp T M S} {r : SchedRun T M S} {s : Sched T M S} {t : T}
    (h : t ∈ (op.record r s).initialised) : op = .init t ∨ t ∈ r.initialised := by
  cases op with
  | init u =>
      rcases List.mem_cons.mp h with rfl | h
      · exact .inl rfl
      · exact .inr h
  | _ => exact .inr h

theorem boot_slices {idle first : T} (hne : first ≠ idle) (s : Sched T M S) :
    SlicesInRange { sched := schedBoot idle first s, initialised := [first, idle],
                    started := [first] } := by
  have hfirst : ((schedBoot idle first s).task first).slices = (10, 10) := by
    simp [schedBoot, taskFirstInit, taskManagerInit, taskStart, taskSetReady, hne, taskInit,
      Sched.insertLast, Sched.initNode, Sched.setTask, TaskSched.created, TaskSched.slices,
      taskTimeSliceDefault]
  have hidle : ((schedBoot idle first s).task idle).slices = (10, 10) := by
    simp [schedBoot, taskFirstInit, taskManagerInit, taskStart, taskSetReady, hne, Ne.symm hne,
      taskInit, Sched.insertLast, Sched.initNode, Sched.setTask, TaskSched.created,
      TaskSched.slices, taskTimeSliceDefault]
  intro t ht
  have hslices : ((schedBoot idle first s).task t).slices = (10, 10) := by
    rcases List.mem_cons.mp ht with rfl | ht
    · exact hfirst
    · exact List.mem_singleton.mp ht ▸ hidle
  obtain ⟨h1, h2⟩ := Prod.mk.inj hslices
  refine ⟨h1, ?_⟩
  simp only [h1, h2]
  omega

namespace Tracks

variable {idle : T} {r r' : SchedRun T M S} {q : Queues T M S} {op : SchedOp T M S}

theorem slices_step (ht : Tracks idle r q) (hs : SlicesInRange r) {s' : Sched T M S}
    (hrep : Represents s' (op.queues idle q)) : SlicesInRange (op.record r s') := by
  intro t hin
  have hsched : (op.record r s').sched = s' := by cases op <;> rfl
  rw [hsched, hrep.task]
  by_cases hinit : op = .init t
  · subst op
    simp [SchedOp.queues, Queues.initTask, Queues.push, Queues.setTask, TaskSched.created,
      taskTimeSliceDefault]
  · obtain ⟨hslice, hpos, hle⟩ := hs t ((mem_record_initialised hin).resolve_left hinit)
    rw [ht.rep.task] at hslice hpos hle
    by_cases htick : op = .tick ∧ t = q.curr
    · obtain ⟨rfl, rfl⟩ := htick
      obtain ⟨h1, h2⟩ := Prod.mk.inj (Queues.tick_slices idle q)
      simp only [SchedOp.queues, h1, h2]
      refine ⟨hslice, ?_⟩
      unfold taskTimeSliceDefault at hslice
      split_ifs <;> omega
    · have hslices : ((op.queues idle q).task t).slices = (q.task t).slices :=
        Queues.queues_slices (fun h1 h2 => htick ⟨h1, h2⟩) hinit
      obtain ⟨h1, h2⟩ := Prod.mk.inj hslices
      rw [h1, h2]
      exact ⟨hslice, hpos, hle⟩

theorem waitingReady_eq (ht : Tracks idle r q) :
    r.sched.waitingReady = (q.queue .readyList).tail := by
  have hnodup := ht.placed.nodup .readyList
  rw [Sched.waitingReady, ht.rep.tasksOn_eq, ht.rep.curr]
  cases hq : q.queue .readyList with
  | nil => rfl
  | cons t ts =>
      have hc : q.curr = t := by rw [ht.curr, Queues.nextRun, hq]; rfl
      rw [hq] at hnodup
      obtain ⟨hnot, -⟩ := List.nodup_cons.mp hnodup
      have hts : ∀ u ∈ ts, q.curr ≠ u := fun u hu he => hnot (hc.symm.trans he ▸ hu)
      simp only [List.tail_cons]
      rw [List.filter_cons_of_neg (by simp [hc]), List.filter_eq_self]
      intro u hu
      simpa using hts u hu

/-- The time ahead of a task behind the head of the ready queue. -/
theorem sliceAhead_cons {s : Sched T M S} (hrep : Represents s q) {c t : T} {rest : List T}
    (hq : q.queue .readyList = c :: rest) (hne : c ≠ t) : s.sliceAhead t =
      (q.task c).sliceTicks +
        ((rest.takeWhile fun u => u ≠ t).map fun u => (q.task u).sliceTicks).sum := by
  rw [Sched.sliceAhead, Sched.ahead, hrep.tasksOn_eq, hq, hrep.task,
    List.takeWhile_cons_of_pos (by simpa using hne), List.map_cons, List.sum_cons]

/-- The tasks behind the head keep their time. -/
theorem map_slices {q' : Queues T M S} {rest : List T} (t : T)
    (hsame : ∀ u ∈ rest, (q'.task u).sliceTicks = (q.task u).sliceTicks) :
    ((rest.takeWhile fun u => u ≠ t).map fun u => (q'.task u).sliceTicks) =
      (rest.takeWhile fun u => u ≠ t).map fun u => (q.task u).sliceTicks :=
  List.map_congr_left fun u hu => hsame u (List.takeWhile_subset _ hu)

/-- How the potential changes when the head stays and when it leaves. -/
theorem sliceAhead_step {s s' : Sched T M S} {q' : Queues T M S} (hrep : Represents s q)
    (hrep' : Represents s' q') {c t : T} {rest : List T} (new : List T)
    (hq : q.queue .readyList = c :: rest) (ht : t ∈ rest) (hne : c ≠ t)
    (hsame : ∀ u ∈ rest, (q'.task u).sliceTicks = (q.task u).sliceTicks) :
    (q'.queue .readyList = c :: (rest ++ new) → s'.sliceAhead t =
      s.sliceAhead t + ((q'.task c).sliceTicks - (q.task c).sliceTicks)) ∧
      (q'.queue .readyList = rest ++ new → s'.sliceAhead t =
        s.sliceAhead t - (q.task c).sliceTicks) := by
  rw [sliceAhead_cons hrep hq hne, ← map_slices t hsame]
  constructor
  · intro hq'
    rw [sliceAhead_cons hrep' hq' hne, takeWhile_append_of_mem ht]
    ring
  · intro hq'
    rw [Sched.sliceAhead, Sched.ahead, hrep'.tasksOn_eq, hq', hrep'.task,
      takeWhile_append_of_mem ht]
    ring

/-- The waiting tasks when there are any. -/
theorem ready_cons (ht : Tracks idle r q) {t : T} (h : t ∈ r.sched.waitingReady) :
    ∃ rest, q.queue .readyList = q.curr :: rest ∧ t ∈ rest ∧ q.curr ∉ rest ∧ q.curr ≠ idle := by
  have hnodup := ht.placed.nodup .readyList
  rw [ht.waitingReady_eq] at h
  cases hq : q.queue .readyList with
  | nil => simp [hq] at h
  | cons c rest =>
      have hc : q.curr = c := by rw [ht.curr, Queues.nextRun, hq]; rfl
      rw [hq] at hnodup h
      subst hc
      exact ⟨rest, rfl, h, (List.nodup_cons.mp hnodup).1,
        ht.placed.ne_idle (l := .readyList) (by simp) (by simp [hq])⟩

/-- A task on the ready queue is not initialised again. -/
theorem ready_old (ht : Tracks idle r q) (he : op.enabled idle r) {u : T}
    (hu : u ∈ q.queue .readyList) : op ≠ .init u := by
  rintro rfl
  exact he.2 (ht.started u ((ht.placed.started_iff u).mp ⟨.readyList, by simp, hu⟩))

theorem sliceAhead_le (ht : Tracks idle r q) (hs : SlicesInRange r) (he : op.enabled idle r)
    {s' : Sched T M S} (hrep : Represents s' (op.queues idle q)) {t : T}
    (h : t ∈ r.sched.waitingReady) : s'.sliceAhead t ≤ r.sched.sliceAhead t ∧
      (op = .tick → s'.sliceAhead t + 1 ≤ r.sched.sliceAhead t) := by
  obtain ⟨rest, hq, hrest, hnot, hidle⟩ := ht.ready_cons h
  have hne : q.curr ≠ t := fun he => hnot (he ▸ hrest)
  have hmem : q.curr ∈ q.queue .readyList := by simp [hq]
  have hpos := (hs q.curr (ht.started _ ((ht.placed.started_iff _).mp
    ⟨.readyList, by simp, hmem⟩))).2.1
  rw [ht.rep.task] at hpos
  have hsame : ∀ u ∈ rest, ((op.queues idle q).task u).sliceTicks = (q.task u).sliceTicks := by
    intro u hu
    have hslices : ((op.queues idle q).task u).slices = (q.task u).slices :=
      Queues.queues_slices (fun _ heq => hnot (heq ▸ hu)) (ht.ready_old he (by simp [hq, hu]))
    exact congrArg Prod.snd hslices
  obtain ⟨new, hstep⟩ := Queues.head_step ht.curr hidle hq (ht.ready_old he hmem)
  obtain ⟨hstay, hleave⟩ := sliceAhead_step ht.rep hrep new hq hrest hne hsame
  rcases hstep with ⟨hq', hle, htick⟩ | hq'
  · rw [hstay hq']
    exact ⟨by omega, fun h => by rw [htick h]; omega⟩
  · rw [hleave hq']
    exact ⟨by omega, fun _ => by omega⟩

theorem fairStep (ht : Tracks idle r q) (hs : SlicesInRange r) (he : op.enabled idle r)
    {s' : Sched T M S} (hrep : Represents s' (op.queues idle q)) : FairStep op r (op.record r s') := by
  have hsched : (op.record r s').sched = s' := by cases op <;> rfl
  have hready := ht.rep.tasksOn_eq .readyList
  have hready' := hrep.tasksOn_eq .readyList
  have hmove : ∀ t ∈ r.sched.waitingReady, ∃ rest new, q.queue .readyList = q.curr :: rest ∧
      t ∈ rest ∧ q.curr ≠ t ∧ ((op.queues idle q).queue .readyList = q.curr :: (rest ++ new) ∨
        (op.queues idle q).queue .readyList = rest ++ new) := by
    intro t h
    obtain ⟨rest, hq, hrest, hnot, hidle⟩ := ht.ready_cons h
    obtain ⟨new, hstep⟩ := Queues.head_step ht.curr hidle hq (ht.ready_old he (by simp [hq]))
    exact ⟨rest, new, hq, hrest, fun he => hnot (he ▸ hrest), hstep.imp And.left id⟩
  refine ⟨?_, fun t h => ?_, fun t h => ?_, fun htick t h => ?_⟩
  · rw [hsched, hready']
    cases hw : r.sched.waitingReady with
    | nil => exact List.nil_sublist _
    | cons t ts =>
        obtain ⟨rest, new, hq, -, -, hq' | hq'⟩ := hmove t (by simp [hw])
        · rw [← hw, ht.waitingReady_eq, hq, hq', List.tail_cons]
          exact ((List.sublist_append_left rest new).cons _)
        · rw [← hw, ht.waitingReady_eq, hq, hq', List.tail_cons]
          exact List.sublist_append_left rest new
  · obtain ⟨rest, new, hq, hrest, hne, hq' | hq'⟩ := hmove t h
    · rw [hsched, hready, hready', hq, hq', List.idxOf_cons_ne _ hne, List.idxOf_cons_ne _ hne,
        List.idxOf_append_of_mem hrest]
    · rw [hsched, hready, hready', hq, hq', List.idxOf_cons_ne _ hne,
        List.idxOf_append_of_mem hrest]
      exact Nat.le_succ _
  · rw [hsched]
    exact (ht.sliceAhead_le hs he hrep h).1
  · rw [hsched]
    exact (ht.sliceAhead_le hs he hrep h).2 htick

end Tracks

/-! ## All runs -/

theorem slicesInRange_of_reach {idle first : T} (hne : first ≠ idle) {r : SchedRun T M S}
    (h : (schedMachine idle first).Reach r) : SlicesInRange r := by
  apply h.invariant' (I := SlicesInRange)
  · rintro _ ⟨s, -, rfl⟩
    exact boot_slices hne s
  · intro r op r' hr hs he hstep
    obtain ⟨q, ht⟩ := tracks_of_reach hne hr
    obtain ⟨s', hs', ht'⟩ := ht.step he
    have heq : op.record r s' = r' := by simpa [schedMachine, hs'] using hstep
    have hrep : Represents s' (op.queues idle q) := by
      have := ht'.rep
      rwa [show (op.record r s').sched = s' by cases op <;> rfl] at this
    exact heq ▸ ht.slices_step hs hrep

theorem fairStep_of_reach {idle first : T} (hne : first ≠ idle) {r r' : SchedRun T M S}
    (h : (schedMachine idle first).Reach r) {op : SchedOp T M S} (he : op.enabled idle r)
    (hstep : (schedMachine idle first).step r op = some r') : FairStep op r r' := by
  obtain ⟨q, ht⟩ := tracks_of_reach hne h
  obtain ⟨s', hs', ht'⟩ := ht.step he
  have heq : op.record r s' = r' := by simpa [schedMachine, hs'] using hstep
  have hrep : Represents s' (op.queues idle q) := by
    have := ht'.rep
    rwa [show (op.record r s').sched = s' by cases op <;> rfl] at this
  exact heq ▸ ht.fairStep (slicesInRange_of_reach hne h) he hrep

/-- The timer ticks of a run. -/
def tickCount (tr : List (SchedOp T M S × SchedRun T M S)) : ℕ :=
  tr.countP fun x => x.1 = .tick

section Runs

variable {idle first : T} {r : SchedRun T M S} {t : T}

theorem ahead_slices (hne : first ≠ idle) (h : (schedMachine idle first).Reach r) :
    ∀ u ∈ r.sched.ahead t, 1 ≤ (r.sched.task u).sliceTicks ∧ (r.sched.task u).sliceTicks ≤ 10 := by
  intro u hu
  obtain ⟨q, ht⟩ := tracks_of_reach hne h
  have hready := List.takeWhile_subset _ hu
  rw [ht.rep.tasksOn_eq] at hready
  have hs := slicesInRange_of_reach hne h u
    (ht.started u ((ht.placed.started_iff u).mp ⟨.readyList, by simp, hready⟩))
  unfold taskTimeSliceDefault at hs
  omega

theorem sliceAhead_le_length (hne : first ≠ idle) (h : (schedMachine idle first).Reach r) :
    r.sched.sliceAhead t ≤ 10 * (r.sched.ahead t).length := by
  have hle := List.sum_le_card_nsmul ((r.sched.ahead t).map fun u => (r.sched.task u).sliceTicks) 10
    fun x hx => by
      obtain ⟨u, hu, rfl⟩ := List.mem_map.mp hx
      exact (ahead_slices hne h u hu).2
  rw [List.length_map, nsmul_eq_mul, mul_comm] at hle
  exact hle

/-- Somebody with time left is ahead of a task that waits. -/
theorem sliceAhead_pos (hne : first ≠ idle) (h : (schedMachine idle first).Reach r)
    (ht : t ∈ r.sched.waitingReady) : 1 ≤ r.sched.sliceAhead t := by
  obtain ⟨q, htr⟩ := tracks_of_reach hne h
  obtain ⟨rest, hq, hrest, hnot, -⟩ := htr.ready_cons ht
  have hcons : r.sched.ahead t = q.curr :: rest.takeWhile fun u => u ≠ t := by
    rw [Sched.ahead, htr.rep.tasksOn_eq, hq, List.takeWhile_cons_of_pos]
    simpa using fun he : q.curr = t => hnot (he ▸ hrest)
  have hall := ahead_slices (t := t) hne h
  rw [Sched.sliceAhead]
  rw [hcons] at hall ⊢
  rw [List.map_cons, List.sum_cons]
  have hhead := (hall q.curr List.mem_cons_self).1
  have hsum : 0 ≤ ((rest.takeWhile fun u => u ≠ t).map fun u => (r.sched.task u).sliceTicks).sum := by
    apply List.sum_nonneg
    intro x hx
    obtain ⟨u, hu, rfl⟩ := List.mem_map.mp hx
    have := (hall u (List.mem_cons_of_mem _ hu)).1
    omega
  omega

/-- While a task waits, the ticks of the run use up the time ahead of it. -/
theorem tickCount_lt (hne : first ≠ idle) {tr : List (SchedOp T M S × SchedRun T M S)}
    (h : (schedMachine idle first).Reach r) (hp : (schedMachine idle first).Path r tr)
    (ht : t ∈ r.sched.waitingReady) (hno : ∀ x ∈ tr, x.2.sched.currTask ≠ some t) :
    (tickCount tr : ℤ) + 1 ≤ r.sched.sliceAhead t := by
  induction hp with
  | nil r =>
      have hpos := sliceAhead_pos hne h ht
      simpa [tickCount] using hpos
  | @cons r r' op tr he hs hp ih =>
      have hfair := fairStep_of_reach hne h he hs
      have hmem : t ∈ r'.sched.waitingReady := by
        refine List.mem_filter.mpr ⟨hfair.order.subset ht, ?_⟩
        simpa using hno (op, r') List.mem_cons_self
      have hih := ih (.step h he hs) hmem fun x hx => hno x (List.mem_cons_of_mem _ hx)
      rw [tickCount, List.countP_cons]
      by_cases htick : op = .tick
      · have hdrop := hfair.tick htick t ht
        rw [tickCount] at hih
        simp only [htick, decide_true, if_true]
        push_cast
        omega
      · have hle := hfair.slices t ht
        rw [tickCount] at hih
        simp only [htick, decide_false, Bool.false_eq_true, if_false, Nat.add_zero]
        omega

end Runs

/-- No overtaking on the ready list, and a bounded wait: ten ticks for every task ahead. -/
theorem ready_list_fair {idle first : T} (hne : first ≠ idle) {r : SchedRun T M S}
    (h : (schedMachine idle first).Reach r) :
    SlicesInRange r ∧
      (∀ op r', op.enabled idle r → (schedMachine idle first).step r op = some r' →
        FairStep op r r') ∧
      ∀ tr, (schedMachine idle first).Path r tr → ∀ k t,
        (r.sched.tasksOn .readyList)[k]? = some t → 10 * k ≤ tickCount tr →
          r.sched.currTask = some t ∨ ∃ x ∈ tr, x.2.sched.currTask = some t := by
  refine ⟨slicesInRange_of_reach hne h, fun op r' he hs => fairStep_of_reach hne h he hs,
    fun tr hp k t hk hticks => ?_⟩
  by_contra hnot
  obtain ⟨hcurr, hno⟩ := not_or.mp hnot
  obtain ⟨q, ht⟩ := tracks_of_reach hne h
  have hnodup : (r.sched.tasksOn .readyList).Nodup := by
    rw [ht.rep.tasksOn_eq]
    exact ht.placed.nodup _
  have hmem : t ∈ r.sched.waitingReady :=
    List.mem_filter.mpr ⟨List.mem_of_getElem? hk, by simpa using hcurr⟩
  have hlt := tickCount_lt hne h hp hmem fun x hx hc => hno ⟨x, hx, hc⟩
  have hle := sliceAhead_le_length (t := t) hne h
  rw [Sched.ahead, length_takeWhile_ne hnodup hk] at hle
  omega

theorem ready_list_fair_twoTasks : ∃ r : SchedRun (Fin 3) Unit Unit,
    r.sched.tasksOn .readyList = [1, 2] ∧ r.sched.currTask = some 1 ∧
      ∀ tr, (schedMachine 0 1).Path r tr → 10 ≤ tickCount tr →
        ∃ x ∈ tr, x.2.sched.currTask = some 2 := by
  have hne : (1 : Fin 3) ≠ 0 := by decide
  refine ⟨_, rfl, rfl, fun tr hp hticks => ((ready_list_fair (M := Unit) (S := Unit) hne
    (.step (a := .start 2) (.step (a := .init 2) (.init ⟨_, Sched.zeroed_free, rfl⟩)
      ⟨by decide, by decide⟩ rfl) ⟨by decide, by decide, by decide, by decide⟩ rfl)).2.2 tr hp 1 2
        rfl (by omega)).resolve_left (by decide)⟩

end X86Os
