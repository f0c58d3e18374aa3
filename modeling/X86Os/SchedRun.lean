import X86Os.Machine
import X86Os.SchedOps

/-!
# Runs of the scheduler

The scheduler as a machine: it starts as `task_manager_init` and `task_first_init` leave it, with any
free mutexes and semaphores, and then takes operations in any order. Only a timer tick may come while
the idle task runs; everything else is a call of the current task. A run remembers which tasks were
initialised and which were started.
-/

set_option linter.unusedSectionVars false

namespace X86Os

open LinkedChain

variable {T M S : Type} [DecidableEq T] [DecidableEq M] [DecidableEq S]

inductive SchedOp (T M S : Type)
  | init (t : T)
  | start (t : T)
  | yield
  | msleep (ms : ℕ)
  | lock (m : M)
  | unlock (m : M)
  | wait (x : S)
  | notify (x : S)
  | tick
deriving DecidableEq

structure SchedRun (T M S : Type) where
  sched : Sched T M S
  initialised : List T
  started : List T

/-- `task_manager_init` followed by `task_first_init`. -/
def schedBoot (idle first : T) (s : Sched T M S) : Sched T M S :=
  taskFirstInit idle first (taskManagerInit idle s)

/-- All mutexes are free and nobody waits for a semaphore, whatever its count. -/
def FreeObjects (s : Sched T M S) : Prop :=
  (∀ m, s.mutex m = { owner := none, lockedCount := 0 } ∧ s.list (.mutexWaitList m) = listInit) ∧
    ∀ x, s.list (.semWaitList x) = listInit

/-- The scheduler's variables before `task_manager_init`. -/
def Sched.zeroed : Sched T M S where
  nodes _ := { pre := none, next := none }
  list _ := listInit
  currTask := none
  task _ := { state := .created, sleepTicks := 0, timeSlice := 0, sliceTicks := 0 }
  mutex _ := { owner := none, lockedCount := 0 }
  sem _ := { count := 0 }

theorem Sched.zeroed_free : FreeObjects (Sched.zeroed : Sched T M S) :=
  ⟨fun _ => ⟨rfl, rfl⟩, fun _ => rfl⟩

def SchedOp.exec (idle : T) (s : Sched T M S) : SchedOp T M S → Option (Sched T M S)
  | .init t => some (taskInit t s)
  | .start t => some (taskStart idle t s)
  | .yield => sysYield idle s
  | .msleep ms => sysMsleep idle ms s
  | .lock m => mutexLock idle m s
  | .unlock m => mutexUnlock idle m s
  | .wait x => semWait idle x s
  | .notify x => semNotify idle x s
  | .tick => taskTimeTick idle s

def SchedOp.enabled (idle : T) (r : SchedRun T M S) : SchedOp T M S → Prop
  | .tick => True
  | .init t => r.sched.currTask ≠ some idle ∧ t ∉ r.initialised
  | .start t => r.sched.currTask ≠ some idle ∧ t ∈ r.initialised ∧ t ∉ r.started ∧ t ≠ idle
  | .msleep ms => r.sched.currTask ≠ some idle ∧ 1 ≤ ms ∧ ms ≤ 2 ^ 31 - 1
  | _ => r.sched.currTask ≠ some idle

def SchedOp.record (r : SchedRun T M S) (s : Sched T M S) : SchedOp T M S → SchedRun T M S
  | .init t => { sched := s, initialised := t :: r.initialised, started := r.started }
  | .start t => { sched := s, initialised := r.initialised, started := t :: r.started }
  | _ => { r with sched := s }

def schedMachine (idle first : T) : Machine (SchedRun T M S) (SchedOp T M S) where
  init r := ∃ s, FreeObjects s ∧
    r = { sched := schedBoot idle first s, initialised := [first, idle], started := [first] }
  enabled r op := op.enabled idle r
  step r op := (op.exec idle r.sched).map fun s => op.record r s

/-- The abstract counterpart of an operation. -/
def SchedOp.queues (idle : T) (q : Queues T M S) : SchedOp T M S → Queues T M S
  | .init t => q.initTask t
  | .start t => q.setReady idle t
  | .yield => q.yield idle
  | .msleep ms => q.msleep idle ms
  | .lock m => q.lock idle m
  | .unlock m => q.unlock idle m
  | .wait x => q.wait idle x
  | .notify x => q.notify idle x
  | .tick => q.tick idle

/-- The run `r` is represented by queues in which every started task has its place. -/
structure Tracks (idle : T) (r : SchedRun T M S) (q : Queues T M S) : Prop where
  rep : Represents r.sched q
  placed : Placed idle r.started q.queue
  curr : q.curr = q.nextRun idle
  initialised : ∀ t, t ∈ q.queue .taskList ↔ t ∈ r.initialised
  started : ∀ t ∈ r.started, t ∈ r.initialised
  idle_initialised : idle ∈ r.initialised

/-! ## The initial state -/

/-- All queues empty. -/
def noQueues (s : Sched T M S) (curr : T) : Queues T M S where
  queue _ := []
  curr := curr
  task := s.task
  mutex := s.mutex
  sem := s.sem

theorem represents_noQueues (s : Sched T M S) (curr : T) (hl : ∀ l, s.list l = listInit)
    (hc : s.currTask = some curr) : Represents s (noQueues s curr) where
  lists l := by
    rw [hl l]
    exact IsList.init _
  apart l l' t _ h := by simp [noQueues] at h
  curr := hc
  task := rfl
  mutex := rfl
  sem := rfl

theorem Represents.initTask {s : Sched T M S} {q : Queues T M S} (hr : Represents s q) {t : T}
    (hall : t ∉ q.queue .taskList)
    (hrun : ∀ l : ListId M S, l.kind = .runNode → t ∉ q.queue l) :
    Represents (taskInit t s) (q.initTask t) := by
  have hfresh : ∀ l k, k ≠ .waitNode →
      (⟨t, k⟩ : TaskNode T) ∉ (q.queue l).map fun u => (⟨u, l.kind⟩ : TaskNode T) := by
    intro l k hk hm
    rw [mem_nodes_iff] at hm
    obtain ⟨rfl, ht⟩ := hm
    cases hkind : l.kind with
    | runNode => exact hrun l hkind ht
    | allNode => exact hall (kind_eq_allNode.mp hkind ▸ ht)
    | waitNode => exact hk hkind
  have hnodes : Represents (((s.setTask t TaskSched.created).initNode ⟨t, .allNode⟩).initNode
      ⟨t, .runNode⟩) (q.setTask t TaskSched.created) := by
    have hr' := hr.setTask t TaskSched.created
    refine ⟨fun l => (hr'.lists l).congr fun n hn => ?_, hr'.apart, hr'.curr, hr'.task, hr'.mutex,
      hr'.sem⟩
    have h1 : n ≠ ⟨t, .runNode⟩ := fun he => hfresh l .runNode (by simp) (he ▸ hn)
    have h2 : n ≠ ⟨t, .allNode⟩ := fun he => hfresh l .allNode (by simp) (he ▸ hn)
    simp only [Sched.initNode, listNodeInit, Function.update_of_ne h1, Function.update_of_ne h2]
  apply hnodes.insertLast (l := .taskList)
  intro l hk
  rw [kind_eq_allNode.mp (show l.kind = .allNode from hk)]
  exact hall

theorem Queues.initTask_queue (q : Queues T M S) (t : T) : (q.initTask t).queue =
    Function.update q.queue .taskList (q.queue .taskList ++ [t]) := rfl

/-- `task_list` is not one of the queues that place a task. -/
theorem Placed.initTask {idle : T} {started : List T} {q : Queues T M S}
    (hp : Placed idle started q.queue) {t : T} (ht : t ∉ q.queue .taskList) :
    Placed idle started (q.initTask t).queue := by
  rw [Queues.initTask_queue]
  refine ⟨fun l => ?_, fun u l l' hl hl' => ?_, fun u => ?_, hp.idle_notMem⟩
  · by_cases he : l = .taskList
    · subst l
      rw [Function.update_self]
      exact (hp.nodup _).append (List.nodup_singleton t) (by simpa using ht)
    · rw [Function.update_of_ne he]
      exact hp.nodup l
  · rw [Function.update_of_ne hl, Function.update_of_ne hl']
    exact hp.unique u l l' hl hl'
  · rw [← hp.started_iff u]
    refine exists_congr fun l => and_congr_right fun hl => ?_
    rw [Function.update_of_ne hl]

theorem tracks_boot {idle first : T} (hne : first ≠ idle) {s : Sched T M S}
    (hs : FreeObjects s) : ∃ q, Tracks idle
      { sched := schedBoot idle first s, initialised := [first, idle], started := [first] } q := by
  let s₁ : Sched T M S :=
    { ((s.initList .readyList).initList .taskList).initList .sleepList with
      currTask := some first }
  have hl : ∀ l, s₁.list l = listInit := by
    intro l
    cases l with
    | readyList => simp [s₁, Sched.initList]
    | taskList => simp [s₁, Sched.initList]
    | sleepList => simp [s₁, Sched.initList]
    | mutexWaitList m => simpa [s₁, Sched.initList] using (hs.1 m).2
    | semWaitList x => simpa [s₁, Sched.initList] using hs.2 x
  let q₁ : Queues T M S := noQueues s₁ first
  have hr₁ : Represents s₁ q₁ := represents_noQueues s₁ first hl rfl
  have hp₁ : Placed idle [] q₁.queue :=
    ⟨fun _ => List.nodup_nil, fun t l l' _ _ h => by simp [q₁, noQueues] at h,
      fun t => by simp [q₁, noQueues], by simp⟩
  have hr₂ := hr₁.initTask (t := idle) (by simp [q₁, noQueues]) (by simp [q₁, noQueues])
  have hp₂ := hp₁.initTask (t := idle) (by simp [q₁, noQueues])
  have hrun : ∀ l : ListId M S, l.kind = .runNode → first ∉ (q₁.initTask idle).queue l := by
    intro l hk
    rw [Queues.initTask_queue, Function.update_of_ne (ne_taskList_of_runNode hk)]
    simp [q₁, noQueues]
  have hall : first ∉ (q₁.initTask idle).queue .taskList := by
    simp [Queues.initTask_queue, q₁, noQueues, hne]
  have hr₃ := hr₂.initTask hall hrun
  have hp₃ := hp₂.initTask hall
  have hrun' : ∀ l : ListId M S, l.kind = .runNode →
      first ∉ ((q₁.initTask idle).initTask first).queue l := by
    intro l hk
    rw [Queues.initTask_queue, Function.update_of_ne (ne_taskList_of_runNode hk)]
    exact hrun l hk
  have hr₄ : Represents _ (((q₁.initTask idle).initTask first).setReady idle first) :=
    hr₃.setReady fun _ => hrun'
  have hboot : schedBoot idle first s =
      taskSetReady idle first (taskInit first (taskInit idle s₁)) := by
    simp only [schedBoot, taskFirstInit, taskManagerInit, taskStart, taskSetReady, if_true]
    rfl
  refine ⟨_, by rw [hboot]; exact hr₄, ?_, ?_, ?_, ?_, ?_⟩
  · rw [Queues.setReady_queue _ hne]
    exact hp₃.push_placed (by simp) (by simp) hne
  · rw [Queues.setReady_curr, Queues.nextRun, Queues.setReady_queue _ hne]
    simp [Queues.initTask_queue, q₁, noQueues]
    rfl
  · intro t
    rw [Queues.setReady_queue _ hne]
    simp [Queues.initTask_queue, q₁, noQueues, or_comm]
  · simp
  · simp

/-- Nobody sleeps or waits after the boot. -/
theorem schedBoot_list {idle first : T} (hne : first ≠ idle) {s : Sched T M S} (hs : FreeObjects s)
    {l : ListId M S} (hr : l ≠ .readyList) (ha : l ≠ .taskList) :
    (schedBoot idle first s).list l = listInit := by
  simp only [schedBoot, taskFirstInit, taskManagerInit, taskStart, taskSetReady, if_true,
    if_neg hne]
  cases l with
  | readyList => exact absurd rfl hr
  | taskList => exact absurd rfl ha
  | sleepList => rfl
  | mutexWaitList m => exact (hs.1 m).2
  | semWaitList x => exact hs.2 x

/-! ## One step -/

/-- The lists an operation may change. -/
def SchedOp.touches : SchedOp T M S → ListId M S → Prop
  | .init _, l => l = .taskList
  | .start _, l => l = .readyList
  | .yield, l => l = .readyList
  | .msleep _, l => l = .readyList ∨ l = .sleepList
  | .tick, l => l = .readyList ∨ l = .sleepList
  | .lock m, l => l = .readyList ∨ l = .mutexWaitList m
  | .unlock m, l => l = .readyList ∨ l = .mutexWaitList m
  | .wait x, l => l = .readyList ∨ l = .semWaitList x
  | .notify x, l => l = .readyList ∨ l = .semWaitList x

namespace Queues

variable {idle : T} {q : Queues T M S}

theorem setReady_frame {l : ListId M S} (hl : l ≠ .readyList) (t : T) :
    (q.setReady idle t).queue l = q.queue l := by
  unfold setReady
  split_ifs
  · rfl
  · simp [hl]

theorem setBlock_frame {l : ListId M S} (hl : l ≠ .readyList) (t : T) :
    (q.setBlock idle t).queue l = q.queue l := by
  unfold setBlock
  split_ifs
  · rfl
  · simp [hl]

theorem sliceTick_frame {l : ListId M S} (hl : l ≠ .readyList) :
    (q.sliceTick idle).queue l = q.queue l := by
  simp only [sliceTick]
  split_ifs
  · rw [setReady_frame hl, setBlock_frame hl]
    rfl
  · rfl

theorem wake_frame {l : ListId M S} (hl : l ≠ .readyList) (hs : l ≠ .sleepList) (ts : List T) :
    (q.wake idle ts).queue l = q.queue l := by
  induction ts generalizing q with
  | nil => rfl
  | cons t ts ih =>
      rw [wake, ih]
      simp only [wakeOne]
      split_ifs
      · rw [setReady_frame hl]
        simp [hs]
      · rfl

/-- An operation leaves the other lists alone. -/
theorem queues_frame {op : SchedOp T M S} {l : ListId M S} (hl : ¬ op.touches l) :
    (op.queues idle q).queue l = q.queue l := by
  cases op with
  | init t =>
      rw [SchedOp.touches] at hl
      simp [SchedOp.queues, initTask, hl]
  | start t => exact setReady_frame hl t
  | yield =>
      simp only [SchedOp.queues, yield]
      split_ifs
      · rw [dispatch_queue, setReady_frame hl, setBlock_frame hl]
      · rfl
  | msleep ms =>
      obtain ⟨hr, hs⟩ := not_or.mp hl
      simp only [SchedOp.queues, msleep, dispatch_queue, setSleep]
      split_ifs <;> simp [setBlock_frame hr, hs]
  | lock m =>
      obtain ⟨hr, hm⟩ := not_or.mp hl
      simp only [SchedOp.queues, lock]
      split_ifs
      · rfl
      · rfl
      · rw [dispatch_queue, setBlock_frame hr]
        simp [hm]
  | unlock m =>
      obtain ⟨hr, hm⟩ := not_or.mp hl
      simp only [SchedOp.queues, unlock]
      split_ifs
      · split
        · rfl
        · rw [dispatch_queue, setReady_frame hr]
          simp [hm]
      · rfl
      · rfl
  | wait x =>
      obtain ⟨hr, hx⟩ := not_or.mp hl
      simp only [SchedOp.queues, wait]
      split_ifs
      · rfl
      · simp [setBlock_frame hr, hx]
  | notify x =>
      obtain ⟨hr, hx⟩ := not_or.mp hl
      simp only [SchedOp.queues, notify]
      split
      · rfl
      · rw [dispatch_queue, setReady_frame hr]
        simp [hx]
  | tick =>
      obtain ⟨hr, hs⟩ := not_or.mp hl
      simp only [SchedOp.queues, tick, dispatch_queue, wake_frame hr hs, sliceTick_frame hr]

theorem setReady_mutex (t : T) : (q.setReady idle t).mutex = q.mutex := by
  unfold setReady
  split_ifs <;> rfl

theorem setBlock_mutex (t : T) : (q.setBlock idle t).mutex = q.mutex := by
  unfold setBlock
  split_ifs <;> rfl

theorem dispatch_mutex : (q.dispatch idle).mutex = q.mutex := by
  unfold dispatch
  dsimp only
  split_ifs <;> rfl

theorem wake_mutex (ts : List T) : (q.wake idle ts).mutex = q.mutex := by
  induction ts generalizing q with
  | nil => rfl
  | cons t ts ih =>
      rw [wake, ih]
      simp only [wakeOne]
      split_ifs
      · rw [setReady_mutex]
        rfl
      · rfl

theorem sliceTick_mutex : (q.sliceTick idle).mutex = q.mutex := by
  simp only [sliceTick]
  split_ifs
  · rw [setReady_mutex, setBlock_mutex]
    rfl
  · rfl

/-- Only `mutex_lock` and `mutex_unlock` change a mutex. -/
theorem queues_mutex {op : SchedOp T M S} {m : M} (hl : op ≠ .lock m) (hu : op ≠ .unlock m) :
    (op.queues idle q).mutex m = q.mutex m := by
  cases op with
  | init t => rfl
  | start t => exact congrFun (setReady_mutex t) m
  | yield =>
      simp only [SchedOp.queues, yield]
      split_ifs
      · rw [dispatch_mutex, setReady_mutex, setBlock_mutex]
      · rfl
  | msleep ms =>
      simp only [SchedOp.queues, msleep, dispatch_mutex, setSleep]
      split_ifs <;> exact congrFun (setBlock_mutex _) m
  | lock m' =>
      have hne : m ≠ m' := fun he => hl (he ▸ rfl)
      simp only [SchedOp.queues, lock]
      split_ifs
      · exact Function.update_of_ne hne _ _
      · exact Function.update_of_ne hne _ _
      · rw [dispatch_mutex, setBlock_mutex]
        rfl
  | unlock m' =>
      have hne : m ≠ m' := fun he => hu (he ▸ rfl)
      simp only [SchedOp.queues, unlock]
      split_ifs
      · split
        · exact Function.update_of_ne hne _ _
        · rw [dispatch_mutex, setReady_mutex]
          exact Function.update_of_ne hne _ _
      · exact Function.update_of_ne hne _ _
      · rfl
  | wait x =>
      simp only [SchedOp.queues, wait]
      split_ifs
      · rfl
      · rw [dispatch_mutex]
        exact congrFun (setBlock_mutex _) m
  | notify x =>
      simp only [SchedOp.queues, notify]
      split
      · rfl
      · rw [dispatch_mutex, setReady_mutex]
        rfl
  | tick =>
      simp only [SchedOp.queues, tick, dispatch_mutex, wake_mutex, sliceTick_mutex]

/-- Only `task_init` inserts into the list of all tasks. -/
theorem queues_taskList {op : SchedOp T M S} (hop : ∀ t, op ≠ .init t) :
    (op.queues idle q).queue .taskList = q.queue .taskList := by
  apply queues_frame
  cases op with
  | init t => exact absurd rfl (hop t)
  | _ => simp [SchedOp.touches]

/-- A task that becomes ready while another one runs does not become the current task. -/
theorem setReady_nextRun (hc : q.curr = q.nextRun idle) (hi : q.curr ≠ idle) (t : T) :
    (q.setReady idle t).curr = (q.setReady idle t).nextRun idle := by
  obtain ⟨ts, hts⟩ := curr_mem_ready hc hi
  rw [setReady_curr]
  by_cases ht : t = idle
  · simpa only [setReady, if_pos ht] using hc
  · simp [nextRun, setReady_queue q ht, hts]

end Queues

namespace Tracks

variable {idle : T} {r : SchedRun T M S} {q : Queues T M S}

theorem curr_ne_idle (ht : Tracks idle r q) (hi : r.sched.currTask ≠ some idle) :
    q.curr ≠ idle := by
  rw [ht.rep.curr] at hi
  exact fun he => hi (congrArg some he)

/-- Only `task_init` and `task_start` change which tasks are initialised and started. -/
theorem of_queues (ht : Tracks idle r q) {s' : Sched T M S} (op : SchedOp T M S)
    (hinit : ∀ t, op ≠ .init t) (hrep : Represents s' (op.queues idle q))
    (hplaced : Placed idle r.started (op.queues idle q).queue)
    (hcurr : (op.queues idle q).curr = (op.queues idle q).nextRun idle) :
    Tracks idle { r with sched := s' } (op.queues idle q) where
  rep := hrep
  placed := hplaced
  curr := hcurr
  initialised t := by
    rw [Queues.queues_taskList hinit]
    exact ht.initialised t
  started := ht.started
  idle_initialised := ht.idle_initialised

theorem init (ht : Tracks idle r q) {t : T} (hn : t ∉ r.initialised) :
    Tracks idle { sched := taskInit t r.sched, initialised := t :: r.initialised,
                  started := r.started } (q.initTask t) := by
  have hall : t ∉ q.queue .taskList := fun hm => hn ((ht.initialised t).mp hm)
  have hrun : ∀ l : ListId M S, l.kind = .runNode → t ∉ q.queue l := by
    intro l hk hm
    exact hn (ht.started t ((ht.placed.started_iff t).mp ⟨l, ne_taskList_of_runNode hk, hm⟩))
  refine ⟨ht.rep.initTask hall hrun, ht.placed.initTask hall, ?_, fun u => ?_, fun u hu => ?_, ?_⟩
  · exact ht.curr.trans (Queues.nextRun_congr (by simp [Queues.initTask_queue]))
  · simp [Queues.initTask_queue, ht.initialised u, or_comm]
  · exact List.mem_cons_of_mem t (ht.started u hu)
  · exact List.mem_cons_of_mem t ht.idle_initialised

theorem start (ht : Tracks idle r q) (hi : q.curr ≠ idle) {t : T} (hin : t ∈ r.initialised)
    (hn : t ∉ r.started) (hne : t ≠ idle) :
    Tracks idle { sched := taskStart idle t r.sched, initialised := r.initialised,
                  started := t :: r.started } (q.setReady idle t) := by
  have hno : ∀ l : ListId M S, l.kind = .runNode → t ∉ q.queue l := by
    intro l hk hm
    exact hn ((ht.placed.started_iff t).mp ⟨l, ne_taskList_of_runNode hk, hm⟩)
  refine ⟨ht.rep.setReady fun _ => hno, ?_, Queues.setReady_nextRun ht.curr hi t, fun u => ?_,
    fun u hu => ?_, ht.idle_initialised⟩
  · rw [Queues.setReady_queue _ hne]
    exact ht.placed.push_placed (by simp) hn hne
  · rw [Queues.setReady_frame (by simp)]
    exact ht.initialised u
  · rcases List.mem_cons.mp hu with rfl | hu
    · exact hin
    · exact ht.started u hu

/-- Every operation that may be taken completes and keeps the representation. -/
theorem step (ht : Tracks idle r q) {op : SchedOp T M S} (he : op.enabled idle r) :
    ∃ s', op.exec idle r.sched = some s' ∧ Tracks idle (op.record r s') (op.queues idle q) := by
  cases op with
  | init t => exact ⟨_, rfl, ht.init he.2⟩
  | start t => exact ⟨_, rfl, ht.start (ht.curr_ne_idle he.1) he.2.1 he.2.2.1 he.2.2.2⟩
  | yield =>
      obtain ⟨s', hs, hr⟩ := ht.rep.yield ht.placed ht.curr
      exact ⟨s', hs, ht.of_queues .yield (by simp) hr (ht.placed.yield ht.curr)
        (Queues.yield_curr ht.curr)⟩
  | msleep ms =>
      obtain ⟨hcurr, h1, h2⟩ := he
      have hi := ht.curr_ne_idle hcurr
      obtain ⟨s', hs, hr⟩ := ht.rep.msleep ht.placed ht.curr hi ms
      exact ⟨s', hs, ht.of_queues (.msleep ms) (by simp) hr
        (ht.placed.msleep ht.curr hi (msleepTicks_pos (by omega))) (Queues.dispatch_nextRun _)⟩
  | lock m =>
      have hi := ht.curr_ne_idle he
      obtain ⟨s', hs, hr⟩ := ht.rep.lock ht.placed ht.curr hi m
      exact ⟨s', hs, ht.of_queues (.lock m) (by simp) hr (ht.placed.lock ht.curr hi m)
        (Queues.lock_curr ht.curr m)⟩
  | unlock m =>
      obtain ⟨s', hs, hr⟩ := ht.rep.unlock ht.placed m
      exact ⟨s', hs, ht.of_queues (.unlock m) (by simp) hr (ht.placed.unlock m)
        (Queues.unlock_curr ht.curr m)⟩
  | wait x =>
      have hi := ht.curr_ne_idle he
      obtain ⟨s', hs, hr⟩ := ht.rep.wait ht.placed ht.curr hi x
      exact ⟨s', hs, ht.of_queues (.wait x) (by simp) hr (ht.placed.wait ht.curr hi x)
        (Queues.wait_curr ht.curr x)⟩
  | notify x =>
      obtain ⟨s', hs, hr⟩ := ht.rep.notify ht.placed x
      exact ⟨s', hs, ht.of_queues (.notify x) (by simp) hr (ht.placed.notify x)
        (Queues.notify_curr ht.curr x)⟩
  | tick =>
      obtain ⟨s', hs, hr, hp⟩ := ht.rep.tick ht.placed ht.curr
      exact ⟨s', hs, ht.of_queues .tick (by simp) hr hp Queues.tick_curr⟩

end Tracks

/-! ## All runs -/

theorem tracks_of_reach {idle first : T} (hne : first ≠ idle) {r : SchedRun T M S}
    (h : (schedMachine idle first).Reach r) : ∃ q, Tracks idle r q := by
  apply h.invariant (I := fun r : SchedRun T M S => ∃ q, Tracks idle r q)
  · rintro _ ⟨s, hs, rfl⟩
    exact tracks_boot hne hs
  · rintro r op r' ⟨q, ht⟩ he hs
    obtain ⟨s', hs', ht'⟩ := ht.step he
    have hr : r' = op.record r s' := by
      simpa [schedMachine, hs'] using hs.symm
    exact ⟨_, hr ▸ ht'⟩

/-- The lists are well formed, every started task is on exactly one of them by its running or
waiting node, the idle task is on none, and the current task heads the ready list. -/
def QueueInvariant (idle : T) (r : SchedRun T M S) : Prop :=
  ∃ f : ListId M S → List T,
    (∀ l, IsList r.sched.nodes (r.sched.list l) ((f l).map fun t => ⟨t, l.kind⟩)) ∧
    (∀ l, (f l).Nodup) ∧
    (∀ t, t ∈ r.started → ∃! l, l ≠ .taskList ∧ t ∈ f l) ∧
    (∀ l, l ≠ .taskList → ∀ t ∈ f l, t ∈ r.started ∧ t ≠ idle) ∧
    r.sched.currTask = some ((f .readyList).head?.getD idle)

theorem Tracks.queueInvariant {idle : T} {r : SchedRun T M S} {q : Queues T M S}
    (ht : Tracks idle r q) : QueueInvariant idle r := by
  refine ⟨q.queue, ht.rep.lists, ht.placed.nodup, fun t hs => ?_, fun l hl t hm => ?_, ?_⟩
  · obtain ⟨l, hl, hm⟩ := (ht.placed.started_iff t).mpr hs
    exact ⟨l, ⟨hl, hm⟩, fun l' h' => ht.placed.unique t l' l h'.1 hl h'.2 hm⟩
  · exact ⟨(ht.placed.started_iff t).mp ⟨l, hl, hm⟩, ht.placed.ne_idle hl hm⟩
  · rw [ht.rep.curr, ht.curr, Queues.nextRun]

/-- The queue invariant holds after every run of the scheduler, and no operation that may be taken
gets stuck. -/
theorem scheduler_queue_invariant {idle first : T} (hne : first ≠ idle) {r : SchedRun T M S}
    (h : (schedMachine idle first).Reach r) :
    QueueInvariant idle r ∧
      ∀ op : SchedOp T M S, op.enabled idle r →
        ∃ r', (schedMachine idle first).step r op = some r' := by
  obtain ⟨q, ht⟩ := tracks_of_reach hne h
  refine ⟨ht.queueInvariant, fun op he => ?_⟩
  obtain ⟨s', hs, -⟩ := ht.step he
  exact ⟨op.record r s', by simp [schedMachine, hs]⟩

theorem scheduler_queue_invariant_yield : ∃ r : SchedRun (Fin 3) Unit Unit,
    r.started = [2, 1] ∧ r.sched.currTask = some 2 ∧ QueueInvariant 0 r := by
  have hne : (1 : Fin 3) ≠ 0 := by decide
  refine ⟨_, rfl, rfl, (scheduler_queue_invariant (M := Unit) (S := Unit) hne
    (.step (a := .yield) (.step (a := .start 2) (.step (a := .init 2)
      (.init ⟨_, Sched.zeroed_free, rfl⟩) ⟨by decide, by decide⟩ rfl)
        ⟨by decide, by decide, by decide, by decide⟩ rfl) (show _ ≠ _ by decide) rfl)).1⟩

end X86Os
