import X86Os.SchedQueues

/-!
# Scheduler operations move tasks between queues

`Placed idle started f` says where tasks are: every started task is on exactly one of the queues
`f` other than the list of all tasks, and the idle task is on none. Each scheduler operation moves
a task from one queue to the end of another. Here every operation of the source is shown to
complete and to be represented by its abstract counterpart, as long as the current task is the one
the ready queue asks for.
-/

set_option linter.unusedSectionVars false

namespace X86Os

open LinkedChain

variable {T M S : Type} [DecidableEq T] [DecidableEq M] [DecidableEq S]

theorem kind_eq_allNode {l : ListId M S} : l.kind = .allNode ↔ l = .taskList := by
  cases l <;> simp [ListId.kind]

structure Placed (idle : T) (started : List T) (f : ListId M S → List T) : Prop where
  nodup : ∀ l, (f l).Nodup
  unique : ∀ t l l', l ≠ .taskList → l' ≠ .taskList → t ∈ f l → t ∈ f l' → l = l'
  started_iff : ∀ t, (∃ l, l ≠ .taskList ∧ t ∈ f l) ↔ t ∈ started
  idle_notMem : idle ∉ started

namespace Placed

variable {idle : T} {started : List T} {f : ListId M S → List T}

theorem ne_idle (hp : Placed idle started f) {l : ListId M S} {t : T} (hl : l ≠ .taskList)
    (ht : t ∈ f l) : t ≠ idle := by
  rintro rfl
  exact hp.idle_notMem ((hp.started_iff t).mp ⟨l, hl, ht⟩)

/-- A task taken off its queue is on none. -/
theorem notMem_erase (hp : Placed idle started f) {l l' : ListId M S} {t : T}
    (hl : l ≠ .taskList) (hl' : l' ≠ .taskList) (ht : t ∈ f l) :
    t ∉ Function.update f l ((f l).erase t) l' := by
  by_cases he : l' = l
  · subst l'
    rw [Function.update_self]
    exact (hp.nodup l).not_mem_erase
  · rw [Function.update_of_ne he]
    exact fun hm => he (hp.unique t l' l hl' hl hm ht)

/-- The queues after `t` went from `l` to the end of `l'`. -/
def move (f : ListId M S → List T) (l l' : ListId M S) (t : T) : ListId M S → List T :=
  let g := Function.update f l ((f l).erase t)
  Function.update g l' (g l' ++ [t])

theorem mem_update_erase (hp : Placed idle started f) {l : ListId M S} {t : T} (hl : l ≠ .taskList)
    (ht : t ∈ f l) {k : ListId M S} (hk : k ≠ .taskList) (u : T) :
    u ∈ Function.update f l ((f l).erase t) k ↔ u ≠ t ∧ u ∈ f k := by
  by_cases hu : u = t
  · subst u
    simp [hp.notMem_erase hl hk ht]
  · by_cases he : k = l
    · subst k
      simp [hu, List.mem_erase_of_ne hu]
    · simp [hu, Function.update_of_ne he]

theorem nodup_update_erase (hp : Placed idle started f) (l : ListId M S) (t : T) (k : ListId M S) :
    (Function.update f l ((f l).erase t) k).Nodup := by
  by_cases he : k = l
  · subst k
    simpa using (hp.nodup l).erase t
  · simpa [Function.update_of_ne he] using hp.nodup k

theorem mem_move (hp : Placed idle started f) {l l' : ListId M S} {t : T} (hl : l ≠ .taskList)
    (hl' : l' ≠ .taskList) (ht : t ∈ f l) (k : ListId M S) (hk : k ≠ .taskList) (u : T) :
    u ∈ move f l l' t k ↔ (u = t ∧ k = l') ∨ (u ≠ t ∧ u ∈ f k) := by
  by_cases hkl : k = l'
  · subst k
    simp only [move, Function.update_self, List.mem_append, List.mem_singleton,
      hp.mem_update_erase hl ht hl']
    tauto
  · simp only [move, Function.update_of_ne hkl, hp.mem_update_erase hl ht hk]
    tauto

theorem move_placed (hp : Placed idle started f) {l l' : ListId M S} {t : T} (hl : l ≠ .taskList)
    (hl' : l' ≠ .taskList) (ht : t ∈ f l) : Placed idle started (move f l l' t) := by
  refine ⟨fun k => ?_, fun u k k' hk hk' hu hu' => ?_, fun u => ?_, hp.idle_notMem⟩
  · have hg := hp.nodup_update_erase l t
    by_cases hk : k = l'
    · subst k
      simp only [move, Function.update_self]
      exact (hg l').append (List.nodup_singleton t) (by simpa using hp.notMem_erase hl hl' ht)
    · simpa only [move, Function.update_of_ne hk] using hg k
  · rw [hp.mem_move hl hl' ht k hk] at hu
    rw [hp.mem_move hl hl' ht k' hk'] at hu'
    rcases hu with ⟨rfl, rfl⟩ | ⟨hne, hu⟩
    · rcases hu' with ⟨-, rfl⟩ | ⟨hne, -⟩
      · rfl
      · exact absurd rfl hne
    · rcases hu' with ⟨he, -⟩ | ⟨-, hu'⟩
      · exact absurd he hne
      · exact hp.unique u k k' hk hk' hu hu'
  · rw [← hp.started_iff u]
    by_cases hu : u = t
    · subst u
      exact iff_of_true ⟨l', hl', (hp.mem_move hl hl' ht l' hl' t).mpr (.inl ⟨rfl, rfl⟩)⟩
        ⟨l, hl, ht⟩
    · refine exists_congr fun k => and_congr_right fun hk => ?_
      rw [hp.mem_move hl hl' ht k hk]
      simp [hu]

/-- A task taken off its queue for good. -/
theorem erase_placed (hp : Placed idle started f) {l : ListId M S} {t : T} (hl : l ≠ .taskList)
    (ht : t ∈ f l) : Placed idle (started.filter fun u => u ≠ t)
      (Function.update f l ((f l).erase t)) := by
  refine ⟨hp.nodup_update_erase l t, fun u k k' hk hk' hu hu' => ?_, fun u => ?_, fun hm => ?_⟩
  · rw [hp.mem_update_erase hl ht hk] at hu
    rw [hp.mem_update_erase hl ht hk'] at hu'
    exact hp.unique u k k' hk hk' hu.2 hu'.2
  · rw [List.mem_filter, ← hp.started_iff u]
    constructor
    · rintro ⟨k, hk, hu⟩
      rw [hp.mem_update_erase hl ht hk] at hu
      exact ⟨⟨k, hk, hu.2⟩, by simpa using hu.1⟩
    · rintro ⟨⟨k, hk, hu⟩, hne⟩
      exact ⟨k, hk, (hp.mem_update_erase hl ht hk u).mpr ⟨by simpa using hne, hu⟩⟩
  · exact hp.idle_notMem (List.mem_filter.mp hm).1

/-- A task that was not started joins the queue `l`. -/
theorem push_placed (hp : Placed idle started f) {l : ListId M S} {t : T} (hl : l ≠ .taskList)
    (ht : t ∉ started) (hi : t ≠ idle) :
    Placed idle (t :: started) (Function.update f l (f l ++ [t])) := by
  have hno : ∀ k, k ≠ .taskList → t ∉ f k := fun k hk hm =>
    ht ((hp.started_iff t).mp ⟨k, hk, hm⟩)
  have hmem : ∀ k u, k ≠ .taskList →
      (u ∈ Function.update f l (f l ++ [t]) k ↔ (u = t ∧ k = l) ∨ u ∈ f k) := by
    intro k u hk
    by_cases he : k = l
    · subst k
      simp [or_comm]
    · simp [he]
  refine ⟨fun k => ?_, fun u k k' hk hk' hu hu' => ?_, fun u => ?_, ?_⟩
  · by_cases he : k = l
    · subst k
      rw [Function.update_self]
      exact (hp.nodup l).append (List.nodup_singleton t) (by simpa using hno l hl)
    · rw [Function.update_of_ne he]
      exact hp.nodup k
  · rw [hmem k u hk] at hu
    rw [hmem k' u hk'] at hu'
    rcases hu with ⟨rfl, rfl⟩ | hu
    · rcases hu' with ⟨-, rfl⟩ | hu'
      · rfl
      · exact absurd hu' (hno k' hk')
    · rcases hu' with ⟨rfl, rfl⟩ | hu'
      · exact absurd hu (hno k hk)
      · exact hp.unique u k k' hk hk' hu hu'
  · rw [List.mem_cons, ← hp.started_iff u]
    constructor
    · rintro ⟨k, hk, hu⟩
      rw [hmem k u hk] at hu
      exact hu.imp And.left fun hu => ⟨k, hk, hu⟩
    · rintro (rfl | ⟨k, hk, hu⟩)
      · exact ⟨l, hl, (hmem l u hl).mpr (.inl ⟨rfl, rfl⟩)⟩
      · exact ⟨k, hk, (hmem k u hk).mpr (.inr hu)⟩
  · simpa [Ne.symm hi] using hp.idle_notMem

end Placed

namespace Represents

variable {idle : T} {s : Sched T M S} {q : Queues T M S}

theorem setReady (hr : Represents s q) {t : T}
    (ht : t ≠ idle → ∀ l : ListId M S, l.kind = .runNode → t ∉ q.queue l) :
    Represents (taskSetReady idle t s) (q.setReady idle t) := by
  by_cases hi : t = idle
  · simpa only [taskSetReady, Queues.setReady, if_pos hi] using hr
  · simp only [taskSetReady, Queues.setReady, if_neg hi]
    have hp := hr.insertLast (l := .readyList) (ht hi)
    rw [show (s.insertLast .readyList ⟨t, .runNode⟩).task t = (q.push .readyList t).task t from
      congrFun hp.task t]
    exact hp.setTask _ _

theorem setBlock (hr : Represents s q) {t : T} (ht : t ≠ idle → t ∈ q.queue .readyList) :
    Represents (taskSetBlock idle t s) (q.setBlock idle t) := by
  by_cases hi : t = idle
  · simpa only [taskSetBlock, Queues.setBlock, if_pos hi] using hr
  · simp only [taskSetBlock, Queues.setBlock, if_neg hi]
    exact hr.remove (l := .readyList) (ht hi)

theorem nextRun_eq (hr : Represents s q) : taskNextRun idle s = some (q.nextRun idle) := by
  unfold taskNextRun Queues.nextRun
  rw [hr.count_eq, hr.first_eq]
  cases q.queue .readyList <;> simp [listNodeParent]
  omega

theorem dispatch (hr : Represents s q) : Represents (taskDispatch idle s) (q.dispatch idle) := by
  simp only [taskDispatch, Queues.dispatch, hr.nextRun_eq, hr.curr, Option.some.injEq]
  split_ifs
  · exact hr
  · have hc : Represents { s with currTask := some (q.nextRun idle) }
        { q with curr := q.nextRun idle } :=
      ⟨hr.lists, hr.apart, rfl, hr.task, hr.mutex, hr.sem⟩
    rw [show s.task (q.nextRun idle) = q.task (q.nextRun idle) from congrFun hr.task _]
    exact hc.setTask _ _

theorem setSleep (hr : Represents s q) {t : T} {ticks : ℕ}
    (ht : ∀ l : ListId M S, l.kind = .runNode → t ∉ q.queue l) :
    Represents (taskSetSleep t ticks s) (q.setSleep t ticks) := by
  simp only [taskSetSleep, Queues.setSleep, hr.task]
  split_ifs
  · exact hr
  · exact (hr.setTask t _).insertLast (l := .sleepList) ht

end Represents

/-! ## The queues after an operation -/

namespace Queues

variable {idle : T} (q : Queues T M S)

@[simp] theorem push_queue (l : ListId M S) (t : T) :
    (q.push l t).queue = Function.update q.queue l (q.queue l ++ [t]) := rfl

@[simp] theorem drop_queue (l : ListId M S) (t : T) :
    (q.drop l t).queue = Function.update q.queue l ((q.queue l).erase t) := rfl

@[simp] theorem setTask_queue (t : T) (v : TaskSched) : (q.setTask t v).queue = q.queue := rfl

@[simp] theorem setMutex_queue (m : M) (v : Mutex T) : (q.setMutex m v).queue = q.queue := rfl

@[simp] theorem setSem_queue (x : S) (v : Sem) : (q.setSem x v).queue = q.queue := rfl

@[simp] theorem dispatch_queue : (q.dispatch idle).queue = q.queue := by
  unfold dispatch
  dsimp only
  split_ifs <;> rfl

@[simp] theorem dispatch_curr : (q.dispatch idle).curr = q.nextRun idle := by
  unfold dispatch
  dsimp only
  split_ifs with h
  · exact h.symm
  · rfl

@[simp] theorem setReady_curr (t : T) : (q.setReady idle t).curr = q.curr := by
  unfold setReady
  split_ifs <;> rfl

@[simp] theorem setBlock_curr (t : T) : (q.setBlock idle t).curr = q.curr := by
  unfold setBlock
  split_ifs <;> rfl

theorem setReady_queue {t : T} (ht : t ≠ idle) : (q.setReady idle t).queue =
    Function.update q.queue .readyList (q.queue .readyList ++ [t]) := by
  simp only [setReady, if_neg ht, setTask_queue, push_queue]

theorem setBlock_queue {t : T} (ht : t ≠ idle) : (q.setBlock idle t).queue =
    Function.update q.queue .readyList ((q.queue .readyList).erase t) := by
  simp only [setBlock, if_neg ht, drop_queue]

theorem nextRun_congr {p q : Queues T M S} (h : p.queue .readyList = q.queue .readyList) :
    p.nextRun idle = q.nextRun idle := by
  unfold nextRun
  rw [h]

theorem dispatch_nextRun : (q.dispatch idle).curr = (q.dispatch idle).nextRun idle := by
  rw [dispatch_curr]
  exact nextRun_congr (by rw [dispatch_queue])

/-- A current task other than the idle task heads the ready queue. -/
theorem curr_mem_ready {q : Queues T M S} (hc : q.curr = q.nextRun idle) (hi : q.curr ≠ idle) :
    ∃ ts, q.queue .readyList = q.curr :: ts := by
  cases hq : q.queue .readyList with
  | nil => exact absurd (by simp [hc, nextRun, hq]) hi
  | cons t ts => exact ⟨ts, by simp [hc, nextRun, hq]⟩

end Queues

end X86Os
