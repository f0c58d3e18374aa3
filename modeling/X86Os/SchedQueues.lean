import X86Os.Sched

/-!
# The scheduler as queues of tasks

The abstract state keeps a sequence of tasks for every list instead of nodes and links, and always
has a current task. `Represents s q` relates it to the scheduler state: every list header describes
its sequence, and a task is on at most one of the lists that queue it by the same node. Under the
stated membership conditions each list operation of the source is the obvious operation on
sequences, although `list_remove` itself checks nothing.
-/

set_option linter.unusedSectionVars false

namespace X86Os

open LinkedChain

structure Queues (T M S : Type) where
  queue : ListId M S → List T
  curr : T
  task : T → TaskSched
  mutex : M → Mutex T
  sem : S → Sem

variable {T M S : Type} [DecidableEq T] [DecidableEq M] [DecidableEq S]

namespace Queues

variable (idle : T)

def push (l : ListId M S) (t : T) (q : Queues T M S) : Queues T M S :=
  { q with queue := Function.update q.queue l (q.queue l ++ [t]) }

def drop (l : ListId M S) (t : T) (q : Queues T M S) : Queues T M S :=
  { q with queue := Function.update q.queue l ((q.queue l).erase t) }

def setTask (t : T) (v : TaskSched) (q : Queues T M S) : Queues T M S :=
  { q with task := Function.update q.task t v }

def setMutex (m : M) (v : Mutex T) (q : Queues T M S) : Queues T M S :=
  { q with mutex := Function.update q.mutex m v }

def setSem (x : S) (v : Sem) (q : Queues T M S) : Queues T M S :=
  { q with sem := Function.update q.sem x v }

def setReady (t : T) (q : Queues T M S) : Queues T M S :=
  if t = idle then q
  else
    let q := q.push .readyList t
    q.setTask t { q.task t with state := .ready }

def setBlock (t : T) (q : Queues T M S) : Queues T M S :=
  if t = idle then q else q.drop .readyList t

def nextRun (q : Queues T M S) : T := (q.queue .readyList).head?.getD idle

def dispatch (q : Queues T M S) : Queues T M S :=
  let t := q.nextRun idle
  if t = q.curr then q else { q with curr := t }.setTask t { q.task t with state := .running }

def initTask (t : T) (q : Queues T M S) : Queues T M S :=
  (q.setTask t TaskSched.created).push .taskList t

def yield (q : Queues T M S) : Queues T M S :=
  if 1 < (q.queue .readyList).length then
    ((q.setBlock idle q.curr).setReady idle q.curr).dispatch idle
  else q

def sliceTick (q : Queues T M S) : Queues T M S :=
  let c := q.task q.curr
  let p := q.setTask q.curr { c with sliceTicks := c.sliceTicks - 1 }
  if c.sliceTicks - 1 = 0 then
    let p := p.setTask q.curr { c with sliceTicks := c.timeSlice }
    (p.setBlock idle q.curr).setReady idle q.curr
  else p

/-- One sleeping task at a tick. -/
def wakeOne (t : T) (q : Queues T M S) : Queues T M S :=
  let c := q.task t
  let q := q.setTask t { c with sleepTicks := c.sleepTicks - 1 }
  if c.sleepTicks - 1 = 0 then (q.drop .sleepList t).setReady idle t else q

def wake : List T → Queues T M S → Queues T M S
  | [], q => q
  | t :: ts, q => wake ts (q.wakeOne idle t)

def tick (q : Queues T M S) : Queues T M S :=
  let q := q.sliceTick idle
  (wake idle (q.queue .sleepList) q).dispatch idle

def setSleep (t : T) (ticks : ℕ) (q : Queues T M S) : Queues T M S :=
  if ticks = 0 then q
  else (q.setTask t { q.task t with sleepTicks := ticks, state := .sleep }).push .sleepList t

def msleep (ms : ℕ) (q : Queues T M S) : Queues T M S :=
  let ms := if ms < osTickMs then osTickMs else ms
  ((q.setBlock idle q.curr).setSleep q.curr (u32 (ms + (osTickMs - 1)) / osTickMs)).dispatch idle

def lock (m : M) (q : Queues T M S) : Queues T M S :=
  let mx := q.mutex m
  if mx.lockedCount = 0 then q.setMutex m { owner := some q.curr, lockedCount := 1 }
  else if mx.owner = some q.curr then
    q.setMutex m { mx with lockedCount := i32 (mx.lockedCount + 1) }
  else ((q.push (.mutexWaitList m) q.curr).setBlock idle q.curr).dispatch idle

def unlock (m : M) (q : Queues T M S) : Queues T M S :=
  let mx := q.mutex m
  if mx.owner = some q.curr then
    let count := i32 (mx.lockedCount - 1)
    if count = 0 then
      match q.queue (.mutexWaitList m) with
      | [] => q.setMutex m { owner := none, lockedCount := 0 }
      | t :: _ =>
        (((q.drop (.mutexWaitList m) t).setMutex m { owner := some t, lockedCount := 1 }).setReady
          idle t).dispatch idle
    else q.setMutex m { mx with lockedCount := count }
  else q

def wait (x : S) (q : Queues T M S) : Queues T M S :=
  if (q.sem x).count > 0 then q.setSem x { count := i32 ((q.sem x).count - 1) }
  else ((q.setBlock idle q.curr).push (.semWaitList x) q.curr).dispatch idle

def notify (x : S) (q : Queues T M S) : Queues T M S :=
  match q.queue (.semWaitList x) with
  | [] => q.setSem x { count := i32 ((q.sem x).count + 1) }
  | t :: _ => ((q.drop (.semWaitList x) t).setReady idle t).dispatch idle

end Queues

/-- The tasks on a list, in order. -/
def Sched.tasksOn (l : ListId M S) (s : Sched T M S) : List T :=
  (listNodes s.nodes (s.list l)).map TaskNode.task

/-- The scheduler state `s` holds exactly the queues `q`. -/
structure Represents (s : Sched T M S) (q : Queues T M S) : Prop where
  lists : ∀ l, IsList s.nodes (s.list l) ((q.queue l).map fun t => ⟨t, l.kind⟩)
  apart : ∀ l l' t, l.kind = l'.kind → t ∈ q.queue l → t ∈ q.queue l' → l = l'
  curr : s.currTask = some q.curr
  task : s.task = q.task
  mutex : s.mutex = q.mutex
  sem : s.sem = q.sem

theorem mem_nodes_iff {ts : List T} {k : NodeKind} {n : TaskNode T} :
    n ∈ ts.map (fun t => (⟨t, k⟩ : TaskNode T)) ↔ n.kind = k ∧ n.task ∈ ts := by
  constructor
  · intro hn
    obtain ⟨t, ht, rfl⟩ := List.mem_map.mp hn
    exact ⟨rfl, ht⟩
  · rintro ⟨rfl, ht⟩
    exact List.mem_map.mpr ⟨n.task, ht, rfl⟩

theorem erase_nodes (ts : List T) (k : NodeKind) (t : T) :
    (ts.map fun t => (⟨t, k⟩ : TaskNode T)).erase ⟨t, k⟩ =
      (ts.erase t).map fun t => (⟨t, k⟩ : TaskNode T) := by
  have hinj : Function.Injective fun t : T => (⟨t, k⟩ : TaskNode T) := by
    intro a b hab
    exact congrArg TaskNode.task hab
  exact (List.map_erase hinj ts).symm

namespace Represents

variable {s : Sched T M S} {q : Queues T M S}

theorem tasksOn_eq (hr : Represents s q) (l : ListId M S) : s.tasksOn l = q.queue l := by
  rw [Sched.tasksOn, (hr.lists l).listNodes_eq, List.map_map]
  exact List.map_id _

theorem count_eq (hr : Represents s q) (l : ListId M S) :
    listCount (s.list l) = (q.queue l).length := by
  rw [listCount, (hr.lists l).count_eq, List.length_map]

theorem first_eq (hr : Represents s q) (l : ListId M S) :
    listFirst (s.list l) = (q.queue l).head?.map fun t => ⟨t, l.kind⟩ := by
  rw [listFirst, (hr.lists l).first_eq, List.head?_map]

/-- A node outside the list `l` is not among the nodes of another list's queue. -/
theorem node_notMem (hr : Represents s q) {l l' : ListId M S} (hne : l' ≠ l) {n : TaskNode T}
    (hn : n ∈ (q.queue l').map fun t => (⟨t, l'.kind⟩ : TaskNode T)) :
    n ∉ (q.queue l).map fun t => (⟨t, l.kind⟩ : TaskNode T) := by
  rw [mem_nodes_iff] at hn ⊢
  rintro ⟨hk, ht⟩
  exact hne (hr.apart l' l n.task (hn.1.symm.trans hk) hn.2 ht)

theorem insertLast (hr : Represents s q) {l : ListId M S} {t : T}
    (ht : ∀ l', l'.kind = l.kind → t ∉ q.queue l') :
    Represents (s.insertLast l ⟨t, l.kind⟩) (q.push l t) := by
  have hnew : (⟨t, l.kind⟩ : TaskNode T) ∉ (q.queue l).map fun t => (⟨t, l.kind⟩ : TaskNode T) :=
    fun hm => ht l rfl (mem_nodes_iff.mp hm).2
  refine ⟨fun l' => ?_, fun l₁ l₂ u hk h₁ h₂ => ?_, hr.curr, hr.task, hr.mutex, hr.sem⟩
  · by_cases hl : l' = l
    · subst l'
      simp only [Sched.insertLast, Queues.push, Function.update_self, List.map_append]
      exact (hr.lists l).insertLast hnew
    · simp only [Sched.insertLast, Queues.push, Function.update_of_ne hl]
      apply (hr.lists l').congr
      intro n hn
      apply (hr.lists l).insertLast_frame (hr.node_notMem hl hn)
      rintro rfl
      rw [mem_nodes_iff] at hn
      exact ht l' hn.1.symm hn.2
  · simp only [Queues.push, Function.update_apply] at h₁ h₂
    by_cases hl₁ : l₁ = l <;> by_cases hl₂ : l₂ = l
    · rw [hl₁, hl₂]
    · subst l₁
      rw [if_pos rfl, List.mem_append, List.mem_singleton] at h₁
      rw [if_neg hl₂] at h₂
      rcases h₁ with h₁ | rfl
      · exact hr.apart l l₂ u hk h₁ h₂
      · exact absurd h₂ (ht l₂ hk.symm)
    · subst l₂
      rw [if_pos rfl, List.mem_append, List.mem_singleton] at h₂
      rw [if_neg hl₁] at h₁
      rcases h₂ with h₂ | rfl
      · exact hr.apart l₁ l u hk h₁ h₂
      · exact absurd h₁ (ht l₁ hk)
    · rw [if_neg hl₁] at h₁
      rw [if_neg hl₂] at h₂
      exact hr.apart l₁ l₂ u hk h₁ h₂

/-- Queues that only lose tasks stay apart. -/
theorem apart_of_subset (hr : Represents s q) {f : ListId M S → List T}
    (hf : ∀ l t, t ∈ f l → t ∈ q.queue l) (l l' : ListId M S) (t : T) (hk : l.kind = l'.kind)
    (h : t ∈ f l) (h' : t ∈ f l') : l = l' :=
  hr.apart l l' t hk (hf l t h) (hf l' t h')

theorem mem_of_mem_drop {l l' : ListId M S} {t u : T}
    (hu : u ∈ (q.drop l t).queue l') : u ∈ q.queue l' := by
  simp only [Queues.drop, Function.update_apply] at hu
  split_ifs at hu with hl
  · exact hl ▸ List.mem_of_mem_erase hu
  · exact hu

theorem remove (hr : Represents s q) {l : ListId M S} {t : T} (ht : t ∈ q.queue l) :
    Represents (s.remove l ⟨t, l.kind⟩) (q.drop l t) := by
  have hmem : (⟨t, l.kind⟩ : TaskNode T) ∈ (q.queue l).map fun t => (⟨t, l.kind⟩ : TaskNode T) :=
    mem_nodes_iff.mpr ⟨rfl, ht⟩
  refine ⟨fun l' => ?_, hr.apart_of_subset fun l' u => mem_of_mem_drop, hr.curr, hr.task, hr.mutex,
    hr.sem⟩
  by_cases hl : l' = l
  · subst l'
    simp only [Sched.remove, Queues.drop, Function.update_self, ← erase_nodes]
    exact (hr.lists l).remove hmem
  · simp only [Sched.remove, Queues.drop, Function.update_of_ne hl]
    exact (hr.lists l').congr fun n hn => (hr.lists l).remove_frame hmem (hr.node_notMem hl hn)

theorem removeFirst (hr : Represents s q) {l : ListId M S} {t : T} {ts : List T}
    (ht : q.queue l = t :: ts) :
    (s.removeFirst l).1 = some ⟨t, l.kind⟩ ∧ Represents (s.removeFirst l).2 (q.drop l t) := by
  have hl := hr.lists l
  rw [ht, List.map_cons] at hl
  refine ⟨hl.removeFirst_cons.1, fun l' => ?_, hr.apart_of_subset fun l' u => mem_of_mem_drop,
    hr.curr, hr.task, hr.mutex, hr.sem⟩
  by_cases he : l' = l
  · subst l'
    simp only [Sched.removeFirst, Queues.drop, Function.update_self, ht, List.erase_cons_head]
    exact hl.removeFirst_cons.2
  · simp only [Sched.removeFirst, Queues.drop, Function.update_of_ne he]
    exact (hr.lists l').congr fun n hn => (hr.lists l).removeFirst_frame (hr.node_notMem he hn)

theorem setTask (hr : Represents s q) (t : T) (v : TaskSched) :
    Represents (s.setTask t v) (q.setTask t v) :=
  { hr with task := by simp only [Sched.setTask, Queues.setTask, hr.task] }

theorem setMutex (hr : Represents s q) (m : M) (v : Mutex T) :
    Represents (s.setMutex m v) (q.setMutex m v) :=
  { hr with mutex := by simp only [Sched.setMutex, Queues.setMutex, hr.mutex] }

theorem setSem (hr : Represents s q) (x : S) (v : Sem) :
    Represents (s.setSem x v) (q.setSem x v) :=
  { hr with sem := by simp only [Sched.setSem, Queues.setSem, hr.sem] }

end Represents

end X86Os
