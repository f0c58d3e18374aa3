import X86Os.List
import X86Os.Word

/-!
# Scheduler and synchronisation objects

The model of `core/task.c` (scheduling part), `ipc/mutex.c` and `ipc/sem.c`. Every task has three
embedded list nodes; a list is named by the header it starts from. An operation runs with
interrupts disabled and is one step of the model: a call of `task_switch_from_to` only changes
which task is current. An operation that follows a null task pointer, or whose list walk does not
end, has no result.
-/

namespace X86Os

open LinkedChain

inductive TaskState
  | created | running | sleep | ready | waiting
deriving DecidableEq, Repr

def taskTimeSliceDefault : ℤ := 10

def osTickMs : ℕ := 10

inductive NodeKind
  | runNode | allNode | waitNode
deriving DecidableEq, Repr

/-- The address of one of the list nodes of a task. -/
structure TaskNode (T : Type) where
  task : T
  kind : NodeKind
deriving DecidableEq, Repr

/-- The address of a `list_t`. -/
inductive ListId (M S : Type)
  | readyList | taskList | sleepList
  | mutexWaitList (m : M)
  | semWaitList (x : S)
deriving DecidableEq, Repr

/-- The node of a task by which the list queues it. -/
def ListId.kind {M S : Type} : ListId M S → NodeKind
  | readyList => .runNode
  | taskList => .allNode
  | sleepList => .runNode
  | mutexWaitList _ => .waitNode
  | semWaitList _ => .waitNode

/-- The fields of `task_t` that scheduling reads or writes. -/
structure TaskSched where
  state : TaskState
  sleepTicks : ℤ
  timeSlice : ℤ
  sliceTicks : ℤ
deriving DecidableEq, Repr

def TaskSched.created : TaskSched where
  state := .created
  timeSlice := taskTimeSliceDefault
  sliceTicks := taskTimeSliceDefault
  sleepTicks := 0

structure Mutex (T : Type) where
  owner : Option T
  lockedCount : ℤ
deriving DecidableEq, Repr

structure Sem where
  count : ℤ
deriving DecidableEq, Repr

/-- `task_manager`, the tasks, and the mutexes and semaphores of the system. -/
structure Sched (T M S : Type) where
  nodes : Heap (TaskNode T)
  list : ListId M S → ListT (TaskNode T)
  currTask : Option T
  task : T → TaskSched
  mutex : M → Mutex T
  sem : S → Sem

section Model

variable {T M S : Type} [DecidableEq T] [DecidableEq M] [DecidableEq S] (idle : T)

namespace Sched

def insertLast (l : ListId M S) (node : TaskNode T) (s : Sched T M S) : Sched T M S :=
  let r := listInsertLast (s.list l) node s.nodes
  { s with list := Function.update s.list l r.1, nodes := r.2 }

def removeFirst (l : ListId M S) (s : Sched T M S) : Option (TaskNode T) × Sched T M S :=
  let r := listRemoveFirst (s.list l) s.nodes
  (r.1, { s with list := Function.update s.list l r.2.1, nodes := r.2.2 })

def remove (l : ListId M S) (node : TaskNode T) (s : Sched T M S) : Sched T M S :=
  let r := listRemove (s.list l) node s.nodes
  { s with list := Function.update s.list l r.1, nodes := r.2 }

def initList (l : ListId M S) (s : Sched T M S) : Sched T M S :=
  { s with list := Function.update s.list l listInit }

def initNode (node : TaskNode T) (s : Sched T M S) : Sched T M S :=
  { s with nodes := listNodeInit node s.nodes }

def setTask (t : T) (v : TaskSched) (s : Sched T M S) : Sched T M S :=
  { s with task := Function.update s.task t v }

def setMutex (m : M) (v : Mutex T) (s : Sched T M S) : Sched T M S :=
  { s with mutex := Function.update s.mutex m v }

def setSem (x : S) (v : Sem) (s : Sched T M S) : Sched T M S :=
  { s with sem := Function.update s.sem x v }

end Sched

/-- `list_node_parent`: the task a node is embedded in. -/
def listNodeParent (node : Option (TaskNode T)) : Option T := node.map TaskNode.task

/-! ## `core/task.c` -/

def taskSetReady (t : T) (s : Sched T M S) : Sched T M S :=
  if t = idle then s
  else
    let s := s.insertLast .readyList ⟨t, .runNode⟩
    s.setTask t { s.task t with state := .ready }

def taskSetBlock (t : T) (s : Sched T M S) : Sched T M S :=
  if t = idle then s else s.remove .readyList ⟨t, .runNode⟩

def taskNextRun (s : Sched T M S) : Option T :=
  if listCount (s.list .readyList) = 0 then some idle
  else listNodeParent (listFirst (s.list .readyList))

def taskDispatch (s : Sched T M S) : Sched T M S :=
  let next := taskNextRun idle s
  if next = s.currTask then s
  else
    match next with
    | none => { s with currTask := none }
    | some t => { s with currTask := some t }.setTask t { s.task t with state := .running }

/-- The fields and nodes that `task_init` sets, and the insertion into `task_list`. -/
def taskInit (t : T) (s : Sched T M S) : Sched T M S :=
  let s := s.setTask t TaskSched.created
  let s := s.initNode ⟨t, .allNode⟩
  let s := s.initNode ⟨t, .runNode⟩
  s.insertLast .taskList ⟨t, .allNode⟩

def taskStart (t : T) (s : Sched T M S) : Sched T M S := taskSetReady idle t s

def taskManagerInit (s : Sched T M S) : Sched T M S :=
  let s := s.initList .readyList
  let s := s.initList .taskList
  let s := s.initList .sleepList
  let s := taskInit idle s
  let s := { s with currTask := none }
  taskStart idle idle s

/-- The scheduling steps of `task_first_init`. -/
def taskFirstInit (first : T) (s : Sched T M S) : Sched T M S :=
  let s := taskInit first s
  let s := { s with currTask := some first }
  taskStart idle first s

def sysYield (s : Sched T M S) : Option (Sched T M S) :=
  if listCount (s.list .readyList) > 1 then
    s.currTask.map fun curr => taskDispatch idle (taskSetReady idle curr (taskSetBlock idle curr s))
  else some s

def taskSetWakeup (t : T) (s : Sched T M S) : Sched T M S := s.remove .sleepList ⟨t, .runNode⟩

/-- The time slice of the current task. -/
def taskSliceTick (curr : T) (s : Sched T M S) : Sched T M S :=
  let c := s.task curr
  let s := s.setTask curr { c with sliceTicks := c.sliceTicks - 1 }
  if c.sliceTicks - 1 = 0 then
    let s := s.setTask curr { c with sliceTicks := c.timeSlice }
    taskSetReady idle curr (taskSetBlock idle curr s)
  else s

/-- The `while (curr)` loop of `task_time_tick`; `fuel` bounds the number of nodes visited. -/
def taskWakeLoop : ℕ → Option (TaskNode T) → Sched T M S → Option (Sched T M S)
  | _, none, s => some s
  | 0, some _, _ => none
  | fuel + 1, some node, s =>
    let next := listNodeNext s.nodes node
    let t := node.task
    let c := s.task t
    let s := s.setTask t { c with sleepTicks := c.sleepTicks - 1 }
    let s := if c.sleepTicks - 1 = 0 then taskSetReady idle t (taskSetWakeup t s) else s
    taskWakeLoop fuel next s

def taskTimeTick (s : Sched T M S) : Option (Sched T M S) :=
  s.currTask.bind fun curr =>
    let s := taskSliceTick idle curr s
    let sleepers := s.list .sleepList
    (taskWakeLoop idle sleepers.count.toNat (listFirst sleepers) s).map (taskDispatch idle)

/-- `ticks <= 0` on an unsigned value. -/
def taskSetSleep (t : T) (ticks : ℕ) (s : Sched T M S) : Sched T M S :=
  if ticks = 0 then s
  else (s.setTask t { s.task t with sleepTicks := ticks, state := .sleep }).insertLast .sleepList
    ⟨t, .runNode⟩

def sysMsleep (ms : ℕ) (s : Sched T M S) : Option (Sched T M S) :=
  let ms := if ms < osTickMs then osTickMs else ms
  s.currTask.map fun curr =>
    taskDispatch idle
      (taskSetSleep curr (u32 (ms + (osTickMs - 1)) / osTickMs) (taskSetBlock idle curr s))

/-! ## `ipc/mutex.c` -/

def mutexInit (m : M) (s : Sched T M S) : Sched T M S :=
  (s.initList (.mutexWaitList m)).setMutex m { owner := none, lockedCount := 0 }

def mutexLock (m : M) (s : Sched T M S) : Option (Sched T M S) :=
  let mx := s.mutex m
  if mx.lockedCount = 0 then
    some (s.setMutex m { owner := s.currTask, lockedCount := 1 })
  else if mx.owner = s.currTask ∧ s.currTask ≠ none then
    some (s.setMutex m { mx with lockedCount := i32 (mx.lockedCount + 1) })
  else
    s.currTask.map fun curr =>
      taskDispatch idle
        (taskSetBlock idle curr (s.insertLast (.mutexWaitList m) ⟨curr, .waitNode⟩))

def mutexUnlock (m : M) (s : Sched T M S) : Option (Sched T M S) :=
  let mx := s.mutex m
  if mx.owner = s.currTask then
    let count := i32 (mx.lockedCount - 1)
    let s := s.setMutex m { mx with lockedCount := count }
    if count = 0 then
      let s := s.setMutex m { owner := none, lockedCount := 0 }
      if listCount (s.list (.mutexWaitList m)) ≠ 0 then
        let r := s.removeFirst (.mutexWaitList m)
        (listNodeParent r.1).map fun t =>
          taskDispatch idle (taskSetReady idle t (r.2.setMutex m { owner := some t, lockedCount := 1 }))
      else some s
    else some s
  else some s

/-! ## `ipc/sem.c` -/

def semInit (x : S) (_initCount : ℤ) (s : Sched T M S) : Sched T M S :=
  (s.setSem x { count := 0 }).initList (.semWaitList x)

def semWait (x : S) (s : Sched T M S) : Option (Sched T M S) :=
  if (s.sem x).count > 0 then some (s.setSem x { count := i32 ((s.sem x).count - 1) })
  else
    s.currTask.map fun curr =>
      taskDispatch idle
        ((taskSetBlock idle curr s).insertLast (.semWaitList x) ⟨curr, .waitNode⟩)

def semNotify (x : S) (s : Sched T M S) : Option (Sched T M S) :=
  if listCount (s.list (.semWaitList x)) ≠ 0 then
    let r := s.removeFirst (.semWaitList x)
    (listNodeParent r.1).map fun t => taskDispatch idle (taskSetReady idle t r.2)
  else some (s.setSem x { count := i32 ((s.sem x).count + 1) })

end Model

end X86Os
