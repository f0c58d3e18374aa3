import X86Os.Claims
import X86Os.ForkSteps
import X86Os.TakenPages

/-!
# Concurrent forks

Any number of tasks run `sys_fork`, each in steps. Between two steps the timer may switch to another task,
the current task may yield, sleep or wait, and memory may be written. A run remembers where every call
stands, and which tasks were inserted into `task_list` and which were started.
-/

namespace X86Os

/-- The tasks that there can be. -/
def TaskId.Exists : TaskId → Prop
  | .first => True
  | .idle => True
  | .slot i => i < taskNr

namespace Kernel

/-- The slot of a call and how far the call has come with it. A call that failed has its slot until the
slot is cleared. -/
def ForkPc.claim : ForkPc → Option (TaskId × Stage)
  | .search => none
  | .found t => some (t, .found)
  | .desc t _ _ _ _ => some (t, .found)
  | .stack t _ _ _ _ _ => some (t, .found)
  | .dir t _ _ => some (t, .found)
  | .named t _ => some (t, .named)
  | .inserted t _ => some (t, .listed)
  | .copying t _ => some (t, .listed)
  | .copied t _ => some (t, .listed)
  | .undo t _ _ => some (t, .found)
  | .undoStack t _ => some (t, .found)
  | .failed t => some (t, .found)
  | .uninitSel t => some (t, .found)
  | .uninitStack t => some (t, .found)
  | .clear t => some (t, .found)

/-- The task that the next step inserts into `task_list`. -/
def ForkPc.inserts : ForkPc → Option TaskId
  | .named t _ => some t
  | _ => none

/-- The task that the next step starts. -/
def ForkPc.starts : ForkPc → Option TaskId
  | .copied t _ => some t
  | _ => none

/-- The page that the next step gives back to the allocator. -/
def ForkPc.releases (s : Kernel) : ForkPc → Option ℕ
  | .copying _ (.free page _) => some page
  | .undoStack _ kernelStack => if kernelStack ≠ 0 then some (freedPage s.vm kernelStack) else none
  | .uninitStack t =>
    let esp0 := (s.task t).tss.esp0
    if esp0 ≠ 0 then some (freedPage s.vm (u32Sub esp0 memPageSize)) else none
  | _ => none

/-- Such a step frees that page and changes no task. -/
theorem ForkPc.step_releases {L : Layout} {residue page : ℕ} {p : TaskId} {pc : ForkPc}
    {s s' : Kernel} {next : ForkPc ⊕ ℤ} (hrel : pc.releases s = some page)
    (h : pc.step L residue p s = some (next, s')) :
    ∃ v, freePages page 1 s.vm = some ((), v) ∧ s'.vm.alloc = v.alloc ∧ s'.task = s.task := by
  cases pc with
  | copying t c =>
      obtain ⟨copy, v, hcopy, rfl, -⟩ := step_copying h
      cases c with
      | free page' rest =>
          obtain rfl := Option.some.inj hrel
          obtain ⟨_, v₁, hfree, hcopy⟩ := Prog.bind_eq_some.mp hcopy
          obtain ⟨-, rfl⟩ := Prog.pure_eq_some.mp hcopy
          exact ⟨v, hfree, rfl, rfl⟩
      | _ => cases hrel
  | undoStack t kernelStack =>
      rw [releases] at hrel
      split_ifs at hrel with h0
      obtain rfl := Option.some.inj hrel
      obtain ⟨-, ⟨hz, -⟩ | ⟨-, v, v₁, hfree, halloc, rfl⟩⟩ := step_undoStack h
      · exact absurd hz h0
      · exact ⟨v₁, hfree, halloc, rfl⟩
  | uninitStack t =>
      rw [releases] at hrel
      split_ifs at hrel with h0
      obtain rfl := Option.some.inj hrel
      obtain ⟨-, ⟨hz, -⟩ | ⟨-, v, v₁, hfree, halloc, rfl⟩⟩ := step_uninitStack h
      · exact absurd hz h0
      · exact ⟨v₁, hfree, halloc, rfl⟩
  | _ => cases hrel

structure ForkRun where
  kernel : Kernel
  call : TaskId → Option ForkPc
  listed : List TaskId
  started : List TaskId

inductive ForkAction
  | fork (residue : ℕ)
  | sched (op : SchedOp TaskId Unit Unit)
  | write (mem : Mem)

/-- A switch to another task loads its directory. -/
def switchTo (s : Kernel) (sched : KernelSched) : Kernel :=
  let s' : Kernel := { s with sched := sched }
  if sched.currTask = s.sched.currTask then s'
  else { s' with vm := { s.vm with cr3 := s'.currentPageDir } }

namespace ForkRun

def schedRun (r : ForkRun) : SchedRun TaskId Unit Unit where
  sched := r.kernel.sched
  initialised := r.listed
  started := r.started

def claims (r : ForkRun) : Claims TaskId TaskId where
  claim p := (r.call p).bind ForkPc.claim
  named := {t | HasName (r.kernel.task t)}
  listed := r.listed
  started := r.started

/-- Where the next step of the task `p` begins. -/
def pc (r : ForkRun) (p : TaskId) : ForkPc := (r.call p).getD .search

/-- The run after the task `p` took a step. -/
def record (r : ForkRun) (p : TaskId) (next : ForkPc ⊕ ℤ) (s : Kernel) : ForkRun where
  kernel := s
  call := Function.update r.call p next.getLeft?
  listed := (r.pc p).inserts.toList ++ r.listed
  started := (r.pc p).starts.toList ++ r.started

/-- The current task calls `sys_fork` or goes on with its call. -/
def fork (L : Layout) (residue : ℕ) (r : ForkRun) : Option ForkRun :=
  r.kernel.sched.currTask.bind fun p =>
    ((r.pc p).step L residue p r.kernel).map fun x => r.record p x.1 x.2

end ForkRun

/-! ## Selectors and kernel stacks -/

/-- What every task has for itself. The call that sets the task up has it in a variable first, and in the
task structure before it writes the name. -/
structure Resource where
  field : Task → ℕ
  var : ForkPc → Option ℕ
  early : ∀ pc x, var pc = some x → ∃ t, pc.claim = some (t, .found)

namespace Resource

def sel : Resource where
  field := Task.tssSel
  var
    | .desc _ _ _ _ sel => some sel
    | .stack _ _ _ _ sel _ => some sel
    | _ => none
  early pc x h := by
    cases pc with
    | desc t => exact ⟨t, rfl⟩
    | stack t => exact ⟨t, rfl⟩
    | _ => cases h

/-- The address of the page. -/
def kernelStack : Resource where
  field task := u32Sub task.tss.esp0 memPageSize
  var
    | .stack _ _ _ _ _ kernelStack => some kernelStack
    | _ => none
  early pc x h := by
    cases pc with
    | stack t => exact ⟨t, rfl⟩
    | _ => cases h

/-- What a call holds for the task it sets up. -/
def ofCall (c : Resource) (task : Task) : ForkPc → Option ℕ
  | .dir _ _ _ => some (c.field task)
  | pc => c.var pc

/-- The task `t` has `x`, or a call has it for the slot `t`. -/
def Held (c : Resource) (r : ForkRun) (t : TaskId) (x : ℕ) : Prop :=
  (t ∈ r.claims.named ∧ c.field (r.kernel.task t) = x) ∨
    ∃ p pc a, r.call p = some pc ∧ pc.claim = some (t, a) ∧ c.ofCall (r.kernel.task t) pc = some x

end Resource

/-- The selector of a descriptor in use. -/
def SelUsed (gdt : Gdt) (sel : ℕ) : Prop :=
  ∃ i, sel = 8 * i ∧ 1 ≤ i ∧ i < gdtTableSize ∧ (gdt i).attr ≠ 0

/-- The address of a page that is taken. -/
def PageUsed (n : ℕ) (v : Vm) (page : ℕ) : Prop := ∃ i, Taken n i v ∧ v.alloc.pageAddr i = page

/-! ## The machine -/

/-- The linker gives every task an address of its own. -/
structure TasksApart (L : Layout) : Prop where
  lt : ∀ t : TaskId, t.Exists → taskAddr L t < 2 ^ 32
  apart : ∀ t u : TaskId, t.Exists → u.Exists → taskAddr L t = taskAddr L u → t = u

/-- Tasks in order and no call of `sys_fork`. The `n` pages of the allocator are those from the start of
the extended memory on. -/
structure ForkReady (L : Layout) (n : ℕ) (r : ForkRun) : Prop where
  call : ∀ p, r.call p = none
  tracks : ∃ q, Tracks .idle r.schedRun q
  listed_nodup : r.listed.Nodup
  started_nodup : r.started.Nodup
  listed : ∀ t ∈ r.listed, t.Exists
  named : ∀ t, t ∈ r.claims.named ↔ t ∈ r.listed
  pid : ∀ t ∈ r.listed, (r.kernel.task t).pid = i32 (taskAddr L t)
  clear : ∀ t ∉ r.listed, (r.kernel.task t).tssSel = 0
  sels : Ledger (Resource.sel.Held r) (SelUsed r.kernel.gdt)
  kernelStacks : Ledger (Resource.kernelStack.Held r) (PageUsed n r.kernel.vm)

def forkEnabled (r : ForkRun) : ForkAction → Prop
  | .fork _ => r.kernel.sched.currTask ≠ some .idle
  | .sched op => op.enabled .idle r.schedRun ∧ ∀ t, op ≠ .init t ∧ op ≠ .start t
  | .write _ => True

def forkStep (L : Layout) (r : ForkRun) : ForkAction → Option ForkRun
  | .fork residue => r.fork L residue
  | .sched op => (op.exec .idle r.kernel.sched).map fun s => { r with kernel := switchTo r.kernel s }
  | .write mem => some { r with kernel := { r.kernel with vm := { r.kernel.vm with mem := mem } } }

def forkMachine (L : Layout) (n : ℕ) : Machine ForkRun ForkAction where
  init := ForkReady L n
  enabled := forkEnabled
  step := forkStep L

/-- A task looks for a slot only while no other call has found one that is not named. -/
def Alone (r : ForkRun) (p : TaskId) : Prop :=
  r.pc p = .search → ∀ q t, r.claims.claim q ≠ some (t, .found)

/-- `addr_free_page` clears the bit whose number is the distance of the page in bytes. It does not lie
before the bitmap, and it is not the bit of a kernel stack. -/
def SparesStacks (r : ForkRun) (p : TaskId) : Prop :=
  ∀ page, (r.pc p).releases r.kernel = some page → r.kernel.vm.alloc.Freeable page ∧
    ∀ t stack, Resource.kernelStack.Held r t stack →
      i32 (u32Sub page memExtStart) ≠ (u32Sub stack memExtStart / memPageSize : ℕ)

def Undisturbed (r : ForkRun) : ForkAction → Prop
  | .fork _ => ∀ p, r.kernel.sched.currTask = some p → Alone r p ∧ SparesStacks r p
  | _ => True

/-- No two calls have the same slot or one that a task runs in, tasks do not share pids, selectors or
kernel stacks, and every task is inserted into `task_list` and started once. -/
structure Exclusive (r : ForkRun) : Prop where
  slots : ∀ p q t a b, r.claims.claim p = some (t, a) → r.claims.claim q = some (t, b) → p = q
  fits : ∀ p t a, r.claims.claim p = some (t, a) → t ∉ r.started ∧ r.claims.Fits t a
  pids : Set.InjOn (fun t => (r.kernel.task t).pid) {t | t ∈ r.listed}
  sels : Set.InjOn (fun t => (r.kernel.task t).tssSel) {t | t ∈ r.listed}
  kernelStacks : Set.InjOn (fun t => (r.kernel.task t).tss.esp0) {t | t ∈ r.listed}
  taskList : (r.kernel.sched.tasksOn .taskList).Perm r.listed
  once : r.listed.Nodup ∧ r.started.Nodup ∧ r.started ⊆ r.listed
  queues : QueueInvariant .idle r.schedRun

end Kernel

end X86Os
