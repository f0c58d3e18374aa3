import X86Os.SchedFairness

/-!
# The state field

How the field `state` of a task relates to the queues. `task_dispatch` sets it only when it switches,
`task_set_ready` sets it even for the current task, and nothing sets `TASK_WAITING`. A run is observed
together with one bit that the source does not keep: whether the current task has been switched to
since it was last put on the ready list.
-/

set_option linter.unusedSectionVars false

namespace X86Os

variable {T M S : Type} [DecidableEq T] [DecidableEq M] [DecidableEq S]

/-- The state field of every started task says on which list it is. -/
def StateAgrees (idle : T) (r : SchedRun T M S) : Prop :=
  ∀ t ∈ r.started, t ≠ idle →
    ((r.sched.task t).state = .running ↔ r.sched.currTask = some t) ∧
    ((r.sched.task t).state = .ready ↔
      t ∈ r.sched.tasksOn .readyList ∧ r.sched.currTask ≠ some t) ∧
    ((r.sched.task t).state = .sleep ↔ t ∈ r.sched.tasksOn .sleepList) ∧
    ((r.sched.task t).state = .waiting ↔
      ∃ l : ListId M S, l.kind = .waitNode ∧ t ∈ r.sched.tasksOn l)

structure StateRun (T M S : Type) where
  run : SchedRun T M S
  switched : Bool

/-- The current task uses up its time slice in this operation. -/
def sliceUsedUp (r : SchedRun T M S) (op : SchedOp T M S) : Prop :=
  op = .tick ∧ ∃ t, r.sched.currTask = some t ∧ (r.sched.task t).sliceTicks = 1

instance (r : SchedRun T M S) (op : SchedOp T M S) : Decidable (sliceUsedUp r op) :=
  match h : r.sched.currTask with
  | none => isFalse fun ⟨_, t, ht, _⟩ => by rw [h] at ht; cases ht
  | some t => decidable_of_iff (op = .tick ∧ (r.sched.task t).sliceTicks = 1)
      ⟨fun ⟨h1, h2⟩ => ⟨h1, t, h, h2⟩, fun ⟨h1, u, hu, h2⟩ =>
        ⟨h1, by rw [h] at hu; exact Option.some.inj hu ▸ h2⟩⟩

/-- The observation after the operation `op` led to `r`. -/
def StateRun.next (g : StateRun T M S) (op : SchedOp T M S) (r : SchedRun T M S) :
    StateRun T M S where
  run := r
  switched :=
    if r.sched.currTask ≠ g.run.sched.currTask then true
    else if sliceUsedUp g.run op then false else g.switched

def stateMachine (idle first : T) : Machine (StateRun T M S) (SchedOp T M S) where
  init g := (schedMachine idle first).init g.run ∧ g.switched = false
  enabled g op := op.enabled idle g.run
  step g op := ((schedMachine idle first).step g.run op).map fun r => g.next op r

/-! ## States of queued tasks -/

/-- The state fields fit the queues; only the task `c` may be on the ready list in another state. -/
structure Fits (c : Option T) (q : Queues T M S) : Prop where
  sleep : ∀ t ∈ q.queue .sleepList, (q.task t).state = .sleep
  ready : ∀ t ∈ q.queue .readyList, c ≠ some t → (q.task t).state = .ready
  wait : ∀ l : ListId M S, l.kind = .waitNode → ∀ t ∈ q.queue l,
    (q.task t).state = .running ∨ (q.task t).state = .ready

namespace Fits

variable {idle : T} {started : List T} {q : Queues T M S} {c : Option T} {t : T}

theorem weaken (h : Fits none q) (c : Option T) : Fits c q :=
  ⟨h.sleep, fun t ht _ => h.ready t ht (by simp), h.wait⟩

/-- Only the state fields and the queues matter. -/
theorem congr {q' : Queues T M S} (h : Fits c q)
    (hq : ∀ l, l ≠ .taskList → ∀ t ∈ q'.queue l, t ∈ q.queue l)
    (hs : ∀ l, l ≠ .taskList → ∀ t ∈ q'.queue l, (q'.task t).state = (q.task t).state) :
    Fits c q' where
  sleep t ht := (hs _ (by simp) t ht).trans (h.sleep t (hq _ (by simp) t ht))
  ready t ht hc := (hs _ (by simp) t ht).trans (h.ready t (hq _ (by simp) t ht) hc)
  wait l hl t ht := by
    rw [hs l (ne_taskList_of_waitNode hl) t ht]
    exact h.wait l hl t (hq l (ne_taskList_of_waitNode hl) t ht)

theorem drop (h : Fits c q) (l : ListId M S) (t : T) : Fits c (q.drop l t) :=
  h.congr (fun _ _ _ => Represents.mem_of_mem_drop) fun _ _ _ _ => rfl

/-- The task that is blocked was the only exception. -/
theorem setBlock (h : Fits (some t) q) (hn : (q.queue .readyList).Nodup) (hi : t ≠ idle) :
    Fits none (q.setBlock idle t) := by
  have hd := h.drop .readyList t
  have hb : q.setBlock idle t = q.drop .readyList t := if_neg hi
  rw [hb]
  refine ⟨hd.sleep, fun u hu _ => hd.ready u hu fun he => ?_, hd.wait⟩
  obtain rfl := Option.some.inj he
  rw [Queues.drop_queue, Function.update_self] at hu
  exact hn.not_mem_erase hu

theorem setReady (h : Fits c q) (hs : t ∉ q.queue .sleepList) : Fits c (q.setReady idle t) := by
  by_cases hi : t = idle
  · simpa only [Queues.setReady, if_pos hi] using h
  · have hstate : ∀ u, ((q.setReady idle t).task u).state =
        if u = t then .ready else (q.task u).state := by
      intro u
      by_cases hu : u = t <;> simp [Queues.setReady, hi, Queues.setTask, Queues.push, hu]
    refine ⟨fun u hu => ?_, fun u hu hc => ?_, fun l hl u hu => ?_⟩
    · rw [Queues.setReady_frame (by simp)] at hu
      rw [hstate, if_neg fun he : u = t => hs (he ▸ hu)]
      exact h.sleep u hu
    · rw [hstate]
      rw [Queues.setReady_queue _ hi, Function.update_self, List.mem_append,
        List.mem_singleton] at hu
      split_ifs with he
      · rfl
      · exact h.ready u (hu.resolve_right he) hc
    · rw [Queues.setReady_frame (by rintro rfl; cases hl)] at hu
      rw [hstate]
      split_ifs
      · exact .inr rfl
      · exact h.wait l hl u hu

/-- A blocked task goes to a list of waiting tasks. -/
theorem pushWait (h : Fits c q) {l : ListId M S} (hl : l.kind = .waitNode)
    (ht : (q.task t).state = .running ∨ (q.task t).state = .ready) : Fits c (q.push l t) := by
  have hq : ∀ {l' : ListId M S} {u : T}, u ∈ (q.push l t).queue l' →
      u ∈ q.queue l' ∨ (l' = l ∧ u = t) := by
    intro l' u hu
    by_cases he : l' = l
    · subst he
      simpa using hu
    · exact .inl (by simpa [he] using hu)
  refine ⟨fun u hu => ?_, fun u hu hc => ?_, fun l' hl' u hu => ?_⟩
  · rcases hq hu with hu | ⟨rfl, -⟩
    · exact h.sleep u hu
    · cases hl
  · rcases hq hu with hu | ⟨rfl, -⟩
    · exact h.ready u hu hc
    · cases hl
  · rcases hq hu with hu | ⟨-, rfl⟩
    · exact h.wait l' hl' u hu
    · exact ht

theorem setSleep (h : Fits c q) {ticks : ℕ} (hticks : ticks ≠ 0)
    (hno : ∀ l : ListId M S, l ≠ .taskList → t ∉ q.queue l) : Fits c (q.setSleep t ticks) := by
  have hs : q.setSleep t ticks =
      (q.setTask t { q.task t with sleepTicks := ticks, state := .sleep }).push .sleepList t :=
    if_neg hticks
  have hstate : ∀ u, u ≠ t → ((q.setSleep t ticks).task u).state = (q.task u).state := by
    intro u hu
    simp [hs, Queues.push, Queues.setTask, hu]
  have hother : ∀ l : ListId M S, l ≠ .sleepList → (q.setSleep t ticks).queue l = q.queue l := by
    intro l hl
    simp [hs, hl]
  refine ⟨fun u hu => ?_, fun u hu hc => ?_, fun l hl u hu => ?_⟩
  · by_cases he : u = t
    · subst he
      simp [hs, Queues.push, Queues.setTask]
    · rw [hstate u he]
      refine h.sleep u ?_
      simpa [hs, he] using hu
  · rw [hother _ (by simp)] at hu
    rw [hstate u fun he => hno _ (by simp) (he ▸ hu)]
    exact h.ready u hu hc
  · rw [hother l (by rintro rfl; cases hl)] at hu
    rw [hstate u fun he => hno _ (ne_taskList_of_waitNode hl) (he ▸ hu)]
    exact h.wait l hl u hu

/-- A switch sets the state of the new task, and only that. -/
theorem dispatch (hp : Placed idle started q.queue) (h : Fits none q) :
    Fits (some (q.nextRun idle)) (q.dispatch idle) := by
  by_cases hn : q.nextRun idle = q.curr
  · have hd : q.dispatch idle = q := if_pos hn
    rw [hd]
    exact h.weaken _
  · have hstate : ∀ u, u ≠ q.nextRun idle →
        ((q.dispatch idle).task u).state = (q.task u).state := by
      intro u hu
      simp [Queues.dispatch, hn, Queues.setTask, hu]
    have hplace : ∀ l : ListId M S, l ≠ .taskList → l ≠ .readyList →
        q.nextRun idle ∉ q.queue l := by
      intro l hl hr hm
      cases hq : q.queue .readyList with
      | nil =>
          have hidle : q.nextRun idle = idle := by simp [Queues.nextRun, hq]
          exact hp.ne_idle hl hm hidle
      | cons a ts =>
          have ha : q.nextRun idle = a := by simp [Queues.nextRun, hq]
          exact hr (hp.unique a l .readyList hl (by simp) (ha ▸ hm) (by simp [hq]))
    refine ⟨fun u hu => ?_, fun u hu hc => ?_, fun l hl u hu => ?_⟩
    · rw [Queues.dispatch_queue] at hu
      rw [hstate u fun he => hplace _ (by simp) (by simp) (he ▸ hu)]
      exact h.sleep u hu
    · rw [Queues.dispatch_queue] at hu
      rw [hstate u fun he => hc (congrArg some he.symm)]
      exact h.ready u hu (by simp)
    · rw [Queues.dispatch_queue] at hu
      rw [hstate u fun he => hplace _ (ne_taskList_of_waitNode hl) (by rintro rfl; cases hl)
        (he ▸ hu)]
      exact h.wait l hl u hu

/-- The current task goes to the end of the ready list. -/
theorem requeue (hp : Placed idle started q.queue) (h : Fits (some t) q) (hi : t ≠ idle)
    (ht : t ∈ q.queue .readyList) : Fits none ((q.setBlock idle t).setReady idle t) := by
  apply (h.setBlock (hp.nodup _) hi).setReady
  rw [Queues.setBlock_frame (by simp)]
  exact hp.notMem_of_mem (l := .readyList) (by simp) (by simp) ht (by simp)

theorem wakeOne (hp : Placed idle started q.queue) (h : Fits c q) : Fits c (q.wakeOne idle t) := by
  have htick : Fits c (q.setTask t { q.task t with sleepTicks := (q.task t).sleepTicks - 1 }) := by
    refine h.congr (fun _ _ _ hu => hu) fun l _ u _ => ?_
    by_cases hu : u = t <;> simp [Queues.setTask, hu]
  simp only [Queues.wakeOne]
  split_ifs
  · apply (htick.drop .sleepList t).setReady
    rw [Queues.drop_queue, Function.update_self]
    exact (hp.nodup .sleepList).not_mem_erase
  · exact htick

theorem wakeOne_state {u : T} (hu : u ≠ t) :
    ((q.wakeOne idle t).task u).state = (q.task u).state := by
  simp only [Queues.wakeOne, Queues.setReady]
  split_ifs <;> simp [Queues.setTask, Queues.drop, Queues.push, hu]

/-- The sleeping tasks that are woken are ready. -/
theorem wake (ts : List T) {q : Queues T M S} {kept : List T} (hp : Placed idle started q.queue)
    (h : Fits c q) (hq : q.queue .sleepList = kept ++ ts) : Fits c (q.wake idle ts) ∧
      ∀ u, u ∉ ts → ((q.wake idle ts).task u).state = (q.task u).state := by
  induction ts generalizing q kept with
  | nil => exact ⟨h, fun _ _ => rfl⟩
  | cons t ts ih =>
      have ht : t ∈ q.queue .sleepList := by simp [hq]
      obtain ⟨kept', hkept⟩ := Queues.wakeOne_sleepList hp hq
      obtain ⟨hfits, hstate⟩ := ih (hp.wakeOne ht) (h.wakeOne (t := t) hp) hkept
      refine ⟨hfits, fun u hu => ?_⟩
      rw [List.mem_cons, not_or] at hu
      rw [Queues.wake, hstate u hu.2, wakeOne_state hu.1]

end Fits

/-- The observed bit and the state fields. -/
structure StateInv (idle : T) (q : Queues T M S) (g : StateRun T M S) : Prop where
  tracks : Tracks idle g.run q
  fits : Fits (some q.curr) q
  curr : q.curr ≠ idle →
    (q.task q.curr).state = if g.switched then .running else .ready

namespace StateInv

variable {idle : T} {q : Queues T M S} {g : StateRun T M S} {op : SchedOp T M S}
  {r' : SchedRun T M S}

variable (op) in
/-- An operation that ends with a dispatch. -/
theorem of_dispatch (hi : StateInv idle q g) {p : Queues T M S} (hq : op.queues idle q = p.dispatch idle)
    (ht : Tracks idle r' (op.queues idle q)) (hfits : Fits none p) (hc : p.curr = q.curr)
    (hstay : p.nextRun idle = q.curr → q.curr ≠ idle → sliceUsedUp g.run op) :
    StateInv idle (op.queues idle q) (g.next op r') := by
  have hp : Placed idle r'.started p.queue := by
    have := ht.placed
    rwa [hq, Queues.dispatch_queue] at this
  have hcurr : (op.queues idle q).curr = p.nextRun idle := by rw [hq, Queues.dispatch_curr]
  refine ⟨ht, ?_, fun hne => ?_⟩
  · rw [hcurr, hq]
    exact hfits.dispatch hp
  · have hswitched : (g.next op r').switched = if p.nextRun idle ≠ q.curr then true
        else if sliceUsedUp g.run op then false else g.switched := by
      simp only [StateRun.next, ht.rep.curr, hi.tracks.rep.curr, hcurr, ne_eq, Option.some.injEq]
    rw [hcurr] at hne ⊢
    by_cases hn : p.nextRun idle = q.curr
    · rw [if_neg (not_not_intro hn), if_pos (hstay hn (hn ▸ hne))] at hswitched
      rw [hswitched, hq]
      have hd : p.dispatch idle = p := if_pos (hn.trans hc.symm)
      have hmem : p.nextRun idle ∈ p.queue .readyList := by
        cases hr : p.queue .readyList with
        | nil => exact absurd (by simp [Queues.nextRun, hr]) hne
        | cons a ts => simp [Queues.nextRun, hr]
      rw [hd]
      exact hfits.ready _ hmem (by simp)
    · have hnc : p.nextRun idle ≠ p.curr := fun he => hn (he.trans hc)
      rw [if_pos hn] at hswitched
      rw [hswitched, hq]
      simp [Queues.dispatch, hnc, Queues.setTask]

variable (op) in
/-- An operation after which the current task goes on. -/
theorem of_same (hi : StateInv idle q g) (ht : Tracks idle r' (op.queues idle q))
    (hfits : Fits (some q.curr) (op.queues idle q)) (hc : (op.queues idle q).curr = q.curr)
    (hs : q.curr ≠ idle → ((op.queues idle q).task q.curr).state = (q.task q.curr).state)
    (hno : q.curr ≠ idle → ¬ sliceUsedUp g.run op) :
    StateInv idle (op.queues idle q) (g.next op r') := by
  refine ⟨ht, hc ▸ hfits, fun hne => ?_⟩
  rw [hc] at hne ⊢
  have hsame : r'.sched.currTask = g.run.sched.currTask := by
    rw [ht.rep.curr, hi.tracks.rep.curr, hc]
  rw [hs hne, hi.curr hne]
  simp only [StateRun.next, hsame, ne_eq, not_true_eq_false, if_false, if_neg (hno hne)]

variable (op) in
/-- An operation that changes neither queues nor tasks. -/
theorem of_data (hi : StateInv idle q g) (ht : Tracks idle r' (op.queues idle q))
    (hq : (op.queues idle q).queue = q.queue) (hc : (op.queues idle q).curr = q.curr)
    (htask : (op.queues idle q).task = q.task) (hop : op ≠ .tick) :
    StateInv idle (op.queues idle q) (g.next op r') :=
  hi.of_same op ht (hi.fits.congr (fun l _ _ hu => congrFun hq l ▸ hu) fun _ _ _ _ => by rw [htask])
    hc (fun _ => by rw [htask]) fun _ hu => hop hu.1

theorem not_sliceUsedUp (h : op ≠ .tick) : ¬ sliceUsedUp g.run op := fun hu => h hu.1

theorem boot {first : T} (hne : first ≠ idle) (hg : (stateMachine idle first).init g) :
    ∃ q, StateInv idle q g ∧ q.curr = first := by
  obtain ⟨⟨s, hs, hrun⟩, hswitched⟩ := hg
  obtain ⟨q, ht⟩ := tracks_boot hne hs
  have hempty : ∀ l : ListId M S, l ≠ .readyList → l ≠ .taskList → q.queue l = [] := by
    intro l hr ha
    have hc := ht.rep.count_eq l
    rw [listCount, schedBoot_list hne hs hr ha] at hc
    exact List.eq_nil_of_length_eq_zero (by simpa [listInit] using hc.symm)
  have hready : ∀ t ∈ q.queue .readyList, t = first := fun t hm =>
    List.mem_singleton.mp ((ht.placed.started_iff t).mp ⟨.readyList, by simp, hm⟩)
  have hcurr : q.curr = first := by
    obtain ⟨l, hl, hm⟩ := (ht.placed.started_iff first).mpr List.mem_cons_self
    have hlr : l = .readyList := by
      by_contra hr
      rw [hempty l hr hl] at hm
      cases hm
    subst hlr
    rw [ht.curr, Queues.nextRun]
    cases hq : q.queue .readyList with
    | nil => simp [hq] at hm
    | cons a ts => exact hready a (by simp [hq])
  have hstate : ((schedBoot idle first s).task first).state = .ready := by
    simp [schedBoot, taskFirstInit, taskManagerInit, taskStart, taskSetReady, hne,
      Sched.insertLast, Sched.setTask]
  have hfits : Fits (some q.curr) q := by
    refine ⟨fun t hm => ?_, fun t hm hc => ?_, fun l hl t hm => ?_⟩
    · rw [hempty _ (by simp) (by simp)] at hm
      cases hm
    · exact absurd (congrArg some (hcurr.trans (hready t hm).symm)) hc
    · rw [hempty l (by rintro rfl; cases hl) (ne_taskList_of_waitNode hl)] at hm
      cases hm
  refine ⟨q, ⟨hrun ▸ ht, hfits, fun _ => ?_⟩, hcurr⟩
  rw [hswitched, hcurr, ← ht.rep.task]
  exact hstate

variable (op) in
/-- The current task makes another one ready and goes on. -/
theorem of_ready (hi : StateInv idle q g) {l : ListId M S} {t : T} {ts : List T}
    (hl : l.kind = .waitNode) (hq : q.queue l = t :: ts) (hidle : q.curr ≠ idle)
    {p : Queues T M S} (hpq : p.queue = (q.drop l t).queue) (hpt : p.task = q.task)
    (hpc : p.curr = q.curr) (heq : op.queues idle q = (p.setReady idle t).dispatch idle)
    (hop : op ≠ .tick) (ht : Tracks idle r' (op.queues idle q)) :
    StateInv idle (op.queues idle q) (g.next op r') := by
  have hlr : l ≠ .readyList := by rintro rfl; cases hl
  have hls : l ≠ .sleepList := by rintro rfl; cases hl
  have hpready : p.queue .readyList = q.queue .readyList := by
    rw [hpq, Queues.drop_queue, Function.update_of_ne hlr.symm]
  have htl : t ∈ q.queue l := by simp [hq]
  have hstay : (p.setReady idle t).curr = (p.setReady idle t).nextRun idle := Queues.setReady_nextRun
    (by rw [hpc, hi.tracks.curr]; exact Queues.nextRun_congr hpready.symm) (hpc ▸ hidle) t
  have hd : (p.setReady idle t).dispatch idle = p.setReady idle t := if_pos hstay.symm
  rw [hd] at heq
  have hpf : Fits (some q.curr) p := (hi.fits.drop l t).congr (fun _ _ _ hm => hpq ▸ hm)
    fun _ _ _ _ => by rw [hpt]; rfl
  have hne : q.curr ≠ t := by
    rintro rfl
    exact hi.tracks.placed.notMem_of_mem (ne_taskList_of_waitNode hl) (by simp) htl hlr.symm
      (curr_mem_of_ne hi.tracks.curr hidle)
  refine hi.of_same op ht ?_ ?_ (fun _ => ?_) fun _ => not_sliceUsedUp hop
  · rw [heq]
    apply hpf.setReady
    rw [hpq, Queues.drop_queue, Function.update_of_ne hls.symm]
    exact hi.tracks.placed.notMem_of_mem (ne_taskList_of_waitNode hl) (by simp) htl hls.symm
  · rw [heq, Queues.setReady_curr, hpc]
  · rw [heq]
    by_cases hti : t = idle
    · simp [Queues.setReady, hti, hpt]
    · simp [Queues.setReady, hti, Queues.setTask, Queues.push, hne, hpt]

variable (op) in
/-- The current task is blocked and another one runs. -/
theorem of_block (hi : StateInv idle q g) (hidle : q.curr ≠ idle) {p : Queues T M S}
    (hq : op.queues idle q = p.dispatch idle) (hfits : Fits none p) (hc : p.curr = q.curr)
    (hr : p.queue .readyList = (q.queue .readyList).tail)
    (ht : Tracks idle r' (op.queues idle q)) :
    StateInv idle (op.queues idle q) (g.next op r') := by
  refine hi.of_dispatch op hq ht hfits hc fun hn _ => ?_
  obtain ⟨ts, hts⟩ := Queues.curr_mem_ready hi.tracks.curr hidle
  have hnodup := hi.tracks.placed.nodup .readyList
  rw [hts] at hnodup
  rw [hts, List.tail_cons] at hr
  exfalso
  cases ts with
  | nil => exact hidle (hn.symm.trans (by simp [Queues.nextRun, hr]))
  | cons a ts =>
      have ha : p.nextRun idle = a := by simp [Queues.nextRun, hr]
      exact (List.nodup_cons.mp hnodup).1 (by simp [← hn, ha])

theorem curr_state (hi : StateInv idle q g) (hidle : q.curr ≠ idle) :
    (q.task q.curr).state = .running ∨ (q.task q.curr).state = .ready := by
  rw [hi.curr hidle]
  split_ifs
  · exact .inl rfl
  · exact .inr rfl

/-- The current task after it was blocked is on no list. -/
theorem notMem_setBlock (hi : StateInv idle q g) (hidle : q.curr ≠ idle) {l : ListId M S}
    (hl : l ≠ .taskList) : q.curr ∉ (q.setBlock idle q.curr).queue l := by
  rw [Queues.setBlock_queue _ hidle]
  exact hi.tracks.placed.notMem_erase (by simp) hl (curr_mem_of_ne hi.tracks.curr hidle)

theorem tail_setBlock (hi : StateInv idle q g) (hidle : q.curr ≠ idle) :
    (q.setBlock idle q.curr).queue .readyList = (q.queue .readyList).tail := by
  obtain ⟨ts, hts⟩ := Queues.curr_mem_ready hi.tracks.curr hidle
  simp [Queues.setBlock_queue _ hidle, hts]

theorem init (hi : StateInv idle q g) {t : T} (hn : t ∉ g.run.initialised)
    (ht : Tracks idle r' (q.initTask t)) :
    StateInv idle (q.initTask t) (g.next (.init t) r') := by
  have hne : ∀ u, (∃ l : ListId M S, l ≠ .taskList ∧ u ∈ q.queue l) → u ≠ t := by
    rintro u hu rfl
    exact hn (hi.tracks.started u ((hi.tracks.placed.started_iff u).mp hu))
  have hqueue : ∀ l : ListId M S, l ≠ .taskList → (q.initTask t).queue l = q.queue l := by
    intro l hl
    rw [Queues.initTask_queue, Function.update_of_ne hl]
  have hstate : ∀ u, u ≠ t → ((q.initTask t).task u).state = (q.task u).state := by
    intro u hu
    simp [Queues.initTask, Queues.setTask, Queues.push, hu]
  refine hi.of_same (.init t) ht (hi.fits.congr ?_ ?_) rfl (fun hidle => ?_)
    fun _ => not_sliceUsedUp (by simp)
  · intro l hl u hu
    rwa [← hqueue l hl]
  · intro l hl u hu
    exact hstate u (hne u ⟨l, hl, hqueue l hl ▸ hu⟩)
  · exact hstate _ (hne _ ⟨.readyList, by simp, curr_mem_of_ne hi.tracks.curr hidle⟩)

theorem start (hi : StateInv idle q g) (hidle : q.curr ≠ idle) {t : T} (hn : t ∉ g.run.started)
    (hne : t ≠ idle) (ht : Tracks idle r' (q.setReady idle t)) :
    StateInv idle (q.setReady idle t) (g.next (.start t) r') := by
  have hno : ∀ l : ListId M S, l ≠ .taskList → t ∉ q.queue l := fun l hl hm =>
    hn ((hi.tracks.placed.started_iff t).mp ⟨l, hl, hm⟩)
  have hcurr : q.curr ≠ t := fun he =>
    hno .readyList (by simp) (he ▸ curr_mem_of_ne hi.tracks.curr hidle)
  refine hi.of_same (.start t) ht (hi.fits.setReady (hno _ (by simp)))
    (Queues.setReady_curr _ t) (fun _ => ?_) fun _ => not_sliceUsedUp (by simp)
  simp [SchedOp.queues, Queues.setReady, hne, Queues.setTask, Queues.push, hcurr]

theorem yield (hi : StateInv idle q g) (hidle : q.curr ≠ idle)
    (ht : Tracks idle r' (q.yield idle)) :
    StateInv idle (q.yield idle) (g.next .yield r') := by
  by_cases hlen : 1 < (q.queue .readyList).length
  · have hq : q.yield idle = ((q.setBlock idle q.curr).setReady idle q.curr).dispatch idle :=
      if_pos hlen
    have hmem := curr_mem_of_ne hi.tracks.curr hidle
    refine hi.of_dispatch .yield hq ht (hi.fits.requeue hi.tracks.placed hidle hmem)
      (by rw [Queues.setReady_curr, Queues.setBlock_curr]) fun hn _ => ?_
    obtain ⟨ts, hts⟩ := Queues.curr_mem_ready hi.tracks.curr hidle
    have hnodup := hi.tracks.placed.nodup .readyList
    rw [hts] at hlen hnodup
    exfalso
    cases ts with
    | nil => simp at hlen
    | cons a ts =>
        have ha : ((q.setBlock idle q.curr).setReady idle q.curr).nextRun idle = a := by
          rw [Queues.nextRun, Queues.setReady_queue _ hidle, Function.update_self,
            hi.tail_setBlock hidle, hts]
          rfl
        have hac : q.curr = a := hn.symm.trans ha
        exact (List.nodup_cons.mp hnodup).1 (by simp [hac])
  · have hq : SchedOp.yield.queues idle q = q := if_neg hlen
    exact hi.of_data .yield ht (by rw [hq]) (by rw [hq]) (by rw [hq]) (by simp)

theorem msleep (hi : StateInv idle q g) (hidle : q.curr ≠ idle) {ms : ℕ}
    (hms : msleepTicks ms ≠ 0) (ht : Tracks idle r' (q.msleep idle ms)) :
    StateInv idle (q.msleep idle ms) (g.next (.msleep ms) r') := by
  refine hi.of_block (.msleep ms) hidle (Queues.msleep_eq idle q ms) ?_ ?_ ?_ ht
  · exact (hi.fits.setBlock (hi.tracks.placed.nodup _) hidle).setSleep hms
      fun l hl => hi.notMem_setBlock hidle hl
  · simp only [Queues.setSleep, if_neg hms]
    exact Queues.setBlock_curr _ _
  · simp only [Queues.setSleep, if_neg hms]
    simpa using hi.tail_setBlock hidle

theorem lock (hi : StateInv idle q g) (hidle : q.curr ≠ idle) (m : M)
    (ht : Tracks idle r' (q.lock idle m)) :
    StateInv idle (q.lock idle m) (g.next (.lock m) r') := by
  have hset : ∀ v, q.lock idle m = q.setMutex m v →
      StateInv idle (q.lock idle m) (g.next (.lock m) r') := by
    intro v hq
    have hq' : (SchedOp.lock m).queues idle q = q.setMutex m v := hq
    exact hi.of_data (.lock m) ht (by rw [hq']; rfl) (by rw [hq']; rfl) (by rw [hq']; rfl)
      (by simp)
  by_cases hz : (q.mutex m).lockedCount = 0
  · exact hset { owner := some q.curr, lockedCount := 1 } (by simp only [Queues.lock, if_pos hz])
  · by_cases ho : (q.mutex m).owner = some q.curr
    · exact hset { q.mutex m with lockedCount := i32 ((q.mutex m).lockedCount + 1) }
        (by simp only [Queues.lock, if_neg hz, if_pos ho])
    · have hpush := hi.fits.pushWait (l := .mutexWaitList m) rfl (hi.curr_state hidle)
      have hr : (q.push (.mutexWaitList m) q.curr).queue .readyList = q.queue .readyList := by simp
      refine hi.of_block (.lock m)
        (p := (q.push (.mutexWaitList m) q.curr).setBlock idle q.curr) hidle ?_
        (hpush.setBlock (by rw [hr]; exact hi.tracks.placed.nodup _) hidle) ?_ ?_ ht
      · simp only [SchedOp.queues, Queues.lock, if_neg hz, if_neg ho]
      · rw [Queues.setBlock_curr]
        rfl
      · rw [Queues.setBlock_queue _ hidle, Function.update_self, hr, ← hi.tail_setBlock hidle,
          Queues.setBlock_queue _ hidle, Function.update_self]

theorem unlock (hi : StateInv idle q g) (hidle : q.curr ≠ idle) (m : M)
    (ht : Tracks idle r' (q.unlock idle m)) :
    StateInv idle (q.unlock idle m) (g.next (.unlock m) r') := by
  have hsame : (q.unlock idle m).queue = q.queue → (q.unlock idle m).curr = q.curr →
      (q.unlock idle m).task = q.task → StateInv idle (q.unlock idle m) (g.next (.unlock m) r') :=
    fun hq hc htask => hi.of_data (.unlock m) ht hq hc htask (by simp)
  by_cases ho : (q.mutex m).owner = some q.curr
  · by_cases hz : i32 ((q.mutex m).lockedCount - 1) = 0
    · cases hw : q.queue (.mutexWaitList m) with
      | nil =>
          have hq : q.unlock idle m = q.setMutex m { owner := none, lockedCount := 0 } := by
            simp only [Queues.unlock, if_pos ho, if_pos hz, hw]
          exact hsame (by rw [hq]; rfl) (by rw [hq]; rfl) (by rw [hq]; rfl)
      | cons t ts =>
          exact hi.of_ready (.unlock m) (l := .mutexWaitList m) (p :=
            (q.drop (.mutexWaitList m) t).setMutex m { owner := some t, lockedCount := 1 }) rfl hw
            hidle rfl rfl rfl (by simp only [SchedOp.queues, Queues.unlock, if_pos ho, if_pos hz, hw])
            (by simp) ht
    · have hq : q.unlock idle m = q.setMutex m
          { q.mutex m with lockedCount := i32 ((q.mutex m).lockedCount - 1) } := by
        simp only [Queues.unlock, if_pos ho, if_neg hz]
      exact hsame (by rw [hq]; rfl) (by rw [hq]; rfl) (by rw [hq]; rfl)
  · have hq : q.unlock idle m = q := by simp only [Queues.unlock, if_neg ho]
    exact hsame (by rw [hq]) (by rw [hq]) (by rw [hq])

theorem wait (hi : StateInv idle q g) (hidle : q.curr ≠ idle) (x : S)
    (ht : Tracks idle r' (q.wait idle x)) :
    StateInv idle (q.wait idle x) (g.next (.wait x) r') := by
  by_cases hpos : (q.sem x).count > 0
  · have hq : q.wait idle x = q.setSem x { count := i32 ((q.sem x).count - 1) } := by
      simp only [Queues.wait, if_pos hpos]
    have hq' : (SchedOp.wait x).queues idle q = _ := hq
    exact hi.of_data (.wait x) ht (by rw [hq']; rfl) (by rw [hq']; rfl) (by rw [hq']; rfl)
      (by simp)
  · have hblock := hi.fits.setBlock (hi.tracks.placed.nodup _) hidle
    refine hi.of_block (.wait x)
      (p := (q.setBlock idle q.curr).push (.semWaitList x) q.curr) hidle ?_ ?_ ?_ ?_ ht
    · simp only [SchedOp.queues, Queues.wait, if_neg hpos]
    · apply hblock.pushWait rfl
      have hstate := hi.curr_state hidle
      simpa [Queues.setBlock, hidle, Queues.drop] using hstate
    · exact Queues.setBlock_curr _ _
    · simpa using hi.tail_setBlock hidle

theorem notify (hi : StateInv idle q g) (hidle : q.curr ≠ idle) (x : S)
    (ht : Tracks idle r' (q.notify idle x)) :
    StateInv idle (q.notify idle x) (g.next (.notify x) r') := by
  cases hw : q.queue (.semWaitList x) with
  | nil =>
      have hq : q.notify idle x = q.setSem x { count := i32 ((q.sem x).count + 1) } := by
        simp only [Queues.notify, hw]
      have hq' : (SchedOp.notify x).queues idle q = _ := hq
      exact hi.of_data (.notify x) ht (by rw [hq']; rfl) (by rw [hq']; rfl) (by rw [hq']; rfl)
        (by simp)
  | cons t ts =>
      exact hi.of_ready (.notify x) (l := .semWaitList x) (p := q.drop (.semWaitList x) t) rfl
        hw hidle rfl rfl rfl (by simp only [SchedOp.queues, Queues.notify, hw]) (by simp) ht

/-- Time slices do not matter to the state fields. -/
theorem setTask_fits (hi : StateInv idle q g) {v : TaskSched}
    (hv : v.state = (q.task q.curr).state) : Fits (some q.curr) (q.setTask q.curr v) := by
  refine hi.fits.congr (fun _ _ _ hu => hu) fun _ _ u _ => ?_
  by_cases hu : u = q.curr
  · subst hu
    simpa [Queues.setTask] using hv
  · simp [Queues.setTask, hu]

/-- The tick ends with a dispatch after the sleepers were looked at. -/
theorem tick_wake (hi : StateInv idle q g) {c : Option T} (hf : Fits c (q.sliceTick idle)) :
    Fits c ((q.sliceTick idle).wake idle ((q.sliceTick idle).queue .sleepList)) ∧
      ∀ u, u ∉ q.queue .sleepList →
        (((q.sliceTick idle).wake idle ((q.sliceTick idle).queue .sleepList)).task u).state =
          ((q.sliceTick idle).task u).state := by
  obtain ⟨hfits, hstate⟩ := hf.wake ((q.sliceTick idle).queue .sleepList)
    (hi.tracks.placed.sliceTick hi.tracks.curr) (List.nil_append _).symm
  refine ⟨hfits, fun u hu => hstate u ?_⟩
  rwa [Queues.sliceTick_frame (by simp)]

theorem tick_idle (hi : StateInv idle q g) (hidle : q.curr = idle)
    (ht : Tracks idle r' (q.tick idle)) : StateInv idle (q.tick idle) (g.next .tick r') := by
  have hnil : q.queue .readyList = [] := by
    cases hq : q.queue .readyList with
    | nil => rfl
    | cons a ts =>
        have ha : q.curr = a := by simp [hi.tracks.curr, Queues.nextRun, hq]
        exact absurd (ha.symm.trans hidle)
          (hi.tracks.placed.ne_idle (l := .readyList) (by simp) (by simp [hq]))
  have hslice : ∃ v : TaskSched, v.state = (q.task q.curr).state ∧
      q.sliceTick idle = q.setTask q.curr v := by
    by_cases hz : (q.task q.curr).sliceTicks - 1 = 0
    · exact ⟨{ q.task q.curr with sliceTicks := (q.task q.curr).timeSlice }, rfl, by
        rw [hidle] at hz
        simp [Queues.sliceTick, hz, Queues.setReady, Queues.setBlock, hidle, Queues.setTask]⟩
    · exact ⟨{ q.task q.curr with sliceTicks := (q.task q.curr).sliceTicks - 1 }, rfl, by
        simp [Queues.sliceTick, hz]⟩
  obtain ⟨v, hv, hslice⟩ := hslice
  have hf := hi.setTask_fits hv
  have hnone : Fits none (q.sliceTick idle) := by
    rw [hslice]
    refine ⟨hf.sleep, fun t hm => ?_, hf.wait⟩
    rw [Queues.setTask_queue, hnil] at hm
    cases hm
  exact hi.of_dispatch .tick rfl ht (hi.tick_wake hnone).1
    (by rw [Queues.wake_curr, Queues.sliceTick_curr]) fun _ hne => absurd hidle hne

theorem tick_usedUp (hi : StateInv idle q g) (hidle : q.curr ≠ idle)
    (hz : (q.task q.curr).sliceTicks - 1 = 0) (ht : Tracks idle r' (q.tick idle)) :
    StateInv idle (q.tick idle) (g.next .tick r') := by
  have hslice : q.sliceTick idle = ((q.setTask q.curr { q.task q.curr with
      sliceTicks := (q.task q.curr).timeSlice }).setBlock idle q.curr).setReady idle q.curr := by
    simp [Queues.sliceTick, hz, Queues.setTask]
  have hnone : Fits none (q.sliceTick idle) := by
    rw [hslice]
    exact (hi.setTask_fits (v := { q.task q.curr with sliceTicks := (q.task q.curr).timeSlice })
      rfl).requeue (q := q.setTask _ _) hi.tracks.placed hidle
        (curr_mem_of_ne hi.tracks.curr hidle)
  refine hi.of_dispatch .tick rfl ht (hi.tick_wake hnone).1
    (by rw [Queues.wake_curr, Queues.sliceTick_curr]) fun _ _ => ⟨rfl, q.curr, hi.tracks.rep.curr, ?_⟩
  rw [hi.tracks.rep.task]
  omega

theorem tick_left (hi : StateInv idle q g) (hidle : q.curr ≠ idle)
    (hz : (q.task q.curr).sliceTicks - 1 ≠ 0) (ht : Tracks idle r' (q.tick idle)) :
    StateInv idle (q.tick idle) (g.next .tick r') := by
  have hslice : q.sliceTick idle = q.setTask q.curr
      { q.task q.curr with sliceTicks := (q.task q.curr).sliceTicks - 1 } := by
    simp [Queues.sliceTick, hz]
  have hfit : Fits (some q.curr) (q.sliceTick idle) := by
    rw [hslice]
    exact hi.setTask_fits rfl
  obtain ⟨hfits, hstate⟩ := hi.tick_wake hfit
  obtain ⟨ts, hts⟩ := Queues.curr_mem_ready hi.tracks.curr hidle
  obtain ⟨new, hnew⟩ := Queues.wake_ready idle (q.sliceTick idle)
    ((q.sliceTick idle).queue .sleepList)
  have hc : ((q.sliceTick idle).wake idle ((q.sliceTick idle).queue .sleepList)).curr = q.curr := by
    rw [Queues.wake_curr, Queues.sliceTick_curr]
  have hd : SchedOp.tick.queues idle q =
      (q.sliceTick idle).wake idle ((q.sliceTick idle).queue .sleepList) := by
    refine if_pos (Eq.trans ?_ hc.symm)
    rw [Queues.nextRun, hnew, hslice, Queues.setTask_queue, hts]
    rfl
  have hnot : q.curr ∉ q.queue .sleepList :=
    hi.tracks.placed.notMem_of_mem (l := .readyList) (by simp) (by simp)
      (curr_mem_of_ne hi.tracks.curr hidle) (by simp)
  refine hi.of_same .tick ht (hd ▸ hfits) (hd ▸ hc) (fun _ => ?_) fun _ hu => ?_
  · rw [hd, hstate _ hnot, hslice]
    simp [Queues.setTask]
  · obtain ⟨-, t, hct, h1⟩ := hu
    obtain rfl := Option.some.inj (hi.tracks.rep.curr.symm.trans hct)
    rw [hi.tracks.rep.task] at h1
    omega

theorem tick (hi : StateInv idle q g) (ht : Tracks idle r' (q.tick idle)) :
    StateInv idle (q.tick idle) (g.next .tick r') := by
  by_cases hidle : q.curr = idle
  · exact hi.tick_idle hidle ht
  · by_cases hz : (q.task q.curr).sliceTicks - 1 = 0
    · exact hi.tick_usedUp hidle hz ht
    · exact hi.tick_left hidle hz ht

theorem step (hi : StateInv idle q g) (he : op.enabled idle g.run)
    (ht : Tracks idle r' (op.queues idle q)) : StateInv idle (op.queues idle q) (g.next op r') := by
  have hidle : op ≠ .tick → q.curr ≠ idle := by
    intro hop
    apply hi.tracks.curr_ne_idle
    cases op with
    | tick => exact absurd rfl hop
    | init t => exact he.1
    | start t => exact he.1
    | msleep ms => exact he.1
    | _ => exact he
  cases op with
  | init t => exact hi.init he.2 ht
  | start t => exact hi.start (hidle (by simp)) he.2.2.1 he.2.2.2 ht
  | yield => exact hi.yield (hidle (by simp)) ht
  | msleep ms =>
      obtain ⟨-, h1, h2⟩ := he
      exact hi.msleep (hidle (by simp)) (msleepTicks_pos (by omega)) ht
  | lock m => exact hi.lock (hidle (by simp)) m ht
  | unlock m => exact hi.unlock (hidle (by simp)) m ht
  | wait x => exact hi.wait (hidle (by simp)) x ht
  | notify x => exact hi.notify (hidle (by simp)) x ht
  | tick => exact hi.tick ht

theorem running_of_agrees (hi : StateInv idle q g) (h : StateAgrees idle g.run) :
    g.run.sched.currTask = some idle ∨ g.switched = true := by
  by_cases hidle : q.curr = idle
  · exact .inl (hi.tracks.rep.curr.trans (congrArg some hidle))
  · have hstarted := (hi.tracks.placed.started_iff q.curr).mp
      ⟨.readyList, by simp, curr_mem_of_ne hi.tracks.curr hidle⟩
    have hrun := (h q.curr hstarted hidle).1.mpr hi.tracks.rep.curr
    rw [hi.tracks.rep.task, hi.curr hidle] at hrun
    refine .inr ?_
    by_contra hno
    rw [if_neg hno] at hrun
    cases hrun

theorem noWaiters_of_agrees (hi : StateInv idle q g) (h : StateAgrees idle g.run) (l : ListId M S)
    (hl : l.kind = .waitNode) : g.run.sched.tasksOn l = [] := by
  rw [hi.tracks.rep.tasksOn_eq, List.eq_nil_iff_forall_not_mem]
  intro t ht
  have hne := ne_taskList_of_waitNode hl
  have hstarted := (hi.tracks.placed.started_iff t).mp ⟨l, hne, ht⟩
  have hwait := (h t hstarted (hi.tracks.placed.ne_idle hne ht)).2.2.2.mpr
    ⟨l, hl, by rwa [hi.tracks.rep.tasksOn_eq]⟩
  rw [hi.tracks.rep.task] at hwait
  rcases hi.fits.wait l hl t ht with hs | hs
  · rw [hwait] at hs
    cases hs
  · rw [hwait] at hs
    cases hs

/-- When the state field agrees with the queues: the current task was switched to since it was last
put on the ready list, and nobody waits. -/
theorem agrees_iff (hi : StateInv idle q g) : StateAgrees idle g.run ↔
    (g.run.sched.currTask = some idle ∨ g.switched = true) ∧
      ∀ l : ListId M S, l.kind = .waitNode → g.run.sched.tasksOn l = [] := by
  refine ⟨fun h => ⟨hi.running_of_agrees h, hi.noWaiters_of_agrees h⟩, fun ⟨hrun, hwait⟩ t ht hne => ?_⟩
  have hp := hi.tracks.placed
  simp only [hi.tracks.rep.tasksOn_eq] at hwait
  have hnot : ¬ ∃ l : ListId M S, l.kind = .waitNode ∧ t ∈ q.queue l := by
    rintro ⟨l, hl, hm⟩
    rw [hwait l hl] at hm
    cases hm
  simp only [hi.tracks.rep.tasksOn_eq, hi.tracks.rep.task, hi.tracks.rep.curr,
    Option.some.injEq, ne_eq]
  obtain ⟨l, hl, hm⟩ := (hp.started_iff t).mpr ht
  have hcurr : t ∉ q.queue .readyList → q.curr ≠ t := by
    rintro hno rfl
    exact hno (curr_mem_of_ne hi.tracks.curr hne)
  cases l with
  | taskList => exact absurd rfl hl
  | mutexWaitList m => exact absurd ⟨_, rfl, hm⟩ hnot
  | semWaitList x => exact absurd ⟨_, rfl, hm⟩ hnot
  | sleepList =>
      have hr : t ∉ q.queue .readyList := hp.notMem_of_mem hl (by simp) hm (by simp)
      have hs := hi.fits.sleep t hm
      simp [hs, hm, hr, hcurr hr, hnot]
  | readyList =>
      have hsleep : t ∉ q.queue .sleepList := hp.notMem_of_mem hl (by simp) hm (by simp)
      by_cases hc : q.curr = t
      · subst hc
        have hsw : g.switched = true := hrun.resolve_left fun he =>
          hne (Option.some.inj (hi.tracks.rep.curr.symm.trans he))
        have hs := hi.curr hne
        rw [if_pos hsw] at hs
        simp [hs, hsleep, hnot]
      · have hs := hi.fits.ready t hm fun he => hc (Option.some.inj he)
        simp [hs, hm, hsleep, hc, hnot]

end StateInv

/-! ## All runs -/

theorem stateInv_of_reach {idle first : T} (hne : first ≠ idle) {g : StateRun T M S}
    (h : (stateMachine idle first).Reach g) : ∃ q, StateInv idle q g := by
  apply h.invariant (I := fun g : StateRun T M S => ∃ q, StateInv idle q g)
  · intro g hg
    obtain ⟨q, hq, -⟩ := StateInv.boot hne hg
    exact ⟨q, hq⟩
  · rintro g op g' ⟨q, hi⟩ he hs
    obtain ⟨s', hs', ht'⟩ := hi.tracks.step he
    have hg : g.next op (op.record g.run s') = g' := by
      simpa [stateMachine, schedMachine, hs'] using hs
    exact ⟨_, hg ▸ hi.step he ht'⟩

/-- The state field never agrees with the queues right after the boot; afterwards it does as long as
the current task was switched to, has not used up a time slice since without a switch, and nobody
waits. -/
theorem state_field_agrees {idle first : T} (hne : first ≠ idle) :
    (∀ g : StateRun T M S, (stateMachine idle first).init g → ¬ StateAgrees idle g.run) ∧
      ∀ g : StateRun T M S, (stateMachine idle first).Reach g → (StateAgrees idle g.run ↔
        (g.run.sched.currTask = some idle ∨ g.switched = true) ∧
          ∀ l : ListId M S, l.kind = .waitNode → g.run.sched.tasksOn l = []) := by
  refine ⟨fun g hg h => ?_, fun g hg => ?_⟩
  · obtain ⟨q, hi, hc⟩ := StateInv.boot hne hg
    rcases hi.running_of_agrees h with hr | hr
    · rw [hi.tracks.rep.curr, hc] at hr
      exact hne (Option.some.inj hr)
    · rw [hg.2] at hr
      cases hr
  · obtain ⟨q, hi⟩ := stateInv_of_reach hne hg
    exact hi.agrees_iff

def bootedState : StateRun (Fin 3) Unit Unit where
  run := { sched := schedBoot 0 1 Sched.zeroed, initialised := [1, 0], started := [1] }
  switched := false

/-- The first task has started another one and yields to it. -/
def yieldedState : StateRun (Fin 3) Unit Unit where
  run :=
    { sched := taskDispatch 0 (taskSetReady 0 1 (taskSetBlock 0 1
        (taskStart 0 2 (taskInit 2 bootedState.run.sched))))
      initialised := [2, 1, 0]
      started := [2, 1] }
  switched := true

theorem bootedState_init : (stateMachine 0 1).init bootedState := ⟨⟨_, Sched.zeroed_free, rfl⟩, rfl⟩

theorem yieldedState_reach : (stateMachine 0 1).Reach yieldedState := by
  let inited : StateRun (Fin 3) Unit Unit :=
    { run := { sched := taskInit 2 bootedState.run.sched, initialised := [2, 1, 0], started := [1] }
      switched := false }
  let started : StateRun (Fin 3) Unit Unit :=
    { run := { sched := taskStart 0 2 inited.run.sched, initialised := [2, 1, 0], started := [2, 1] }
      switched := false }
  have hinit : bootedState.run.sched.currTask ≠ some 0 ∧ 2 ∉ bootedState.run.initialised := by decide
  have hstart : inited.run.sched.currTask ≠ some 0 ∧ 2 ∈ inited.run.initialised ∧
      2 ∉ inited.run.started ∧ (2 : Fin 3) ≠ 0 := by decide
  have hyield : started.run.sched.currTask ≠ some 0 := by decide
  have h₁ : (stateMachine 0 1).Reach inited := .step (a := .init 2) (.init bootedState_init) hinit rfl
  have h₂ : (stateMachine 0 1).Reach started := .step (a := .start 2) h₁ hstart rfl
  exact .step (a := .yield) h₂ hyield rfl

/-- After the boot the state field does not agree, and after the switch it does. -/
theorem state_field_agrees_yielded : ¬ StateAgrees 0 bootedState.run ∧
    yieldedState.run.sched.currTask = some 2 ∧ StateAgrees 0 yieldedState.run := by
  have hall := state_field_agrees (M := Unit) (S := Unit) (show (1 : Fin 3) ≠ 0 by decide)
  refine ⟨hall.1 _ bootedState_init, rfl, (hall.2 _ yieldedState_reach).mpr ⟨.inr rfl, ?_⟩⟩
  rintro (_ | _ | _ | m | x) hl
  · cases hl
  · cases hl
  · cases hl
  · rfl
  · rfl

/-- The first task runs and its state is `TASK_READY`. -/
theorem state_field_counterexample :
    ¬ ∀ r : SchedRun Bool Unit Unit, (schedMachine false true).Reach r → StateAgrees false r := by
  intro h
  have hagrees := (h _ (.init ⟨_, Sched.zeroed_free, rfl⟩)) true List.mem_cons_self (by decide)
  have hrun := hagrees.1.mpr rfl
  cases hrun

end X86Os
