import X86Os.ArgPassing
import X86Os.TakenPages

/-!
# A program that is not started

`sys_execve` writes the name of the new program to the task before it does anything that can fail, and
when it fails it calls `memory_destroy_uvm`, which never frees the directory, with the directory that it
made, or with a null pointer. So a call that returns an error leaves the task and the pages as they were
only if there was no page for a directory, and the task already had the name.
-/

namespace X86Os

variable {n i j dir v w : ℕ} {s s' s₁ : Vm} {alloc : AddrAlloc} {l l' : List ℕ}

/-! ## What `memory_destroy_uvm` reads and frees -/

/-- The byte at a virtual address; zero stands for the result of an access that faults. -/
def Vm.byte (s : Vm) (v : ℕ) : BitVec 8 := ((s.phys v).map s.mem).getD 0

def Vm.word (s : Vm) (v : ℕ) : ℕ :=
  (s.byte v).toNat + 2 ^ 8 * (s.byte (u32 (v + 1))).toNat + 2 ^ 16 * (s.byte (u32 (v + 2))).toNat +
    2 ^ 24 * (s.byte (u32 (v + 3))).toNat

def destroyedPage (table : ℕ) (s : Vm) (j : ℕ) : List ℕ :=
  if Present (s.word (u32 (table + 4 * j))) then [entryPaddr (s.word (u32 (table + 4 * j)))] else []

def destroyedTable (dir : ℕ) (s : Vm) (i : ℕ) : List ℕ :=
  let pde := s.word (u32 (dir + 4 * i))
  if Present pde then (List.range' 0 pteCnt).flatMap (destroyedPage (entryPaddr pde) s) ++
    [entryPaddr (s.word (u32 (entryPaddr pde + 4 * pteCnt))), entryPaddr pde]
  else []

/-- The pages that `memory_destroy_uvm` frees in this order, for any address `dir`. -/
def destroyedPages (s : Vm) (dir : ℕ) : List ℕ :=
  (List.range' userPdeStart (pdeCnt - userPdeStart)).flatMap (destroyedTable dir s)

def AddrAlloc.freeAll (alloc : AddrAlloc) (l : List ℕ) : AddrAlloc :=
  l.foldl (fun alloc p => addrFreePage alloc p 1) alloc

theorem Vm.freedAll_alloc (s : Vm) (l : List ℕ) : (s.freedAll l).alloc = s.alloc.freeAll l := by
  induction l generalizing s with
  | nil => rfl
  | cons p l ih => exact ih (s.freed p 1)

theorem Vm.phys_congr (hmem : s'.mem = s.mem) (hcr3 : s'.cr3 = s.cr3) (v : ℕ) :
    s'.phys v = s.phys v := by
  rw [Vm.phys, Vm.phys, hmem, hcr3]

theorem Freed.word (h : Freed s l s') (v : ℕ) : s'.word v = s.word v := by
  have hbyte : ∀ v, s'.byte v = s.byte v := by
    intro v
    rw [Vm.byte, Vm.byte, Vm.phys_congr h.mem h.cr3, h.mem]
  simp only [Vm.word, hbyte]

theorem load8_byte {b : BitVec 8} (h : load8 v s = some (b, s')) : b = s.byte v ∧ s' = s := by
  obtain ⟨a, ha, hb⟩ := Option.map_eq_some_iff.mp h
  obtain ⟨rfl, rfl⟩ := Prod.mk.inj hb
  rw [Vm.byte, ha]
  exact ⟨rfl, rfl⟩

theorem load32_word (h : load32 v s = some (w, s')) : w = s.word v ∧ s' = s := by
  obtain ⟨b0, s₀, h0, h⟩ := Prog.bind_eq_some.mp h
  obtain ⟨rfl, rfl⟩ := load8_byte h0
  obtain ⟨b1, s₁, h1, h⟩ := Prog.bind_eq_some.mp h
  obtain ⟨rfl, rfl⟩ := load8_byte h1
  obtain ⟨b2, s₂, h2, h⟩ := Prog.bind_eq_some.mp h
  obtain ⟨rfl, rfl⟩ := load8_byte h2
  obtain ⟨b3, s₃, h3, h⟩ := Prog.bind_eq_some.mp h
  obtain ⟨rfl, rfl⟩ := load8_byte h3
  exact Prog.pure_eq_some.mp h

/-- Rounds of which each frees its own list. -/
theorem Freed.loop {body : ℕ → Prog Vm (Option Unit)} {g : Vm → ℕ → List ℕ} {m : ℕ}
    {r : Option Unit}
    (hbody : ∀ s j q s', body j s = some (q, s') → q = none ∧ Freed s (g s j) s')
    (hg : ∀ s l s' j, Freed s l s' → g s' j = g s j)
    (h : Prog.loop body m i s = some (r, s')) :
    r = none ∧ Freed s ((List.range' i m).flatMap (g s)) s' := by
  induction m generalizing i s with
  | zero =>
      obtain ⟨rfl, rfl⟩ := Prog.pure_eq_some.mp h
      exact ⟨rfl, .refl _⟩
  | succ m ih =>
      obtain ⟨q, s₁, hq, hrest⟩ := Prog.bind_eq_some.mp h
      obtain ⟨rfl, h₁⟩ := hbody s i q s₁ hq
      obtain ⟨rfl, h₂⟩ := ih hrest
      have hsame : g s₁ = g s := funext fun j => hg s _ s₁ j h₁
      rw [hsame] at h₂
      exact ⟨rfl, h₁.trans h₂⟩

theorem destroyPage_freed {table : ℕ} {q : Option Unit} (h : destroyPage table j s = some (q, s')) :
    q = none ∧ Freed s (destroyedPage table s j) s' := by
  obtain ⟨pte, s₁, hload, h⟩ := Prog.bind_eq_some.mp h
  obtain ⟨rfl, rfl⟩ := load32_word hload
  rw [destroyedPage]
  split_ifs at h ⊢
  · obtain ⟨_, s₂, hfree, h⟩ := Prog.bind_eq_some.mp h
    obtain ⟨rfl, rfl⟩ := Prog.pure_eq_some.mp h
    exact ⟨rfl, freePages_eq_some_freed.mp hfree⟩
  · obtain ⟨rfl, rfl⟩ := Prog.pure_eq_some.mp h
    exact ⟨rfl, .refl _⟩

theorem Freed.page_eq (h : Freed s l s') (table j : ℕ) :
    destroyedPage table s' j = destroyedPage table s j := by
  rw [destroyedPage, destroyedPage, h.word]

theorem destroyTable_freed {q : Option Unit} (h : destroyTable dir j s = some (q, s')) :
    q = none ∧ Freed s (destroyedTable dir s j) s' := by
  obtain ⟨pde, s₁, hload, h⟩ := Prog.bind_eq_some.mp h
  obtain ⟨rfl, rfl⟩ := load32_word hload
  simp only [destroyedTable]
  split_ifs at h ⊢
  · obtain ⟨r, s₂, hloop, h⟩ := Prog.bind_eq_some.mp h
    obtain ⟨-, hframes⟩ := Freed.loop (fun s j q s' => destroyPage_freed)
      (fun s l s' j h => h.page_eq _ j) hloop
    obtain ⟨past, s₃, hpast, h⟩ := Prog.bind_eq_some.mp h
    have hword := load32_word hpast
    rw [hword.1, hword.2, hframes.word] at h
    obtain ⟨_, s₄, hfree, h⟩ := Prog.bind_eq_some.mp h
    obtain ⟨_, s₅, hfree', h⟩ := Prog.bind_eq_some.mp h
    obtain ⟨rfl, rfl⟩ := Prog.pure_eq_some.mp h
    have hlast := (freePages_eq_some_freed.mp hfree).trans (freePages_eq_some_freed.mp hfree')
    exact ⟨rfl, hframes.trans hlast⟩
  · obtain ⟨rfl, rfl⟩ := Prog.pure_eq_some.mp h
    exact ⟨rfl, .refl _⟩

theorem Freed.table_eq (h : Freed s l s') (dir j : ℕ) :
    destroyedTable dir s' j = destroyedTable dir s j := by
  have hpage : ∀ table, destroyedPage table s' = destroyedPage table s := fun table =>
    funext fun j => h.page_eq table j
  simp only [destroyedTable, h.word, hpage]

theorem memoryDestroyUvm_freed {u : Unit} (h : memoryDestroyUvm dir s = some (u, s')) :
    Freed s (destroyedPages s dir) s' := by
  obtain ⟨r, s₁, hloop, h⟩ := Prog.bind_eq_some.mp h
  obtain ⟨-, rfl⟩ := Prog.pure_eq_some.mp h
  exact (Freed.loop (fun s j q s' => destroyTable_freed) (fun s l s' j h => h.table_eq dir j)
    hloop).2

/-- A bit is set in the end if it was set and no page has its number as the distance. -/
theorem bitAt_freeAll (hm : alloc.Managed n) (hstart : alloc.start = memExtStart) (hj : j < n) :
    (alloc.freeAll l).bitmap.bitAt j = true ↔
      alloc.bitmap.bitAt j = true ∧ ∀ p ∈ l, i32 (u32Sub p memExtStart) ≠ j := by
  induction l generalizing alloc with
  | nil => exact ⟨fun h => ⟨h, nofun⟩, And.left⟩
  | cons p l ih =>
      have hfirst := bitAt_freePage (p := p) hm hstart hj
      have hrest := ih (hm.freePage p 1) hstart
      rw [AddrAlloc.freeAll, List.foldl_cons]
      refine hrest.trans ?_
      rw [hfirst, List.forall_mem_cons]
      by_cases heq : i32 (u32Sub p memExtStart) = j
      · rw [if_pos heq]
        exact ⟨fun h => absurd h.1 Bool.false_ne_true, fun h => absurd heq h.2.1⟩
      · rw [if_neg heq]
        exact ⟨fun h => ⟨h.1, heq, h.2⟩, fun h => ⟨h.1, h.2.2⟩⟩

/-- The page for a new directory is the first free one. -/
theorem taken_of_createUvm {L : Layout} {d : ℕ} (hm : s.alloc.Managed n)
    (hstart : s.alloc.start = memExtStart) (hi : s.alloc.bitmap.FirstClear i)
    (h : memoryCreateUvm L s = some (d, s')) : Taken n i s' := by
  obtain ⟨a, s₁, halloc, hrest⟩ := Prog.bind_eq_some.mp h
  obtain ⟨-, rfl⟩ := Prod.mk.inj (Option.some.inj halloc)
  have hlt : i < n := by
    have := hi.1
    rw [hm.bitCount] at this
    exact_mod_cast this
  have hbit : (addrAllocPage s.alloc 1).2.bitmap.bitAt i = true := by
    rw [AddrAlloc.allocPage_found hi, Bitmap.bitAt_setBit_one _ hi.1, if_pos rfl]
    rfl
  have htaken : Taken n i { s with alloc := (addrAllocPage s.alloc 1).2 } :=
    ⟨hm.allocPage 1, hstart, hlt, hbit⟩
  exact htaken.of_alloc (sameAlloc_kernelHalf L a _ _ _ hrest)

/-! ## A failing `sys_execve` -/

namespace Kernel

variable {L : Layout} {disk : Disk} {argsAt name argv src : ℕ} {t : TaskId} {k k' k₁ : Kernel} {r : ℤ}

/-- What the caller and the allocator of `n` pages have is as it was. -/
structure ExecUnchanged (n : ℕ) (t : TaskId) (k k' : Kernel) : Prop where
  name : (k'.task t).name = (k.task t).name
  heapStart : (k'.task t).heapStart = (k.task t).heapStart
  heapEnd : (k'.task t).heapEnd = (k.task t).heapEnd
  cr3 : (k'.task t).tss.cr3 = (k.task t).tss.cr3
  frame : ∀ w < frameWords, k'.vm.word (frameAddr (k'.task t).tss.esp0 w) =
    k.vm.word (frameAddr (k.task t).tss.esp0 w)
  user : ∀ v, UserAddr v → (k'.vm.phys v).map k'.vm.mem = (k.vm.phys v).map k.vm.mem
  pages : ∀ j < n, k'.vm.alloc.bitmap.bitAt j = k.vm.alloc.bitmap.bitAt j

/-- The task has the name that `get_file_name` finds in the path. -/
def OwnName (t : TaskId) (name : ℕ) (k : Kernel) : Prop :=
  ∃ src, onVm (getFileName name) k = some (src, k) ∧ (src = 0 ∨ ∃ bytes,
    strncpyBytes (fun i => onVm (load8 (u32 (src + i)))) taskNameSize 0 k = some (bytes, k) ∧
      (k.task t).name.set bytes = (k.task t).name)

/-- No page is free, the name is not a new one, and what lies at the address zero is a directory whose
pages all have an index behind the bitmap, so that nothing is freed. -/
structure ExecHarmless (n : ℕ) (t : TaskId) (name : ℕ) (k : Kernel) : Prop where
  name : OwnName t name k
  full : ∀ j < n, k.vm.alloc.bitmap.bitAt j = true
  nothing : ∀ p ∈ destroyedPages k.vm 0, (n : ℤ) ≤ i32 (u32Sub p memExtStart)

/-- The two ways of a call after the name was copied: there is no page for a directory, or the first
free page was taken. -/
theorem sysExecve_cases (hc : k.sched.currTask = some t)
    (hrun : sysExecve L disk argsAt name argv k = some (r, k')) : ∃ src k₁,
      onVm (getFileName name) k = some (src, k) ∧ copyTaskName t src k = some ((), k₁) ∧
      (((∀ j : ℕ, (j : ℤ) < k.vm.alloc.bitmap.bitCount → k.vm.alloc.bitmap.bitAt j = true) ∧
        execFailed t (k₁.task t).tss.cr3 0 k₁ = some (r, k')) ∨
      ∃ i, k.vm.alloc.bitmap.FirstClear i ∧ (k.vm.alloc.Managed n → k.vm.alloc.start = memExtStart →
        ¬ memPageSize ∣ i → Taken n i k'.vm)) := by
  rw [sysExecve, Prog.bind_of_eq (taskCurrent_eq hc)] at hrun
  obtain ⟨src, k₀, hname, hrest⟩ := Prog.bind_eq_some.mp hrun
  obtain ⟨v, hfile, hk₀⟩ := onVm_eq_some.mp hname
  obtain rfl := getFileName_along _ _ _ _ hfile
  obtain rfl : k = k₀ := hk₀.symm
  obtain ⟨_, k₁, hcopy, hrest⟩ := Prog.bind_eq_some.mp hrest
  have hvm := (copyTaskName_keeps hcopy).2
  rw [Prog.gets_bind] at hrest
  refine ⟨src, k₁, hname, hcopy, ?_⟩
  rcases k.vm.alloc.firstClear_or with ⟨i, hi⟩ | hfull
  · refine .inr ⟨i, hi, fun hm hstart hdvd => ?_⟩
    obtain ⟨d, k₂, hcreate, hload⟩ := Prog.bind_eq_some.mp hrest
    obtain ⟨v₂, hdir, rfl⟩ := onVm_eq_some.mp hcreate
    rw [hvm] at hdir
    have htaken := taken_of_createUvm hm hstart hi hdir
    have hsteps := keepsPage_execSteps (n := n) hdvd disk argsAt t
    have hkeeps : Prog.Along (KeepsPage n i) (if d = 0 then execFailed t (k₁.task t).tss.cr3 d
        else execLoad disk argsAt t (k₁.task t).tss.cr3 d name argv) :=
      (hsteps.execFailed _ _).ite (hsteps.execLoad _ _ _ _)
    exact hkeeps _ _ _ hload htaken
  · refine .inl ⟨hfull, ?_⟩
    have halloc : memoryCreateUvm L k₁.vm = some (0, k₁.vm) := by
      have hnone : allocPage k₁.vm = some (0, k₁.vm) := by
        rw [allocPage, hvm, AddrAlloc.allocPage_none hfull]
      rw [memoryCreateUvm, Prog.bind_of_eq hnone, if_pos rfl]
      rfl
    have hcreate : onVm (memoryCreateUvm L) k₁ = some (0, k₁) := onVm_eq_some.mpr ⟨_, halloc, rfl⟩
    rwa [Prog.bind_of_eq hcreate, if_pos rfl] at hrest

/-- `execFailed` puts the old directory back, and frees what it finds from `dir` on. -/
theorem execFailed_freed {old : ℕ} (hcr3 : k.vm.cr3 = old)
    (h : execFailed t old dir k = some (r, k')) :
    k'.task t = (k.task t).withTss ((k.task t).tss.withCr3 old) ∧
      Freed k.vm (destroyedPages k.vm dir) k'.vm := by
  obtain ⟨_, k₁, hback, h⟩ := Prog.bind_eq_some.mp h
  obtain ⟨_, k₂, htss, hdir⟩ := Prog.bind_eq_some.mp hback
  obtain rfl := setTask_eq_some.mp htss
  obtain ⟨v, hload, rfl⟩ := onVm_eq_some.mp hdir
  obtain rfl := Prog.modify_eq_some.mp hload
  subst old
  obtain ⟨_, k₃, hdestroy, h⟩ := Prog.bind_eq_some.mp h
  obtain ⟨-, rfl⟩ := Prog.pure_eq_some.mp h
  obtain ⟨v, hfree, rfl⟩ := onVm_eq_some.mp hdestroy
  have hfree : memoryDestroyUvm dir k.vm = some ((), v) := hfree
  exact ⟨Function.update_self _ _ _, memoryDestroyUvm_freed hfree⟩

theorem execFailed_total {old : ℕ} (hcr3 : k.vm.cr3 = old)
    (h : memoryDestroyUvm dir k.vm = some ((), s')) :
    ∃ k', execFailed t old dir k = some (-1, k') := by
  subst old
  let k₁ : Kernel := { k with
    task := Function.update k.task t ((k.task t).withTss ((k.task t).tss.withCr3 k.vm.cr3)) }
  have hback : setPageDir t k.vm.cr3 k = some ((), k₁) := rfl
  have hfree : onVm (memoryDestroyUvm dir) k₁ = some ((), { k₁ with vm := s' }) :=
    onVm_eq_some.mpr ⟨s', h, rfl⟩
  refine ⟨{ k₁ with vm := s' }, ?_⟩
  rw [execFailed, Prog.bind_of_eq hback, Prog.bind_of_eq hfree]
  rfl

theorem copyTaskName_name {u : Unit} (hname : onVm (getFileName name) k = some (src, k))
    (h : copyTaskName t src k = some (u, k₁)) :
    (k₁.task t).name = (k.task t).name ↔ OwnName t name k := by
  rcases copyTaskName_result h with ⟨hsrc, rfl⟩ | ⟨hsrc, bytes, hcopy, rfl⟩
  · exact ⟨fun _ => ⟨src, hname, .inl hsrc⟩, fun _ => rfl⟩
  · rw [renamed_task]
    refine ⟨fun hset => ⟨src, hname, .inr ⟨bytes, hcopy, hset⟩⟩, ?_⟩
    rintro ⟨src', hname', hown⟩
    obtain rfl := (Prog.result_unique hname' hname).1
    rcases hown with hzero | ⟨bytes', hcopy', hset⟩
    · exact absurd hzero hsrc
    · obtain rfl := (Prog.result_unique hcopy' hcopy).1
      exact hset

/-- `kernel_strncpy` leaves the heap bounds and the task state segment alone. -/
theorem copyTaskName_frame {u : Unit} (h : copyTaskName t src k = some (u, k₁)) :
    (k₁.task t).heapStart = (k.task t).heapStart ∧ (k₁.task t).heapEnd = (k.task t).heapEnd ∧
      (k₁.task t).tss = (k.task t).tss := by
  rcases copyTaskName_result h with ⟨-, rfl⟩ | ⟨-, bytes, -, rfl⟩
  · exact ⟨rfl, rfl, rfl⟩
  · rw [renamed_task]
    exact ⟨rfl, rfl, rfl⟩

/-- A call that finds no page for the directory has no effect if and only if the name was there already
and nothing that lies at the address zero is freed. -/
theorem execFailed_unchanged (hm : k.vm.alloc.Managed n) (hstart : k.vm.alloc.start = memExtStart)
    (hcr3 : k.vm.cr3 = (k.task t).tss.cr3) (hname : onVm (getFileName name) k = some (src, k))
    (hcopy : copyTaskName t src k = some ((), k₁))
    (hfull : ∀ j < n, k.vm.alloc.bitmap.bitAt j = true)
    (hfail : execFailed t (k₁.task t).tss.cr3 0 k₁ = some (r, k')) :
    ExecUnchanged n t k k' ↔ ExecHarmless n t name k := by
  have hvm := (copyTaskName_keeps hcopy).2
  obtain ⟨hheap, hheap', htss⟩ := copyTaskName_frame hcopy
  have hcr3' : k₁.vm.cr3 = (k₁.task t).tss.cr3 := by rw [hvm, htss, hcr3]
  obtain ⟨htask, hfreed⟩ := execFailed_freed hcr3' hfail
  rw [hvm] at hfreed
  have hbits : ∀ j < n, k'.vm.alloc.bitmap.bitAt j = true ↔
      k.vm.alloc.bitmap.bitAt j = true ∧
        ∀ p ∈ destroyedPages k.vm 0, i32 (u32Sub p memExtStart) ≠ j := by
    intro j hj
    rw [hfreed.eq, Vm.freedAll_alloc]
    exact bitAt_freeAll hm hstart hj
  have hindex : ∀ p ∈ destroyedPages k.vm 0, 0 ≤ i32 (u32Sub p memExtStart) := by
    intro p hp
    rw [← hstart]
    exact hfreed.freeable p hp
  have hname' : (k'.task t).name = (k.task t).name ↔ OwnName t name k := by
    rw [htask]
    exact copyTaskName_name hname hcopy
  constructor
  · intro h
    refine ⟨hname'.mp h.name, hfull, fun p hp => ?_⟩
    have hge := hindex p hp
    by_contra hlt
    have hj : (i32 (u32Sub p memExtStart)).toNat < n := (Int.toNat_lt hge).mpr (not_le.mp hlt)
    have hkept := (hbits _ hj).mp ((h.pages _ hj).trans (hfull _ hj))
    exact hkept.2 p hp (Int.toNat_of_nonneg hge).symm
  · intro h
    refine ⟨hname'.mpr h.name, ?_, ?_, ?_, fun w hw => ?_, fun v hv => ?_, fun j hj => ?_⟩
    · rw [htask]
      exact hheap
    · rw [htask]
      exact hheap'
    · rw [htask]
      exact congrArg Tss.cr3 htss
    · rw [hfreed.word, htask]
      exact congrArg (fun tss : Tss => k.vm.word (frameAddr tss.esp0 w)) htss
    · rw [Vm.phys_congr hfreed.mem hfreed.cr3, hfreed.mem]
    · rw [hfull j hj]
      refine (hbits j hj).mpr ⟨hfull j hj, fun p hp => ?_⟩
      exact ((Int.ofNat_lt.mpr hj).trans_le (h.nothing p hp)).ne'

/-- A call that fails leaves the task and the pages as they were if nothing could be taken and the name
was there already. It does so in no other case, unless the first free page is one of those whose bit a
wrong distance can clear. -/
theorem sysExecve_unchanged (hc : k.sched.currTask = some t) (hm : k.vm.alloc.Managed n)
    (hstart : k.vm.alloc.start = memExtStart) (hcr3 : k.vm.cr3 = (k.task t).tss.cr3)
    (hrun : sysExecve L disk argsAt name argv k = some (-1, k')) :
    (ExecHarmless n t name k → ExecUnchanged n t k k') ∧
      (ExecUnchanged n t k k' → ExecHarmless n t name k ∨
        ∃ i, k.vm.alloc.bitmap.FirstClear i ∧ memPageSize ∣ i) := by
  have hcount := hm.bitCount
  obtain ⟨src, k₁, hname, hcopy, hcases⟩ := sysExecve_cases (n := n) hc hrun
  rcases hcases with ⟨hfull, hfail⟩ | ⟨i, hi, htaken⟩
  · have hfull' : ∀ j < n, k.vm.alloc.bitmap.bitAt j = true := fun j hj => hfull j (by omega)
    have hiff := execFailed_unchanged hm hstart hcr3 hname hcopy hfull' hfail
    exact ⟨hiff.mpr, fun h => .inl (hiff.mp h)⟩
  · have hlt : i < n := by
      have := hi.1
      omega
    constructor
    · intro h
      exact absurd (h.full i hlt) (by rw [hi.2.1]; exact Bool.false_ne_true)
    · intro h
      refine .inr ⟨i, hi, ?_⟩
      by_contra hdvd
      have hbit := (h.pages i hlt).symm.trans (htaken hm hstart hdvd).bit
      rw [hi.2.1] at hbit
      exact absurd hbit Bool.false_ne_true

/-! ### A call without a free page -/

theorem TaskName.set_twice (own : TaskName) (bytes : List (BitVec 8)) :
    TaskName.set (own.set bytes) bytes = own.set bytes := by
  funext i
  simp only [TaskName.set]
  split_ifs <;> rfl

/-- Every page is in use, and the string `"a"` lies at the user address `0x80000008`. -/
def namedKernel (own : TaskName) : Kernel :=
  { argKernel with task := fun t => { argKernel.task t with name := own } }

theorem argAlloc_bit (j : ℕ) : argAlloc.bitmap.bitAt j = true := by
  have hbits : ∀ i < 8, (0xFF : BitVec 8).getLsbD i = true := by decide
  exact hbits _ (Nat.mod_lt _ (by decide))

theorem argKernel_low {i : ℕ} (hi : i < pdeCnt) :
    load32 (u32 (0 + 4 * i)) argKernel.vm = some (0, argKernel.vm) := by
  have hlt : i < 1024 := hi
  have hread : argKernel.vm.mem.read32 (4 * i) = 0 := by
    rw [argKernel_read32]
    unfold argWord
    split_ifs <;> omega
  have hid : Identity (4 * i) := .inl (by unfold memEbdaStart; omega)
  rw [Nat.zero_add, u32_of_lt (by omega), load32_of_identity hid (Nat.mul_mod_right 4 i), hread]

theorem argKernel_destroy : memoryDestroyUvm 0 argKernel.vm = some ((), argKernel.vm) := by
  have hround : ∀ j s, userPdeStart ≤ j → j < userPdeStart + (pdeCnt - userPdeStart) →
      s = argKernel.vm → ∃ s', destroyTable 0 j s = some (none, s') ∧ s' = argKernel.vm := by
    rintro j s hj hj' rfl
    refine ⟨_, ?_, rfl⟩
    have hlt : j < pdeCnt := (mem_userPdes.mp (List.mem_range'_1.mpr ⟨hj, hj'⟩)).2
    rw [destroyTable, Prog.bind_of_eq (argKernel_low hlt), if_neg (by decide)]
    rfl
  obtain ⟨s', hs', rfl⟩ := Prog.loop_total hround rfl
  rw [memoryDestroyUvm, Prog.bind_of_eq hs']
  rfl

theorem argKernel_nothing : destroyedPages argKernel.vm 0 = [] := by
  refine List.flatMap_eq_nil_iff.mpr fun i hi => ?_
  have hlt : i < pdeCnt := (mem_userPdes.mp hi).2
  rw [destroyedTable, ← (load32_word (argKernel_low hlt)).1]
  exact if_neg (by decide)

theorem argKernel_fileName :
    getFileName 0x80000008 argKernel.vm = some (0x80000008, argKernel.vm) := by
  have hstop : strEnd (2 ^ 32) (0x80000008 + 0) argKernel.vm =
      some (0x80000008 + 1, argKernel.vm) :=
    (argKernel_args.string 0 (by decide)).strEnd_eq (Nat.zero_le _) (by norm_num)
  have hback : ∀ fuel, fileNameStart 0x80000008 (fuel + 3) (0x80000008 + 1) argKernel.vm =
      some (0x80000008, argKernel.vm) := by
    intro fuel
    have hlast : load8 (u32Sub (0x80000008 + 1) 1) argKernel.vm = some (0x61, argKernel.vm) :=
      argKernel_char (j := 8) (by norm_num)
    have hbefore : load8 (u32Sub (u32Sub (0x80000008 + 1) 1) 1) argKernel.vm =
        some (0, argKernel.vm) := argKernel_char (j := 7) (by norm_num)
    rw [fileNameStart, Prog.bind_of_eq (argKernel_char (j := 9) (by norm_num)), if_neg (by decide),
      fileNameStart, Prog.bind_of_eq hlast, if_neg (by decide),
      fileNameStart, Prog.bind_of_eq hbefore, if_pos (by decide)]
    rfl
  rw [getFileName, Prog.bind_of_eq hstop]
  exact hback (2 ^ 32 - 3)

theorem namedKernel_char {own : TaskName} {j : ℕ} (hj : j < 8) :
    onVm (load8 (u32 (0x80000008 + j))) (namedKernel own) =
      some (argKernel.vm.mem (0x122000 + (8 + j)), namedKernel own) := by
  refine onVm_eq_some.mpr ⟨argKernel.vm, ?_, rfl⟩
  rw [u32_of_lt (by omega), show 0x80000008 + j = 0x80000000 + (8 + j) by omega]
  exact argKernel_char (by omega)

theorem namedKernel_bytes (own : TaskName) :
    strncpyBytes (fun i => onVm (load8 (u32 (0x80000008 + i)))) taskNameSize 0 (namedKernel own) =
      some ([0x61], namedKernel own) := by
  have hstop : strncpyBytes (fun i => onVm (load8 (u32 (0x80000008 + i)))) 31 1 (namedKernel own) =
      some ([], namedKernel own) := by
    rw [strncpyBytes, Prog.bind_of_eq (namedKernel_char (by norm_num)), if_pos (by decide)]
    rfl
  have hsize : taskNameSize = 31 + 1 := rfl
  rw [hsize, strncpyBytes, Prog.bind_of_eq (namedKernel_char (by norm_num)), if_neg (by decide),
    Prog.bind_of_eq hstop]
  rfl

/-- The call fails, and the task has the name from the path. -/
theorem namedKernel_execve (own : TaskName) (L : Layout) (disk : Disk) (argsAt argv : ℕ) :
    ∃ k', sysExecve L disk argsAt 0x80000008 argv (namedKernel own) = some (-1, k') ∧
      (k'.task .first).name = own.set [0x61] := by
  have hfile : onVm (getFileName 0x80000008) (namedKernel own) =
      some (0x80000008, namedKernel own) := onVm_eq_some.mpr ⟨_, argKernel_fileName, rfl⟩
  have hcurrent : taskCurrent (namedKernel own) = some (.first, namedKernel own) := taskCurrent_eq rfl
  have hnone : allocPage argKernel.vm = some (0, argKernel.vm) := by
    have hfull : addrAllocPage argAlloc 1 = (0, argAlloc) :=
      AddrAlloc.allocPage_none fun j _ => argAlloc_bit j
    exact congrArg (fun r : ℕ × AddrAlloc => some (r.1, { argKernel.vm with alloc := r.2 })) hfull
  have hcreate : memoryCreateUvm L argKernel.vm = some (0, argKernel.vm) := by
    rw [memoryCreateUvm, Prog.bind_of_eq hnone, if_pos rfl]
    rfl
  obtain ⟨k₁, hcopy⟩ : ∃ k₁, copyTaskName .first 0x80000008 (namedKernel own) = some ((), k₁) := by
    let task : Task := { (namedKernel own).task .first with name := own.set [0x61] }
    refine ⟨{ namedKernel own with
      task := Function.update (namedKernel own).task .first task }, ?_⟩
    rw [copyTaskName, if_neg (by decide), Prog.bind_of_eq (namedKernel_bytes own)]
    rfl
  have hvm' : k₁.vm = argKernel.vm := (copyTaskName_keeps hcopy).2
  obtain ⟨-, -, htss⟩ := copyTaskName_frame hcopy
  have hname : (k₁.task .first).name = own.set [0x61] := by
    rcases copyTaskName_result hcopy with ⟨h0, -⟩ | ⟨-, bytes, hbytes, rfl⟩
    · exact absurd h0 (by decide)
    · obtain rfl := (Prog.result_unique hbytes (namedKernel_bytes own)).1
      rw [renamed_task]
      rfl
  have hcr3 : k₁.vm.cr3 = (k₁.task .first).tss.cr3 := by
    rw [hvm', htss]
    rfl
  have hdir : onVm (memoryCreateUvm L) k₁ = some (0, k₁) :=
    onVm_eq_some.mpr ⟨k₁.vm, hvm' ▸ hcreate, rfl⟩
  obtain ⟨k', hfail⟩ := execFailed_total hcr3 (hvm' ▸ argKernel_destroy)
  refine ⟨k', ?_, ?_⟩
  · rw [sysExecve, Prog.bind_of_eq hcurrent, Prog.bind_of_eq hfile, Prog.bind_of_eq hcopy,
      Prog.gets_bind, Prog.bind_of_eq hdir, if_pos rfl]
    exact hfail
  · rw [(execFailed_freed hcr3 hfail).1]
    exact hname

/-- The task has the name of the program already. -/
theorem sysExecve_unchanged_named : ∃ k',
    sysExecve sampleLayout (fun _ => 0) 0x123800 0x80000008 0 (namedKernel (.set .zero [0x61])) =
      some (-1, k') ∧ ExecUnchanged 4096 .first (namedKernel (.set .zero [0x61])) k' := by
  obtain ⟨k', hrun, -⟩ := namedKernel_execve (.set .zero [0x61]) sampleLayout (fun _ => 0) 0x123800 0
  refine ⟨k', hrun, (sysExecve_unchanged (n := 4096) rfl ⟨rfl, by decide, rfl, by decide⟩ rfl rfl
    hrun).1 ⟨⟨0x80000008, onVm_eq_some.mpr ⟨_, argKernel_fileName, rfl⟩, .inr
      ⟨[0x61], namedKernel_bytes _, TaskName.set_twice _ _⟩⟩, fun j _ => argAlloc_bit j, ?_⟩⟩
  intro p hp
  rw [show destroyedPages (namedKernel _).vm 0 = [] from argKernel_nothing] at hp
  cases hp

/-- The call fails for lack of a page, and the task has another name. -/
theorem sysExecve_renames : ∃ k',
    sysExecve sampleLayout (fun _ => 0) 0x123800 0x80000008 0 (namedKernel .zero) = some (-1, k') ∧
      ¬ ExecUnchanged 4096 .first (namedKernel .zero) k' := by
  obtain ⟨k', hrun, hname⟩ := namedKernel_execve .zero sampleLayout (fun _ => 0) 0x123800 0
  refine ⟨k', hrun, fun h => ?_⟩
  have hzero : TaskName.set .zero [0x61] = .zero := hname.symm.trans h.name
  exact absurd (congrFun hzero ⟨0, by decide⟩) (by decide)

end Kernel

end X86Os
