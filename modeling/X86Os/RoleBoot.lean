import X86Os.HeapBounds
import X86Os.RoleRun

/-!
# The roles after the start

`memory_init` takes the first pages for the kernel's tables. The idle task and the first task get the
first directories and kernel stacks.
-/

namespace X86Os

open Kernel (PageUsed)

variable {L : Layout} {n K dir c d e : ℕ} {m₀ : Mem} {role role' : RoleMap} {o : TaskId}
  {s s' v v' : Vm} {done : List MemoryMap} {map : MemoryMap} {pages : Finset ℕ}

/-! ## The kernel's tables -/

/-- The tables of a directory come from `pages`, and all other pages of these are clear. -/
structure TablesFrom (K dir : ℕ) (pages : Finset ℕ) (s : Vm) : Prop where
  table : ∀ i < pdeCnt, Present (s.mem.pde dir i) → s.mem.table dir i ∈ pages
  clear : (s.first K).alloc.clearPages ⊆ pages
  start : s.alloc.start = memExtStart

theorem TablesFrom.createIn {r : ℤ} (ht : TablesFrom K dir pages s) (h : Built n K dir done s) (hK : K ≤ n)
    (hmap : map.Ok) (hapart : ∀ old ∈ done, map.vlimit ≤ old.vstart ∨ old.vlimit ≤ map.vstart)
    (hrun : map.createIn dir s = some (r, s')) : TablesFrom K dir pages s' := by
  have hcount := hmap.count
  have hlim := hmap.limit_le
  have hle := hmap.start_le
  have hperm : map.perm < 2 ^ 32 := hmap.perm.trans (by decide)
  have hstart : map.vstart < 2 ^ 32 := by
    unfold memExtLimit at hlim
    omega
  have hnone : ∀ k < (map.vlimit - map.vstart) / memPageSize,
      s.mem.userEntry dir (pdeIndex (map.vstart + k * memPageSize))
        (pteIndex (map.vstart + k * memPageSize)) = none := by
    intro k hk
    have hlt := Nat.mul_lt_mul_of_pos_right hk (show 0 < memPageSize by decide)
    rw [h.entry _ (by unfold memExtLimit at hlim; omega)]
    refine regionEntry_eq_none fun old hold => ?_
    have := hapart old hold
    omega
  obtain ⟨t, hfirst, -⟩ := memoryCreateMap_total h.growable (hcount.trans_le hlim) hstart hperm h.room hnone
  have hext := h.growable.createMap hstart hstart hperm hfirst
  obtain ⟨s₁, hrun₁, rfl, -⟩ := memoryCreateMap_first h.managed hK hfirst
  rw [hmap.createIn_eq] at hrun
  obtain ⟨-, rfl⟩ := Prog.result_unique hrun hrun₁
  have hsame : s'.alloc.start = s.alloc.start := hext.start
  refine ⟨fun i hi hp => ?_, hext.clear.trans ht.clear, hsame.trans ht.start⟩
  have hcases : (Present (s.mem.pde dir i) ∧ s'.mem.table dir i = s.mem.table dir i) ∨
      s'.mem.table dir i ∈ (s.first K).alloc.clearPages := hext.tables i hi hp
  refine hcases.elim (fun hkept => ?_) fun hnew => ht.clear hnew
  rw [hkept.2]
  exact ht.table i hi hkept.1

theorem TablesFrom.forM {maps : List MemoryMap} {u : Unit} (ht : TablesFrom K dir pages s)
    (h : Built n K dir done s) (hK : K ≤ n) (hok : ∀ map ∈ maps, map.Ok)
    (hapart : maps.Pairwise fun old map => map.vlimit ≤ old.vstart ∨ old.vlimit ≤ map.vstart)
    (hdone : ∀ old ∈ done, ∀ map ∈ maps, map.vlimit ≤ old.vstart ∨ old.vlimit ≤ map.vstart)
    (hrun : (maps.forM fun map => do
        let _ ← map.createIn dir
        pure ()) s = some (u, s')) : TablesFrom K dir pages s' := by
  induction maps generalizing done s with
  | nil =>
      obtain ⟨-, rfl⟩ := Prog.pure_eq_some.mp hrun
      exact ht
  | cons map maps ih =>
      have hmap := hok map List.mem_cons_self
      have hold : ∀ old ∈ done, map.vlimit ≤ old.vstart ∨ old.vlimit ≤ map.vstart :=
        fun old hold => hdone old hold map List.mem_cons_self
      obtain ⟨s₁, hs₁, h₁, -⟩ := h.createIn hK hmap hold
      have hone : (do
          let _ ← map.createIn dir
          pure () : Prog Vm Unit) s = some ((), s₁) := by
        rw [Prog.bind_of_eq hs₁]
        rfl
      have hrest := (Prog.bind_of_eq hone).symm.trans hrun
      refine ih (ht.createIn h hK hmap hold hs₁) h₁
        (fun map' hmap' => hok map' (List.mem_cons_of_mem _ hmap')) (List.Pairwise.of_cons hapart)
        (fun old hold map' hmap' => ?_) hrest
      rcases List.mem_cons.mp hold with rfl | hold
      · exact List.rel_of_pairwise_cons hapart hmap'
      · exact hdone old hold map' (List.mem_cons_of_mem _ hmap')

open Classical in
/-- After `memory_init` only the kernel's tables have a role. -/
noncomputable def kernelRoles (m : Mem) (dir : ℕ) : RoleMap := fun p =>
  if ∃ i < pdeCnt, Present (m.pde dir i) ∧ m.table dir i = p then some .kernel else none

theorem kernelRoles_eq {m : Mem} {p : ℕ} {k : PageRole} (h : kernelRoles m dir p = some k) :
    k = .kernel ∧ ∃ i < pdeCnt, Present (m.pde dir i) ∧ m.table dir i = p := by
  rw [kernelRoles] at h
  split_ifs at h with hp
  exact ⟨(Option.some.inj h).symm, hp⟩

theorem memoryInit_roles {info : BootInfo} {bits : ℤ → BitVec 8} {u : Unit}
    (h : Kernel.BootFits L info n s) (hrun : memoryInit L bits info s = some (u, v)) :
    Roles L n v.mem L.kernelPageDir (kernelRoles v.mem L.kernelPageDir) v := by
  obtain ⟨hend, hdata⟩ := h.bitmap.sData_lt
  obtain rfl := h.pages
  have hroom : kernelTables ≤ memUp1MBFree info / memPageSize := by
    have := h.room
    omega
  have hne : L.kernelPageDir ≠ 0 := by
    have htext := L.sText_eq
    have hle := L.eText_ge
    have heq := L.sData_eq
    have hge := L.pageDir_ge
    omega
  obtain ⟨_, s₁, hinit, hrun₁⟩ := Prog.bind_eq_some.mp hrun
  obtain rfl := Prog.modify_eq_some.mp hinit
  obtain ⟨_, s₂, hreq, hrun₂⟩ := Prog.bind_eq_some.mp hrun₁
  obtain ⟨-, rfl⟩ := Prog.require_eq_some.mp hreq
  obtain ⟨_, s₃, htable, hrun₃⟩ := Prog.bind_eq_some.mp hrun₂
  obtain rfl := Prog.modify_eq_some.mp hrun₃
  let s₁ : Vm :=
    { s with alloc := addrAllocInit bits memExtStart (memUp1MBFree info) memPageSize }
  change createKernelTable L s₁ = some _ at htable
  have hfresh : FreshTables (memUp1MBFree info / memPageSize) kernelTables L.kernelPageDir s₁ :=
    freshTables_init rfl (memUp1MBFree_lt info) hroom L.pageDir_aligned hne hend h.dir
  rw [createKernelTable_eq L hdata] at htable
  have hnone : ∀ old ∈ ([] : List MemoryMap), ∀ map ∈ linkMap (L.linkAddrs hdata),
      map.vlimit ≤ old.vstart ∨ old.vlimit ≤ map.vstart := fun _ hold => absurd hold List.not_mem_nil
  have hfrom : TablesFrom kernelTables L.kernelPageDir (s₁.first kernelTables).alloc.clearPages s₁ :=
    ⟨fun i hi hp => absurd hp (h.dir i hi), subset_rfl, rfl⟩
  have hfrom' := hfrom.forM hfresh.built hfresh.le (linkMap_ok _) (linkMap_apart _) hnone htable
  obtain ⟨s₂, hrun', hbuilt, -⟩ :=
    hfresh.built.forM hfresh.le (linkMap_ok (L.linkAddrs hdata)) (linkMap_apart _) hnone
  obtain ⟨-, rfl⟩ := Prog.result_unique htable hrun'
  obtain ⟨s₂', hrun'', hmapped⟩ := createKernelTable_identity (L.linkAddrs hdata) hfresh
  obtain ⟨-, rfl⟩ := Prog.result_unique htable hrun''
  have hpage : ∀ i < pdeCnt, Present (s₃.mem.pde L.kernelPageDir i) → ∃ k < kernelTables,
      s₃.mem.table L.kernelPageDir i = memExtStart + k * memPageSize ∧
        PageUsed (memUp1MBFree info / memPageSize) s₃ (s₃.mem.table L.kernelPageDir i) := by
    intro i hi hp
    obtain ⟨k, hk, -, hpk⟩ := (AddrAlloc.mem_clearPages (hfresh.managed.first hroom)).mp (hfrom'.table i hi hp)
    have haddr : ∀ alloc : AddrAlloc, alloc.start = memExtStart → alloc.pageSize = memPageSize →
        alloc.pageAddr k = memExtStart + k * memPageSize := by
      intro alloc hstart hsize
      rw [AddrAlloc.pageAddr, hstart, hsize]
      refine u32_of_lt ?_
      unfold kernelTables memExtLimit at hk
      unfold memExtStart memPageSize
      omega
    have htaddr : s₃.mem.table L.kernelPageDir i = memExtStart + k * memPageSize :=
      hpk.symm.trans (haddr _ rfl rfl)
    have hpk' : s₃.alloc.pageAddr k = s₃.mem.table L.kernelPageDir i :=
      (haddr _ hfrom'.start hbuilt.managed.pageSize).trans htaddr.symm
    refine ⟨k, hk, htaddr, k, ⟨hbuilt.managed, hfrom'.start, by omega, ?_⟩, hpk'⟩
    by_contra hbit
    exact hbuilt.growable.table_taken i hi hp ((AddrAlloc.mem_clearPages hbuilt.growable.managed).mpr
      ⟨k, hk, Bool.eq_false_iff.mpr hbit, hpk'⟩)
  have hlow : ∀ k < kernelTables, memExtStart + k * memPageSize + memPageSize ≤ bootMapLimit := by
    intro k hk
    unfold kernelTables memExtLimit at hk
    unfold memExtStart memPageSize bootMapLimit
    omega
  have hge : memPageSize ≤ L.kernelPageDir := by
    have htext := L.sText_eq
    have hle := L.eText_ge
    have heq := L.sData_eq
    have hge := L.pageDir_ge
    unfold memPageSize
    omega
  refine
    { ready :=
        { dirPage := hfresh.dirPage
          dir_ge := hge
          dir_end := hend.trans (by decide)
          top := h.top.trans (by decide)
          table := fun i hi hp => ?_
          identity := hmapped.identity
          user := hmapped.user }
      managed := hbuilt.managed
      start := hfrom'.start
      cr3 := rfl
      used := fun p hp => ?_
      kernel := fun i hi hp => if_pos ⟨i, hi, hp, rfl⟩
      kernel_low := fun p hp => ?_
      kernelDir := fun _ _ => rfl
      kernelTable := fun _ _ _ _ => rfl
      fixed := fun _ _ _ _ => rfl
      dir := fun d o hd => ?_
      table := fun t d i ht => ?_ }
  · obtain ⟨k, hk, he, -⟩ := hpage i hi hp
    refine ⟨(hbuilt.growable.directory.tablePage i hi hp).1, ?_⟩
    show s₃.mem.table L.kernelPageDir i + memPageSize ≤ bootMapLimit
    rw [he]
    exact hlow k hk
  · obtain ⟨k, hk⟩ := Option.ne_none_iff_exists'.mp hp
    obtain ⟨-, i, hi, hpres, rfl⟩ := kernelRoles_eq hk
    obtain ⟨k, hk, -, hused⟩ := hpage i hi hpres
    exact hused.congr rfl
  · obtain ⟨-, i, hi, hpres, rfl⟩ := kernelRoles_eq hp
    obtain ⟨k, hk, he, -⟩ := hpage i hi hpres
    show s₃.mem.table L.kernelPageDir i + memPageSize ≤ bootMapLimit
    rw [he]
    exact hlow k hk
  · cases (kernelRoles_eq hd).1
  · cases (kernelRoles_eq ht).1

theorem Roles.store8_user {a : ℕ} {b : BitVec 8} {u : Unit} (h : Roles L n m₀ c role v)
    (hc : role c = some (.dir o)) (ha : UserAddr a) (hrun : store8 a b v = some (u, v')) :
    Roles L n m₀ c role v' := by
  obtain ⟨x, hx, hpair⟩ := Option.map_eq_some_iff.mp hrun
  obtain ⟨-, rfl⟩ := Prod.mk.inj hpair
  have hdir : entryPaddr v.cr3 = c := by
    rw [h.cr3]
    exact entryPaddr_add (x := 0) (h.dirPage hc).aligned (by decide)
  rw [Vm.phys, if_neg (not_lt.mpr ha.1), hdir] at hx
  obtain ⟨q, hq, rfl⟩ := h.walk_frame hc ha hx
  refine h.write (.inr ⟨_, hq, trivial⟩) rfl rfl fun y hy => Function.update_of_ne (fun he => hy ?_) _ _
  unfold InPage memPageSize at *
  omega

/-! ## The first tasks -/

namespace Kernel

variable {t : TaskId} {k k' : Kernel} {name : TaskName} {entry esp : ℕ} {err : ℤ}

theorem tssInitFailed_result {sel kernelStack : ℕ}
    (hrun : tssInitFailed sel kernelStack k = some (err, k')) : err = -1 := by
  obtain ⟨_, k₁, -, hrun₁⟩ := Prog.bind_eq_some.mp hrun
  obtain ⟨_, k₂, -, hrun₂⟩ := Prog.bind_eq_some.mp hrun₁
  exact (Prog.pure_eq_some.mp hrun₂).1

theorem tssInit_runs (hr : Roles L n m₀ c role k.vm) (hrun : tssInit L t entry esp name k = some (err, k'))
    (herr : 0 ≤ err) : ∃ role', role ≤ role' ∧ Roles L n m₀ c role' k'.vm ∧ TaskRuns role' t (k'.task t) ∧
      k'.sched = k.sched ∧ ∀ u, u ≠ t → k'.task u = k.task u := by
  obtain ⟨sel, k₁, hsel, hrun₁⟩ := Prog.bind_eq_some.mp hrun
  obtain ⟨rfl, rfl⟩ := Prod.mk.inj (Option.some.inj hsel)
  split_ifs at hrun₁ with h0
  · obtain ⟨rfl, -⟩ := Prog.pure_eq_some.mp hrun₁
    cases herr
  · obtain ⟨_, k₂, hdesc, hrun₂⟩ := Prog.bind_eq_some.mp hrun₁
    obtain rfl := Prog.modify_eq_some.mp hdesc
    obtain ⟨_, k₃, hzero, hrun₃⟩ := Prog.bind_eq_some.mp hrun₂
    obtain rfl := setTask_eq_some.mp hzero
    obtain ⟨q, k₄, hstack, hrun₄⟩ := Prog.bind_eq_some.mp hrun₃
    obtain ⟨v₁, hv₁, rfl⟩ := onVm_eq_some.mp hstack
    have hplain : (PageRole.stack t).Plain := trivial
    obtain ⟨role₁, hle₁, hr₁, hq⟩ := keepsRoles_allocPlain hplain role le_rfl k.vm q v₁ hr hv₁
    split_ifs at hrun₄ with hq0
    · rw [tssInitFailed_result hrun₄] at herr
      cases herr
    · rw [tssInitStack, Prog.gets_bind, Prog.gets_bind] at hrun₄
      obtain ⟨_, k₅, htss, hrun₅⟩ := Prog.bind_eq_some.mp hrun₄
      obtain rfl := setTask_eq_some.mp htss
      obtain ⟨d, k₆, hdir, hrun₆⟩ := Prog.bind_eq_some.mp hrun₅
      obtain ⟨v₂, hv₂, rfl⟩ := onVm_eq_some.mp hdir
      obtain ⟨role₂, hle₂, hr₂, hd⟩ := keepsRoles_createUvm t role₁ le_rfl v₁ d v₂ hr₁ hv₂
      by_cases hd0 : d = 0
      · rw [if_pos hd0] at hrun₆
        rw [tssInitFailed_result hrun₆] at herr
        cases herr
      · rw [if_neg hd0] at hrun₆
        obtain ⟨_, k₇, hcr3, hrun₇⟩ := Prog.bind_eq_some.mp hrun₆
        obtain rfl := setTask_eq_some.mp hcr3
        obtain ⟨-, rfl⟩ := Prog.pure_eq_some.mp hrun₇
        have hq' := hq hq0
        refine ⟨role₂, hle₁.trans hle₂, hr₂, ?_, rfl, fun u hu => ?_⟩
        · simp only [Function.update_self]
          exact ⟨hd hd0, q, hle₂ _ _ hq', (Roles.stackTop hr₁ hq').1⟩
        · simp only [Function.update_of_ne hu]

theorem taskInit_runs (hr : Roles L n m₀ c role k.vm) (hrun : taskInit L t name entry esp k = some (err, k'))
    (herr : 0 ≤ err) : ∃ role', role ≤ role' ∧ Roles L n m₀ c role' k'.vm ∧ TaskRuns role' t (k'.task t) ∧
      ∀ u, u ≠ t → k'.task u = k.task u := by
  obtain ⟨e, k₁, htss, hrun₁⟩ := Prog.bind_eq_some.mp hrun
  by_cases he : e < 0
  · rw [if_pos he] at hrun₁
    rw [(Prog.pure_eq_some.mp hrun₁).1] at herr
    exact absurd he (not_lt.mpr herr)
  · rw [if_neg he] at hrun₁
    obtain ⟨role', hle, hr', htask, -, hother⟩ := tssInit_runs hr htss (not_lt.mp he)
    obtain ⟨bytes, k₂, hbytes, hrun₂⟩ := Prog.bind_eq_some.mp hrun₁
    obtain rfl := strncpyBytes_along (fun _ => Prog.along_pure _) _ _ _ _ _ hbytes
    obtain ⟨_, k₃, hset, hrun₃⟩ := Prog.bind_eq_some.mp hrun₂
    obtain rfl := setTask_eq_some.mp hset
    obtain ⟨_, k₄, hsched, hrun₄⟩ := Prog.bind_eq_some.mp hrun₃
    obtain rfl := setSched_eq_some.mp hsched
    obtain ⟨-, rfl⟩ := Prog.pure_eq_some.mp hrun₄
    refine ⟨role', hle, hr', ?_, fun u hu => ?_⟩
    · simp only [Function.update_self]
      exact ⟨htask.dir, htask.stack.congr rfl⟩
    · exact (Function.update_of_ne hu _ _).trans (hother u hu)

theorem appSegment_keeps {type sel : ℕ} (hrun : appSegment type k = some (sel, k')) :
    k'.vm = k.vm ∧ k'.task = k.task := by
  obtain ⟨a, k₁, halloc, hrun₁⟩ := Prog.bind_eq_some.mp hrun
  obtain ⟨-, rfl⟩ := Prod.mk.inj (Option.some.inj halloc)
  obtain ⟨_, k₂, hset, hrun₂⟩ := Prog.bind_eq_some.mp hrun₁
  obtain rfl := Prog.modify_eq_some.mp hset
  obtain ⟨-, rfl⟩ := Prog.pure_eq_some.mp hrun₂
  exact ⟨rfl, rfl⟩

theorem Supplied.same {b : ℕ} {taken : List ℕ} (h : Supplied L n b taken k) (hvm : k'.vm = k.vm)
    (hgdt : k'.gdt = k.gdt) : Supplied L n b taken k' := ⟨hvm ▸ h.memory, hvm ▸ h.clear, hgdt ▸ h.gdt⟩

theorem Supplied.appSegment_of {b type sel : ℕ} {taken : List ℕ} (h : Supplied L n b taken k)
    (hlen : taken.length < gdtTableSize - firstSlot) (hrun : Kernel.appSegment type k = some (sel, k')) :
    Supplied L n b (sel :: taken) k' := by
  obtain ⟨_, _, hrun', h'⟩ := h.appSegment hlen type
  obtain ⟨rfl, rfl⟩ := Prog.result_unique hrun hrun'
  exact h'

/-- The idle task runs, and the slots are empty. -/
theorem taskManagerInit_runs {b : ℕ} {u : Unit} (h : Supplied L n b [] k) (hroom : b + 2 ≤ n)
    (hr : Roles L n m₀ c role k.vm) (hrun : taskManagerInit L k = some (u, k')) :
    ∃ role', role ≤ role' ∧ Roles L n m₀ c role' k'.vm ∧ TaskRuns role' .idle (k'.task .idle) ∧
      ∀ i < taskNr, k'.task (.slot i) = .zero := by
  obtain ⟨_, k₀, hclear, hrun₁⟩ := Prog.bind_eq_some.mp hrun
  have h₀ : Supplied L n b [] k₀ := by
    obtain rfl := Prog.modify_eq_some.mp hclear
    exact h.same rfl rfl
  have hvm₀ : k₀.vm = k.vm := by
    obtain rfl := Prog.modify_eq_some.mp hclear
    rfl
  have hzero : ∀ i < taskNr, k₀.task (.slot i) = .zero := fun i hi => by
    obtain rfl := Prog.modify_eq_some.mp hclear
    exact if_pos hi
  obtain ⟨data, k₁, hdata, hrun₂⟩ := Prog.bind_eq_some.mp hrun₁
  obtain ⟨_, k₂, hset, hrun₃⟩ := Prog.bind_eq_some.mp hrun₂
  obtain rfl := Prog.modify_eq_some.mp hset
  obtain ⟨code, k₃, hcode, hrun₄⟩ := Prog.bind_eq_some.mp hrun₃
  obtain ⟨_, k₄, hset', hrun₅⟩ := Prog.bind_eq_some.mp hrun₄
  obtain rfl := Prog.modify_eq_some.mp hset'
  obtain ⟨_, k₅, hlists, hrun₆⟩ := Prog.bind_eq_some.mp hrun₅
  obtain rfl := setSched_eq_some.mp hlists
  obtain ⟨err, k₆, hidle, hrun₇⟩ := Prog.bind_eq_some.mp hrun₆
  obtain ⟨_, k₇, hcurr, hrun₈⟩ := Prog.bind_eq_some.mp hrun₇
  obtain rfl := setSched_eq_some.mp hcurr
  obtain rfl := setSched_eq_some.mp hrun₈
  have h₁ : Supplied L n b [data] k₁ := h₀.appSegment_of (by decide) hdata
  have h₂ : Supplied L n b [data] { k₁ with appDataSel := data } := h₁.same rfl rfl
  have h₃ : Supplied L n b [code, data] k₃ := h₂.appSegment_of (show 1 < _ by decide) hcode
  let k₄ : Kernel := { k₃ with
    appCodeSel := code
    sched := ((k₃.sched.initList .readyList).initList .taskList).initList .sleepList }
  have h₄ : Supplied L n b [code, data] k₄ := h₃.same rfl rfl
  change taskInit L .idle _ _ _ k₄ = _ at hidle
  obtain ⟨_, _, _, _, hidle', -, -⟩ := h₄.taskInit (show 2 < _ by decide) hroom
    (TaskName.ofBytes idleTaskName) L.idleTaskEntry (L.idleTaskStack + 4 * idleStackSize)
  obtain ⟨rfl, -⟩ := Prog.result_unique hidle hidle'
  obtain ⟨hvm₁, htask₁⟩ := appSegment_keeps hdata
  obtain ⟨hvm₃, htask₃⟩ := appSegment_keeps hcode
  have hr₄ : Roles L n m₀ c role k₄.vm := by
    show Roles L n m₀ c role k₃.vm
    rw [hvm₃]
    show Roles L n m₀ c role k₁.vm
    rw [hvm₁, hvm₀]
    exact hr
  obtain ⟨role', hle, hr', htask, hother⟩ := taskInit_runs hr₄ hidle le_rfl
  refine ⟨role', hle, hr', htask, fun i hi => (hother (.slot i) (by simp)).trans ?_⟩
  show k₃.task (.slot i) = .zero
  rw [htask₃]
  show k₁.task (.slot i) = .zero
  rw [htask₁]
  exact hzero i hi

/-- Copying to the user half of the directory in use. -/
theorem keepsRoles_memcpyUser {dest src size : ℕ} (hc : role c = some (.dir o)) (hd : UserAddr dest)
    (hend : dest + size ≤ 2 ^ 32) :
    KeepsRoles L n m₀ c role (kernelMemcpy dest src size) fun _ _ => True := by
  have hloop : ∀ size dest src role, role c = some (.dir o) → (size = 0 ∨ UserAddr dest) →
      dest + size ≤ 2 ^ 32 → KeepsRoles L n m₀ c role (memcpyLoop size dest src) fun _ _ => True := by
    intro size
    induction size with
    | zero => exact fun _ _ _ _ _ _ => Prog.keeps_pure ()
    | succ size ih =>
        intro dest src role hc hd hend
        have hd' := hd.resolve_left (Nat.succ_ne_zero size)
        refine (Prog.keeps_of_eq (load8_along src)).bind fun b => ?_
        have hstore : KeepsRoles L n m₀ c role (store8 dest b) fun role' _ =>
            role' c = some (.dir o) :=
          fun role₁ hle v u v' hr hrun =>
            ⟨role₁, le_rfl, hr.store8_user (hle _ _ hc) hd' hrun, hle _ _ hc⟩
        refine hstore.bind fun role₁ _ _ hc₁ => ih _ _ _ hc₁ ?_ ?_
        · by_cases h0 : size = 0
          · exact .inl h0
          · rw [u32_of_lt (by omega)]
            exact .inr ⟨hd'.1.trans (Nat.le_succ _), by omega⟩
        · have := Nat.mod_le (dest + 1) (2 ^ 32)
          unfold u32
          omega
  exact Prog.Ensures.ite (fun _ => Prog.keeps_pure ()) fun _ => hloop size dest src role hc (.inr hd) hend

theorem running_firstTaskLoad {u : Unit} (hr : Roles L n m₀ c role k.vm)
    (htask : TaskRuns role .first (k.task .first)) (himage : eFirstTask L - L.sFirstTask < firstAllocSize)
    (hrun : firstTaskLoad L k = some (u, k')) :
    ∃ role', role ≤ role' ∧ Running L n m₀ .first k role' k' := by
  have hstart : UserAddr firstStart := ⟨le_rfl, by decide⟩
  have hsize : firstStart + (eFirstTask L - L.sFirstTask) ≤ 2 ^ 32 := by
    unfold firstStart memoryTaskBase
    unfold firstAllocSize memPageSize at himage
    omega
  rw [firstTaskLoad, Prog.gets_bind] at hrun
  obtain ⟨_, k₁, hset, hrun₁⟩ := Prog.bind_eq_some.mp hrun
  obtain ⟨v, hv, rfl⟩ := onVm_eq_some.mp hset
  obtain rfl := Prog.modify_eq_some.mp hv
  have hs₁ : Running L n m₀ .first k role { k with vm := { k.vm with cr3 := (k.task .first).tss.cr3 } } :=
    ⟨hr.withCr3 _, rfl, htask, rfl, fun _ _ => rfl⟩
  obtain ⟨err, k₂, halloc, hrun₂⟩ := Prog.bind_eq_some.mp hrun₁
  obtain ⟨role₂, hle₂, hs₂, -⟩ := running_onVm (fun _ => keepsRoles_allocForPageDir htask.dir hstart
    (by decide) (by decide)) role le_rfl _ err k₂ hs₁ halloc
  obtain ⟨_, k₃, hcopy, hrun₃⟩ := Prog.bind_eq_some.mp hrun₂
  obtain ⟨v₃, hv₃, rfl⟩ := onVm_eq_some.mp hcopy
  obtain ⟨role₃, hle₃, hr₃, -⟩ :=
    keepsRoles_memcpyUser hs₂.dir hstart hsize role₂ le_rfl k₂.vm _ v₃ hs₂.roles hv₃
  have hs₃ : Running L n m₀ .first k role₃ { k₂ with vm := v₃ } := hs₂.withVm hr₃ hle₃
  obtain rfl := setSched_eq_some.mp hrun₃
  exact ⟨role₃, hle₂.trans hle₃, hs₃.roles, hs₃.cr3, hs₃.task, (taskStart_currTask _ _).trans hs₃.curr,
    hs₃.other⟩

/-- The first task runs, and all other tasks are as they were. -/
theorem taskFirstInit_runs {b : ℕ} {taken : List ℕ} {u : Unit} (h : Supplied L n b taken k)
    (hlen : taken.length < gdtTableSize - firstSlot) (hroom : b + 2 ≤ n) (hr : Roles L n m₀ c role k.vm)
    (hrun : taskFirstInit L k = some (u, k')) : ∃ role', role ≤ role' ∧
      Roles L n m₀ k'.vm.cr3 role' k'.vm ∧ k'.vm.cr3 = (k'.task .first).tss.cr3 ∧
      TaskRuns role' .first (k'.task .first) ∧ k'.sched.currTask = some .first ∧
      ∀ u, u ≠ .first → k'.task u = k.task u := by
  obtain ⟨_, k₁, hreq, hrun₁⟩ := Prog.bind_eq_some.mp hrun
  obtain ⟨himage, rfl⟩ := Prog.require_eq_some.mp hreq
  obtain ⟨err, k₂, hinit, hrun₂⟩ := Prog.bind_eq_some.mp hrun₁
  obtain ⟨_, _, _, _, hinit', -, -⟩ := h.taskInit hlen hroom (TaskName.ofBytes firstTaskName) firstStart
    (firstStart + firstAllocSize)
  obtain ⟨rfl, -⟩ := Prog.result_unique hinit hinit'
  obtain ⟨role₁, hle₁, hr₁, htask, hother⟩ := taskInit_runs hr hinit le_rfl
  obtain ⟨_, k₃, hheap, hrun₃⟩ := Prog.bind_eq_some.mp hrun₂
  obtain ⟨_, k₄, hheap', hrun₄⟩ := Prog.bind_eq_some.mp hrun₃
  obtain ⟨_, k₅, hcurr, hrun₅⟩ := Prog.bind_eq_some.mp hrun₄
  have hk₅ : k₅.vm = k₂.vm ∧ (k₅.task .first).tss = (k₂.task .first).tss ∧
      k₅.sched.currTask = some .first ∧ ∀ u, u ≠ .first → k₅.task u = k₂.task u := by
    obtain rfl := setTask_eq_some.mp hheap
    obtain rfl := setTask_eq_some.mp hheap'
    obtain rfl := setSched_eq_some.mp hcurr
    refine ⟨rfl, by simp only [Function.update_self], rfl, fun u hu => ?_⟩
    simp only [Function.update_of_ne hu]
  obtain ⟨hvm, htss, hfirst, hother₅⟩ := hk₅
  have htask₅ : TaskRuns role₁ .first (k₅.task .first) :=
    ⟨(congrArg Tss.cr3 htss).symm ▸ htask.dir, htask.stack.congr (congrArg Tss.esp0 htss)⟩
  obtain ⟨role', hle, hs⟩ := running_firstTaskLoad (hvm.symm ▸ hr₁) htask₅ himage hrun₅
  exact ⟨role', hle₁.trans hle, hs.roles, hs.cr3, hs.task, hs.curr.trans hfirst, fun u hu =>
    (hs.other u hu).trans ((hother₅ u hu).trans (hother u hu))⟩

/-- When the kernel has come up, the pages have roles and all slots are free. -/
theorem Booted.roles {info : BootInfo} {r : CallRun} (h : Booted L info n r) :
    (∃ role, RunRoles L n role r) ∧ r.kernel.sched.currTask = some .first ∧
      ∀ i < taskNr, r.kernel.task (.slot i) = .zero := by
  obtain ⟨bits, k, v, hfits, hinit, hmem, hboot⟩ := h.boot
  obtain ⟨_, k₁, hkernel, hfirst⟩ := Prog.bind_eq_some.mp hboot
  obtain ⟨_, k₂, hgdt, hkernel₁⟩ := Prog.bind_eq_some.mp hkernel
  rw [initGdt_eq] at hgdt
  obtain ⟨-, rfl⟩ := Prod.mk.inj (Option.some.inj hgdt)
  obtain ⟨_, k₃, hmemory, hmanager⟩ := Prog.bind_eq_some.mp hkernel₁
  obtain ⟨v', hv', rfl⟩ := onVm_eq_some.mp hmemory
  obtain rfl : v = v' := (Prog.result_unique hinit hv').2
  have hr := memoryInit_roles hfits hinit
  rw [← hmem] at hr
  have hroom := hfits.room
  obtain ⟨v'', hinit'', hready, hclear⟩ :=
    memoryInit_ready bits hfits.bitmap hfits.pages (by omega) hfits.top hfits.dir
  obtain rfl : v = v'' := (Prog.result_unique hinit hinit'').2
  have h₁ : Supplied L n kernelTables [] { k with gdt := initialGdt L, vm := v } :=
    ⟨hready, hclear, .initial L⟩
  obtain ⟨role₁, hle₁, hr₁, hidle, hzero⟩ := taskManagerInit_runs h₁ (by omega) hr hmanager
  obtain ⟨taken, k₂, hmanager', hlen, h₂⟩ := h₁.taskManagerInit (by omega)
  obtain ⟨-, rfl⟩ := Prog.result_unique hmanager hmanager'
  obtain ⟨role₂, hle₂, hr₂, hcr3, hrun, hcurr, hother⟩ :=
    taskFirstInit_runs h₂ (by rw [hlen]; decide) (by omega) hr₁ hfirst
  have hidle₂ : TaskRuns role₂ .idle (r.kernel.task .idle) := by
    rw [hother .idle (by decide)]
    exact hidle.mono hle₂
  have hstarted : ∀ t ∈ r.started, t = .first ∨ t = .idle := fun t ht => by
    rw [h.started] at ht
    simpa using ht
  have hslots : ∀ i < taskNr, r.kernel.task (.slot i) = .zero := fun i hi =>
    (hother _ (by simp)).trans (hzero i hi)
  have hfirst : TaskId.first ∈ r.started := by
    rw [h.started]
    exact List.mem_cons_self
  refine ⟨⟨role₂, hr₂, ⟨.first, hfirst, hcurr, hcr3⟩, fun t ht => ?_, fun t ht => ?_, fun t ht => ?_,
    fun p c hp => ?_, fun p c t hp => ?_⟩, hcurr, hslots⟩
  · rcases hstarted t ht with rfl | rfl
    · exact trivial
    · exact trivial
  · rcases hstarted t ht with rfl | rfl
    · exact hrun
    · exact hidle₂
  · cases t with
    | first => exact hrun.roles
    | idle => exact hidle₂.roles
    | slot i =>
        rw [hslots i ht]
        exact .zero
  · rw [h.call] at hp
    cases hp
  · rw [h.call] at hp
    cases hp

/-- The pages have roles in every careful run. -/
theorem runRoles_of_reach {info : BootInfo} {r : CallRun}
    (h : ((callMachine L info n).restrict Careful).Reach r) : ∃ role, RunRoles L n role r := by
  refine h.invariant (I := fun r => ∃ role, RunRoles L n role r) (fun _ hb => (Booted.roles hb).1) ?_
  rintro r a r' ⟨role, hr⟩ he hs
  exact hr.step he.1 he.2 hs

/-- The first task calls `sys_fork`, which finds the first slot. -/
theorem sample_fork : ∃ r r', ((callMachine sampleLayout plainBoot 0x7E7F).restrict Careful).Reach r ∧
    r.started = [.first, .idle] ∧ r.kernel.sched.currTask = some .first ∧
    r.call .first = some (.fork .search) ∧ Careful r (.go 0) ∧ callStep sampleLayout r (.go 0) = some r' ∧
    ((callMachine sampleLayout plainBoot 0x7E7F).restrict Careful).Reach r' ∧
    r'.started = [.first, .idle] ∧ r'.call .first = some (.fork (.found (.slot 0))) := by
  obtain ⟨v, hinit, -, -⟩ := memoryInit_ready (fun _ => 0) plainBoot_fits.bitmap plainBoot_fits.pages
    (by decide) plainBoot_fits.top plainBoot_fits.dir
  obtain ⟨k, hboot⟩ := boot_total plainBoot_fits fun _ => 0
  let r : CallRun := { kernel := k, call := fun _ => none, started := [.first, .idle], initial := v.mem }
  have hb : Booted sampleLayout plainBoot 0x7E7F r :=
    ⟨⟨_, _, v, plainBoot_fits, hinit, rfl, hboot⟩, fun _ => rfl, rfl⟩
  obtain ⟨-, hcurr, hslots⟩ := hb.roles
  let r₁ : CallRun := { r with call := Function.update r.call .first (some (.fork .search)) }
  have hcall₁ : r₁.call .first = some (.fork .search) := rfl
  have henter : callStep sampleLayout r (.enter (.fork .search)) = some r₁ := by
    rw [callStep, hcurr]
    rfl
  have hslot : k.freeSlot = some 0 := by
    have hname : (k.task (.slot 0)).name 0 = 0 := by
      rw [show k.task (.slot 0) = .zero from hslots 0 (by decide)]
      rfl
    exact if_pos hname
  have hstep : Call.step sampleLayout 0 .first (.fork .search) k =
      some (.inl (.fork (.found (.slot 0))), k) := by
    have halloc : allocTask k = some (some (.slot 0), k) := by
      show some (k.freeSlot.map TaskId.slot, k) = _
      rw [hslot]
      rfl
    have hsearch : ForkPc.step sampleLayout 0 .first .search k = some (.inl (.found (.slot 0)), k) :=
      Prog.bind_of_eq halloc
    exact Prog.bind_of_eq hsearch
  have hgo : callStep sampleLayout r₁ (.go 0) =
      some (r₁.record .first (.fork .search) (.inl (.fork (.found (.slot 0)))) k) := by
    have hcurr₁ : r₁.kernel.sched.currTask = some .first := hcurr
    have hstep₁ : Call.step sampleLayout 0 .first (.fork .search) r₁.kernel = _ := hstep
    rw [callStep, CallRun.go, hcurr₁, Option.bind_some, hcall₁, Option.bind_some, hstep₁]
    rfl
  have hcare : Careful r₁ (.go 0) := by
    intro p c hp hc
    obtain rfl := Option.some.inj (hcurr.symm.trans hp)
    obtain rfl := Option.some.inj (hcall₁.symm.trans hc)
    exact ⟨fun _ _ h => (by cases h), fun _ _ h => (by cases h), fun _ h => (by cases h)⟩
  have hidle : callEnabled r (.enter (.fork .search)) := ⟨fun _ _ => rfl, fun _ _ => trivial⟩
  have hr : ((callMachine sampleLayout plainBoot 0x7E7F).restrict Careful).Reach r := .init hb
  have hr₁ : ((callMachine sampleLayout plainBoot 0x7E7F).restrict Careful).Reach r₁ :=
    hr.step (a := .enter (.fork .search)) ⟨hidle, trivial⟩ henter
  exact ⟨r₁, _, hr₁, rfl, hcurr, hcall₁, hcare, hgo, hr₁.step (a := .go 0) ⟨trivial, hcare⟩ hgo, rfl, rfl⟩

end Kernel

end X86Os
