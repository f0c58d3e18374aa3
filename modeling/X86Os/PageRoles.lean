import X86Os.ForkWindow
import X86Os.KernelTable
import X86Os.Worlds

/-!
# What the pages are used for

A page that the allocator gave out holds a table of the kernel, the directory of a task, a table of its
user half, the page of one of its addresses, its kernel stack, or nothing of use. The roles of the pages are
a world that only grows as long as no bit of a page in use is cleared. Directories have the kernel's entries
in the kernel half. Every other entry leads to a page that has the role of being there, so no page is
entered twice.
-/

namespace X86Os

open Kernel (PageUsed pageAddr_eq pageUsed_alloc)

/-- A directory and a kernel stack belong to a task, a table to an index of a directory, and a frame to
the number of a page in the address space of a directory. Nothing is written to a fixed page. -/
inductive PageRole
  | kernel
  | fixed
  | dir (owner : TaskId)
  | table (dir i : ℕ)
  | frame (dir page : ℕ)
  | stack (owner : TaskId)
  | lost
deriving DecidableEq

namespace PageRole

/-- There is no table in the page. -/
def Plain : PageRole → Prop
  | .frame _ _ => True
  | .stack _ => True
  | .lost => True
  | _ => False

variable {k : PageRole}

theorem Plain.ne_kernel (h : k.Plain) : k ≠ .kernel := fun he => by
  rw [he] at h
  exact h

theorem Plain.ne_fixed (h : k.Plain) : k ≠ .fixed := fun he => by
  rw [he] at h
  exact h

theorem Plain.ne_dir (h : k.Plain) (o : TaskId) : k ≠ .dir o := fun he => by
  rw [he] at h
  exact h

theorem Plain.ne_table (h : k.Plain) (d i : ℕ) : k ≠ .table d i := fun he => by
  rw [he] at h
  exact h

end PageRole

/-- The roles of the pages that were given out. -/
def RoleMap : Type := ℕ → Option PageRole

namespace RoleMap

/-- More pages have roles. -/
instance : Preorder RoleMap where
  le role role' := ∀ p k, role p = some k → role' p = some k
  le_refl _ _ _ h := h
  le_trans _ _ _ h h' p k hp := h' p k (h p k hp)

def assign (role : RoleMap) (p : ℕ) (k : PageRole) : RoleMap := Function.update role p (some k)

variable {role : RoleMap} {p q : ℕ} {k k' : PageRole}

theorem assign_self : role.assign p k p = some k := Function.update_self _ _ _

theorem assign_of_ne (h : q ≠ p) : role.assign p k q = role q := Function.update_of_ne h _ _

theorem le_assign (h : role p = none) : role ≤ role.assign p k := by
  intro q k' hq
  rw [assign_of_ne, hq]
  rintro rfl
  rw [h] at hq
  cases hq

theorem assign_eq (h : role.assign p k q = some k') : (q = p ∧ k' = k) ∨ role q = some k' := by
  by_cases hq : q = p
  · rw [hq, assign_self] at h
    exact .inl ⟨hq, (Option.some.inj h).symm⟩
  · rw [assign_of_ne hq] at h
    exact .inr h

end RoleMap

/-- The kernel's tables as `memory_init` leaves them in the memory `m`, and the pages of the allocator
are addresses of the kernel half. -/
structure KernelReady (L : Layout) (n : ℕ) (m : Mem) : Prop where
  dirPage : KernelPage L.kernelPageDir
  dir_ge : memPageSize ≤ L.kernelPageDir
  dir_end : L.kernelPageDir + memPageSize ≤ memExtStart
  top : memExtStart + n * memPageSize ≤ memoryTaskBase
  table : ∀ i < pdeCnt, Present (m.pde L.kernelPageDir i) → KernelPage (m.table L.kernelPageDir i) ∧
    m.table L.kernelPageDir i + memPageSize ≤ bootMapLimit
  identity : ∀ v < 2 ^ 32, m.walk L.kernelPageDir v = if Identity v then some v else none
  user : ∀ i < pdeCnt, ∀ j < pteCnt, ∀ e, m.pteWord L.kernelPageDir i j = some e → e.testBit 2 = false

/-- A word of the user half of a directory. -/
def DirWord (role : RoleMap) (d i w : ℕ) : Prop := w = 0 ∨ ∃ t, role t = some (.table d i) ∧ w = t + 7

/-- A word of a table of the user half, for the page with the number `page`. -/
def TableWord (role : RoleMap) (d page w : ℕ) : Prop :=
  w = 0 ∨ (Present w ∧ role (entryPaddr w) = some (.frame d page))

structure DirPage (L : Layout) (m₀ : Mem) (role : RoleMap) (m : Mem) (d : ℕ) : Prop where
  identity : Identity d
  kernel : ∀ i < userPdeStart, m.pde d i = m₀.pde L.kernelPageDir i
  user : ∀ i, userPdeStart ≤ i → i < pdeCnt → DirWord role d i (m.pde d i)

/-- The table of the directory `d` for the index `i`. -/
structure TablePage (role : RoleMap) (m : Mem) (d i t : ℕ) : Prop where
  identity : Identity t
  word : ∀ j < pteCnt, TableWord role d (pteCnt * i + j) (m.read32 (t + 4 * j))

/-- The roles say what the pages hold. The memory `m₀` is the one in which the kernel's tables were set
up, and `c` is the directory in use. -/
structure Roles (L : Layout) (n : ℕ) (m₀ : Mem) (c : ℕ) (role : RoleMap) (v : Vm) : Prop where
  ready : KernelReady L n m₀
  managed : v.alloc.Managed n
  start : v.alloc.start = memExtStart
  cr3 : v.cr3 = c
  used : ∀ p, role p ≠ none → PageUsed n v p
  kernel : ∀ i < pdeCnt, Present (m₀.pde L.kernelPageDir i) →
    role (m₀.table L.kernelPageDir i) = some .kernel
  kernel_low : ∀ p, role p = some .kernel → p + memPageSize ≤ bootMapLimit
  kernelDir : ∀ x, InPage L.kernelPageDir x → v.mem x = m₀ x
  kernelTable : ∀ p, role p = some .kernel → ∀ x, InPage p x → v.mem x = m₀ x
  fixed : ∀ p, role p = some .fixed → ∀ x, InPage p x → v.mem x = m₀ x
  dir : ∀ d o, role d = some (.dir o) → DirPage L m₀ role v.mem d
  table : ∀ t d i, role t = some (.table d i) → TablePage role v.mem d i t

variable {L : Layout} {n c d i j p q t w : ℕ} {m₀ m : Mem} {role role' : RoleMap} {k : PageRole}
  {o : TaskId} {v v' : Vm}

theorem DirWord.mono (h : DirWord role d i w) (hr : role ≤ role') : DirWord role' d i w :=
  h.imp_right fun ⟨t, ht, hw⟩ => ⟨t, hr t _ ht, hw⟩

theorem TableWord.mono (h : TableWord role d i w) (hr : role ≤ role') : TableWord role' d i w :=
  h.imp_right fun ⟨hp, hf⟩ => ⟨hp, hr _ _ hf⟩

theorem DirPage.mono (h : DirPage L m₀ role m d) (hr : role ≤ role') : DirPage L m₀ role' m d :=
  ⟨h.identity, h.kernel, fun i hi hi' => (h.user i hi hi').mono hr⟩

theorem TablePage.mono (h : TablePage role m d i t) (hr : role ≤ role') : TablePage role' m d i t :=
  ⟨h.identity, fun j hj => (h.word j hj).mono hr⟩

/-- The words of a directory are in its page. -/
theorem DirPage.congr {m' : Mem} (h : DirPage L m₀ role m d) (hm : ∀ x, InPage d x → m' x = m x) :
    DirPage L m₀ role m' d := by
  have hword : ∀ i < pdeCnt, m'.pde d i = m.pde d i := fun i hi =>
    Mem.read32_congr fun x hx hx' => hm x (inPage_word hi hx hx')
  refine ⟨h.identity, fun i hi => ?_, fun i hi hi' => ?_⟩
  · rw [hword i (hi.trans (by decide))]
    exact h.kernel i hi
  · rw [hword i hi']
    exact h.user i hi hi'

theorem TablePage.congr {m' : Mem} (h : TablePage role m d i t) (hm : ∀ x, InPage t x → m' x = m x) :
    TablePage role m' d i t := by
  refine ⟨h.identity, fun j hj => ?_⟩
  have hword : m'.read32 (t + 4 * j) = m.read32 (t + 4 * j) :=
    Mem.read32_congr fun x hx hx' => hm x (inPage_word hj hx hx')
  rw [hword]
  exact h.word j hj

/-- The address of a page in use. -/
theorem Kernel.PageUsed.bounds (h : PageUsed n v p) (htop : memExtStart + n * memPageSize ≤ memoryTaskBase) :
    p % memPageSize = 0 ∧ memExtStart ≤ p ∧ p + memPageSize ≤ memoryTaskBase := by
  obtain ⟨i, hi, rfl⟩ := h
  have hlt := hi.lt
  rw [pageAddr_eq hi]
  unfold u32 memExtStart memPageSize memoryTaskBase at *
  omega

namespace Roles

theorem bounds (h : Roles L n m₀ c role v) (hp : role p = some k) :
    p % memPageSize = 0 ∧ memExtStart ≤ p ∧ p + memPageSize ≤ memoryTaskBase :=
  (h.used p (by simp [hp])).bounds h.ready.top

theorem dirPage (h : Roles L n m₀ c role v) (hd : role d = some (.dir o)) : KernelPage d := by
  obtain ⟨hal, hge, -⟩ := h.bounds hd
  refine ⟨hal, (h.dir d o hd).identity, ?_⟩
  unfold memExtStart at hge
  omega

theorem tablePage (h : Roles L n m₀ c role v) (ht : role t = some (.table d i)) : KernelPage t := by
  obtain ⟨hal, hge, -⟩ := h.bounds ht
  refine ⟨hal, (h.table t d i ht).identity, ?_⟩
  unfold memExtStart at hge
  omega

/-- Only what is in the tables matters. -/
theorem congr (h : Roles L n m₀ c role v) (halloc : v'.alloc = v.alloc) (hcr3 : v'.cr3 = v.cr3)
    (hdir : ∀ x, InPage L.kernelPageDir x → v'.mem x = v.mem x)
    (hout : ∀ p k, role p = some k → ¬ k.Plain → ∀ x, InPage p x → v'.mem x = v.mem x) :
    Roles L n m₀ c role v' where
  ready := h.ready
  managed := halloc ▸ h.managed
  start := halloc ▸ h.start
  cr3 := hcr3.trans h.cr3
  used p hp := (h.used p hp).congr halloc
  kernel := h.kernel
  kernel_low := h.kernel_low
  kernelDir x hx := (hdir x hx).trans (h.kernelDir x hx)
  kernelTable p hp x hx := (hout p _ hp id x hx).trans (h.kernelTable p hp x hx)
  fixed p hp x hx := (hout p _ hp id x hx).trans (h.fixed p hp x hx)
  dir d o hd := (h.dir d o hd).congr (hout d _ hd id)
  table t d i ht := (h.table t d i ht).congr (hout t _ ht id)

/-- A page that is not the kernel's is written to, and it goes on to be what it is. -/
theorem rewrite (h : Roles L n m₀ c role v) (hq : role q = some k) (hk : k ≠ .kernel) (hk' : k ≠ .fixed)
    (halloc : v'.alloc = v.alloc) (hcr3 : v'.cr3 = v.cr3)
    (hout : ∀ x, ¬ InPage q x → v'.mem x = v.mem x)
    (hdir : ∀ o, k = .dir o → DirPage L m₀ role v'.mem q)
    (htable : ∀ d i, k = .table d i → TablePage role v'.mem d i q) : Roles L n m₀ c role v' := by
  obtain ⟨hal, hge, -⟩ := h.bounds hq
  have hother : ∀ p, p ≠ q → p % memPageSize = 0 → ∀ x, InPage p x → v'.mem x = v.mem x :=
    fun p hp hpal x hx => hout x fun hqx => hp (InPage.unique hpal hal hx hqx)
  refine { h with
    managed := halloc ▸ h.managed
    start := halloc ▸ h.start
    cr3 := hcr3.trans h.cr3
    used := fun p hp => (h.used p hp).congr halloc
    kernelDir := fun x hx => ?_
    kernelTable := fun p hp x hx => ?_
    fixed := fun p hp x hx => ?_
    dir := fun p o hp => ?_
    table := fun p d i hp => ?_ }
  · have hne : L.kernelPageDir ≠ q := by
      have hend := h.ready.dir_end
      unfold memPageSize at hend
      omega
    rw [hother _ hne h.ready.dirPage.aligned x hx]
    exact h.kernelDir x hx
  · have hne : p ≠ q := fun he => hk (Option.some.inj (hq.symm.trans (he ▸ hp)))
    rw [hother p hne (h.bounds hp).1 x hx]
    exact h.kernelTable p hp x hx
  · have hne : p ≠ q := fun he => hk' (Option.some.inj (hq.symm.trans (he ▸ hp)))
    rw [hother p hne (h.bounds hp).1 x hx]
    exact h.fixed p hp x hx
  · by_cases hpq : p = q
    · rw [hpq] at hp ⊢
      exact hdir o (Option.some.inj (hq.symm.trans hp))
    · exact (h.dir p o hp).congr (hother p hpq (h.bounds hp).1)
  · by_cases hpq : p = q
    · rw [hpq] at hp ⊢
      exact htable d i (Option.some.inj (hq.symm.trans hp))
    · exact (h.table p d i hp).congr (hother p hpq (h.bounds hp).1)

/-- The first page of memory, where the kernel's stack lies, and pages without tables can be written to. -/
def Scratch (role : RoleMap) (q : ℕ) : Prop := q = 0 ∨ ∃ k, role q = some k ∧ k.Plain

theorem write (h : Roles L n m₀ c role v) (hq : Scratch role q) (halloc : v'.alloc = v.alloc)
    (hcr3 : v'.cr3 = v.cr3) (hout : ∀ x, ¬ InPage q x → v'.mem x = v.mem x) :
    Roles L n m₀ c role v' := by
  rcases hq with rfl | ⟨k, hq, hk⟩
  · have hge := h.ready.dir_ge
    refine h.congr halloc hcr3 (fun x hx => hout x fun hqx => ?_) fun p k hp hk x hx =>
      hout x fun hqx => ?_
    · unfold InPage memPageSize at *
      omega
    · have := (h.bounds hp).2.1
      unfold InPage memExtStart memPageSize at *
      omega
  · exact h.rewrite hq hk.ne_kernel hk.ne_fixed halloc hcr3 hout (fun o he => absurd he (hk.ne_dir o))
      fun d i he => absurd he (hk.ne_table d i)

/-- A page gets a role. -/
theorem assign (h : Roles L n m₀ c role v) (hp : role p = none) (hu : PageUsed n v p)
    (hk : k ≠ .kernel) (hk' : k ≠ .fixed) (hdir : ∀ o, k = .dir o → DirPage L m₀ role v.mem p)
    (htable : ∀ d i, k = .table d i → TablePage role v.mem d i p) :
    Roles L n m₀ c (role.assign p k) v := by
  have hle : role ≤ role.assign p k := RoleMap.le_assign hp
  have hkernel : ∀ q, role.assign p k q = some .kernel → role q = some .kernel := fun q hq =>
    (RoleMap.assign_eq hq).resolve_left fun he => hk he.2.symm
  refine { h with
    used := fun q hq => ?_
    kernel := fun i hi hpres => hle _ _ (h.kernel i hi hpres)
    kernel_low := fun q hq => h.kernel_low q (hkernel q hq)
    kernelTable := fun q hq => h.kernelTable q (hkernel q hq)
    fixed := fun q hq => h.fixed q ((RoleMap.assign_eq hq).resolve_left fun he => hk' he.2.symm)
    dir := fun q o hq => ?_
    table := fun q d i hq => ?_ }
  · by_cases hqp : q = p
    · rwa [hqp]
    · rw [RoleMap.assign_of_ne hqp] at hq
      exact h.used q hq
  · rcases RoleMap.assign_eq hq with ⟨rfl, hk'⟩ | hq
    · exact (hdir o hk'.symm).mono hle
    · exact (h.dir q o hq).mono hle
  · rcases RoleMap.assign_eq hq with ⟨rfl, hk'⟩ | hq
    · exact (htable d i hk'.symm).mono hle
    · exact (h.table q d i hq).mono hle

theorem assign_plain (h : Roles L n m₀ c role v) (hp : role p = none) (hu : PageUsed n v p)
    (hk : k.Plain) : Roles L n m₀ c (role.assign p k) v :=
  h.assign hp hu hk.ne_kernel hk.ne_fixed (fun o he => absurd he (hk.ne_dir o))
    fun d i he => absurd he (hk.ne_table d i)

/-- The allocator goes on; no page in use is given back. -/
theorem of_alloc (h : Roles L n m₀ c role v) (hmem : v'.mem = v.mem) (hcr3 : v'.cr3 = v.cr3)
    (hm : v'.alloc.Managed n) (hstart : v'.alloc.start = memExtStart)
    (hused : ∀ p, PageUsed n v p → PageUsed n v' p) : Roles L n m₀ c role v' :=
  { h with
    managed := hm
    start := hstart
    cr3 := hcr3.trans h.cr3
    used := fun p hp => hused p (h.used p hp)
    kernelDir := hmem ▸ h.kernelDir
    kernelTable := hmem ▸ h.kernelTable
    fixed := hmem ▸ h.fixed
    dir := hmem ▸ h.dir
    table := hmem ▸ h.table }

theorem allocPage (h : Roles L n m₀ c role v) (hrun : X86Os.allocPage v = some (p, v')) :
    Roles L n m₀ c role v' ∧ v'.mem = v.mem ∧ (p ≠ 0 → role p = none ∧ PageUsed n v' p) := by
  have hkeep : ∀ q, PageUsed n v q → PageUsed n v' q := fun q hq =>
    hq.keep fun i _ _ => keepsTaken_allocPage v p v' hrun
  obtain ⟨rfl, rfl⟩ := Prod.mk.inj (Option.some.inj hrun)
  refine ⟨h.of_alloc rfl rfl (h.managed.allocPage 1) h.start hkeep, rfl, fun hp => ?_⟩
  obtain ⟨hfresh, hused⟩ := pageUsed_alloc h.managed h.start hp
  refine ⟨?_, hused⟩
  by_contra hrole
  exact hfresh (h.used _ hrole)

/-- A page of the allocator is not the null pointer. -/
theorem allocPage_ne_zero (h : Roles L n m₀ c role v) (hfree : v.alloc.clearPages.Nonempty)
    (hrun : X86Os.allocPage v = some (p, v')) : p ≠ 0 := by
  obtain ⟨q, hq, v₁, hv₁, -⟩ := allocPage_spec h.managed hfree
  obtain ⟨rfl, -⟩ := Prog.result_unique hrun hv₁
  obtain ⟨k, hk, -, rfl⟩ := (AddrAlloc.mem_clearPages h.managed).mp hq
  have htop := h.ready.top
  rw [AddrAlloc.pageAddr, h.managed.pageSize, h.start]
  unfold u32 memExtStart memPageSize memoryTaskBase at *
  omega

end Roles

/-! ## Pages that are tables no more -/

/-- One of the directories has the table `t` in its user half. -/
def TableOf (m : Mem) (dirs : Set ℕ) (t : ℕ) : Prop :=
  ∃ d ∈ dirs, ∃ i, userPdeStart ≤ i ∧ i < pdeCnt ∧ m.pde d i = t + 7

open Classical in
/-- All directories but `dirs`, and the tables that none of these has, are of no use, and no page is
fixed. -/
noncomputable def RoleMap.forget (role : RoleMap) (m : Mem) (dirs : Set ℕ) : RoleMap := fun p =>
  match role p with
  | some .fixed => some .lost
  | some (.dir o) => if p ∈ dirs then some (.dir o) else some .lost
  | some (.table d i) => if TableOf m dirs p then some (.table d i) else some .lost
  | k => k

namespace RoleMap

variable {dirs : Set ℕ}

theorem forget_of (h : role p = some k) (hk : k ≠ .fixed) (hdir : ∀ o, k = .dir o → p ∈ dirs)
    (htable : ∀ d i, k = .table d i → TableOf m dirs p) : role.forget m dirs p = some k := by
  rw [forget, h]
  cases k with
  | fixed => exact absurd rfl hk
  | dir o => exact if_pos (hdir o rfl)
  | table d i => exact if_pos (htable d i rfl)
  | _ => rfl

theorem forget_plain (h : role p = some k) (hk : k.Plain) : role.forget m dirs p = some k :=
  forget_of h hk.ne_fixed (fun o he => absurd he (hk.ne_dir o)) fun d i he => absurd he (hk.ne_table d i)

theorem forget_eq (h : role.forget m dirs p = some k) (hk : k ≠ .lost) :
    role p = some k ∧ k ≠ .fixed ∧ (∀ o, k = .dir o → p ∈ dirs) ∧
      ∀ d i, k = .table d i → TableOf m dirs p := by
  rw [forget] at h
  split at h
  · exact absurd (Option.some.inj h).symm hk
  · rename_i o hp
    split_ifs at h with hd
    · obtain rfl := Option.some.inj h
      exact ⟨hp, (by simp), fun _ _ => hd, fun _ _ hk' => by cases hk'⟩
    · exact absurd (Option.some.inj h).symm hk
  · rename_i d i hp
    split_ifs at h with ht
    · obtain rfl := Option.some.inj h
      exact ⟨hp, (by simp), (fun _ hk' => by cases hk'), fun _ _ _ => ht⟩
    · exact absurd (Option.some.inj h).symm hk
  · rename_i hnf hnd hnt
    refine ⟨h, fun hk' => ?_, fun o hk' => ?_, fun d i hk' => ?_⟩
    · exact absurd (hk' ▸ h) hnf
    · exact absurd (hk' ▸ h) (hnd o)
    · exact absurd (hk' ▸ h) (hnt d i)

theorem forget_none (h : role p = none) : role.forget m dirs p = none := by
  rw [forget, h]

end RoleMap

/-- What is no directory of `dirs` and no table of theirs may be forgotten. -/
theorem Roles.forget {dirs : Set ℕ} (h : Roles L n m₀ c role v) :
    Roles L n m₀ c (role.forget v.mem dirs) v := by
  have hback : ∀ p k, role.forget v.mem dirs p = some k → k ≠ .lost → role p = some k :=
    fun p k hp hk => (RoleMap.forget_eq hp hk).1
  refine { h with
    used := fun p hp => h.used p fun hnone => hp (RoleMap.forget_none hnone)
    kernel := fun i hi hpres => RoleMap.forget_of (h.kernel i hi hpres) (by simp) (fun _ hk => by cases hk)
      fun _ _ hk => by cases hk
    kernel_low := fun p hp => h.kernel_low p (hback p _ hp (by decide))
    kernelTable := fun p hp => h.kernelTable p (hback p _ hp (by decide))
    fixed := fun p hp => absurd rfl (RoleMap.forget_eq hp (by simp)).2.1
    dir := fun d o hd => ?_
    table := fun t d i ht => ?_ }
  · have hdir := h.dir d o (hback d _ hd (by simp))
    refine ⟨hdir.identity, hdir.kernel, fun i hi hi' => (hdir.user i hi hi').imp_right ?_⟩
    rintro ⟨t, ht, hword⟩
    refine ⟨t, RoleMap.forget_of ht (by simp) (fun _ hk => by cases hk) fun _ _ _ => ?_, hword⟩
    exact ⟨d, (RoleMap.forget_eq hd (by simp)).2.2.1 o rfl, i, hi, hi', hword⟩
  · have htable := h.table t d i (hback t _ ht (by simp))
    exact ⟨htable.identity, fun j hj => (htable.word j hj).imp_right fun ⟨hpres, hf⟩ =>
      ⟨hpres, RoleMap.forget_plain hf trivial⟩⟩

end X86Os
