import X86Os.Uvm
import Mathlib.Order.CompletePartialOrder

/-!
# Copying an address space

`memory_copy_uvm` walks the user half of a directory entry by entry while it builds another space. The
invariant of the walk is indexed by the position in it: what lies before has its copy, what lies behind
has no entry yet, and the clear pages still cover what is needed. The source consists of pages that are
not clear, so it never changes.
-/

namespace X86Os

/-- The user pages of a directory: itself, the tables of its user half and the frames they map. -/
def userPages (m : Mem) (dir : ℕ) : Set ℕ :=
  {p | p = dir ∨
    (∃ i, userPdeStart ≤ i ∧ i < pdeCnt ∧ Present (m.read32 (dir + 4 * i)) ∧
      p = entryPaddr (m.read32 (dir + 4 * i))) ∨
    ∃ i j e, userPdeStart ≤ i ∧ i < pdeCnt ∧ j < pteCnt ∧ m.userEntry dir i j = some e ∧
      p = entryPaddr e}

/-- The directory and the tables of its user half. -/
def dirPages (m : Mem) (dir : ℕ) : Set ℕ :=
  {p | p = dir ∨ ∃ i, userPdeStart ≤ i ∧ i < pdeCnt ∧ Present (m.read32 (dir + 4 * i)) ∧
    p = entryPaddr (m.read32 (dir + 4 * i))}

/-- The mapped user pages of a directory, by their indices. -/
@[irreducible] def mappedPages (m : Mem) (dir : ℕ) : Finset (ℕ × ℕ) :=
  (Finset.range pdeCnt ×ˢ Finset.range pteCnt).filter fun x =>
    userPdeStart ≤ x.1 ∧ (m.userEntry dir x.1 x.2).isSome

theorem mem_mappedPages {m : Mem} {dir : ℕ} {x : ℕ × ℕ} : x ∈ mappedPages m dir ↔
    (x.1 < pdeCnt ∧ x.2 < pteCnt) ∧ userPdeStart ≤ x.1 ∧ (m.userEntry dir x.1 x.2).isSome := by
  unfold mappedPages
  simp only [Finset.mem_filter, Finset.mem_product, Finset.mem_range]

/-- The pages that a copy takes: its directory, a frame for every mapped page and a table for every
directory index under which one is mapped. -/
def copyNeed (m : Mem) (dir : ℕ) : ℕ :=
  1 + (mappedPages m dir).card + ((mappedPages m dir).image Prod.fst).card

/-- The current directory `dir` can be copied: its kernel half is that of `kernel_page_dir`, its tables
can be read at their physical address, and the clear pages are usable and not among its pages. -/
structure CopySource (L : Layout) (n : ℕ) (s : Vm) (dir : ℕ) : Prop where
  managed : s.alloc.Managed n
  current : s.cr3 = dir
  dirPage : KernelPage dir
  table : ∀ i, userPdeStart ≤ i → i < pdeCnt → Present (s.mem.read32 (dir + 4 * i)) →
    KernelPage (entryPaddr (s.mem.read32 (dir + 4 * i)))
  kernelDir : KernelPage L.kernelPageDir
  usable : ∀ p ∈ s.alloc.clearPages, KernelPage p
  kernelDir_unused : L.kernelPageDir ∉ s.alloc.clearPages
  unused : ∀ p ∈ userPages s.mem dir, p ∉ s.alloc.clearPages
  kernelHalf : ∀ k < userPdeStart,
    s.mem.read32 (dir + 4 * k) = s.mem.read32 (L.kernelPageDir + 4 * k)

/-- The space `dest` of `s'` is a separate copy of the space `dir` of `s`. -/
structure UvmCopied (L : Layout) (s s' : Vm) (dir dest : ℕ) : Prop where
  mapped : ∀ i j, userPdeStart ≤ i → i < pdeCnt → j < pteCnt →
    (s'.mem.userEntry dest i j = none ↔ s.mem.userEntry dir i j = none)
  entry : ∀ i j e e', userPdeStart ≤ i → i < pdeCnt → j < pteCnt →
    s.mem.userEntry dir i j = some e → s'.mem.userEntry dest i j = some e' →
    e' % 2 ^ 9 = e % 2 ^ 9 ∧
      ∀ k < memPageSize, s'.mem (entryPaddr e' + k) = s.mem (entryPaddr e + k)
  fresh : userPages s'.mem dest ⊆ s.alloc.clearPages
  apart : Disjoint (userPages s'.mem dest) (userPages s.mem dir)
  unchanged : ∀ p ∈ userPages s.mem dir, ∀ k < memPageSize, s'.mem (p + k) = s.mem (p + k)
  kernel : ∀ k < userPdeStart,
    s'.mem.read32 (dest + 4 * k) = s.mem.read32 (L.kernelPageDir + 4 * k)
  agree : ∀ k < userPdeStart, s'.mem.read32 (dest + 4 * k) = s'.mem.read32 (dir + 4 * k)

/-- The byte that the user address `v` shows through the directory `dir`. -/
def Mem.seen (m : Mem) (dir v : ℕ) : Option (BitVec 8) := (m.walk dir v).map m

/-- A user write through the directory `dir`; where nothing is mapped it faults. -/
def Mem.userWrite (m : Mem) (dir v : ℕ) (b : BitVec 8) : Mem :=
  match m.walk dir v with
  | some a => m.write8 a b
  | none => m

/-- No user write through one of the directories is visible through the other, in the memory `m` and in
every later one with the same directories and tables. -/
def Isolated (m : Mem) (dir dest : ℕ) : Prop :=
  ∀ m' : Mem, (∀ p ∈ dirPages m dir ∪ dirPages m dest, ∀ k < memPageSize, m' (p + k) = m (p + k)) →
    ∀ v w b, memoryTaskBase ≤ v → v < 2 ^ 32 → memoryTaskBase ≤ w → w < 2 ^ 32 →
      (m'.userWrite dir v b).seen dest w = m'.seen dest w ∧
      (m'.userWrite dest v b).seen dir w = m'.seen dir w

/-! ## What a directory depends on -/

theorem dirPages_subset {m : Mem} {dir : ℕ} : dirPages m dir ⊆ userPages m dir := by
  rintro p (rfl | h)
  · exact .inl rfl
  · exact .inr (.inl h)

theorem userEntry_congr {m m' : Mem} {dir i j : ℕ} (hi : userPdeStart ≤ i) (hi' : i < pdeCnt)
    (hj : j < pteCnt) (h : ∀ p ∈ dirPages m dir, ∀ k < memPageSize, m' (p + k) = m (p + k)) :
    m'.read32 (dir + 4 * i) = m.read32 (dir + 4 * i) ∧
      m'.userEntry dir i j = m.userEntry dir i j := by
  have hword : ∀ p ∈ dirPages m dir, ∀ k < 1024,
      m'.read32 (p + 4 * k) = m.read32 (p + 4 * k) := by
    intro p hp k hk
    refine Mem.read32_congr fun x hx hx' => ?_
    have hbyte := h p hp (x - p) (by unfold memPageSize; omega)
    rwa [show p + (x - p) = x by omega] at hbyte
  have hpde := hword dir (.inl rfl) i hi'
  refine ⟨hpde, ?_⟩
  simp only [Mem.userEntry, hpde]
  by_cases hpres : Present (m.read32 (dir + 4 * i))
  · rw [if_pos hpres, if_pos hpres, hword _ (.inr ⟨i, hi, hi', hpres, rfl⟩) j hj]
  · rw [if_neg hpres, if_neg hpres]

theorem userPages_congr {m m' : Mem} {dir : ℕ}
    (h : ∀ p ∈ dirPages m dir, ∀ k < memPageSize, m' (p + k) = m (p + k)) :
    userPages m' dir = userPages m dir := by
  ext p
  refine or_congr_right (or_congr ?_ ?_)
  · refine exists_congr fun i => and_congr_right fun hi => and_congr_right fun hi' => ?_
    rw [(userEntry_congr (j := 0) hi hi' (by decide) h).1]
  · refine exists_congr fun i => exists_congr fun j => exists_congr fun e =>
      and_congr_right fun hi => and_congr_right fun hi' => and_congr_right fun hj => ?_
    rw [(userEntry_congr hi hi' hj h).2]

/-- A byte outside the user pages of a directory is never seen through it. -/
theorem walk_write8 {m : Mem} {dir a : ℕ} (ha : ∀ p ∈ userPages m dir, ¬ InPage p a) (b : BitVec 8)
    {w : ℕ} (hw : memoryTaskBase ≤ w) (hw' : w < 2 ^ 32) :
    (m.write8 a b).walk dir w = m.walk dir w ∧
      ∀ c, m.walk dir w = some c → (m.write8 a b) c = m c := by
  obtain ⟨hi, hi'⟩ := pdeIndex_user hw hw'
  have hsame : ∀ p ∈ userPages m dir, ∀ k < memPageSize, (m.write8 a b) (p + k) = m (p + k) := by
    intro p hp k hk
    refine Function.update_of_ne (fun he => ha p hp ?_) _ _
    unfold InPage
    omega
  have hentry := (userEntry_congr hi hi' (pteIndex_lt w) fun p hp => hsame p (dirPages_subset hp)).2
  refine ⟨by rw [walk_eq, walk_eq, hentry], fun c hc => ?_⟩
  rw [walk_eq, Option.map_eq_some_iff] at hc
  obtain ⟨e, he, rfl⟩ := hc
  exact hsame _ (.inr (.inr ⟨_, _, e, hi, hi', pteIndex_lt w, he, rfl⟩)) _
    (Nat.mod_lt _ (by decide))

theorem userPages_aligned {m : Mem} {dir p : ℕ} (hd : dir % memPageSize = 0)
    (hp : p ∈ userPages m dir) : p % memPageSize = 0 := by
  rcases hp with rfl | ⟨i, -, -, -, rfl⟩ | ⟨i, j, e, -, -, -, -, rfl⟩
  · exact hd
  · exact entryPaddr_mod _
  · exact entryPaddr_mod _

/-- Where a user address is mapped to, lies in a user page. -/
theorem walk_inPage {m : Mem} {dir v a : ℕ} (hv : memoryTaskBase ≤ v) (hv' : v < 2 ^ 32)
    (h : m.walk dir v = some a) : ∃ p ∈ userPages m dir, InPage p a := by
  obtain ⟨hi, hi'⟩ := pdeIndex_user hv hv'
  rw [walk_eq, Option.map_eq_some_iff] at h
  obtain ⟨e, he, rfl⟩ := h
  refine ⟨_, .inr (.inr ⟨_, _, e, hi, hi', pteIndex_lt v, he, rfl⟩), ?_⟩
  unfold InPage memPageSize
  omega

theorem userWrite_seen {m : Mem} {d d' v w : ℕ} (hd : d % memPageSize = 0) (hd' : d' % memPageSize = 0)
    (hapart : Disjoint (userPages m d) (userPages m d')) (hv : memoryTaskBase ≤ v) (hv' : v < 2 ^ 32)
    (hw : memoryTaskBase ≤ w) (hw' : w < 2 ^ 32) (b : BitVec 8) :
    (m.userWrite d v b).seen d' w = m.seen d' w := by
  unfold Mem.userWrite
  cases ha : m.walk d v with
  | none => rfl
  | some a =>
      obtain ⟨p, hp, hin⟩ := walk_inPage hv hv' ha
      have hout : ∀ q ∈ userPages m d', ¬ InPage q a := by
        intro q hq hin'
        have heq := InPage.unique (userPages_aligned hd hp) (userPages_aligned hd' hq) hin hin'
        exact Set.disjoint_left.mp hapart hp (heq ▸ hq)
      obtain ⟨hwalk, hbyte⟩ := walk_write8 hout b hw hw'
      simp only [Mem.seen, hwalk]
      exact Option.map_congr fun c hc => hbyte c hc

/-! ## The walk -/

section Walk

variable {L : Layout} {n : ℕ} {s₀ : Vm} {dir : ℕ}

/-- Two pages have different positions in the walk. -/
theorem position_lt {i j i' j' : ℕ} (h' : j' < pteCnt) (h : j < pteCnt)
    (hlt : i' * pteCnt + j' < i * pteCnt + j + 1) (hne : ¬ (i' = i ∧ j' = j)) :
    i' * pteCnt + j' < i * pteCnt + j := by
  unfold pteCnt at *
  by_contra hge
  have heq : i' * 1024 + j' = i * 1024 + j := by omega
  have hi : i' = i := by omega
  exact hne ⟨hi, by omega⟩

/-- The mapped pages from the position `pos` on. -/
def framesLeft (m : Mem) (dir pos : ℕ) : Finset (ℕ × ℕ) :=
  (mappedPages m dir).filter fun x => pos ≤ x.1 * pteCnt + x.2

/-- The directory indices that need a table and have none. -/
def tablesLeft (m : Mem) (dir : ℕ) (sp : Space) : Finset ℕ :=
  ((mappedPages m dir).image Prod.fst).filter fun i => sp.table i = none

theorem mem_framesLeft {m : Mem} {pos : ℕ} {x : ℕ × ℕ} :
    x ∈ framesLeft m dir pos ↔ x ∈ mappedPages m dir ∧ pos ≤ x.1 * pteCnt + x.2 := by
  simp only [framesLeft, Finset.mem_filter]

theorem mem_tablesLeft {m : Mem} {sp : Space} {i : ℕ} :
    i ∈ tablesLeft m dir sp ↔ (∃ j, (i, j) ∈ mappedPages m dir) ∧ sp.table i = none := by
  simp only [tablesLeft, Finset.mem_filter, Finset.mem_image, Prod.exists, exists_and_right,
    exists_eq_right]

/-- The copy `sp` after `pos` of the `1024 * 1024` positions. -/
structure Copying (L : Layout) (n : ℕ) (s₀ : Vm) (dir pos : ℕ) (sp : Space) (s : Vm) : Prop where
  owned : sp.Owned n s
  cr3 : s.cr3 = dir
  clear : s.alloc.clearPages ⊆ s₀.alloc.clearPages
  pages : ∀ x p, sp.page x = some p → p ∈ s₀.alloc.clearPages
  out : ∀ x, (∀ p ∈ s₀.alloc.clearPages, ¬ InPage p x) → s.mem x = s₀.mem x
  kernel : ∀ k < userPdeStart,
    s.mem.read32 (sp.dir + 4 * k) = s₀.mem.read32 (L.kernelPageDir + 4 * k)
  missing : ∀ i j, userPdeStart ≤ i → i < pdeCnt → j < pteCnt →
    s₀.mem.userEntry dir i j = none → sp.entry i j = none
  done : ∀ i j e, userPdeStart ≤ i → i < pdeCnt → j < pteCnt → i * pteCnt + j < pos →
    s₀.mem.userEntry dir i j = some e → ∃ e', sp.entry i j = some e' ∧ e' % 2 ^ 9 = e % 2 ^ 9 ∧
      ∀ k < memPageSize, s.mem (entryPaddr e' + k) = s₀.mem (entryPaddr e + k)
  todo : ∀ i j, j < pteCnt → pos ≤ i * pteCnt + j → sp.entry i j = none
  room : (framesLeft s₀.mem dir pos).card + (tablesLeft s₀.mem dir sp).card ≤
    s.alloc.clearPages.card

theorem Copying.advance {pos pos' : ℕ} {sp : Space} {s : Vm} (h : Copying L n s₀ dir pos sp s)
    (hle : pos ≤ pos') (hnone : ∀ i j, userPdeStart ≤ i → i < pdeCnt → j < pteCnt →
      pos ≤ i * pteCnt + j → i * pteCnt + j < pos' → s₀.mem.userEntry dir i j = none) :
    Copying L n s₀ dir pos' sp s where
  owned := h.owned
  cr3 := h.cr3
  clear := h.clear
  pages := h.pages
  out := h.out
  kernel := h.kernel
  missing := h.missing
  done i j e hi hi' hj hlt he := by
    by_cases hpos : i * pteCnt + j < pos
    · exact h.done i j e hi hi' hj hpos he
    · rw [hnone i j hi hi' hj (by omega) hlt] at he
      cases he
  todo i j hj hpos := h.todo i j hj (by omega)
  room := by
    have hcard : (framesLeft s₀.mem dir pos').card ≤ (framesLeft s₀.mem dir pos).card := by
      apply Finset.card_le_card
      intro x hx
      rw [mem_framesLeft] at hx ⊢
      exact ⟨hx.1, hle.trans hx.2⟩
    have hroom := h.room
    omega

theorem CopySource.read_pde (hs : CopySource L n s₀ dir) {s : Vm}
    (hout : ∀ x, (∀ p ∈ s₀.alloc.clearPages, ¬ InPage p x) → s.mem x = s₀.mem x) :
    ∀ p ∈ userPages s₀.mem dir, ∀ k < memPageSize, s.mem (p + k) = s₀.mem (p + k) := by
  intro p hp k hk
  refine hout _ fun q hq hin => hs.unused p hp ?_
  have hpage : InPage p (p + k) := by
    unfold InPage
    omega
  exact InPage.unique (userPages_aligned hs.dirPage.aligned hp) (hs.usable q hq).aligned hpage hin ▸
    hq

/-- The source is read through the MMU at its own addresses while only clear pages change. -/
theorem CopySource.walk (hs : CopySource L n s₀ dir) {m : Mem}
    (hout : ∀ x, (∀ p ∈ s₀.alloc.clearPages, ¬ InPage p x) → m x = s₀.mem x) {i j e k : ℕ}
    (hi : userPdeStart ≤ i) (hi' : i < pdeCnt) (hj : j < pteCnt)
    (he : s₀.mem.userEntry dir i j = some e) (hk : k < memPageSize) {s : Vm} (hcr : s.cr3 = dir) :
    ({ s with mem := m } : Vm).phys (i * 2 ^ 22 + j * 2 ^ 12 + k) = some (entryPaddr e + k) := by
  have hsame : ∀ p ∈ dirPages s₀.mem dir, ∀ k < memPageSize, m (p + k) = s₀.mem (p + k) :=
    fun p hp => hs.read_pde (s := { s with mem := m }) hout p (dirPages_subset hp)
  unfold pdeCnt pteCnt memPageSize at *
  have hbase : memoryTaskBase ≤ i * 2 ^ 22 + j * 2 ^ 12 + k := by
    unfold userPdeStart pdeIndex memoryTaskBase at *
    omega
  have hpde : pdeIndex (i * 2 ^ 22 + j * 2 ^ 12 + k) = i := by
    unfold pdeIndex
    omega
  have hpte : pteIndex (i * 2 ^ 22 + j * 2 ^ 12 + k) = j := by
    unfold pteIndex
    omega
  have hoff : (i * 2 ^ 22 + j * 2 ^ 12 + k) % memPageSize = k := by
    unfold memPageSize
    omega
  have hdir : entryPaddr dir = dir := entryPaddr_add (x := 0) hs.dirPage.aligned (by decide)
  rw [Vm.phys, if_neg (by omega), walk_eq, hpde, hpte, hoff, hcr, hdir,
    (userEntry_congr hi hi' hj hsame).2, he]
  rfl

/-- One mapped page was copied to the fresh page `p`, mapped by a table at `t`. -/
structure Copied (n : ℕ) (i j e p t : ℕ) (sp sp₁ : Space) (s s' : Vm) : Prop where
  owned : (sp₁.addEntry i j (p + e % 2 ^ 9)).Owned n s'
  grown : Space.Owned.Grown sp i (s.alloc.clearPages.erase p) sp₁ s'.alloc.clearPages
  fresh : p ∈ s.alloc.clearPages
  kernelPage : KernelPage p
  table : sp₁.table i = some t
  cr3 : s'.cr3 = s.cr3
  bytes : ∀ k < memPageSize, s'.mem (p + k) = s.mem (entryPaddr e + k)
  out : ∀ x, ¬ InPage p x → ¬ InUserPdes sp.dir x → ¬ InPage t x → s'.mem x = s.mem x

theorem Copying.run (hs : CopySource L n s₀ dir) {i j e : ℕ} {sp : Space} {s : Vm}
    (h : Copying L n s₀ dir (i * pteCnt + j) sp s) (hi : userPdeStart ≤ i) (hi' : i < pdeCnt)
    (hj : j < pteCnt) (he : s₀.mem.userEntry dir i j = some e)
    (hpres : Present (s₀.mem.read32 (dir + 4 * i))) :
    ∃ p t sp₁ s', copyPage (entryPaddr (s₀.mem.read32 (dir + 4 * i))) sp.dir i j s =
      some (none, s') ∧ Copied n i j e p t sp sp₁ s s' := by
  have hmapped : (i, j) ∈ mappedPages s₀.mem dir :=
    mem_mappedPages.mpr ⟨⟨hi', hj⟩, hi, by rw [he]; rfl⟩
  have hframe : 0 < (framesLeft s₀.mem dir (i * pteCnt + j)).card :=
    Finset.card_pos.mpr ⟨(i, j), mem_framesLeft.mpr ⟨hmapped, le_rfl⟩⟩
  have hroom := h.room
  obtain ⟨p, hp, s₁, hs₁, hm₁, hclear₁, hmem₁, hcr₁⟩ :=
    allocPage_spec h.owned.managed (Finset.card_pos.mp (by omega))
  have hkp := h.owned.clear p hp
  have hfresh : ∀ x, sp.page x ≠ some p := fun x hx => h.owned.apart x p hx hp
  have ho₁ := h.owned.take hmem₁ hm₁ hclear₁
  -- the entry of the source
  have hpage : entryPaddr (s₀.mem.read32 (dir + 4 * i)) ∈ userPages s₀.mem dir :=
    .inr (.inl ⟨i, hi, hi', hpres, rfl⟩)
  have htable := hs.table i hi hi' hpres
  have hsrc := hs.read_pde h.out
  have hword : s.mem.read32 (entryPaddr (s₀.mem.read32 (dir + 4 * i)) + 4 * j) = e := by
    have hcongr := userEntry_congr hi hi' hj fun p hp => hsrc p (dirPages_subset hp)
    have hentry := hcongr.2.trans he
    rw [userEntry_eq_some, hcongr.1] at hentry
    exact hentry.2.1
  have hpresent : Present e := (userEntry_eq_some.mp he).2.2
  -- the new mapping
  let v := i * 2 ^ 22 + j * 2 ^ 12
  have hi'' : i < 1024 := hi'
  have hj' : j < 1024 := hj
  have hv : memoryTaskBase ≤ v := by
    unfold userPdeStart pdeIndex memoryTaskBase at *
    omega
  have hvi : pdeIndex v = i := by
    unfold pdeIndex
    omega
  have hvj : pteIndex v = j := by
    unfold pteIndex
    omega
  have hperm : getPtePerm e = e % 2 ^ 9 := getPtePerm_eq e
  have hperm' : Present (e % 2 ^ 9) := by
    unfold Present at *
    omega
  have hperm'' : e % 2 ^ 9 < memPageSize := by
    unfold memPageSize
    omega
  have htodo : sp.entry (pdeIndex v) (pteIndex v) = none := by
    rw [hvi, hvj]
    exact h.todo i j hj le_rfl
  have hroom₁ : sp.table (pdeIndex v) = none → s₁.alloc.clearPages.Nonempty := by
    intro hnone
    rw [hvi] at hnone
    have hleft : 0 < (tablesLeft s₀.mem dir sp).card :=
      Finset.card_pos.mpr ⟨i, mem_tablesLeft.mpr ⟨⟨j, hmapped⟩, hnone⟩⟩
    rw [← Finset.card_pos, hclear₁, Finset.card_erase_of_mem hp]
    omega
  obtain ⟨sp₁, s₂, t, hs₂, ho₂, hgrown, ht, hcr₂, hout₂⟩ := ho₁.mapPage hv (by omega)
    htodo hroom₁ hkp (by rw [hclear₁]; exact Finset.notMem_erase _ _) hfresh hperm'
    hperm''
  rw [hvi, hvj] at ho₂
  rw [hvi] at hgrown ht
  have hdir₁ : sp₁.dir = sp.dir := Space.Owned.grown_dir hgrown
  have hframe₂ : (sp₁.addEntry i j (p + e % 2 ^ 9)).page (.frame i j) = some p := by
    simp only [Space.page, Space.addEntry, and_self, if_true, Option.map_some,
      entryPaddr_add hkp.aligned hperm'']
  -- the copied bytes
  have hclear : ∀ x, (∀ q ∈ s₀.alloc.clearPages, ¬ InPage q x) → s₂.mem x = s₀.mem x := by
    intro x hx
    have hdirc := h.pages .dir sp.dir rfl
    have htc : t ∈ s₀.alloc.clearPages := by
      rcases Space.Owned.grown_page hgrown (x := .table i) ht with hold | hclear
      · exact h.pages (.table i) t hold
      · exact h.clear (Finset.mem_of_mem_erase (hclear₁ ▸ hclear))
    rw [hout₂ x (fun hin => hx _ hdirc ?_) (hx t htc), hmem₁]
    · exact h.out x hx
    · unfold InUserPdes at hin
      unfold InPage
      omega
  have hframes : entryPaddr e ∈ userPages s₀.mem dir :=
    .inr (.inr ⟨i, j, e, hi, hi', hj, he, rfl⟩)
  have hpc : p ∈ s₀.alloc.clearPages := h.clear hp
  have hne : entryPaddr e ≠ p := fun heq => hs.unused _ hframes (heq ▸ hpc)
  have hmemcpy : kernelMemcpy p v memPageSize s₂ =
      some ((), { s₂ with mem := s₂.mem.copy p (entryPaddr e) memPageSize }) := by
    have hcond : ¬ (p = 0 ∨ v = 0 ∨ memPageSize = 0) := by
      rintro (h0 | h0 | h0)
      · exact hkp.ne_zero h0
      · unfold memoryTaskBase at hv
        omega
      · cases h0
    rw [kernelMemcpy, if_neg hcond]
    apply memcpyLoop_of_identity
    · exact fun k hk => hkp.identity.add hkp.aligned hk
    · unfold memPageSize
      omega
    · intro m hm k hk
      refine hs.walk (fun x hx => ?_) hi hi' hj he hk (by rw [hcr₂, hcr₁, h.cr3])
      rw [hm x (hx p hpc), hclear x hx]
    · have h1 := hkp.aligned
      have h2 := entryPaddr_mod e
      unfold memPageSize at *
      omega
  refine ⟨p, t, sp₁, { s₂ with mem := s₂.mem.copy p (entryPaddr e) memPageSize }, ?_,
    ⟨ho₂.writeFrame hframe₂ fun x hx => ?_, hclear₁ ▸ hgrown, hp, hkp, ht, hcr₂.trans hcr₁,
      fun k hk => ?_, fun x hx hx' hx'' => ?_⟩⟩
  · rw [copyPage, Prog.bind_of_eq (htable.load32 hj), hword, if_pos hpresent,
      Prog.bind_of_eq hs₁, if_neg hkp.ne_zero, hperm, Prog.bind_of_eq hs₂, if_neg (by omega),
      Prog.bind_of_eq hmemcpy]
    rfl
  · apply Mem.copy_apply_of_out
    unfold InPage at hx
    omega
  · show s₂.mem.copy p (entryPaddr e) memPageSize (p + k) = _
    have h1 := hsrc _ hframes k hk
    have h2 : s₂.mem (entryPaddr e + k) = s₀.mem (entryPaddr e + k) := by
      refine hclear _ fun q hq hin => hs.unused _ hframes ?_
      have hin' : InPage (entryPaddr e) (entryPaddr e + k) := by
        unfold InPage
        omega
      exact InPage.unique (entryPaddr_mod e) (hs.usable q hq).aligned hin' hin ▸ hq
    rw [Mem.copy_apply hk, h1, h2]
  · show s₂.mem.copy p (entryPaddr e) memPageSize x = s.mem x
    have hcopy : s₂.mem.copy p (entryPaddr e) memPageSize x = s₂.mem x := by
      apply Mem.copy_apply_of_out
      unfold InPage at hx
      omega
    rw [hcopy, hout₂ x hx' hx'', hmem₁]

/-- Both resources that the room is made of shrink with the step. -/
theorem Copied.room {i j e p t : ℕ} {sp sp₁ : Space} {s s' : Vm}
    (hc : Copied n i j e p t sp sp₁ s s') (h : Copying L n s₀ dir (i * pteCnt + j) sp s)
    (hmapped : (i, j) ∈ mappedPages s₀.mem dir) :
    (framesLeft s₀.mem dir (i * pteCnt + j + 1)).card +
      (tablesLeft s₀.mem dir (sp₁.addEntry i j (p + e % 2 ^ 9))).card ≤
        s'.alloc.clearPages.card := by
  have hframes : (framesLeft s₀.mem dir (i * pteCnt + j + 1)).card <
      (framesLeft s₀.mem dir (i * pteCnt + j)).card := by
    apply Finset.card_lt_card
    refine ⟨fun x hx => ?_, fun hsub => ?_⟩
    · rw [mem_framesLeft] at hx ⊢
      exact ⟨hx.1, by omega⟩
    · have hmem := hsub (mem_framesLeft.mpr ⟨hmapped, le_rfl⟩)
      rw [mem_framesLeft] at hmem
      exact absurd hmem.2 (by simp)
  have hclear : (s.alloc.clearPages.erase p).card + 1 = s.alloc.clearPages.card :=
    Finset.card_erase_add_one hc.fresh
  have hroom := h.room
  rcases hc.grown with ⟨-, hsp, hclear'⟩ | ⟨u, hu, hnone, hsp, hclear'⟩
  · have htables : (tablesLeft s₀.mem dir (sp₁.addEntry i j (p + e % 2 ^ 9))).card ≤
        (tablesLeft s₀.mem dir sp).card := by
      apply Finset.card_le_card
      intro k hk
      rw [mem_tablesLeft] at hk ⊢
      exact ⟨hk.1, hsp ▸ hk.2⟩
    rw [hclear']
    omega
  · have htables : (tablesLeft s₀.mem dir (sp₁.addEntry i j (p + e % 2 ^ 9))).card <
        (tablesLeft s₀.mem dir sp).card := by
      apply Finset.card_lt_card
      refine ⟨fun k hk => ?_, fun hsub => ?_⟩
      · rw [mem_tablesLeft] at hk ⊢
        have htable : sp₁.table k = none := hk.2
        refine ⟨hk.1, ?_⟩
        by_cases he : k = i
        · exact he ▸ hnone
        · have hold : sp₁.table k = sp.table k := by
            rw [hsp]
            exact Function.update_of_ne he _ _
          rwa [hold] at htable
      · have hmem := hsub (mem_tablesLeft.mpr ⟨⟨j, hmapped⟩, hnone⟩)
        have htable : sp₁.table i = none := (mem_tablesLeft.mp hmem).2
        rw [hc.table] at htable
        cases htable
    have hcard := Finset.card_erase_add_one hu
    rw [hclear']
    omega

theorem Copied.next (hs : CopySource L n s₀ dir) {i j e p t : ℕ} {sp sp₁ : Space} {s s' : Vm}
    (hc : Copied n i j e p t sp sp₁ s s') (h : Copying L n s₀ dir (i * pteCnt + j) sp s)
    (hi : userPdeStart ≤ i) (hi' : i < pdeCnt) (hj : j < pteCnt)
    (he : s₀.mem.userEntry dir i j = some e) :
    Copying L n s₀ dir (i * pteCnt + j + 1) (sp₁.addEntry i j (p + e % 2 ^ 9)) s' := by
  have hdir : sp₁.dir = sp.dir := Space.Owned.grown_dir hc.grown
  have hentry : sp₁.entry = sp.entry := Space.Owned.grown_entry hc.grown
  have hsub : s'.alloc.clearPages ⊆ s₀.alloc.clearPages :=
    (Space.Owned.grown_subset hc.grown).trans ((Finset.erase_subset p _).trans h.clear)
  have hpc : p ∈ s₀.alloc.clearPages := h.clear hc.fresh
  have hal := hc.kernelPage.aligned
  have hperm : e % 2 ^ 9 < memPageSize := by
    unfold memPageSize
    omega
  have hpage : ∀ x q, (sp₁.addEntry i j (p + e % 2 ^ 9)).page x = some q →
      q ∈ s₀.alloc.clearPages := by
    intro x q hx
    rcases Space.addEntry_page hx with ⟨-, rfl⟩ | ⟨-, hx⟩
    · rwa [entryPaddr_add hal hperm]
    · rcases Space.Owned.grown_page hc.grown hx with hx | hq
      · exact h.pages x q hx
      · exact h.clear (Finset.mem_of_mem_erase hq)
  have htc : t ∈ s₀.alloc.clearPages := hpage (.table i) t hc.table
  have hdp := h.owned.dirPage.aligned
  have htp := (hc.owned.tablePage (i := i) hc.table).aligned
  have hdirt : sp.dir ≠ t := by
    intro heq
    have := hc.owned.shape.distinct .dir (.table i) t (congrArg some (hdir.trans heq)) hc.table
    cases this
  have hdirp : sp.dir ≠ p := fun heq => h.owned.apart .dir p (congrArg some heq) hc.fresh
  have hother : ∀ i' j' e', sp.entry i' j' = some e' → ∀ k < memPageSize,
      s'.mem (entryPaddr e' + k) = s.mem (entryPaddr e' + k) := by
    intro i' j' e' he' k hk
    have hq : sp.page (.frame i' j') = some (entryPaddr e') := by simp [Space.page, he']
    have hqal := entryPaddr_mod e'
    have hqp : entryPaddr e' ≠ p := fun heq => h.owned.apart _ _ hq (heq ▸ hc.fresh)
    have hqd : entryPaddr e' ≠ sp.dir := by
      intro heq
      have := h.owned.shape.distinct _ .dir _ hq (congrArg some heq.symm)
      cases this
    have hqt : entryPaddr e' ≠ t := by
      intro heq
      rcases hc.grown with ⟨-, hsp, -⟩ | ⟨u, hu, -, hsp, -⟩
      · have := h.owned.shape.distinct _ (.table i) _ hq (heq ▸ hsp ▸ hc.table)
        cases this
      · have hut : u = t := by
          have ht := hc.table
          rw [hsp] at ht
          simpa [Space.addTable] using ht
        exact h.owned.apart _ _ hq (heq ▸ hut ▸ Finset.mem_of_mem_erase hu)
    apply hc.out
    · unfold InPage memPageSize at *
      omega
    · unfold InUserPdes memPageSize at *
      omega
    · unfold InPage memPageSize at *
      omega
  refine ⟨hc.owned, hc.cr3.trans h.cr3, hsub, hpage, fun x hx => ?_, fun k hk => ?_, ?_, ?_, ?_,
    hc.room h (mem_mappedPages.mpr ⟨⟨hi', hj⟩, hi, by rw [he]; rfl⟩)⟩
  · rw [hc.out x (hx p hpc) (fun hin => hx _ (h.pages .dir _ rfl) ?_) (hx t htc), h.out x hx]
    unfold InUserPdes at hin
    unfold InPage
    omega
  · rw [← h.kernel k hk, show (sp₁.addEntry i j (p + e % 2 ^ 9)).dir = sp.dir from hdir]
    refine Mem.read32_congr fun x hx hx' => hc.out x ?_ ?_ ?_
    · unfold InPage userPdeStart pdeIndex memoryTaskBase memPageSize at *
      omega
    · unfold InUserPdes userPdeStart pdeIndex memoryTaskBase memPageSize at *
      omega
    · unfold InPage userPdeStart pdeIndex memoryTaskBase memPageSize at *
      omega
  · intro i' j' h1 h2 h3 hnone
    have hne : ¬ (i' = i ∧ j' = j) := by
      rintro ⟨rfl, rfl⟩
      rw [he] at hnone
      cases hnone
    rw [Space.addEntry_entry_of_ne hne, hentry]
    exact h.missing i' j' h1 h2 h3 hnone
  · intro i' j' e₁ h1 h2 h3 hlt he₁
    by_cases heq : i' = i ∧ j' = j
    · obtain ⟨rfl, rfl⟩ := heq
      obtain rfl : e = e₁ := Option.some.inj (he.symm.trans he₁)
      refine ⟨p + e % 2 ^ 9, Space.addEntry_entry_self, ?_, fun k hk => ?_⟩
      · unfold memPageSize at hal
        omega
      · have hframes : entryPaddr e ∈ userPages s₀.mem dir :=
          .inr (.inr ⟨i', j', e, hi, hi', hj, he, rfl⟩)
        rw [entryPaddr_add hal hperm, hc.bytes k hk, hs.read_pde h.out _ hframes k hk]
    · have hlt' := position_lt h3 hj hlt heq
      obtain ⟨e', he', hperm', hbytes⟩ := h.done i' j' e₁ h1 h2 h3 hlt' he₁
      have hold : (sp₁.addEntry i j (p + e % 2 ^ 9)).entry i' j' = some e' := by
        rw [Space.addEntry_entry_of_ne heq, hentry, he']
      refine ⟨e', hold, hperm', fun k hk => ?_⟩
      rw [hother i' j' e' he' k hk, hbytes k hk]
  · intro i' j' h3 hpos
    have hne : ¬ (i' = i ∧ j' = j) := by
      rintro ⟨rfl, rfl⟩
      omega
    rw [Space.addEntry_entry_of_ne hne, hentry]
    exact h.todo i' j' h3 (by omega)

end Walk

end X86Os
