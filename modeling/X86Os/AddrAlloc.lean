import X86Os.Bitmap
import X86Os.Machine

/-!
# The physical page allocator

The model of `addr_alloc_t` in `core/memory.c`. Each function holds the mutex of the allocator for
the whole of its work, so a call is one step. `pageIndex` and `pageAddr` convert between the addresses
of pages and the positions of their bits; `addr_free_page` does not use the former.
-/

namespace X86Os

def memPageSize : ℕ := 4096

structure AddrAlloc where
  bitmap : Bitmap
  pageSize : ℕ
  start : ℕ
  size : ℕ

def addrAllocInit (bits : ℤ → BitVec 8) (start size pageSize : ℕ) : AddrAlloc where
  start := start
  size := size
  pageSize := pageSize
  bitmap := bitmapInit bits (size / pageSize : ℕ) 0

def addrAllocPage (alloc : AddrAlloc) (count : ℤ) : ℕ × AddrAlloc :=
  let r := bitmapAllocNbits alloc.bitmap 0 count
  (if r.1 ≥ 0 then u32 (alloc.start + r.1.toNat * alloc.pageSize) else 0,
    { alloc with bitmap := r.2 })

/-- `pg_idx` is the distance in bytes, read as an `int` by `bitmap_set_bit`. -/
def addrFreePage (alloc : AddrAlloc) (addr : ℕ) (pageCount : ℤ) : AddrAlloc :=
  let pgIdx := u32Sub addr alloc.start
  { alloc with bitmap := bitmapSetBit alloc.bitmap (i32 pgIdx) pageCount 0 }

namespace AddrAlloc

/-- The index that `addr_free_page` passes on for the address is not negative. -/
def Freeable (alloc : AddrAlloc) (addr : ℕ) : Prop := 0 ≤ i32 (u32Sub addr alloc.start)

instance (alloc : AddrAlloc) (addr : ℕ) : Decidable (alloc.Freeable addr) :=
  inferInstanceAs (Decidable (0 ≤ i32 (u32Sub addr alloc.start)))

/-- The address of the page with index `k`. -/
def pageAddr (alloc : AddrAlloc) (k : ℕ) : ℕ := u32 (alloc.start + k * alloc.pageSize)

/-- The index of the page at `addr`. -/
def pageIndex (alloc : AddrAlloc) (addr : ℕ) : ℕ := u32Sub addr alloc.start / alloc.pageSize

/-- What `addr_alloc_init` sets up for `n` pages, whatever the bits are now. -/
structure Managed (alloc : AddrAlloc) (n : ℕ) : Prop where
  pageSize : alloc.pageSize = memPageSize
  start : alloc.start < 2 ^ 32
  bitCount : alloc.bitmap.bitCount = n
  pages : n < 2 ^ 20

/-- The indices whose bit is set. -/
def used (alloc : AddrAlloc) : Set ℕ :=
  {k | (k : ℤ) < alloc.bitmap.bitCount ∧ alloc.bitmap.bitAt k = true}

variable {alloc : AddrAlloc} {n : ℕ}

theorem managed_init {bits : ℤ → BitVec 8} {start size : ℕ} (hs : start < 2 ^ 32)
    (hz : size < 2 ^ 32) :
    (addrAllocInit bits start size memPageSize).Managed (size / memPageSize) :=
  ⟨rfl, hs, rfl, by unfold memPageSize; omega⟩

theorem used_init {bits : ℤ → BitVec 8} {start size : ℕ} :
    (addrAllocInit bits start size memPageSize).used = ∅ := by
  refine Set.eq_empty_of_forall_notMem fun k hk => ?_
  obtain ⟨hlt, hbit⟩ := hk
  have hk' : k < size / memPageSize := Int.ofNat_lt.mp hlt
  rw [addrAllocInit, Bitmap.bitAt_init bits hk'] at hbit
  cases hbit

theorem pageIndex_pageAddr (hm : alloc.Managed n) {k : ℕ} (hk : k < 2 ^ 20) :
    alloc.pageIndex (alloc.pageAddr k) = k := by
  rw [pageIndex, pageAddr, hm.pageSize, u32Sub_u32_add _ (by unfold memPageSize; omega)]
  exact Nat.mul_div_cancel k (by decide)

theorem freeable_iff {addr : ℕ} : alloc.Freeable addr ↔ u32Sub addr alloc.start < 2 ^ 31 := by
  have hlt : u32Sub addr alloc.start < 2 ^ 32 := u32_lt _
  rw [Freeable, i32_cast hlt]
  split_ifs <;> omega

theorem pageAddr_zero (hm : alloc.Managed n) : alloc.pageAddr 0 = alloc.start := by
  rw [pageAddr, zero_mul, add_zero, u32_of_lt hm.start]

/-- The index does not depend on the bits. -/
theorem freeable_congr {alloc' : AddrAlloc} {addr : ℕ} (h : alloc'.start = alloc.start) :
    alloc'.Freeable addr ↔ alloc.Freeable addr := by
  rw [Freeable, Freeable, h]

theorem freeable_pageAddr_zero (hm : alloc.Managed n) : alloc.Freeable (alloc.pageAddr 0) := by
  rw [freeable_iff, pageAddr_zero hm, u32Sub_of_le le_rfl hm.start, Nat.sub_self]
  norm_num

/-- The page given out is the first free one. -/
theorem allocPage_found {k : ℕ} (h : alloc.bitmap.FirstClear k) :
    addrAllocPage alloc 1 = (alloc.pageAddr k,
      { alloc with bitmap := bitmapSetBit alloc.bitmap k 1 (-1) }) := by
  simp [addrAllocPage, Bitmap.allocNbits_found h, pageAddr]

theorem allocPage_none (h : ∀ k : ℕ, (k : ℤ) < alloc.bitmap.bitCount → alloc.bitmap.bitAt k = true) :
    addrAllocPage alloc 1 = (0, alloc) := by
  simp [addrAllocPage, Bitmap.allocNbits_none h]

/-- Either a first free page exists or every page is in use. -/
theorem firstClear_or (alloc : AddrAlloc) : (∃ k, alloc.bitmap.FirstClear k) ∨
    ∀ k : ℕ, (k : ℤ) < alloc.bitmap.bitCount → alloc.bitmap.bitAt k = true := by
  by_cases h : ∃ k : ℕ, (k : ℤ) < alloc.bitmap.bitCount ∧ alloc.bitmap.bitAt k = false
  · obtain ⟨k, hk, hclear⟩ := h
    obtain ⟨j, hj, -⟩ := Bitmap.exists_firstClear hk hclear
    exact .inl ⟨j, hj⟩
  · refine .inr fun k hk => ?_
    by_contra hbit
    exact h ⟨k, hk, by simpa using hbit⟩

theorem used_allocPage {k : ℕ} (h : alloc.bitmap.FirstClear k) :
    (addrAllocPage alloc 1).2.used = insert k alloc.used := by
  ext j
  rw [allocPage_found h]
  simp only [used, Set.mem_ofPred_eq, Set.mem_insert_iff, Bitmap.setBit_bitCount,
    Bitmap.bitAt_setBit_one _ h.1]
  by_cases he : j = k
  · simp [he, h.1]
  · simp [he]

/-- Freeing the page `k` clears the bit `4096 * k`, if there is one. -/
theorem used_freePage (hm : alloc.Managed n) {k : ℕ} (hk : k < 2 ^ 20) :
    (addrFreePage alloc (alloc.pageAddr k) 1).used = alloc.used \ {memPageSize * k} := by
  have hidx : u32Sub (alloc.pageAddr k) alloc.start = memPageSize * k := by
    rw [pageAddr, hm.pageSize, u32Sub_u32_add _ (by unfold memPageSize; omega), mul_comm]
  have hlt : memPageSize * k < 2 ^ 32 := by
    unfold memPageSize
    omega
  have hcount := hm.bitCount
  have hpages := hm.pages
  have hbits : ∀ j : ℕ, (j : ℤ) < alloc.bitmap.bitCount →
      (bitmapSetBit alloc.bitmap (i32 (memPageSize * k : ℕ)) 1 0).bitAt j =
        if j = memPageSize * k then false else alloc.bitmap.bitAt j := by
    intro j hj
    rw [i32_cast hlt]
    by_cases hhalf : memPageSize * k < 2 ^ 31
    · rw [if_pos hhalf]
      by_cases hin : ((memPageSize * k : ℕ) : ℤ) < alloc.bitmap.bitCount
      · rw [Bitmap.bitAt_setBit_one _ hin]
        simp
      · rw [Bitmap.setBit_one_out _ (Int.not_lt.mp hin), if_neg (by omega)]
    · have hneg : ((memPageSize * k : ℕ) : ℤ) - 2 ^ 32 < 0 := by omega
      rw [if_neg hhalf, Bitmap.bitAt_setBit_neg _ hneg (by omega), if_neg (by omega)]
  ext j
  simp only [used, addrFreePage, hidx, Set.mem_ofPred_eq, Set.mem_sdiff, Set.mem_singleton_iff,
    Bitmap.setBit_bitCount]
  constructor
  · rintro ⟨hj, hbit⟩
    rw [hbits j hj] at hbit
    by_cases he : j = memPageSize * k
    · simp [he] at hbit
    · exact ⟨⟨hj, by simpa [he] using hbit⟩, he⟩
  · rintro ⟨⟨hj, hbit⟩, he⟩
    exact ⟨hj, by rw [hbits j hj, if_neg he, hbit]⟩

theorem Managed.allocPage (hm : alloc.Managed n) (count : ℤ) :
    (addrAllocPage alloc count).2.Managed n :=
  ⟨hm.pageSize, hm.start, (Bitmap.allocNbits_bitCount ..).trans hm.bitCount, hm.pages⟩

theorem Managed.freePage (hm : alloc.Managed n) (addr : ℕ) (count : ℤ) :
    (addrFreePage alloc addr count).Managed n :=
  ⟨hm.pageSize, hm.start, (Bitmap.setBit_bitCount ..).trans hm.bitCount, hm.pages⟩

/-- The addresses of the pages whose bit is clear. -/
def clearPages (alloc : AddrAlloc) : Finset ℕ :=
  ((Finset.range alloc.bitmap.bitCount.toNat).filter fun k => alloc.bitmap.bitAt k = false).image
    alloc.pageAddr

theorem mem_clearPages (hm : alloc.Managed n) {p : ℕ} : p ∈ alloc.clearPages ↔
    ∃ k < n, alloc.bitmap.bitAt k = false ∧ alloc.pageAddr k = p := by
  simp only [clearPages, hm.bitCount, Int.toNat_natCast, Finset.mem_image, Finset.mem_filter,
    Finset.mem_range, and_assoc]

theorem pageAddr_inj (hm : alloc.Managed n) {k l : ℕ} (hk : k < n) (hl : l < n)
    (h : alloc.pageAddr k = alloc.pageAddr l) : k = l := by
  have hpages := hm.pages
  rw [← pageIndex_pageAddr hm (show k < 2 ^ 20 by omega), h,
    pageIndex_pageAddr hm (by omega)]

theorem card_clearPages_of_clear (hm : alloc.Managed n)
    (hclear : ∀ k < n, alloc.bitmap.bitAt k = false) : alloc.clearPages.card = n := by
  have hall : ((Finset.range n).filter fun k : ℕ => alloc.bitmap.bitAt k = false) =
      Finset.range n :=
    Finset.filter_true_of_mem fun k hk => hclear k (Finset.mem_range.mp hk)
  rw [clearPages, hm.bitCount, Int.toNat_natCast, hall, Finset.card_image_of_injOn,
    Finset.card_range]
  intro k hk l hl h
  exact pageAddr_inj hm (Finset.mem_range.mp hk) (Finset.mem_range.mp hl) h

theorem card_clearPages_init {bits : ℤ → BitVec 8} {start size : ℕ} (hs : start < 2 ^ 32)
    (hz : size < 2 ^ 32) :
    (addrAllocInit bits start size memPageSize).clearPages.card = size / memPageSize :=
  card_clearPages_of_clear (managed_init hs hz) fun _ => Bitmap.bitAt_init bits

theorem clearPages_allocPage (hm : alloc.Managed n) {k : ℕ} (h : alloc.bitmap.FirstClear k) :
    (addrAllocPage alloc 1).2.clearPages = alloc.clearPages.erase (alloc.pageAddr k) := by
  have hk : k < n := by
    have := h.1
    rw [hm.bitCount] at this
    omega
  ext p
  rw [mem_clearPages (hm.allocPage 1), Finset.mem_erase, mem_clearPages hm]
  rw [allocPage_found h]
  simp only [Bitmap.bitAt_setBit_one _ h.1]
  constructor
  · rintro ⟨j, hj, hbit, rfl⟩
    by_cases he : j = k
    · simp [he] at hbit
    · refine ⟨fun heq => he (pageAddr_inj hm hj hk heq), j, hj, ?_, rfl⟩
      simpa [he] using hbit
  · rintro ⟨hne, j, hj, hbit, rfl⟩
    have he : j ≠ k := fun heq => hne (heq ▸ rfl)
    exact ⟨j, hj, by simpa [he] using hbit, rfl⟩

/-- While a page is clear, an allocation hands out one of them. -/
theorem exists_allocPage (hm : alloc.Managed n) (h : alloc.clearPages.Nonempty) :
    ∃ p ∈ alloc.clearPages, (addrAllocPage alloc 1).1 = p ∧
      (addrAllocPage alloc 1).2.clearPages = alloc.clearPages.erase p := by
  obtain ⟨p, hp⟩ := h
  obtain ⟨j, hj, hbit, -⟩ := (mem_clearPages hm).mp hp
  have hlt : (j : ℤ) < alloc.bitmap.bitCount := by
    rw [hm.bitCount]
    omega
  obtain ⟨k, hk, hkj⟩ := Bitmap.exists_firstClear hlt hbit
  exact ⟨alloc.pageAddr k, (mem_clearPages hm).mpr ⟨k, by omega, hk.2.1, rfl⟩,
    congrArg Prod.fst (allocPage_found hk), clearPages_allocPage hm hk⟩

/-- The first page is clear exactly if it is the first clear one. -/
theorem start_mem_iff {k : ℕ} (hm : alloc.Managed n) (hk : alloc.bitmap.FirstClear k) (hlt : k < n) :
    alloc.start ∈ alloc.clearPages ↔ k = 0 := by
  rw [← pageAddr_zero hm, mem_clearPages hm]
  constructor
  · rintro ⟨j, hj, hbit, he⟩
    obtain rfl := pageAddr_inj hm hj (by omega) he
    by_contra hne
    have hset := hk.2.2 0 (by omega)
    rw [hbit] at hset
    cases hset
  · rintro rfl
    exact ⟨0, hlt, hk.2.1, rfl⟩

theorem clearPages_of_full (hm : alloc.Managed n)
    (hfull : ∀ k : ℕ, (k : ℤ) < alloc.bitmap.bitCount → alloc.bitmap.bitAt k = true) :
    alloc.clearPages = ∅ := by
  refine Finset.eq_empty_of_forall_notMem fun p hp => ?_
  obtain ⟨k, hk, hbit, -⟩ := (mem_clearPages hm).mp hp
  rw [hfull k (by rw [hm.bitCount]; omega)] at hbit
  cases hbit

/-- Without a clear page nothing is handed out. -/
theorem allocPage_empty (hm : alloc.Managed n) (h : alloc.clearPages = ∅) :
    addrAllocPage alloc 1 = (0, alloc) := by
  apply allocPage_none
  intro k hk
  by_contra hbit
  have hmem : alloc.pageAddr k ∈ alloc.clearPages := by
    rw [hm.bitCount] at hk
    exact (mem_clearPages hm).mpr ⟨k, by omega, by simpa using hbit, rfl⟩
  rw [h] at hmem
  exact Finset.notMem_empty _ hmem

end AddrAlloc

/-! ## Runs of the allocator -/

inductive PageOp
  | alloc
  | free (addr : ℕ)

/-- The allocator together with the pages that were handed out and not freed since. -/
structure PageRun where
  alloc : AddrAlloc
  outstanding : Finset ℕ

namespace PageRun

def next (r : PageRun) : PageOp → PageRun
  | .alloc =>
    let p := addrAllocPage r.alloc 1
    { alloc := p.2
      outstanding := if p.1 = 0 then r.outstanding else insert p.1 r.outstanding }
  | .free addr => { alloc := addrFreePage r.alloc addr 1, outstanding := r.outstanding.erase addr }

/-- The set bits are those of the outstanding pages. -/
def Exact (r : PageRun) : Prop := r.alloc.used = r.alloc.pageIndex '' r.outstanding

/-- The operations after which the bits are right again: an allocation whose page is not at address
zero, and freeing the page with index zero. -/
def Indexed (r : PageRun) : PageOp → Prop
  | .alloc => ∀ k, r.alloc.bitmap.FirstClear k → r.alloc.pageAddr k ≠ 0
  | .free addr => r.alloc.pageIndex addr = 0

end PageRun

/-- Calls of the allocator by which only outstanding pages are freed. -/
def pageMachine (start size : ℕ) : Machine PageRun PageOp where
  init r := start < 2 ^ 32 ∧ size < 2 ^ 32 ∧
    ∃ bits, r = { alloc := addrAllocInit bits start size memPageSize, outstanding := ∅ }
  enabled r
    | .alloc => True
    | .free addr => addr ∈ r.outstanding
  step r op := some (r.next op)

namespace PageRun

/-- What holds in every run, whichever pages are freed. -/
structure Sound (r : PageRun) (n : ℕ) : Prop where
  managed : r.alloc.Managed n
  page : ∀ a ∈ r.outstanding, a ≠ 0 ∧ ∃ k < n, a = r.alloc.pageAddr k

variable {r : PageRun} {n : ℕ}

theorem Sound.next_alloc (hs : r.Sound n) : (r.next .alloc).Sound n := by
  refine ⟨hs.managed.allocPage 1, fun a ha => ?_⟩
  rcases r.alloc.firstClear_or with ⟨k, hk⟩ | hfull
  · have hlt : k < n := by
      have := hk.1
      rw [hs.managed.bitCount] at this
      omega
    simp only [next, AddrAlloc.allocPage_found hk] at ha ⊢
    by_cases hz : r.alloc.pageAddr k = 0
    · rw [if_pos hz] at ha
      exact hs.page a ha
    · rw [if_neg hz, Finset.mem_insert] at ha
      rcases ha with rfl | ha
      · exact ⟨hz, k, hlt, rfl⟩
      · exact hs.page a ha
  · simp only [next, AddrAlloc.allocPage_none hfull] at ha ⊢
    exact hs.page a ha

theorem Sound.next_free (hs : r.Sound n) (addr : ℕ) : (r.next (.free addr)).Sound n :=
  ⟨hs.managed.freePage addr 1, fun a ha => hs.page a (Finset.mem_of_mem_erase ha)⟩

theorem sound_of_reach {start size : ℕ} (h : (pageMachine start size).Reach r) :
    r.Sound (size / memPageSize) := by
  apply h.invariant (I := fun r => r.Sound (size / memPageSize))
  · rintro _ ⟨hs, hz, bits, rfl⟩
    exact ⟨AddrAlloc.managed_init hs hz, by simp⟩
  · rintro r op r' hs - hr
    obtain rfl : r.next op = r' := Option.some.inj hr
    cases op with
    | alloc => exact hs.next_alloc
    | free addr => exact hs.next_free addr

/-- Distinct outstanding pages have distinct indices. -/
theorem Sound.pageIndex_inj (hs : r.Sound n) {a b : ℕ} (ha : a ∈ r.outstanding)
    (hb : b ∈ r.outstanding) (h : r.alloc.pageIndex a = r.alloc.pageIndex b) : a = b := by
  have hpages := hs.managed.pages
  obtain ⟨-, k, hk, rfl⟩ := hs.page a ha
  obtain ⟨-, l, hl, rfl⟩ := hs.page b hb
  rw [AddrAlloc.pageIndex_pageAddr hs.managed (by omega),
    AddrAlloc.pageIndex_pageAddr hs.managed (by omega)] at h
  rw [h]

theorem Sound.notMem_of_clear (hs : r.Sound n) (he : r.Exact) {k : ℕ}
    (hk : r.alloc.bitmap.FirstClear k) : r.alloc.pageAddr k ∉ r.outstanding := by
  intro hmem
  have hlt := hk.1
  have hpages := hs.managed.pages
  rw [hs.managed.bitCount] at hlt
  have hused : k ∈ r.alloc.used := by
    rw [he]
    exact ⟨_, hmem, AddrAlloc.pageIndex_pageAddr hs.managed (by omega)⟩
  have hbit := hused.2
  rw [hk.2.1] at hbit
  cases hbit

/-- From an exact state an allocation leads to an exact one just when its page is not at zero. -/
theorem Sound.exact_alloc (hs : r.Sound n) (he : r.Exact) :
    (r.next .alloc).Exact ↔ r.Indexed .alloc := by
  have hpages := hs.managed.pages
  rcases r.alloc.firstClear_or with ⟨k, hk⟩ | hfull
  · have hlt : k < 2 ^ 20 := by
      have := hk.1
      rw [hs.managed.bitCount] at this
      omega
    have hidx := AddrAlloc.pageIndex_pageAddr hs.managed hlt
    have hused := AddrAlloc.used_allocPage hk
    have hclear : k ∉ r.alloc.used := fun h => by
      have := h.2
      simp [hk.2.1] at this
    have hind : r.Indexed .alloc ↔ r.alloc.pageAddr k ≠ 0 :=
      ⟨fun h => h k hk, fun h j hj => hj.unique hk ▸ h⟩
    have hpi : (addrAllocPage r.alloc 1).2.pageIndex = r.alloc.pageIndex := rfl
    rw [hind]
    simp only [Exact, next, hused, hpi]
    rw [AddrAlloc.allocPage_found hk]
    by_cases hz : r.alloc.pageAddr k = 0
    · rw [if_pos hz, ← he]
      refine iff_of_false (fun heq => hclear ?_) (by simpa using hz)
      rw [← heq]
      exact Set.mem_insert k _
    · rw [if_neg hz, Finset.coe_insert, Set.image_insert_eq, hidx, ← he]
      exact iff_of_true rfl hz
  · have hind : r.Indexed .alloc := fun k hk => by
      have := hfull k hk.1
      simp [hk.2.1] at this
    refine iff_of_true ?_ hind
    simp only [Exact, next, AddrAlloc.allocPage_none hfull]
    exact he

/-- From an exact state freeing an outstanding page leads to an exact one just when it is the first
page. -/
theorem Sound.exact_free (hs : r.Sound n) (he : r.Exact) {addr : ℕ} (ha : addr ∈ r.outstanding) :
    (r.next (.free addr)).Exact ↔ r.Indexed (.free addr) := by
  have hpages := hs.managed.pages
  obtain ⟨-, k, hk, rfl⟩ := hs.page addr ha
  have hidx := AddrAlloc.pageIndex_pageAddr hs.managed (show k < 2 ^ 20 by omega)
  have himage : r.alloc.pageIndex '' ↑(r.outstanding.erase (r.alloc.pageAddr k)) =
      r.alloc.used \ {k} := by
    rw [he]
    ext j
    constructor
    · rintro ⟨a, hmem, rfl⟩
      obtain ⟨hne, hmem⟩ := Finset.mem_erase.mp hmem
      exact ⟨⟨a, hmem, rfl⟩, fun heq => hne (hs.pageIndex_inj hmem ha (heq.trans hidx.symm))⟩
    · rintro ⟨⟨a, hmem, rfl⟩, hne⟩
      refine ⟨a, Finset.mem_erase.mpr ⟨?_, hmem⟩, rfl⟩
      rintro rfl
      exact hne hidx
  have hused : k ∈ r.alloc.used := by
    rw [he]
    exact ⟨_, ha, hidx⟩
  have hpi : (addrFreePage r.alloc (r.alloc.pageAddr k) 1).pageIndex = r.alloc.pageIndex := rfl
  simp only [Exact, next, Indexed, hpi, himage, hidx]
  rw [AddrAlloc.used_freePage hs.managed (by omega)]
  constructor
  · intro heq
    by_contra hk0
    have hmem : k ∈ r.alloc.used \ {memPageSize * k} := by
      refine ⟨hused, fun heq' => ?_⟩
      have : k = memPageSize * k := heq'
      unfold memPageSize at this
      omega
    rw [heq] at hmem
    exact hmem.2 rfl
  · rintro rfl
    rfl

theorem exact_init {bits : ℤ → BitVec 8} {start size : ℕ} :
    ({ alloc := addrAllocInit bits start size memPageSize, outstanding := ∅ } : PageRun).Exact := by
  simp only [Exact, AddrAlloc.used_init, Finset.coe_empty, Set.image_empty]

theorem exact_of_reach {start size : ℕ}
    (h : ((pageMachine start size).restrict Indexed).Reach r) : r.Exact := by
  apply h.invariant' (I := Exact)
  · rintro _ ⟨-, -, bits, rfl⟩
    exact exact_init
  · rintro r op r' hreach he ⟨hen, hind⟩ hr
    obtain rfl : r.next op = r' := Option.some.inj hr
    have hs := sound_of_reach hreach.of_restrict
    cases op with
    | alloc => exact (hs.exact_alloc he).mpr hind
    | free addr => exact (hs.exact_free he hen).mpr hind

/-- No page is at address zero when the region neither starts there nor wraps around. -/
theorem Sound.indexed_alloc (hs : r.Sound n) (h0 : 0 < r.alloc.start)
    (hend : r.alloc.start + n * memPageSize ≤ 2 ^ 32) : r.Indexed .alloc := by
  intro k hk
  have hlt := hk.1
  rw [hs.managed.bitCount] at hlt
  rw [AddrAlloc.pageAddr, hs.managed.pageSize]
  unfold memPageSize u32 at *
  omega

/-- When no page is left, all of them are outstanding. -/
theorem Sound.exhausted (hs : r.Sound n) (he : r.Exact) (hind : r.Indexed .alloc)
    (hz : (addrAllocPage r.alloc 1).1 = 0) : ∀ k < n, r.alloc.pageAddr k ∈ r.outstanding := by
  have hpages := hs.managed.pages
  intro k hk
  rcases r.alloc.firstClear_or with ⟨j, hj⟩ | hfull
  · rw [AddrAlloc.allocPage_found hj] at hz
    exact absurd hz (hind j hj)
  · have hlt : (k : ℤ) < r.alloc.bitmap.bitCount := by
      rw [hs.managed.bitCount]
      omega
    have hused : k ∈ r.alloc.used := ⟨hlt, hfull k hlt⟩
    rw [he] at hused
    obtain ⟨a, ha, hidx⟩ := hused
    obtain ⟨-, l, hl, rfl⟩ := hs.page a ha
    rw [AddrAlloc.pageIndex_pageAddr hs.managed (by omega)] at hidx
    exact hidx ▸ ha

/-- The first page is handed out next after it was freed. -/
theorem Sound.reused (hs : r.Sound n) {addr : ℕ} (ha : addr ∈ r.outstanding)
    (hind : r.Indexed (.free addr)) : (addrAllocPage (r.next (.free addr)).alloc 1).1 = addr := by
  have hpages := hs.managed.pages
  obtain ⟨-, k, hk, rfl⟩ := hs.page addr ha
  have hk0 : k = 0 :=
    (AddrAlloc.pageIndex_pageAddr hs.managed (show k < 2 ^ 20 by omega)).symm.trans hind
  subst k
  have hused := AddrAlloc.used_freePage hs.managed (k := 0) (by omega)
  have hcount : ((0 : ℕ) : ℤ) < (r.next (.free (r.alloc.pageAddr 0))).alloc.bitmap.bitCount := by
    rw [hs.next_free _ |>.managed.bitCount]
    omega
  have hclear : (r.next (.free (r.alloc.pageAddr 0))).alloc.bitmap.bitAt 0 = false := by
    by_contra hbit
    have hmem : 0 ∈ (addrFreePage r.alloc (r.alloc.pageAddr 0) 1).used :=
      ⟨hcount, Bool.eq_true_of_not_eq_false hbit⟩
    rw [hused] at hmem
    exact hmem.2 rfl
  rw [AddrAlloc.allocPage_found ⟨hcount, hclear, by omega⟩]
  rfl

end PageRun

open PageRun

/-- While only the first page is freed and no page at address zero is handed out, the bits are those
of the outstanding pages; every other step breaks this at once. -/
theorem page_allocator_exact {start size : ℕ} {r : PageRun}
    (h : ((pageMachine start size).restrict Indexed).Reach r) :
    r.Exact ∧
      (addrAllocPage r.alloc 1).1 ∉ r.outstanding ∧
      (r.Indexed .alloc → (addrAllocPage r.alloc 1).1 = 0 →
        ∀ k < size / memPageSize, r.alloc.pageAddr k ∈ r.outstanding) ∧
      (∀ a ∈ r.outstanding, r.Indexed (.free a) →
        (addrAllocPage (r.next (.free a)).alloc 1).1 = a) ∧
      ∀ op, (pageMachine start size).enabled r op → ((r.next op).Exact ↔ r.Indexed op) := by
  have hs := sound_of_reach h.of_restrict
  have he := exact_of_reach h
  refine ⟨he, ?_, hs.exhausted he, fun a ha hind => hs.reused ha hind, fun op hop => ?_⟩
  · rcases r.alloc.firstClear_or with ⟨k, hk⟩ | hfull
    · rw [AddrAlloc.allocPage_found hk]
      exact hs.notMem_of_clear he hk
    · rw [AddrAlloc.allocPage_none hfull]
      exact fun hmem => (hs.page 0 hmem).1 rfl
  · cases op with
    | alloc => exact hs.exact_alloc he
    | free addr => exact hs.exact_free he hop

/-- Three pages after `addr_alloc_init`. -/
def threePages : PageRun where
  alloc := addrAllocInit (fun _ => 0) 0x100000 0x3000 memPageSize
  outstanding := ∅

theorem threePages_init : (pageMachine 0x100000 0x3000).init threePages :=
  ⟨by norm_num, by norm_num, _, rfl⟩

theorem page_allocator_exact_threePages :
    (((threePages.next .alloc).next .alloc).next (.free 0x100000)).Exact := by
  have h0 : ((pageMachine 0x100000 0x3000).restrict Indexed).Reach threePages :=
    .init threePages_init
  have h1 : ((pageMachine 0x100000 0x3000).restrict Indexed).Reach (threePages.next .alloc) :=
    .step (a := .alloc) h0 ⟨trivial, (sound_of_reach h0.of_restrict).indexed_alloc
      (by decide) (by decide)⟩ rfl
  have h2 : ((pageMachine 0x100000 0x3000).restrict Indexed).Reach
      ((threePages.next .alloc).next .alloc) :=
    .step (a := .alloc) h1 ⟨trivial, (sound_of_reach h1.of_restrict).indexed_alloc
      (by decide) (by decide)⟩ rfl
  have hmem : 0x100000 ∈ ((threePages.next .alloc).next .alloc).outstanding := by decide
  have hfirst : ((threePages.next .alloc).next .alloc).alloc.pageIndex 0x100000 = 0 := by decide
  exact (page_allocator_exact (.step (a := .free 0x100000) h2 ⟨hmem, hfirst⟩ rfl)).1

/-- The second page stays marked after it was freed. -/
theorem page_allocator_leak : ∃ r, (pageMachine 0x100000 0x3000).Reach r ∧
    0x101000 ∉ r.outstanding ∧ 1 ∈ r.alloc.used ∧ ¬ r.Exact := by
  let r := ((threePages.next .alloc).next .alloc).next (.free 0x101000)
  have hfreed : 0x101000 ∈ ((threePages.next .alloc).next .alloc).outstanding := by decide
  have hreach : (pageMachine 0x100000 0x3000).Reach r :=
    .step (.step (.step (.init threePages_init) (a := .alloc) trivial rfl) (a := .alloc) trivial rfl)
      (a := .free 0x101000) hfreed rfl
  have hmem : 1 ∈ r.alloc.used := ⟨by decide, by decide⟩
  refine ⟨r, hreach, by decide, hmem, fun he => ?_⟩
  rw [he] at hmem
  obtain ⟨a, ha, hidx⟩ := hmem
  obtain rfl : a = 0x100000 := by
    have houtstanding : r.outstanding = {0x100000} := by decide
    simpa [houtstanding] using ha
  revert hidx
  decide

end X86Os
