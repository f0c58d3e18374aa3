import X86Os.Boot
import X86Os.FirstPages
import X86Os.RangeAlloc

/-!
# The page tables of the kernel

`create_kernel_table` maps the pages of four regions to themselves. The regions are rounded to pages,
and they must not share a page, for `memory_create_map` asserts that a page is not mapped yet. The
tables come from the page allocator, of which the first pages are enough.
-/

namespace X86Os

/-! ## The regions -/

/-- The addresses that `kernel.lds` defines, for any size of the kernel. -/
structure LinkAddrs where
  sText : ℕ
  eText : ℕ
  sData : ℕ
  sText_aligned : sText % memPageSize = 0
  eText_ge : sText ≤ eText
  sData_eq : sData = (eText + 4095) / 4096 * 4096
  sData_lt : sData < memEbdaStart

def linkMap (a : LinkAddrs) : List MemoryMap :=
  [⟨0, a.sText, 0, pteW⟩, ⟨a.sText, a.eText, a.sText, 0⟩,
    ⟨a.sData, memEbdaStart - 1, a.sData, pteW⟩,
    ⟨memExtStart, memExtLimit - 1, memExtStart, pteW⟩]

/-- `memory_create_map` for a region that is rounded to pages. -/
def MemoryMap.createIn (pageDir : ℕ) (map : MemoryMap) : Prog Vm ℤ :=
  let vstart := down2 map.vstart memPageSize
  let vend := up2 map.vend memPageSize
  memoryCreateMap pageDir map.perm ((vend - vstart) / memPageSize) vstart map.pstart

/-- `create_kernel_table`, where `pageDir` is `kernel_page_dir`. -/
def createKernelTableAt (pageDir : ℕ) (a : LinkAddrs) : Prog Vm Unit :=
  (linkMap a).forM fun map => do
    let _ ← map.createIn pageDir
    pure ()

def Layout.linkAddrs (L : Layout) (h : L.sData < memEbdaStart) : LinkAddrs where
  sText := L.sText
  eText := L.eText
  sData := L.sData
  sText_aligned := by rw [L.sText_eq]; rfl
  eText_ge := L.eText_ge
  sData_eq := L.sData_eq
  sData_lt := h

theorem createKernelTable_eq (L : Layout) (h : L.sData < memEbdaStart) :
    createKernelTable L = createKernelTableAt L.kernelPageDir (L.linkAddrs h) := rfl

variable {n K dir v p perm c : ℕ} {s s' : Vm} {map : MemoryMap} {done : List MemoryMap}

/-- The end of a region, rounded up. -/
def MemoryMap.vlimit (map : MemoryMap) : ℕ := up2 map.vend memPageSize

/-- A region starts at a page and is mapped to itself. -/
structure MemoryMap.Ok (map : MemoryMap) : Prop where
  aligned : map.vstart % memPageSize = 0
  start_le : map.vstart ≤ map.vlimit
  limit_le : map.vlimit ≤ memExtLimit
  pstart : map.pstart = map.vstart
  perm : map.perm < memPageSize

/-- The entry of the page of `v` when the regions `maps` are mapped. -/
def regionEntry : List MemoryMap → ℕ → Option ℕ
  | [], _ => none
  | map :: maps, v =>
    if map.vstart ≤ v ∧ v < map.vlimit then some (down2 v memPageSize ||| map.perm ||| pteP)
    else regionEntry maps v

/-! ## Enough pages for the tables -/

/-- The number of tables for the addresses below `MEM_EXT_END`. -/
def kernelTables : ℕ := memExtLimit / 2 ^ 22

/-- The indices below `MEM_EXT_END` without a table. -/
def missingTables (dir : ℕ) (m : Mem) : Finset ℕ :=
  (Finset.range kernelTables).filter fun i => ¬ Present (m.pde dir i)

theorem missingTables_subset (h : Grows dir s s') :
    missingTables dir s'.mem ⊆ missingTables dir s.mem := by
  intro i hi
  obtain ⟨hlt, habsent⟩ := Finset.mem_filter.mp hi
  refine Finset.mem_filter.mpr ⟨hlt, fun hp => habsent (h.keeps i ?_ hp).1⟩
  have := Finset.mem_range.mp hlt
  unfold kernelTables memExtLimit at this
  unfold pdeCnt
  omega

theorem pageEntry_present {i j e : ℕ} (h : pageEntry v (p ||| perm ||| pteP) i j = some e) :
    Present e := by
  unfold pageEntry at h
  split_ifs at h
  rw [← Option.some.inj h]
  exact present_or_pteP _

/-- A table costs a page, but then it is no longer missing. -/
theorem Growable.createMap_room (h : Growable n dir s) (hv : v < memExtLimit) (hp : p < 2 ^ 32)
    (hperm : perm < 2 ^ 32)
    (hroom : (missingTables dir s.mem).card ≤ s.alloc.clearPages.card)
    (hnone : s.mem.userEntry dir (pdeIndex v) (pteIndex v) = none) :
    ∃ s₁, (∀ c, memoryCreateMap dir perm (c + 1) v p s =
        memoryCreateMap dir perm c (u32 (v + memPageSize)) (u32 (p + memPageSize)) s₁) ∧
      Extended n dir s {pdeIndex v} (pageEntry v (p ||| perm ||| pteP)) s₁ ∧
      s.alloc.clearPages.card + (missingTables dir s₁.mem).card ≤
        s₁.alloc.clearPages.card + (missingTables dir s.mem).card := by
  have hv32 : v < 2 ^ 32 := by
    unfold memExtLimit at hv
    omega
  have hmem : ¬ Present (s.mem.pde dir (pdeIndex v)) → pdeIndex v ∈ missingTables dir s.mem := by
    refine fun habsent => Finset.mem_filter.mpr ⟨Finset.mem_range.mpr ?_, habsent⟩
    unfold pdeIndex kernelTables memExtLimit at *
    omega
  have hpage : Present (s.mem.pde dir (pdeIndex v)) ∨ s.alloc.clearPages.Nonempty := by
    refine or_iff_not_imp_left.mpr fun habsent => Finset.card_pos.mp ?_
    exact lt_of_lt_of_le (Finset.card_pos.mpr ⟨_, hmem habsent⟩) hroom
  obtain ⟨s₁, hrun, hloss, hkeep⟩ := h.createMap_next (p := p) perm hv32 hpage hnone
  have hone : memoryCreateMap dir perm 1 v p s = some (0, s₁) := hrun 0
  rcases h.createMap_succ hv32 hp hperm hone with ⟨hneg, -⟩ | ⟨s₂, -, hext, hgrows, hdone⟩
  · exact absurd hneg (by norm_num)
  obtain ⟨-, rfl⟩ := Prog.pure_eq_some.mp hdone
  refine ⟨s₁, hrun, hext, ?_⟩
  have hsub := missingTables_subset hgrows
  by_cases hpres : Present (s.mem.pde dir (pdeIndex v))
  · rw [hkeep hpres]
    exact Nat.add_le_add_left (Finset.card_le_card hsub) _
  · have hnew := Mem.present_of_pteWord
      (hext.added _ (pdeIndex_lt hv32) _ (pteIndex_lt v) _ (if_pos ⟨rfl, rfl⟩))
    have hless : (missingTables dir s₁.mem).card < (missingTables dir s.mem).card :=
      Finset.card_lt_card ⟨hsub, fun hback => (Finset.mem_filter.mp (hback (hmem hpres))).2 hnew⟩
    omega

/-- A range of unmapped pages is mapped while a page is left for each missing table, and no other page
is taken. -/
theorem memoryCreateMap_total (h : Growable n dir s) (hend : v + c * memPageSize ≤ memExtLimit)
    (hp : p < 2 ^ 32) (hperm : perm < 2 ^ 32)
    (hroom : (missingTables dir s.mem).card ≤ s.alloc.clearPages.card)
    (hnone : ∀ k < c, s.mem.userEntry dir (pdeIndex (v + k * memPageSize))
      (pteIndex (v + k * memPageSize)) = none) :
    ∃ s', memoryCreateMap dir perm c v p s = some (0, s') ∧
      s.alloc.clearPages.card + (missingTables dir s'.mem).card ≤
        s'.alloc.clearPages.card + (missingTables dir s.mem).card := by
  induction c generalizing v p s with
  | zero => exact ⟨s, rfl, le_rfl⟩
  | succ c ih =>
      have hshift : ∀ k, v + memPageSize + k * memPageSize = v + (k + 1) * memPageSize := by
        intro k
        rw [Nat.succ_mul]
        omega
      have hlt : v + memPageSize ≤ memExtLimit := by
        rw [Nat.succ_mul] at hend
        omega
      have hzero := hnone 0 (Nat.succ_pos c)
      rw [Nat.zero_mul, Nat.add_zero] at hzero
      obtain ⟨s₁, hrun, hext, hspent⟩ := h.createMap_room
        (by unfold memPageSize at hlt; omega) hp hperm hroom hzero
      have hnext : u32 (v + memPageSize) = v + memPageSize := u32_of_lt (by
        unfold memExtLimit at hlt
        omega)
      have hunmapped : ∀ k < c, s₁.mem.userEntry dir (pdeIndex (v + memPageSize + k * memPageSize))
          (pteIndex (v + memPageSize + k * memPageSize)) = none := by
        intro k hk
        have hadd : v + (k + 1) * memPageSize < 2 ^ 32 := by
          have := Nat.mul_le_mul_right memPageSize (show k + 1 ≤ c + 1 by omega)
          unfold memExtLimit at hend
          omega
        have hother : pageEntry v (p ||| perm ||| pteP) (pdeIndex (v + (k + 1) * memPageSize))
            (pteIndex (v + (k + 1) * memPageSize)) = none := by
          refine if_neg fun he => ?_
          have := page_of_indices he.1 he.2
          unfold memPageSize at this
          omega
        rw [hshift, hext.userEntry_eq (pdeIndex_lt hadd) (pteIndex_lt _) fun _ => pageEntry_present,
          hother, Option.none_or]
        exact hnone (k + 1) (by omega)
      obtain ⟨s', hrun', hspent'⟩ := ih hext.growable (by rwa [hshift]) (u32_lt _) (by omega) hunmapped
      exact ⟨s', by rw [hrun c, hnext, hrun'], by omega⟩

/-! ## Region after region -/

/-- The regions `done` are mapped, and the first `K` pages suffice for the missing tables. -/
structure Built (n K dir : ℕ) (done : List MemoryMap) (s : Vm) : Prop where
  managed : s.alloc.Managed n
  growable : Growable K dir (s.first K)
  entry : ∀ v < 2 ^ 32, s.mem.userEntry dir (pdeIndex v) (pteIndex v) = regionEntry done v
  word : ∀ i < pdeCnt, ∀ j < pteCnt, ∀ e, s.mem.pteWord dir i j = some e → ¬ Present e → e = 0
  room : (missingTables dir s.mem).card ≤ (s.first K).alloc.clearPages.card

theorem MemoryMap.Ok.count (h : map.Ok) :
    map.vstart + (map.vlimit - map.vstart) / memPageSize * memPageSize = map.vlimit := by
  have hal := h.aligned
  have hle := h.start_le
  have hlim : map.vlimit % memPageSize = 0 := Nat.mul_mod_left _ _
  unfold memPageSize at *
  omega

theorem MemoryMap.Ok.createIn_eq (h : map.Ok) (dir : ℕ) : map.createIn dir =
    memoryCreateMap dir map.perm ((map.vlimit - map.vstart) / memPageSize) map.vstart map.vstart := by
  have hdown : down2 map.vstart memPageSize = map.vstart :=
    Nat.div_mul_cancel (Nat.dvd_of_mod_eq_zero h.aligned)
  rw [createIn, h.pstart]
  simp only [hdown]
  rfl

/-- The entries of one region. -/
theorem MemoryMap.Ok.rangeEntries (h : map.Ok) (hv : v < 2 ^ 32) :
    rangeEntries map.vstart (fun k => u32 (map.vstart + k * memPageSize) ||| map.perm ||| pteP)
      ((map.vlimit - map.vstart) / memPageSize) (pdeIndex v) (pteIndex v) =
    if map.vstart ≤ v ∧ v < map.vlimit then some (down2 v memPageSize ||| map.perm ||| pteP)
    else none := by
  have hcount := h.count
  have hlim := h.limit_le
  have hal := h.aligned
  by_cases hin : map.vstart ≤ v ∧ v < map.vlimit
  · rw [if_pos hin]
    have hpage : down2 v memPageSize =
        map.vstart + (v - map.vstart) / memPageSize * memPageSize := by
      unfold down2 memPageSize at *
      omega
    have hwrap : u32 (map.vstart + (v - map.vstart) / memPageSize * memPageSize) =
        down2 v memPageSize := by
      rw [← hpage]
      exact u32_of_lt (lt_of_le_of_lt (Nat.div_mul_le_self _ _) hv)
    have hat := rangeEntries_at (v := map.vstart)
      (f := fun k => u32 (map.vstart + k * memPageSize) ||| map.perm ||| pteP)
      (c := (map.vlimit - map.vstart) / memPageSize) (k := (v - map.vstart) / memPageSize)
      (by unfold memPageSize memExtLimit at *; omega) (by unfold memPageSize at *; omega)
    have hi : pdeIndex (down2 v memPageSize) = pdeIndex v ∧
        pteIndex (down2 v memPageSize) = pteIndex v := by
      unfold pdeIndex pteIndex down2 memPageSize
      omega
    rwa [hwrap, hi.1, hi.2] at hat
  · rw [if_neg hin]
    refine rangeEntries_out hal ?_ ?_
    · rw [Nat.mul_comm, hcount]
      unfold memExtLimit at hlim
      omega
    · rw [Nat.mul_comm, hcount]
      omega

theorem regionEntry_eq_none {maps : List MemoryMap}
    (h : ∀ map ∈ maps, v < map.vstart ∨ map.vlimit ≤ v) : regionEntry maps v = none := by
  induction maps with
  | nil => rfl
  | cons map maps ih =>
      have hmap := h map List.mem_cons_self
      rw [regionEntry, if_neg (by omega)]
      exact ih fun map' hmap' => h map' (List.mem_cons_of_mem _ hmap')

/-- Another region is mapped if it shares no page with those before. -/
theorem Built.createIn (h : Built n K dir done s) (hK : K ≤ n) (hmap : map.Ok)
    (hapart : ∀ old ∈ done, map.vlimit ≤ old.vstart ∨ old.vlimit ≤ map.vstart) :
    ∃ s', map.createIn dir s = some (0, s') ∧ Built n K dir (map :: done) s' ∧
      (s.first K).alloc.clearPages.card + (missingTables dir s'.mem).card ≤
        (s'.first K).alloc.clearPages.card + (missingTables dir s.mem).card := by
  have hcount := hmap.count
  have hlim := hmap.limit_le
  have hle := hmap.start_le
  have hperm : map.perm < 2 ^ 32 := hmap.perm.trans (by decide)
  have hstart : map.vstart < 2 ^ 32 := by
    unfold memExtLimit at hlim
    omega
  have hnone : ∀ k < (map.vlimit - map.vstart) / memPageSize,
      s.mem.userEntry dir (pdeIndex (map.vstart + k * memPageSize))
        (pteIndex (map.vstart + k * memPageSize)) = none := by
    intro k hk
    have hlt := Nat.mul_lt_mul_of_pos_right hk (show 0 < memPageSize by decide)
    rw [h.entry _ (by unfold memExtLimit at hlim; omega)]
    refine regionEntry_eq_none fun old hold => ?_
    have := hapart old hold
    omega
  obtain ⟨t, hrun, hspent⟩ := memoryCreateMap_total h.growable (hcount.trans_le hlim) hstart
    hperm h.room hnone
  have hroom := h.room
  have hext := h.growable.createMap hstart hstart hperm hrun
  obtain ⟨s', hrun', rfl, hm'⟩ := memoryCreateMap_first h.managed hK hrun
  refine ⟨s', by rw [hmap.createIn_eq]; exact hrun', ⟨hm', hext.growable, fun v hv => ?_,
    fun i hi j hj e he habsent => ?_, ?_⟩, hspent⟩
  · have hentry := hext.userEntry_eq (pdeIndex_lt hv) (pteIndex_lt v) fun e he => by
      obtain ⟨k, -, rfl, -⟩ := rangeEntries_eq_some he
      exact present_or_pteP _
    rw [hmap.rangeEntries hv] at hentry
    refine hentry.trans ?_
    rw [regionEntry, ← h.entry v hv]
    split_ifs <;> rfl
  · cases hnew : rangeEntries map.vstart
        (fun k => u32 (map.vstart + k * memPageSize) ||| map.perm ||| pteP)
        ((map.vlimit - map.vstart) / memPageSize) i j with
    | some x =>
        obtain ⟨k, -, rfl, -⟩ := rangeEntries_eq_some hnew
        have hadded := hext.added i hi j hj _ hnew
        obtain rfl := Option.some.inj (hadded.symm.trans he)
        exact absurd (present_or_pteP _) habsent
    | none =>
        by_cases ht : i ∈ rangeTables map.vstart ((map.vlimit - map.vstart) / memPageSize)
        · have hfilled := hext.filled i hi ht j hj hnew
          obtain rfl := Option.some.inj (hfilled.symm.trans he)
          cases hold : (s.first K).mem.pteWord dir i j with
          | none => rfl
          | some x =>
              rw [hold] at habsent
              exact h.word i hi j hj x hold habsent
        · have hkept := hext.kept i hi ht j hj
          exact h.word i hi j hj e (hkept.symm.trans he) habsent
  · have hleft : (missingTables dir s.mem).card + (missingTables dir s'.mem).card ≤
        (missingTables dir s.mem).card + (s'.first K).alloc.clearPages.card :=
      (Nat.add_le_add_right hroom _).trans (hspent.trans_eq (Nat.add_comm _ _))
    exact Nat.le_of_add_le_add_left hleft

/-! ## Entries -/

theorem down2_testBit (v : ℕ) {b : ℕ} (hb : b < 12) : (down2 v memPageSize).testBit b = false := by
  rw [down2, memPageSize, Nat.mul_comm, show 4096 = 2 ^ 12 from rfl, Nat.testBit_two_pow_mul]
  simp only [Bool.and_eq_false_imp, decide_eq_true_eq]
  omega

/-- A present entry has the address of its page and the permissions of its region. -/
theorem regionEntry_eq_some {maps : List MemoryMap} {e : ℕ} (h : regionEntry maps v = some e) :
    ∃ map ∈ maps, map.vstart ≤ v ∧ v < map.vlimit ∧
      e = down2 v memPageSize ||| map.perm ||| pteP := by
  induction maps with
  | nil => cases h
  | cons map maps ih =>
      rw [regionEntry] at h
      by_cases hin : map.vstart ≤ v ∧ v < map.vlimit
      · rw [if_pos hin] at h
        exact ⟨map, List.mem_cons_self, hin.1, hin.2, (Option.some.inj h).symm⟩
      · rw [if_neg hin] at h
        obtain ⟨map', hmem, hmap'⟩ := ih h
        exact ⟨map', List.mem_cons_of_mem _ hmem, hmap'⟩

theorem regionEntry_ne_none {maps : List MemoryMap} (hmem : map ∈ maps)
    (hin : map.vstart ≤ v ∧ v < map.vlimit) : regionEntry maps v ≠ none := by
  induction maps with
  | nil => cases hmem
  | cons map' maps ih =>
      rw [regionEntry]
      split_ifs with hin'
      · exact Option.some_ne_none _
      · rcases List.mem_cons.mp hmem with rfl | hmem
        · exact absurd hin hin'
        · exact ih hmem

theorem regionEntry_testBit {b : ℕ} (hb : 0 < b) (hb' : b < 12) :
    (down2 v memPageSize ||| perm ||| pteP).testBit b = perm.testBit b := by
  have hone : pteP.testBit b = false := by
    rw [pteP, ← Nat.pow_zero 2, Nat.testBit_two_pow]
    exact decide_eq_false hb.ne
  rw [Nat.testBit_or, Nat.testBit_or, down2_testBit v hb', hone, Bool.false_or, Bool.or_false]

/-! ## The whole map -/

theorem up2_eq {x : ℕ} (hx : x + 4095 < 2 ^ 32) :
    up2 x memPageSize = (x + 4095) / 4096 * 4096 := by
  rw [up2, memPageSize, show x + 4096 - 1 = x + 4095 from rfl, u32_of_lt hx]

namespace LinkAddrs

variable (a : LinkAddrs)

theorem up2_sText : up2 a.sText memPageSize = a.sText := by
  have hal := a.sText_aligned
  have hle := a.eText_ge
  have hdata := a.sData_eq
  have hlt := a.sData_lt
  rw [up2_eq (by unfold memEbdaStart at hlt; omega)]
  unfold memPageSize at hal
  omega

theorem up2_eText : up2 a.eText memPageSize = a.sData := by
  have hdata := a.sData_eq
  have hlt := a.sData_lt
  rw [up2_eq (by unfold memEbdaStart at hlt; omega), hdata]

theorem sData_aligned : a.sData % memPageSize = 0 := by
  rw [a.sData_eq]
  exact Nat.mul_mod_left _ _

theorem sText_le : a.sText ≤ a.sData := by
  have hle := a.eText_ge
  have hdata := a.sData_eq
  omega

theorem up2_ebda : up2 (memEbdaStart - 1) memPageSize = memEbdaStart := by
  unfold memEbdaStart
  rw [up2_eq (by norm_num)]

theorem up2_ext : up2 (memExtLimit - 1) memPageSize = memExtLimit := by
  unfold memExtLimit
  rw [up2_eq (by norm_num)]

/-- The regions are those of the identity mapping. -/
theorem mem_linkMap : (∃ map ∈ linkMap a, map.vstart ≤ v ∧ v < map.vlimit) ↔ Identity v := by
  have hle := a.sText_le
  have hlt := a.sData_lt
  simp only [linkMap, List.mem_cons, List.not_mem_nil, or_false, exists_eq_or_imp,
    exists_eq_left, MemoryMap.vlimit, up2_sText, up2_eText, up2_ebda, up2_ext]
  unfold Identity
  omega

end LinkAddrs

/-- The loader's own directory maps these addresses only, to themselves. -/
def bootMapLimit : ℕ := 2 ^ 22

/-- An empty directory and an allocator of which the first `K` pages are enough for the tables. -/
structure FreshTables (n K dir : ℕ) (s : Vm) : Prop where
  managed : s.alloc.Managed n
  le : K ≤ n
  dirPage : KernelPage dir
  dir_end : dir + memPageSize ≤ bootMapLimit
  empty : ∀ i < pdeCnt, ¬ Present (s.mem.pde dir i)
  page : ∀ p ∈ (s.alloc.first K).clearPages,
    KernelPage p ∧ p ≠ dir ∧ p + memPageSize ≤ bootMapLimit
  room : kernelTables ≤ (s.alloc.first K).clearPages.card

theorem FreshTables.built (h : FreshTables n K dir s) : Built n K dir [] s where
  managed := h.managed
  growable :=
    { directory := ⟨h.dirPage, fun i hi hp => absurd hp (h.empty i hi),
        fun i hi _ _ hp => absurd hp (h.empty i hi)⟩
      managed := h.managed.first h.le
      usable := fun p hp => (h.page p hp).1
      dir_taken := fun hd => (h.page dir hd).2.1 rfl
      table_taken := fun i hi hp => absurd hp (h.empty i hi) }
  entry v hv := if_neg (h.empty _ (pdeIndex_lt hv))
  word i hi j _ e he := absurd (Mem.present_of_pteWord he) (h.empty i hi)
  room := by
    refine le_trans ?_ h.room
    exact (Finset.card_filter_le _ _).trans (Finset.card_range _).le

/-- What `memory_init` gives to `create_kernel_table` is fresh. -/
theorem freshTables_init {bits : ℤ → BitVec 8} {size : ℕ}
    (halloc : s.alloc = addrAllocInit bits memExtStart size memPageSize) (hsize : size < 2 ^ 32)
    (hroom : kernelTables ≤ size / memPageSize) (hdir : dir % memPageSize = 0) (hne : dir ≠ 0)
    (hend : dir + memPageSize ≤ memEbdaStart)
    (hempty : ∀ i < pdeCnt, ¬ Present (s.mem.pde dir i)) :
    FreshTables (size / memPageSize) kernelTables dir s := by
  have hm : s.alloc.Managed (size / memPageSize) := by
    rw [halloc]
    exact AddrAlloc.managed_init (by decide) hsize
  have hclear : ∀ k < kernelTables, s.alloc.bitmap.bitAt k = false := fun k hk => by
    rw [halloc]
    exact Bitmap.bitAt_init bits (by omega)
  have haddr : ∀ k < kernelTables, s.alloc.pageAddr k = memExtStart + k * memPageSize := by
    intro k hk
    rw [halloc]
    refine u32_of_lt ?_
    show memExtStart + k * memPageSize < 2 ^ 32
    unfold kernelTables memExtLimit at hk
    unfold memExtStart memPageSize
    omega
  have hpage : KernelPage dir := by
    refine ⟨hdir, .inl ?_, hne⟩
    unfold memPageSize at hend
    omega
  refine ⟨hm, hroom, hpage, ?_, hempty, fun p hp => ?_,
    (AddrAlloc.card_clearPages_of_clear (hm.first hroom) hclear).ge⟩
  · unfold memEbdaStart bootMapLimit at *
    omega
  · obtain ⟨k, hk, -, hpk⟩ := (AddrAlloc.mem_clearPages (hm.first hroom)).mp hp
    obtain rfl : memExtStart + k * memPageSize = p := (haddr k hk).symm.trans hpk
    unfold kernelTables memExtLimit at hk
    unfold memEbdaStart memPageSize at hend
    unfold bootMapLimit
    refine ⟨⟨?_, .inr ⟨?_, ?_⟩, ?_⟩, ?_, ?_⟩
    all_goals
      unfold memExtStart memPageSize
      try unfold memExtLimit
      omega

/-- The kernel reaches its memory at the physical addresses and nothing else; only the pages of its
code are read-only, and no page is for the user. -/
structure KernelMapped (a : LinkAddrs) (dir : ℕ) (m : Mem) : Prop where
  identity : ∀ v < 2 ^ 32, m.walk dir v = if Identity v then some v else none
  write : ∀ v < 2 ^ 32, ∀ e, m.userEntry dir (pdeIndex v) (pteIndex v) = some e →
    (e.testBit 1 = false ↔
      ∃ x, a.sText ≤ x ∧ x < a.eText ∧ x / memPageSize = v / memPageSize)
  user : ∀ i < pdeCnt, ∀ j < pteCnt, ∀ e, m.pteWord dir i j = some e → e.testBit 2 = false

theorem linkMap_ok (a : LinkAddrs) : ∀ map ∈ linkMap a, map.Ok := by
  have hle := a.sText_le
  have hlt := a.sData_lt
  intro map hmap
  simp only [linkMap, List.mem_cons, List.not_mem_nil, or_false] at hmap
  rcases hmap with rfl | rfl | rfl | rfl
  · refine ⟨rfl, Nat.zero_le _, ?_, rfl, show pteW < memPageSize by decide⟩
    rw [MemoryMap.vlimit, a.up2_sText]
    unfold memEbdaStart memExtLimit at *
    omega
  · refine ⟨a.sText_aligned, ?_, ?_, rfl, show 0 < memPageSize by decide⟩
    · rw [MemoryMap.vlimit, a.up2_eText]
      exact hle
    · rw [MemoryMap.vlimit, a.up2_eText]
      unfold memEbdaStart memExtLimit at *
      omega
  · refine ⟨a.sData_aligned, ?_, ?_, rfl, show pteW < memPageSize by decide⟩
    · rw [MemoryMap.vlimit, LinkAddrs.up2_ebda]
      exact hlt.le
    · rw [MemoryMap.vlimit, LinkAddrs.up2_ebda]
      decide
  · refine ⟨by decide, ?_, ?_, rfl, by decide⟩
    · rw [MemoryMap.vlimit, LinkAddrs.up2_ext]
      decide
    · rw [MemoryMap.vlimit, LinkAddrs.up2_ext]

/-- No two regions share a page. -/
theorem linkMap_apart (a : LinkAddrs) :
    (linkMap a).Pairwise fun old map => map.vlimit ≤ old.vstart ∨ old.vlimit ≤ map.vstart := by
  have hle := a.sText_le
  have hlt := a.sData_lt
  simp only [linkMap, List.pairwise_cons, List.mem_cons, List.not_mem_nil, or_false,
    forall_eq_or_imp, forall_eq, MemoryMap.vlimit, a.up2_sText, a.up2_eText, LinkAddrs.up2_ebda,
    LinkAddrs.up2_ext, List.Pairwise.nil, false_implies, implies_true, and_true]
  unfold memEbdaStart memExtStart memExtLimit at *
  omega

/-- Region after region is mapped. -/
theorem Built.forM {maps : List MemoryMap} (h : Built n K dir done s) (hK : K ≤ n)
    (hok : ∀ map ∈ maps, map.Ok)
    (hapart : maps.Pairwise fun old map => map.vlimit ≤ old.vstart ∨ old.vlimit ≤ map.vstart)
    (hdone : ∀ old ∈ done, ∀ map ∈ maps, map.vlimit ≤ old.vstart ∨ old.vlimit ≤ map.vstart) :
    ∃ s', (maps.forM fun map => do
        let _ ← map.createIn dir
        pure ()) s = some ((), s') ∧ Built n K dir (maps.reverse ++ done) s' ∧
      (s.first K).alloc.clearPages.card + (missingTables dir s'.mem).card ≤
        (s'.first K).alloc.clearPages.card + (missingTables dir s.mem).card := by
  induction maps generalizing done s with
  | nil => exact ⟨s, rfl, h, le_rfl⟩
  | cons map maps ih =>
      obtain ⟨s₁, hs₁, h₁, hspent₁⟩ := h.createIn hK (hok map List.mem_cons_self)
        fun old hold => hdone old hold map List.mem_cons_self
      obtain ⟨s', hs', h', hspent'⟩ := ih h₁ (fun map' hmap' => hok map' (List.mem_cons_of_mem _ hmap'))
        (List.Pairwise.of_cons hapart) fun old hold map' hmap' => by
          rcases List.mem_cons.mp hold with rfl | hold
          · exact List.rel_of_pairwise_cons hapart hmap'
          · exact hdone old hold map' (List.mem_cons_of_mem _ hmap')
      refine ⟨s', ?_, ?_, by omega⟩
      · have hone : (do
            let _ ← map.createIn dir
            pure () : Prog Vm Unit) s = some ((), s₁) := by
          rw [Prog.bind_of_eq hs₁]
          rfl
        exact (Prog.bind_of_eq hone).trans hs'
      · rw [List.reverse_cons, List.append_assoc]
        exact h'

section Mapped

variable {a : LinkAddrs} {e i j : ℕ}

theorem Built.region (h : Built n K dir (linkMap a).reverse s) (hv : v < 2 ^ 32)
    (he : s.mem.userEntry dir (pdeIndex v) (pteIndex v) = some e) :
    ∃ map ∈ linkMap a, map.vstart ≤ v ∧ v < map.vlimit ∧
      e = down2 v memPageSize ||| map.perm ||| pteP := by
  rw [h.entry v hv] at he
  obtain ⟨map, hmap, hregion⟩ := regionEntry_eq_some he
  exact ⟨map, List.mem_reverse.mp hmap, hregion⟩

theorem Built.walk (h : Built n K dir (linkMap a).reverse s) (hv : v < 2 ^ 32) :
    s.mem.walk dir v = if Identity v then some v else none := by
  rw [walk_eq]
  by_cases hid : Identity v
  · rw [if_pos hid]
    obtain ⟨map, hmap, hin⟩ := a.mem_linkMap.mpr hid
    obtain ⟨e, he⟩ := Option.ne_none_iff_exists'.mp
      (regionEntry_ne_none (List.mem_reverse.mpr hmap) hin)
    rw [← h.entry v hv] at he
    obtain ⟨map', hmap', -, -, rfl⟩ := h.region hv he
    have hpage : down2 v memPageSize % memPageSize = 0 := Nat.mul_mod_left _ _
    rw [he, Option.map_some, (mapEntry_eq hpage (linkMap_ok a map' hmap').perm).1]
    congr 1
    unfold down2 memPageSize
    omega
  · rw [if_neg hid, h.entry v hv, Option.map_eq_none_iff]
    refine regionEntry_eq_none fun map hmap => ?_
    by_contra hin
    exact hid (a.mem_linkMap.mp ⟨map, List.mem_reverse.mp hmap, by omega⟩)

/-- The region of the code is the only one that is not writable. -/
theorem Built.write_bit (h : Built n K dir (linkMap a).reverse s) (hv : v < 2 ^ 32)
    (he : s.mem.userEntry dir (pdeIndex v) (pteIndex v) = some e) :
    e.testBit 1 = false ↔
      ∃ x, a.sText ≤ x ∧ x < a.eText ∧ x / memPageSize = v / memPageSize := by
  have hle := a.sText_le
  have hdata := a.sData_eq
  have hlt := a.sData_lt
  have hal := a.sText_aligned
  have hwrite : ¬ pteW.testBit 1 = false := by decide
  obtain ⟨map, hmap, hlow, hhigh, rfl⟩ := h.region hv he
  rw [regionEntry_testBit (by decide) (by decide)]
  simp only [linkMap, List.mem_cons, List.not_mem_nil, or_false] at hmap
  unfold memPageSize at hal ⊢
  rcases hmap with rfl | rfl | rfl | rfl
  · rw [MemoryMap.vlimit, a.up2_sText] at hhigh
    refine iff_of_false hwrite ?_
    rintro ⟨x, hx, -, hxv⟩
    omega
  · rw [MemoryMap.vlimit, a.up2_eText] at hhigh
    change a.sText ≤ v at hlow
    exact iff_of_true (Nat.zero_testBit 1) ⟨v / 4096 * 4096, by omega, by omega, by omega⟩
  · change a.sData ≤ v at hlow
    refine iff_of_false hwrite ?_
    rintro ⟨x, -, hx, hxv⟩
    omega
  · change memExtStart ≤ v at hlow
    refine iff_of_false hwrite ?_
    rintro ⟨x, -, hx, hxv⟩
    unfold memExtStart memEbdaStart at *
    omega

theorem Built.user_bit (h : Built n K dir (linkMap a).reverse s) (hi : i < pdeCnt)
    (hj : j < pteCnt) (he : s.mem.pteWord dir i j = some e) : e.testBit 2 = false := by
  by_cases hp : Present e
  · have hv : i * 2 ^ 22 + j * 2 ^ 12 < 2 ^ 32 ∧ pdeIndex (i * 2 ^ 22 + j * 2 ^ 12) = i ∧
        pteIndex (i * 2 ^ 22 + j * 2 ^ 12) = j := by
      unfold pdeIndex pteIndex pdeCnt pteCnt at *
      omega
    have hentry : s.mem.userEntry dir i j = some e := by
      rw [Mem.userEntry_eq_filter, he]
      simp [Option.filter, hp]
    have hwrite : pteW.testBit 2 = false := by decide
    obtain ⟨map, hmap, -, -, rfl⟩ := h.region hv.1 (by rw [hv.2.1, hv.2.2, hentry])
    rw [regionEntry_testBit (by decide) (by decide)]
    simp only [linkMap, List.mem_cons, List.not_mem_nil, or_false] at hmap
    rcases hmap with rfl | rfl | rfl | rfl
    · exact hwrite
    · exact Nat.zero_testBit 2
    · exact hwrite
    · exact hwrite
  · rw [h.word i hi j hj e he hp]
    exact Nat.zero_testBit 2

end Mapped

/-- `create_kernel_table` triggers no assertion and maps what the kernel uses to itself. -/
theorem createKernelTable_identity (a : LinkAddrs) (h : FreshTables n K dir s) :
    ∃ s', createKernelTableAt dir a s = some ((), s') ∧ KernelMapped a dir s'.mem := by
  obtain ⟨s', hrun, hbuilt, -⟩ :=
    h.built.forM h.le (linkMap_ok a) (linkMap_apart a) fun _ hold => absurd hold List.not_mem_nil
  rw [List.append_nil] at hbuilt
  exact ⟨s', hrun, fun v hv => hbuilt.walk hv, fun v hv e he => hbuilt.write_bit hv he,
    fun i hi j hj e he => hbuilt.user_bit hi hj he⟩

/-- The code ends inside a page. -/
def oddLinks : LinkAddrs where
  sText := 0x10000
  eText := 0x18123
  sData := 0x19000
  sText_aligned := by decide
  eText_ge := by decide
  sData_eq := rfl
  sData_lt := by decide

/-- 256 megabytes of memory, all zero. -/
def zeroVm : Vm where
  mem := .zero
  alloc := addrAllocInit (fun _ => 0) memExtStart 0xFF00000 memPageSize
  cr3 := 0
  frees := []

theorem createKernelTable_identity_odd :
    ∃ s', createKernelTableAt 0x20000 oddLinks zeroVm = some ((), s') ∧
      s'.mem.walk 0x20000 0x18FFF = some 0x18FFF ∧ s'.mem.walk 0x20000 0x80000 = none := by
  have hempty : ∀ i < pdeCnt, ¬ Present (zeroVm.mem.pde 0x20000 i) := by
    intro i _
    show ¬ Present 0
    decide
  have hfresh : FreshTables _ kernelTables 0x20000 zeroVm :=
    freshTables_init rfl (by decide) (by decide) (by decide) (by decide) (by decide) hempty
  obtain ⟨s', hrun, hmapped⟩ := createKernelTable_identity oddLinks hfresh
  have hin : Identity 0x18FFF := by decide
  have hout : ¬ Identity 0x80000 := by decide
  refine ⟨s', hrun, ?_, ?_⟩
  · rw [hmapped.identity _ (by decide), if_pos hin]
  · rw [hmapped.identity _ (by decide), if_neg hout]

/-! ## Setting up memory -/

theorem BitmapFits.sData_lt {L : Layout} {boot : BootInfo} (h : BitmapFits L boot) :
    L.kernelPageDir + memPageSize ≤ memEbdaStart ∧ L.sData < memEbdaStart := by
  have hge := L.pageDir_ge
  have hle := L.pageDir_le
  have hcount : (0 : ℤ) ≤ bitmapByteCount (memUp1MBFree boot / memPageSize : ℕ) := by
    have hpages := Int.natCast_nonneg (memUp1MBFree boot / memPageSize)
    exact Int.tdiv_nonneg (by linarith) (by norm_num)
  unfold BitmapFits at h
  unfold memPageSize at *
  omega

/-- After `memory_init` the processor finds every address where the model of memory has it. -/
theorem memoryInit_maps (L : Layout) (bits : ℤ → BitVec 8) (boot : BootInfo)
    (hfits : BitmapFits L boot) (hroom : kernelTables ≤ memUp1MBFree boot / memPageSize)
    (hempty : ∀ i < pdeCnt, ¬ Present (s.mem.pde L.kernelPageDir i)) :
    ∃ s', memoryInit L bits boot s = some ((), s') ∧ s'.cr3 = L.kernelPageDir ∧
      KernelMapped (L.linkAddrs hfits.sData_lt.2) L.kernelPageDir s'.mem ∧
      ∀ v < memoryTaskBase, s'.phys v = s'.mem.walk (entryPaddr s'.cr3) v := by
  obtain ⟨hend, hdata⟩ := hfits.sData_lt
  have hne : L.kernelPageDir ≠ 0 := by
    have htext := L.sText_eq
    have hle := L.eText_ge
    have heq := L.sData_eq
    have hge := L.pageDir_ge
    omega
  let s₁ : Vm :=
    { s with alloc := addrAllocInit bits memExtStart (memUp1MBFree boot) memPageSize }
  have hfresh : FreshTables (memUp1MBFree boot / memPageSize) kernelTables L.kernelPageDir s₁ :=
    freshTables_init rfl (memUp1MBFree_lt boot) hroom L.pageDir_aligned hne hend hempty
  obtain ⟨s₂, hrun, hmapped⟩ := createKernelTable_identity (L.linkAddrs hdata) hfresh
  rw [← createKernelTable_eq] at hrun
  refine ⟨{ s₂ with cr3 := L.kernelPageDir }, ?_, rfl, hmapped, fun v hv => ?_⟩
  · rw [memoryInit, Prog.modify_bind, Prog.bind_of_eq (Prog.require_of hfits),
      Prog.bind_of_eq hrun]
    rfl
  · have hdir : entryPaddr L.kernelPageDir = L.kernelPageDir :=
      entryPaddr_add (x := 0) L.pageDir_aligned (by decide)
    rw [Vm.phys, if_pos hv]
    show _ = s₂.mem.walk (entryPaddr L.kernelPageDir) v
    rw [hdir, hmapped.identity v (by unfold memoryTaskBase at hv; omega)]

end X86Os
