import X86Os.MapLookup
import X86Os.UvmRange

/-!
# Allocating a range

The loop of `memory_alloc_for_page_dir` over any directory. As long as every round succeeds, each page
of the range has a fresh frame of its own. The number of rounds comes from a rounded size that wraps,
and when the pages run out the call halts or keeps the frame it has just taken.
-/

namespace X86Os

variable {n dir v perm c size : ℕ} {f : ℕ → ℕ} {s s' s₀ s₁ : Vm}

/-- After `c` rounds the pages from `v` on have the frames `f 0, f 1, …`. -/
structure RangeAllocated (n dir v perm : ℕ) (f : ℕ → ℕ) (c : ℕ) (s s' : Vm) : Prop where
  extended : Extended n dir s (rangeTables v c)
    (rangeEntries v (fun k => f k ||| perm ||| pteP) c) s'
  fresh : ∀ k < c, f k ∈ s.alloc.clearPages ∧ f k ∉ s'.alloc.clearPages
  distinct : ∀ k < c, ∀ l < c, f k = f l → k = l

theorem RangeAllocated.start (h : Growable n dir s) (v perm : ℕ) (f : ℕ → ℕ) :
    RangeAllocated n dir v perm f 0 s s where
  extended := (Extended.refl h).congr (by ext i; simp [rangeTables]) fun _ _ _ _ => rfl
  fresh := nofun
  distinct := nofun

theorem rangeEntries_congr {g : ℕ → ℕ} {i j : ℕ} (hfg : ∀ k < c, f k = g k) :
    rangeEntries v f c i j = rangeEntries v g c i j := by
  induction c with
  | zero => rfl
  | succ c ih => rw [rangeEntries, rangeEntries, hfg c (by omega), ih fun k hk => hfg k (by omega)]

theorem rangeTables_succ (v c : ℕ) :
    rangeTables v c ∪ {pdeIndex (u32 (v + c * memPageSize))} = rangeTables v (c + 1) := by
  ext i
  constructor
  · rintro (⟨k, hk, rfl⟩ | rfl)
    · exact ⟨k, by omega, rfl⟩
    · exact ⟨c, by omega, rfl⟩
  · rintro ⟨k, hk, rfl⟩
    rcases Nat.lt_succ_iff_lt_or_eq.mp hk with hk | rfl
    · exact .inl ⟨k, hk, rfl⟩
    · exact .inr rfl

/-- Taking a page is no change of the directory. -/
theorem Extended.take {tabled : Set ℕ} {new : ℕ → ℕ → Option ℕ} {p : ℕ}
    (h : Extended n dir s₀ tabled new s) (hs : allocPage s = some (p, s₁)) (hmem : s₁.mem = s.mem)
    (hm : s₁.alloc.Managed n) (hclear : s₁.alloc.clearPages ⊆ s.alloc.clearPages)
    (hcr : s₁.cr3 = s.cr3) : Extended n dir s₀ tabled new s₁ where
  growable := h.growable.take hmem hm hclear
  added := hmem ▸ h.added
  filled := hmem ▸ h.filled
  kept := hmem ▸ h.kept
  tables := hmem ▸ h.tables
  clear := hclear.trans h.clear
  start := (allocPage_start hs).trans h.start
  cr3 := hcr.trans h.cr3
  out := hmem ▸ h.out

/-- The present entries after the rounds. -/
theorem RangeAllocated.userEntry_eq {i j : ℕ} (h : RangeAllocated n dir v perm f c s s')
    (hi : i < pdeCnt) (hj : j < pteCnt) : s'.mem.userEntry dir i j =
      (rangeEntries v (fun k => f k ||| perm ||| pteP) c i j).or (s.mem.userEntry dir i j) := by
  refine h.extended.userEntry_eq hi hj fun e he => ?_
  obtain ⟨k, -, rfl, -⟩ := rangeEntries_eq_some he
  exact present_or_pteP _

/-- The directory only grows, no frame is a table, and the pages were not mapped before. -/
structure RangeGrown (dir v : ℕ) (f : ℕ → ℕ) (c : ℕ) (s s' : Vm) : Prop where
  grows : Grows dir s s'
  apart : ∀ k < c, ∀ i < pdeCnt, Present (s'.mem.pde dir i) → s'.mem.table dir i ≠ f k
  unmapped : ∀ k < c, s.mem.userEntry dir (pdeIndex (u32 (v + k * memPageSize)))
    (pteIndex (u32 (v + k * memPageSize))) = none

/-- The page `p` is taken for the next frame. -/
theorem RangeGrown.succ {g : ℕ → ℕ} {p : ℕ} (hr : RangeGrown dir v f c s₀ s)
    (h : RangeAllocated n dir v perm f c s₀ s) (hmem : s₁.mem = s.mem) (hp : p ∈ s.alloc.clearPages)
    (hclear : s₁.alloc.clearPages = s.alloc.clearPages.erase p) (hgf : ∀ k < c, g k = f k)
    (hgc : g c = p) (hgrows : Grows dir s₁ s')
    (hnone : s₁.mem.userEntry dir (pdeIndex (u32 (v + c * memPageSize)))
      (pteIndex (u32 (v + c * memPageSize))) = none) : RangeGrown dir v g (c + 1) s₀ s' where
  grows := hr.grows.trans (hgrows.of_take hmem (hclear ▸ Finset.erase_subset _ _)) h.extended.clear
  apart k hk i hi hpi he := by
    have hfresh := hgrows.fresh i hi hpi
    rw [hmem, hclear, Finset.mem_erase] at hfresh
    have hkeeps := hgrows.keeps i hi
    rw [hmem] at hkeeps
    rcases Nat.lt_succ_iff_lt_or_eq.mp hk with hk | rfl
    · rw [hgf k hk] at he
      rcases hfresh with hold | ⟨-, hc⟩
      · exact hr.apart k hk i hi hold ((hkeeps hold).2.symm.trans he)
      · exact (h.fresh k hk).2 (he ▸ hc)
    · rw [hgc] at he
      rcases hfresh with hold | ⟨hne, -⟩
      · refine h.extended.growable.table_taken i hi hold ?_
        rw [← (hkeeps hold).2, he]
        exact hp
      · exact hne he
  unmapped k hk := by
    rcases Nat.lt_succ_iff_lt_or_eq.mp hk with hk | rfl
    · exact hr.unmapped k hk
    · rw [hmem, h.userEntry_eq (pdeIndex_lt (u32_lt _)) (pteIndex_lt _)] at hnone
      exact (Option.or_eq_none_iff.mp hnone).2

/-- One round of the loop that ends: another page is mapped, or there is no page for its table. -/
theorem RangeAllocated.round {r : Option ℤ} (h : RangeAllocated n dir v perm f c s₀ s)
    (hgrown : RangeGrown dir v f c s₀ s) (hperm : perm < 2 ^ 32)
    (hrun : memoryAllocRound dir v perm c s = some (r, s')) :
    (r = none ∧ ∃ g, RangeAllocated n dir v perm g (c + 1) s₀ s' ∧ RangeGrown dir v g (c + 1) s₀ s') ∨
      r = some (-1) := by
  have hg := h.extended.growable
  obtain ⟨p, s₁, hs₁, hrun₁⟩ := Prog.bind_eq_some.mp hrun
  obtain ⟨u, s₂, hreq, hrun₂⟩ := Prog.bind_eq_some.mp hrun₁
  obtain ⟨hp0, rfl⟩ := Prog.require_eq_some.mp hreq
  by_cases hempty : s.alloc.clearPages = ∅
  · rw [allocPage, AddrAlloc.allocPage_empty hg.managed hempty] at hs₁
    exact absurd (Prod.mk.inj (Option.some.inj hs₁)).1.symm hp0
  obtain ⟨q, hq, s₃, hs₃, hm, hclear, hmem, hcr⟩ :=
    allocPage_spec hg.managed (Finset.nonempty_iff_ne_empty.mpr hempty)
  obtain ⟨rfl, rfl⟩ := Prog.result_unique hs₁ hs₃
  have hsub : s₂.alloc.clearPages ⊆ s.alloc.clearPages := hclear ▸ Finset.erase_subset _ _
  have hext := h.extended.take hs₁ hmem hm hsub hcr
  have hpq := (hg.usable p hq).identity.lt
  obtain ⟨err, s₄, hmap, hrun₃⟩ := Prog.bind_eq_some.mp hrun₂
  rcases hext.growable.createMap_succ (u32_lt _) (by omega) hperm hmap with
    ⟨rfl, -⟩ | ⟨s₅, hnone, hext', hgrows, hdone⟩
  · rw [if_pos (by norm_num)] at hrun₃
    obtain ⟨u, s₅, -, hrun₄⟩ := Prog.bind_eq_some.mp hrun₃
    exact .inr (Prog.pure_eq_some.mp hrun₄).1
  · obtain ⟨rfl, rfl⟩ := Prog.pure_eq_some.mp hdone
    rw [if_neg (by norm_num)] at hrun₃
    obtain ⟨rfl, rfl⟩ := Prog.pure_eq_some.mp hrun₃
    have hnot : p ∉ s'.alloc.clearPages := fun hm => by
      have := hext'.clear hm
      rw [hclear] at this
      exact Finset.notMem_erase _ _ this
    have hset : ∀ k < c, Function.update f c p k = f k := fun k hk =>
      Function.update_of_ne (by omega) _ _
    have hgrown' : RangeGrown dir v (Function.update f c p) (c + 1) s₀ s' :=
      hgrown.succ h hmem hq hclear hset (Function.update_self ..) hgrows hnone
    refine .inl ⟨rfl, Function.update f c p, ⟨(hext.trans hext').congr (rangeTables_succ v c)
      fun i _ j _ => ?_, fun k hk => ?_, fun k hk l hl he => ?_⟩, hgrown'⟩
    · rw [rangeEntries, Function.update_self]
      exact congrArg _ (rangeEntries_congr fun k hk => by rw [hset k hk])
    · rcases Nat.lt_succ_iff_lt_or_eq.mp hk with hk | rfl
      · rw [hset k hk]
        exact ⟨(h.fresh k hk).1, fun hm => (h.fresh k hk).2 (hsub (hext'.clear hm))⟩
      · rw [Function.update_self]
        exact ⟨h.extended.clear hq, hnot⟩
    · have hold : ∀ m < c, f m ≠ p := fun m hm he => (h.fresh m hm).2 (he ▸ hq)
      rcases Nat.lt_succ_iff_lt_or_eq.mp hk with hk | rfl
      · rw [hset k hk] at he
        rcases Nat.lt_succ_iff_lt_or_eq.mp hl with hl | rfl
        · rw [hset l hl] at he
          exact h.distinct k hk l hl he
        · rw [Function.update_self] at he
          exact absurd he (hold k hk)
      · rw [Function.update_self] at he
        rcases Nat.lt_succ_iff_lt_or_eq.mp hl with hl | rfl
        · rw [hset l hl] at he
          exact absurd he.symm (hold l hl)
        · rfl

/-- The loop that ends: all rounds went well, or a table could not be taken. -/
theorem rangeAllocated_of_loop {r : Option ℤ} (h : Growable n dir s) (hperm : perm < 2 ^ 32)
    (hloop : Prog.loop (memoryAllocRound dir v perm) c 0 s = some (r, s₁)) :
    r.elim (∃ f, RangeAllocated n dir v perm f c s s₁ ∧ RangeGrown dir v f c s s₁) fun b => b = -1 := by
  have hround : ∀ j t r t', 0 ≤ j → j < 0 + c →
      (∃ f, RangeAllocated n dir v perm f j s t ∧ RangeGrown dir v f j s t) →
      memoryAllocRound dir v perm j t = some (r, t') →
      r.elim (∃ f, RangeAllocated n dir v perm f (j + 1) s t' ∧ RangeGrown dir v f (j + 1) s t')
        fun b => b = -1 := by
    rintro j t r t' - - ⟨f, hinv, hgrown⟩ ht
    rcases hinv.round hgrown hperm ht with ⟨rfl, hnext⟩ | rfl
    · exact hnext
    · rfl
  have hinit : RangeGrown dir v (fun _ => 0) 0 s s := ⟨.refl dir s, nofun, nofun⟩
  have hcases := Prog.loop_cases (Q := fun b _ => b = -1) hround
    ⟨_, .start h v perm fun _ => 0, hinit⟩ hloop
  rwa [Nat.zero_add] at hcases

/-- A call that returns zero has gone through all its rounds. -/
theorem rangeAllocated_of_call (h : Growable n dir s) (hperm : perm < 2 ^ 32)
    (hrun : memoryAllocForPageDir dir v size perm s = some (0, s')) :
    ∃ f, RangeAllocated n dir v perm f (up2 size memPageSize / memPageSize) s s' ∧
      RangeGrown dir v f (up2 size memPageSize / memPageSize) s s' := by
  obtain ⟨r, s₁, hloop, hret⟩ := Prog.bind_eq_some.mp hrun
  obtain ⟨hr, rfl⟩ := Prog.pure_eq_some.mp hret
  have hcases := rangeAllocated_of_loop h hperm hloop
  cases r with
  | none => exact hcases
  | some b =>
      have hb : b = -1 := hcases
      rw [hb] at hr
      exact absurd hr (by norm_num)

theorem memoryAllocForPageDir_result {r : ℤ} (h : Growable n dir s) (hperm : perm < 2 ^ 32)
    (hrun : memoryAllocForPageDir dir v size perm s = some (r, s')) : r = 0 ∨ r = -1 := by
  obtain ⟨q, s₁, hloop, hret⟩ := Prog.bind_eq_some.mp hrun
  obtain ⟨rfl, -⟩ := Prog.pure_eq_some.mp hret
  have hcases := rangeAllocated_of_loop h hperm hloop
  cases q with
  | none => exact .inl rfl
  | some b => exact .inr hcases

/-! ## Enough pages -/

/-- `find_pte` takes one page at most. -/
theorem Growable.findPte_room (h : Growable n dir s) (hv : v < 2 ^ 32) {a : ℕ}
    (hrun : findPte dir v true s = some (a, s')) :
    s.alloc.clearPages.card ≤ s'.alloc.clearPages.card + 1 := by
  have hi := pdeIndex_lt hv
  by_cases hp : Present (s.mem.pde dir (pdeIndex v))
  · rw [findPte_present h.directory.dirPage hv hp (h.directory.tablePage _ hi hp).1 true] at hrun
    obtain ⟨-, rfl⟩ := Prod.mk.inj (Option.some.inj hrun)
    exact Nat.le_succ _
  · rw [findPte, Prog.bind_of_eq (h.directory.dirPage.load32 hi), if_neg hp, if_pos rfl] at hrun
    by_cases hempty : s.alloc.clearPages = ∅
    · rw [hempty, Finset.card_empty]
      exact Nat.zero_le _
    · obtain ⟨t, ht, s₁, hs₁, -, hclear, -⟩ :=
        allocPage_spec h.managed (Finset.nonempty_iff_ne_empty.mpr hempty)
      have htp := h.usable t ht
      rw [Prog.bind_of_eq hs₁, if_neg htp.ne_zero,
        Prog.bind_of_eq (h.directory.dirPage.store32 hi _),
        Prog.bind_of_eq (memset_page htp.identity htp.aligned htp.ne_zero 0)] at hrun
      obtain ⟨-, rfl⟩ := Prog.pure_eq_some.mp hrun
      show _ ≤ s₁.alloc.clearPages.card + 1
      rw [hclear, Finset.card_erase_add_one ht]

/-- `find_pte` takes no page if there is a table. -/
theorem Growable.findPte_alloc (h : Growable n dir s) (hv : v < 2 ^ 32) {a : ℕ}
    (hp : Present (s.mem.pde dir (pdeIndex v))) (hrun : findPte dir v true s = some (a, s')) :
    s'.alloc = s.alloc := by
  rw [findPte_present h.directory.dirPage hv hp
    (h.directory.tablePage _ (pdeIndex_lt hv) hp).1 true] at hrun
  obtain ⟨-, rfl⟩ := Prod.mk.inj (Option.some.inj hrun)
  rfl

/-- A page that is not mapped can be mapped if there is a table for it or a page is clear. -/
theorem Growable.createMap_next {p : ℕ} (perm : ℕ) (h : Growable n dir s) (hv : v < 2 ^ 32)
    (hroom : Present (s.mem.pde dir (pdeIndex v)) ∨ s.alloc.clearPages.Nonempty)
    (hnone : s.mem.userEntry dir (pdeIndex v) (pteIndex v) = none) :
    ∃ s₁, (∀ c, memoryCreateMap dir perm (c + 1) v p s =
        memoryCreateMap dir perm c (u32 (v + memPageSize)) (u32 (p + memPageSize)) s₁) ∧
      s.alloc.clearPages.card ≤ s₁.alloc.clearPages.card + 1 ∧
      (Present (s.mem.pde dir (pdeIndex v)) → s₁.alloc = s.alloc) := by
  rcases h.findPte_cases hv with ⟨habsent, hempty, -⟩ | ⟨s₁, hfind, hpres, hext, -⟩
  · rcases hroom with hp | hclear
    · exact absurd hp habsent
    · exact absurd hempty hclear.ne_empty
  · have hi := pdeIndex_lt hv
    have hj := pteIndex_lt v
    have htp := (hext.growable.directory.tablePage _ hi hpres).1
    have hne := htp.ne_zero
    obtain ⟨hid, hal, -⟩ := htp.word hj
    have hentry := hext.userEntry_eq hi hj nofun
    rw [hnone, Option.none_or, Mem.userEntry, if_pos hpres] at hentry
    have hfree : ¬ Present (s₁.mem.read32 (s₁.mem.table dir (pdeIndex v) + 4 * pteIndex v)) := by
      intro hpres'
      rw [if_pos hpres'] at hentry
      cases hentry
    let m := s₁.mem.write32 (s₁.mem.table dir (pdeIndex v) + 4 * pteIndex v) (p ||| perm ||| pteP)
    have hloss : s.alloc.clearPages.card ≤ s₁.alloc.clearPages.card + 1 := h.findPte_room hv hfind
    have hkeep : Present (s.mem.pde dir (pdeIndex v)) → s₁.alloc = s.alloc := fun hp =>
      h.findPte_alloc hv hp hfind
    refine ⟨{ s₁ with mem := m }, fun c => ?_, hloss, hkeep⟩
    rw [memoryCreateMap, Prog.bind_of_eq hfind, if_neg (by omega),
      Prog.bind_of_eq (load32_of_identity hid hal), Prog.bind_of_eq (Prog.require_of hfree),
      Prog.bind_of_eq (store32_of_identity hid _)]

theorem Growable.createMap_total {p : ℕ} (perm : ℕ) (h : Growable n dir s) (hv : v < 2 ^ 32)
    (hroom : s.alloc.clearPages.Nonempty)
    (hnone : s.mem.userEntry dir (pdeIndex v) (pteIndex v) = none) :
    ∃ s', memoryCreateMap dir perm 1 v p s = some (0, s') ∧
      s.alloc.clearPages.card ≤ s'.alloc.clearPages.card + 1 := by
  obtain ⟨s', hrun, hloss, -⟩ := h.createMap_next (p := p) perm hv (.inr hroom) hnone
  exact ⟨s', hrun 0, hloss⟩

/-- A round goes well if its page is not mapped and two pages are clear. -/
theorem allocRound_total (perm : ℕ) (h : Growable n dir s) (hroom : 2 ≤ s.alloc.clearPages.card)
    (hnone : s.mem.userEntry dir (pdeIndex (u32 (v + c * memPageSize)))
      (pteIndex (u32 (v + c * memPageSize))) = none) :
    ∃ s', memoryAllocRound dir v perm c s = some (none, s') ∧
      s.alloc.clearPages.card ≤ s'.alloc.clearPages.card + 2 := by
  obtain ⟨p, hp, s₁, hs₁, hm, hclear, hmem, -⟩ :=
    allocPage_spec h.managed (Finset.card_pos.mp (show 0 < s.alloc.clearPages.card by omega))
  have hcard := Finset.card_erase_add_one hp
  rw [← hclear] at hcard
  have hg : Growable n dir s₁ := h.take hmem hm (hclear ▸ Finset.erase_subset _ _)
  obtain ⟨s₂, hmap, hloss⟩ := hg.createMap_total (p := p) perm (u32_lt _)
    (Finset.card_pos.mp (by omega)) (hmem ▸ hnone)
  refine ⟨s₂, ?_, by omega⟩
  rw [memoryAllocRound, Prog.bind_of_eq hs₁, Prog.bind_of_eq (Prog.require_of (h.usable p hp).ne_zero),
    Prog.bind_of_eq hmap]
  rfl

/-- A range that is not mapped can be mapped if there are two clear pages for each of its pages. -/
theorem rangeAlloc_total (h : Growable n dir s) (hperm : perm < 2 ^ 32)
    (hc : c = up2 size memPageSize / memPageSize) (hc' : c ≤ 2 ^ 20)
    (hroom : 2 * c ≤ s.alloc.clearPages.card)
    (hnone : ∀ k < c, s.mem.userEntry dir (pdeIndex (u32 (v + k * memPageSize)))
      (pteIndex (u32 (v + k * memPageSize))) = none) :
    ∃ s', memoryAllocForPageDir dir v size perm s = some (0, s') ∧
      s.alloc.clearPages.card ≤ s'.alloc.clearPages.card + 2 * c := by
  have hround : ∀ j t, 0 ≤ j → j < 0 + c →
      (∃ f, RangeAllocated n dir v perm f j s t ∧ RangeGrown dir v f j s t ∧
        s.alloc.clearPages.card ≤ t.alloc.clearPages.card + 2 * j) →
      ∃ t', memoryAllocRound dir v perm j t = some (none, t') ∧
        ∃ f, RangeAllocated n dir v perm f (j + 1) s t' ∧ RangeGrown dir v f (j + 1) s t' ∧
          s.alloc.clearPages.card ≤ t'.alloc.clearPages.card + 2 * (j + 1) := by
    rintro j t - hj ⟨f, hinv, hgrown, hcard⟩
    rw [Nat.zero_add] at hj
    have hfree : t.mem.userEntry dir (pdeIndex (u32 (v + j * memPageSize)))
        (pteIndex (u32 (v + j * memPageSize))) = none := by
      have hout : rangeEntries v (fun k => f k ||| perm ||| pteP) j
          (pdeIndex (u32 (v + j * memPageSize))) (pteIndex (u32 (v + j * memPageSize))) = none :=
        rangeEntries_eq_none.mpr fun k hk hkj =>
          absurd (pageIndices_wrap (by omega) (by omega) hkj.1 hkj.2) (by omega)
      rw [hinv.userEntry_eq (pdeIndex_lt (u32_lt _)) (pteIndex_lt _), hout, Option.none_or]
      exact hnone j hj
    obtain ⟨t', ht', hloss⟩ := allocRound_total perm hinv.extended.growable (by omega) hfree
    rcases hinv.round hgrown hperm ht' with ⟨-, g, hinv', hgrown'⟩ | hfail
    · exact ⟨t', ht', g, hinv', hgrown', by omega⟩
    · cases hfail
  have hinit : RangeGrown dir v (fun _ => 0) 0 s s := ⟨.refl dir s, nofun, nofun⟩
  obtain ⟨s', hloop, f, -, -, hcard⟩ :=
    Prog.loop_total hround ⟨_, .start h v perm fun _ => 0, hinit, Nat.le_add_right _ _⟩
  rw [Nat.zero_add] at hcard
  refine ⟨s', ?_, hcard⟩
  rw [memoryAllocForPageDir, ← hc, Prog.bind_of_eq hloop]
  rfl

/-! ## Covering the range -/

/-- Every page that contains an address of the range has a fresh frame of its own and the
permissions asked for, and no other entry changed. -/
structure RangeCovered (dir v size perm : ℕ) (s s' : Vm) : Prop where
  mapped : ∀ k < size, ∃ e,
    s'.mem.userEntry dir (pdeIndex (u32 (v + k))) (pteIndex (u32 (v + k))) = some e ∧
      e % memPageSize = perm ||| pteP ∧ entryPaddr e ∈ s.alloc.clearPages ∧
      entryPaddr e ∉ s'.alloc.clearPages
  distinct : ∀ k < size, ∀ l < size, ∀ e e',
    s'.mem.userEntry dir (pdeIndex (u32 (v + k))) (pteIndex (u32 (v + k))) = some e →
    s'.mem.userEntry dir (pdeIndex (u32 (v + l))) (pteIndex (u32 (v + l))) = some e' →
    entryPaddr e = entryPaddr e' → pdeIndex (u32 (v + k)) = pdeIndex (u32 (v + l)) ∧
      pteIndex (u32 (v + k)) = pteIndex (u32 (v + l))
  others : ∀ i < pdeCnt, ∀ j < pteCnt,
    (∀ k < size, ¬ (i = pdeIndex (u32 (v + k)) ∧ j = pteIndex (u32 (v + k)))) →
    s'.mem.userEntry dir i j = s.mem.userEntry dir i j

/-- The number of rounds is that of the pages exactly if the size is not within a page of the end
of the address space. -/
theorem pageCount_eq (hs : size < 2 ^ 32) : up2 size memPageSize / memPageSize =
    if size ≤ 2 ^ 32 - memPageSize then (size + 4095) / 4096 else 0 := by
  unfold up2 u32 memPageSize
  split_ifs <;> omega

/-- The pages of the addresses of an aligned range. -/
theorem rangeAddr_index {k : ℕ} (hv : v % memPageSize = 0) :
    pdeIndex (u32 (v + k)) = pdeIndex (u32 (v + k / memPageSize * memPageSize)) ∧
      pteIndex (u32 (v + k)) = pteIndex (u32 (v + k / memPageSize * memPageSize)) := by
  unfold pdeIndex pteIndex u32 memPageSize at *
  omega

/-- The entry of a page of the range names its frame. -/
theorem RangeAllocated.entry_at {k : ℕ} (h : RangeAllocated n dir v perm f c s s')
    (hg : Growable n dir s) (hv : v % memPageSize = 0) (hperm : perm < memPageSize)
    (hc : c ≤ 2 ^ 20) (hk : k / memPageSize < c) :
    s'.mem.userEntry dir (pdeIndex (u32 (v + k))) (pteIndex (u32 (v + k))) =
        some (f (k / memPageSize) ||| perm ||| pteP) ∧
      entryPaddr (f (k / memPageSize) ||| perm ||| pteP) = f (k / memPageSize) ∧
      (f (k / memPageSize) ||| perm ||| pteP) % memPageSize = perm ||| pteP := by
  obtain ⟨hi, hj⟩ := rangeAddr_index (k := k) hv
  refine ⟨?_, mapEntry_eq (hg.usable _ (h.fresh _ hk).1).aligned hperm⟩
  rw [h.userEntry_eq (pdeIndex_lt (u32_lt _)) (pteIndex_lt _), hi, hj, rangeEntries_at hc hk]
  rfl

theorem RangeAllocated.covered (h : RangeAllocated n dir v perm f c s s') (hg : Growable n dir s)
    (hv : v % memPageSize = 0) (hperm : perm < memPageSize) (hc : c = (size + 4095) / 4096)
    (hc' : c ≤ 2 ^ 20) : RangeCovered dir v size perm s s' := by
  have hpage : ∀ k < size, k / memPageSize < c := by
    intro k hk
    unfold memPageSize
    omega
  have hentry := fun k hk => h.entry_at hg hv hperm hc' (hpage k hk)
  refine ⟨fun k hk => ⟨_, (hentry k hk).1, (hentry k hk).2.2, ?_⟩,
    fun k hk l hl e e' he he' hee => ?_, fun i hi j hj hout => ?_⟩
  · rw [(hentry k hk).2.1]
    exact h.fresh _ (hpage k hk)
  · rw [(hentry k hk).1] at he
    rw [(hentry l hl).1] at he'
    rw [← Option.some.inj he, ← Option.some.inj he', (hentry k hk).2.1, (hentry l hl).2.1] at hee
    have hkl := h.distinct _ (hpage k hk) _ (hpage l hl) hee
    obtain ⟨hi, hj⟩ := rangeAddr_index (k := k) hv
    obtain ⟨hi', hj'⟩ := rangeAddr_index (k := l) hv
    rw [hi, hj, hi', hj', hkl]
    exact ⟨rfl, rfl⟩
  · have hnone : rangeEntries v (fun k => f k ||| perm ||| pteP) c i j = none := by
      rw [rangeEntries_eq_none]
      intro k hk
      have hlt : k * memPageSize < size := by
        unfold memPageSize
        omega
      exact hout (k * memPageSize) hlt
    rw [h.userEntry_eq hi hj, hnone, Option.none_or]

/-- A call of `memory_alloc_for_page_dir` that returns zero covers the range exactly if the rounded
size does not wrap. -/
theorem range_allocation_covers (h : Growable n dir s) (hv : v % memPageSize = 0)
    (hs : size < 2 ^ 32) (hperm : perm < memPageSize)
    (hrun : memoryAllocForPageDir dir v size perm s = some (0, s')) :
    RangeCovered dir v size perm s s' ↔ size ≤ 2 ^ 32 - memPageSize := by
  have hperm' : perm < 2 ^ 32 := hperm.trans (by decide)
  obtain ⟨f, hall, -⟩ := rangeAllocated_of_call h hperm' hrun
  have hcount := pageCount_eq hs
  by_cases hsize : size ≤ 2 ^ 32 - memPageSize
  · rw [if_pos hsize] at hcount
    refine iff_of_true (hall.covered h hv hperm hcount ?_) hsize
    rw [hcount]
    omega
  · rw [if_neg hsize] at hcount
    rw [memoryAllocForPageDir, hcount] at hrun
    obtain ⟨-, rfl⟩ := Prog.pure_eq_some.mp hrun
    refine iff_of_false (fun hcovered => ?_) hsize
    obtain ⟨e, -, -, hclear, hnot⟩ := hcovered.mapped 0 (by omega)
    exact hnot hclear

theorem range_allocation_covers_twoPages : ∃ s,
    memoryAllocForPageDir 0x200000 0x80001000 0x2000 7 onePageVm = some (0, s) ∧
      RangeCovered 0x200000 0x80001000 0x2000 7 onePageVm s := by
  have hnone : ∀ k < up2 0x2000 memPageSize / memPageSize,
      onePage.entry (pdeIndex (0x80001000 + k * memPageSize))
        (pteIndex (0x80001000 + k * memPageSize)) = none := by
    decide
  obtain ⟨sp, s, hrun, -⟩ := memoryAllocForPageDir_spec onePage_owned (v := 0x80001000) (by decide)
    (by decide) hnone (by rw [onePageVm_card]; decide) (show Present 7 by decide) (by decide)
  exact ⟨s, hrun, (range_allocation_covers onePage_growable (by decide) (by decide) (by decide)
    hrun).mpr (by decide)⟩

/-- The largest size is rounded to zero, so nothing is mapped. -/
theorem range_allocation_covers_counterexample :
    memoryAllocForPageDir 0x200000 0x80400000 (2 ^ 32 - 1) 7 onePageVm = some (0, onePageVm) ∧
      ¬ RangeCovered 0x200000 0x80400000 (2 ^ 32 - 1) 7 onePageVm onePageVm := by
  constructor
  · rw [memoryAllocForPageDir, show up2 (2 ^ 32 - 1) memPageSize / memPageSize = 0 by decide]
    rfl
  · intro hcovered
    obtain ⟨e, -, -, hclear, hnot⟩ := hcovered.mapped 0 (by norm_num)
    exact hnot hclear

/-! ## Running out of pages -/

/-- Freeing at a user address clears no bit of the bitmap: its distance from `MEM_EXT_START` in bytes
is behind the last bit, or negative as an `int`. -/
theorem bitAt_free_user {alloc : AddrAlloc} {addr : ℕ} (hm : alloc.Managed n)
    (hstart : alloc.start = memExtStart) (ha : memoryTaskBase ≤ addr) (ha' : addr < 2 ^ 32)
    (hal : addr % memPageSize = 0) (hc : c ≤ 2 ^ 20) (j : ℕ) :
    (addrFreePage alloc addr c).bitmap.bitAt j = alloc.bitmap.bitAt j := by
  have hsub : u32Sub addr alloc.start = addr - memExtStart := by
    rw [hstart]
    exact u32Sub_of_le (by unfold memExtStart memoryTaskBase at *; omega) ha'
  have hpages := hm.pages
  have hcount := hm.bitCount
  simp only [addrFreePage, hsub, bitmapSetBit, Int.toNat_natCast]
  rw [i32_cast (by omega)]
  unfold memExtStart memoryTaskBase memPageSize at *
  split_ifs with hlow
  · rw [Bitmap.setLoop_out _ (by omega)]
  · exact Bitmap.bitAt_setLoop_neg _ (by omega) _ _

theorem clearPages_free_user {alloc : AddrAlloc} {addr : ℕ} (hm : alloc.Managed n)
    (hstart : alloc.start = memExtStart) (ha : memoryTaskBase ≤ addr) (ha' : addr < 2 ^ 32)
    (hal : addr % memPageSize = 0) (hc : c ≤ 2 ^ 20) :
    (addrFreePage alloc addr c).clearPages = alloc.clearPages := by
  have hbits := bitAt_free_user hm hstart ha ha' hal hc
  have hcount : (addrFreePage alloc addr c).bitmap.bitCount = alloc.bitmap.bitCount :=
    Bitmap.setBit_bitCount ..
  rw [AddrAlloc.clearPages, AddrAlloc.clearPages, hcount]
  simp only [hbits]
  rfl

/-- At some round there is no page for the frame, or a single one and none for the table. -/
def PagesRunOut (dir v size perm : ℕ) (s : Vm) : Prop :=
  ∃ i s₁, i < up2 size memPageSize / memPageSize ∧
    Prog.loop (memoryAllocRound dir v perm) i 0 s = some (none, s₁) ∧
    (s₁.alloc.clearPages = ∅ ∨ (s₁.alloc.clearPages.card = 1 ∧
      ¬ Present (s₁.mem.pde dir (pdeIndex (u32 (v + i * memPageSize))))))

/-- What a call that fails leaves: only pages that became tables stay taken, no entry changed, and
every call of `addr_free_page` stayed inside the bitmap. -/
structure CleanFailure (dir : ℕ) (s s' : Vm) : Prop where
  freed : ∀ p ∈ s.alloc.clearPages, p ∉ s'.alloc.clearPages →
    ∃ i < pdeCnt, Present (s'.mem.pde dir i) ∧ s'.mem.table dir i = p
  taken : s'.alloc.clearPages ⊆ s.alloc.clearPages
  unmapped : ∀ i < pdeCnt, ∀ j < pteCnt, s'.mem.userEntry dir i j = s.mem.userEntry dir i j
  inside : ∀ call ∈ s'.frees.drop s.frees.length,
    0 ≤ i32 (u32Sub call.addr s.alloc.start) ∧
      i32 (u32Sub call.addr s.alloc.start) + call.count ≤ s.alloc.bitmap.bitCount

/-- Without a page for the frame the assertion fails. -/
theorem allocRound_halts (hm : s.alloc.Managed n) (hempty : s.alloc.clearPages = ∅) :
    memoryAllocRound dir v perm c s = none := by
  have halloc : allocPage s = some (0, s) := by
    rw [allocPage, AddrAlloc.allocPage_empty hm hempty]
  rw [memoryAllocRound, Prog.bind_of_eq halloc]
  exact Prog.bind_of_none (by simp [Prog.require])

/-- A user address in the first megabyte, whose distance from `MEM_EXT_START` is no negative `int`. -/
theorem freeable_user {alloc : AddrAlloc} (hstart : alloc.start = memExtStart) (ha : memoryTaskBase ≤ v)
    (ha' : v < 2 ^ 32) : alloc.Freeable v ↔ v < memoryTaskBase + memExtStart := by
  rw [AddrAlloc.freeable_iff, hstart]
  unfold memExtStart memoryTaskBase u32Sub u32 at *
  omega

/-- Without a page for the table the page of the frame is lost; what is freed is the virtual address. -/
theorem allocRound_loses (perm : ℕ) (h : Growable n dir s) (hstart : s.alloc.start = memExtStart)
    (hv : memoryTaskBase ≤ v) (hv' : v < 2 ^ 32) (hc : c < 2 ^ 20)
    (hone : s.alloc.clearPages.card = 1)
    (habsent : ¬ Present (s.mem.pde dir (pdeIndex (u32 (v + c * memPageSize))))) :
    ∃ s', memoryAllocRound dir v perm c s =
        (if v < memoryTaskBase + memExtStart then some (some (-1), s') else none) ∧
      s'.mem = s.mem ∧ s'.alloc.clearPages = ∅ := by
  obtain ⟨p, hp, s₁, hs₁, hm, hclear, hmem, hcr⟩ :=
    allocPage_spec h.managed (Finset.card_pos.mp (by omega))
  have hempty : s₁.alloc.clearPages = ∅ := by
    rw [hclear, ← Finset.card_eq_zero, Finset.card_erase_of_mem hp, hone]
  have hg : Growable n dir s₁ := h.take hmem hm (by rw [hempty]; exact Finset.empty_subset _)
  have hfind := hg.findPte_empty (u32_lt _) (by rwa [hmem]) hempty
  have hmap : memoryCreateMap dir perm 1 (u32 (v + c * memPageSize)) p s₁ = some (-1, s₁) := by
    rw [memoryCreateMap, Prog.bind_of_eq hfind, if_pos rfl]
    rfl
  have hstart₁ : s₁.alloc.start = memExtStart := (allocPage_start hs₁).trans hstart
  obtain ⟨hdown, hdown', hal, hlow⟩ : memoryTaskBase ≤ down2 v memPageSize ∧
      down2 v memPageSize < 2 ^ 32 ∧ down2 v memPageSize % memPageSize = 0 ∧
      (down2 v memPageSize < memoryTaskBase + memExtStart ↔ v < memoryTaskBase + memExtStart) := by
    unfold memoryTaskBase at *
    unfold down2 memPageSize memExtStart
    omega
  have hfree : (addrFreePage s₁.alloc (down2 v memPageSize) (c + 1 : ℕ)).clearPages =
      s₁.alloc.clearPages := clearPages_free_user hm hstart₁ hdown hdown' hal hc
  have hcall := (freeable_user hstart₁ hdown hdown').trans hlow
  refine ⟨s₁.freed (down2 v memPageSize) (c + 1), ?_, hmem, hfree.trans hempty⟩
  rw [memoryAllocRound, Prog.bind_of_eq hs₁,
    Prog.bind_of_eq (Prog.require_of (h.usable p hp).ne_zero), Prog.bind_of_eq hmap,
    if_pos (by norm_num)]
  split_ifs with hv₁
  · rw [Prog.bind_of_eq (freePages_of (hcall.mpr hv₁) _)]
    rfl
  · exact Prog.bind_of_none (if_neg fun hc => hv₁ (hcall.mp hc))

/-- The whole call when the pages run out after `c` rounds. -/
theorem rangeAlloc_runs_out (h : Growable n dir s) (hstart : s.alloc.start = memExtStart)
    (hv : memoryTaskBase ≤ v) (hv' : v < 2 ^ 32) (hperm : perm < 2 ^ 32)
    (hc : c < up2 size memPageSize / memPageSize)
    (hloop : Prog.loop (memoryAllocRound dir v perm) c 0 s = some (none, s₁)) :
    (s₁.alloc.clearPages = ∅ → memoryAllocForPageDir dir v size perm s = none) ∧
    (s₁.alloc.clearPages.card = 1 →
      ¬ Present (s₁.mem.pde dir (pdeIndex (u32 (v + c * memPageSize)))) →
      ∃ s', memoryAllocForPageDir dir v size perm s =
          (if v < memoryTaskBase + memExtStart then some (-1, s') else none) ∧
        s'.alloc.clearPages = ∅ ∧ ∃ p ∈ s.alloc.clearPages,
          ¬ ∃ i < pdeCnt, Present (s'.mem.pde dir i) ∧ s'.mem.table dir i = p) := by
  obtain ⟨f, hf, -⟩ : ∃ f, RangeAllocated n dir v perm f c s s₁ ∧ RangeGrown dir v f c s s₁ :=
    rangeAllocated_of_loop h hperm hloop
  have hext := hf.extended
  have hc' : c < 2 ^ 20 := by
    unfold up2 u32 memPageSize at hc
    omega
  obtain ⟨k, hk⟩ : ∃ k, up2 size memPageSize / memPageSize = c + (k + 1) :=
    ⟨up2 size memPageSize / memPageSize - c - 1, by omega⟩
  have hrest := Prog.loop_append (k + 1) hloop
  rw [← hk, Nat.zero_add] at hrest
  constructor
  · intro hempty
    rw [memoryAllocForPageDir]
    apply Prog.bind_of_none
    rw [hrest]
    exact Prog.loop_halt (allocRound_halts hext.growable.managed hempty)
  · intro hone habsent
    obtain ⟨s', hround, hmem, hclear⟩ := allocRound_loses perm hext.growable
      (hext.start.trans hstart) hv hv' hc' hone habsent
    obtain ⟨p, hp⟩ := Finset.card_pos.mp (show 0 < s₁.alloc.clearPages.card by omega)
    refine ⟨s', ?_, hclear, p, hext.clear hp, ?_⟩
    · rw [memoryAllocForPageDir]
      split_ifs at hround ⊢
      · rw [Prog.bind_of_eq (hrest.trans (Prog.loop_leave hround))]
        rfl
      · exact Prog.bind_of_none (hrest.trans (Prog.loop_halt hround))
    · rintro ⟨i, hi, hpres, rfl⟩
      rw [hmem] at hpres hp
      exact hext.growable.table_taken i hi hpres hp

/-- Whenever the pages run out, the call does not fail cleanly: it halts in the assertion, the page of
the last frame stays taken, or `addr_free_page` leaves the bitmap. -/
theorem range_allocation_never_clean (h : Growable n dir s) (hstart : s.alloc.start = memExtStart)
    (hv : memoryTaskBase ≤ v) (hv' : v < 2 ^ 32) (hperm : perm < memPageSize)
    (hout : PagesRunOut dir v size perm s) :
    ¬ ∃ s', memoryAllocForPageDir dir v size perm s = some (-1, s') ∧ CleanFailure dir s s' := by
  rintro ⟨s', hrun, hclean⟩
  obtain ⟨c, s₁, hc, hloop, hfew⟩ := hout
  obtain ⟨hframe, htable⟩ :=
    rangeAlloc_runs_out h hstart hv hv' (hperm.trans (by decide)) hc hloop
  rcases hfew with hempty | ⟨hone, habsent⟩
  · rw [hframe hempty] at hrun
    cases hrun
  · obtain ⟨s₂, hrun₂, hclear, p, hp, hnot⟩ := htable hone habsent
    split_ifs at hrun₂
    · obtain ⟨-, rfl⟩ := Prog.result_unique hrun hrun₂
      exact hnot (hclean.freed p hp (by rw [hclear]; exact Finset.notMem_empty p))
    · rw [hrun] at hrun₂
      cases hrun₂

/-- A directory without tables when `k` pages are left. -/
def pagesLeft (k : ℕ) : Vm where
  mem := Mem.zero
  alloc := addrAllocInit (fun _ => 0) memExtStart (k * memPageSize) memPageSize
  cr3 := 0
  frees := []

theorem pagesLeft_card {k : ℕ} (hk : k < 2 ^ 20) : (pagesLeft k).alloc.clearPages.card = k := by
  have hcard : (pagesLeft k).alloc.clearPages.card = k * memPageSize / memPageSize :=
    AddrAlloc.card_clearPages_init (by decide) (by unfold memPageSize; omega)
  rw [hcard]
  exact Nat.mul_div_cancel k (by decide)

theorem pagesLeft_absent (k i : ℕ) : ¬ Present ((pagesLeft k).mem.pde 0x200000 i) := by
  have hpde : (pagesLeft k).mem.pde 0x200000 i = 0 := Mem.read32_zero _
  rw [hpde]
  decide

theorem pagesLeft_growable {k : ℕ} (hk : k ≤ 256) :
    Growable (k * memPageSize / memPageSize) 0x200000 (pagesLeft k) := by
  have hm : (pagesLeft k).alloc.Managed (k * memPageSize / memPageSize) :=
    AddrAlloc.managed_init (by decide) (by unfold memPageSize; omega)
  have hclear : ∀ p ∈ (pagesLeft k).alloc.clearPages, ∃ j < 256, p = 0x100000 + j * 4096 := by
    intro p hp
    obtain ⟨j, hj, -, rfl⟩ := (AddrAlloc.mem_clearPages hm).mp hp
    rw [Nat.mul_div_cancel k (by decide)] at hj
    exact ⟨j, by omega, u32_of_lt (show 0x100000 + j * 4096 < 2 ^ 32 by omega)⟩
  refine ⟨⟨⟨by decide, by decide, by decide⟩, fun i _ hp => absurd hp (pagesLeft_absent k i),
    fun i _ j _ hp => absurd hp (pagesLeft_absent k i)⟩, hm, fun p hp => ?_, fun hd => ?_,
    fun i _ hp => absurd hp (pagesLeft_absent k i)⟩
  · obtain ⟨j, hj, rfl⟩ := hclear p hp
    refine ⟨?_, .inr ⟨?_, ?_⟩, by omega⟩
    · unfold memPageSize
      omega
    · unfold memExtStart
      omega
    · unfold memExtLimit
      omega
  · obtain ⟨j, hj, he⟩ := hclear _ hd
    omega

/-- One page is left, which the frame takes before its table. -/
theorem range_allocation_never_clean_onePageLeft :
    ¬ ∃ s, memoryAllocForPageDir 0x200000 0x80000000 0x1000 7 (pagesLeft 1) = some (-1, s) ∧
      CleanFailure 0x200000 (pagesLeft 1) s :=
  range_allocation_never_clean (pagesLeft_growable (by decide)) rfl (by decide) (by decide)
    (by decide) ⟨0, _, by decide, rfl, .inr ⟨pagesLeft_card (by decide), pagesLeft_absent 1 _⟩⟩

/-- With one page left the call returns an error and keeps the page; with none it halts. -/
theorem range_allocation_clean_counterexample :
    (∃ s, memoryAllocForPageDir 0x200000 0x80000000 0x1000 7 (pagesLeft 1) = some (-1, s) ∧
      ¬ CleanFailure 0x200000 (pagesLeft 1) s) ∧
    memoryAllocForPageDir 0x200000 0x80000000 0x1000 7 (pagesLeft 0) = none := by
  constructor
  · have hc : 0 < up2 0x1000 memPageSize / memPageSize := by decide
    have hloop : Prog.loop (memoryAllocRound 0x200000 0x80000000 7) 0 0 (pagesLeft 1) =
        some (none, pagesLeft 1) := rfl
    obtain ⟨-, htable⟩ := rangeAlloc_runs_out (pagesLeft_growable (by decide)) rfl (by decide)
      (by decide) (by decide) hc hloop
    obtain ⟨s, hrun, hclear, p, hp, hnot⟩ :=
      htable (pagesLeft_card (by decide)) (pagesLeft_absent 1 _)
    rw [if_pos (by decide)] at hrun
    refine ⟨s, hrun, fun hclean => hnot (hclean.freed p hp ?_)⟩
    rw [hclear]
    exact Finset.notMem_empty p
  · apply Prog.bind_of_none
    apply Prog.loop_halt
    exact allocRound_halts (pagesLeft_growable (by decide)).managed
      (Finset.card_eq_zero.mp (pagesLeft_card (by decide)))

end X86Os
