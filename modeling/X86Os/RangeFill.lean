import X86Os.RangeAlloc

/-!
# Exactly enough pages

A space that owns its pages takes one page for each page of a range and one for each table that is
missing. A call of `memory_alloc_for_page_dir` that has so many goes through; one that ends has mapped
the whole range, or returned an error because the pages ran out.
-/

namespace X86Os

variable {sp sp₀ sp' : Space} {n : ℕ} {s s' s₀ : Vm} {v w perm c size : ℕ}

/-- The pages that the first `c` pages from `v` on take, with those for tables. -/
def rangeNeed (sp : Space) (v : ℕ) : ℕ → ℕ
  | 0 => 0
  | c + 1 => rangeNeed sp v c + 1 +
      if sp.table (pdeIndex (v + c * memPageSize)) = none ∧
        ∀ k < c, pdeIndex (v + k * memPageSize) ≠ pdeIndex (v + c * memPageSize) then 1 else 0

/-- The range was not mapped, and the pages that it took are counted. -/
structure RangeFilled (sp : Space) (n : ℕ) (s : Vm) (v perm c : ℕ) (sp' : Space) (s' : Vm) : Prop
    extends RangeMapped sp n s v perm c sp' s' where
  unmapped : ∀ k < c, sp.entry (pdeIndex (v + k * memPageSize)) (pteIndex (v + k * memPageSize)) = none
  tabled : ∀ i, sp'.table i = none ↔ sp.table i = none ∧ ∀ k < c, pdeIndex (v + k * memPageSize) ≠ i
  spent : s.alloc.clearPages.card = s'.alloc.clearPages.card + rangeNeed sp v c

theorem RangeFilled.refl (h : sp.Owned n s) (v perm : ℕ) : RangeFilled sp n s v perm 0 sp s where
  toRangeMapped := .refl h v perm
  unmapped := nofun
  tabled i := by simp
  spent := rfl

theorem rangeNeed_mono (sp : Space) (v : ℕ) {c d : ℕ} (h : c ≤ d) :
    rangeNeed sp v c ≤ rangeNeed sp v d := by
  induction d with
  | zero =>
      obtain rfl := Nat.le_zero.mp h
      exact le_rfl
  | succ d ih =>
      rcases Nat.le_succ_iff.mp h with h | rfl
      · have := ih h
        rw [rangeNeed]
        omega
      · exact le_rfl

/-- A range of `c` pages never takes more than `2 * c` pages. -/
theorem rangeNeed_le (sp : Space) (v c : ℕ) : rangeNeed sp v c ≤ 2 * c := by
  induction c with
  | zero => exact le_rfl
  | succ c ih =>
      rw [rangeNeed]
      split_ifs <;> omega

/-! ## Calls that do not map -/

/-- A page that is mapped already is not mapped again: the assertion fails. -/
theorem Space.Owned.createMap_mapped {e p : ℕ} (h : sp.Owned n s)
    (he : sp.entry (pdeIndex v) (pteIndex v) = some e) : memoryCreateMap sp.dir perm 1 v p s = none := by
  obtain ⟨hpres, hj, t, ht⟩ := h.shape.present _ _ e he
  have htp := h.tablePage ht
  have hne := htp.ne_zero
  have hword : s.mem.read32 (t + 4 * pteIndex v) = e := by
    rw [h.shape.pte _ t ht _ hj, he]
    rfl
  have hload := htp.load32 (s := s) hj
  rw [(htp.word hj).2.2] at hload
  rw [memoryCreateMap, Prog.bind_of_eq (h.shape.tables.findPte_table ht true), if_neg (by omega),
    Prog.bind_of_eq hload, hword]
  exact Prog.bind_of_none (by simp [Prog.require, hpres])

/-- Without a table and without a page for one the call gives up. -/
theorem Space.Owned.createMap_exhausted {p : ℕ} (h : sp.Owned n s) (hv : memoryTaskBase ≤ v)
    (hv' : v < 2 ^ 32) (ht : sp.table (pdeIndex v) = none) (hempty : s.alloc.clearPages = ∅) :
    memoryCreateMap sp.dir perm 1 v p s = some (-1, s) := by
  obtain ⟨hi, hi'⟩ := pdeIndex_user hv hv'
  have halloc : allocPage s = some (0, s) := by
    rw [allocPage, AddrAlloc.allocPage_empty h.managed hempty]
  have hword : s.mem.read32 (sp.dir + 4 * pdeIndex v) = 0 := by
    rw [h.shape.pde _ hi hi', ht]
    rfl
  have hfind : findPte sp.dir v true s = some (0, s) := by
    rw [findPte, Prog.bind_of_eq (h.dirPage.load32 hi'), hword, if_neg (by simp [Present]), if_pos rfl,
      Prog.bind_of_eq halloc, if_pos rfl]
    rfl
  rw [memoryCreateMap, Prog.bind_of_eq hfind, if_pos rfl]
  rfl

/-! ## Rounds -/

namespace RangeFilled

/-- A table is missing for the next page. -/
theorem table_none (h : RangeFilled sp₀ n s₀ v perm c sp s) :
    (sp.table (pdeIndex (v + c * memPageSize)) = none ↔
      sp₀.table (pdeIndex (v + c * memPageSize)) = none ∧
        ∀ k < c, pdeIndex (v + k * memPageSize) ≠ pdeIndex (v + c * memPageSize)) :=
  h.tabled _

theorem entry_eq (h : RangeFilled sp₀ n s₀ v perm c sp s) :
    sp.entry (pdeIndex (v + c * memPageSize)) (pteIndex (v + c * memPageSize)) =
      sp₀.entry (pdeIndex (v + c * memPageSize)) (pteIndex (v + c * memPageSize)) := by
  refine h.old _ _ fun k hk heq => ?_
  have := pageIndices_inj heq.1 heq.2
  omega

/-- A round for which the pages suffice. -/
theorem round (h : RangeFilled sp₀ n s₀ v perm c sp s) (hv : memoryTaskBase ≤ v)
    (hend : v + c * memPageSize < 2 ^ 32)
    (hnone : sp₀.entry (pdeIndex (v + c * memPageSize)) (pteIndex (v + c * memPageSize)) = none)
    (hne : s.alloc.clearPages.Nonempty)
    (hroom : sp.table (pdeIndex (v + c * memPageSize)) = none → 2 ≤ s.alloc.clearPages.card)
    (hperm : Present perm) (hperm' : perm < memPageSize) :
    ∃ sp' s', memoryAllocRound sp₀.dir v perm c s = some (none, s') ∧
      RangeFilled sp₀ n s₀ v perm (c + 1) sp' s' := by
  obtain ⟨sp', s', hrun, hmapped, htook⟩ :=
    h.toRangeMapped.round hv hend hnone hne hroom hperm hperm'
  refine ⟨sp', s', hrun, hmapped, fun k hk => ?_, fun i => ?_, ?_⟩
  · rcases Nat.lt_succ_iff_lt_or_eq.mp hk with hk | rfl
    · exact h.unmapped k hk
    · exact hnone
  · rw [Nat.forall_lt_succ_right, ← and_assoc, ← h.tabled i]
    rcases htook with ⟨htable, hsame, -⟩ | ⟨t, htable, hsame, -⟩
    · rw [hsame]
      exact ⟨fun hi => ⟨hi, fun he => htable (he ▸ hi)⟩, And.left⟩
    · rw [hsame]
      by_cases hi : pdeIndex (v + c * memPageSize) = i
      · subst hi
        simp
      · rw [Function.update_of_ne (Ne.symm hi)]
        exact ⟨fun hn => ⟨hn, hi⟩, And.left⟩
  · have hspent := h.spent
    rw [rangeNeed]
    rcases htook with ⟨htable, -, hcard⟩ | ⟨t, htable, -, hcard⟩
    · rw [if_neg (fun hmissing => htable (h.table_none.mpr hmissing))]
      omega
    · rw [if_pos (h.table_none.mp htable)]
      omega

/-- A round that ends: the next page is mapped, or there was no page for its table. -/
theorem round_cases {r : Option ℤ} (h : RangeFilled sp₀ n s₀ v perm c sp s)
    (hv : memoryTaskBase ≤ v) (hend : v + c * memPageSize < 2 ^ 32) (hperm : Present perm)
    (hperm' : perm < memPageSize) (hrun : memoryAllocRound sp₀.dir v perm c s = some (r, s')) :
    (r = none ∧ ∃ sp', RangeFilled sp₀ n s₀ v perm (c + 1) sp' s') ∨ r = some (-1) := by
  by_cases hempty : s.alloc.clearPages = ∅
  · rw [allocRound_halts h.owned.managed hempty] at hrun
    cases hrun
  have hne := Finset.nonempty_iff_ne_empty.mpr hempty
  have hpos := Finset.card_pos.mpr hne
  obtain ⟨p, hp, s₁, hs₁, hm, hclear, hmem, -⟩ := allocPage_spec h.owned.managed hne
  have hreq := Prog.require_of (s := s₁) (h.owned.clear p hp).ne_zero
  have howned := h.owned.take hmem hm hclear
  have hwrap : u32 (v + c * memPageSize) = v + c * memPageSize := u32_of_lt hend
  have hround := hrun
  rw [memoryAllocRound, Prog.bind_of_eq hs₁, Prog.bind_of_eq hreq, hwrap, ← h.dir] at hrun
  cases hentry : sp₀.entry (pdeIndex (v + c * memPageSize)) (pteIndex (v + c * memPageSize)) with
  | some e =>
      rw [Prog.bind_of_none (howned.createMap_mapped (h.entry_eq.trans hentry))] at hrun
      cases hrun
  | none =>
      by_cases hroom : sp.table (pdeIndex (v + c * memPageSize)) = none →
          2 ≤ s.alloc.clearPages.card
      · obtain ⟨sp', s₂, hs₂, hfilled⟩ := h.round hv hend hentry hne hroom hperm hperm'
        obtain ⟨rfl, rfl⟩ := Prog.result_unique hround hs₂
        exact .inl ⟨rfl, sp', hfilled⟩
      · obtain ⟨htable, hfew⟩ := Classical.not_imp.mp hroom
        have hempty₁ : s₁.alloc.clearPages = ∅ := by
          have hcard := Finset.card_erase_add_one hp
          rw [hclear, ← Finset.card_eq_zero]
          omega
        rw [Prog.bind_of_eq (howned.createMap_exhausted (by omega) hend htable hempty₁),
          if_pos (by norm_num)] at hrun
        obtain ⟨u, s₂, -, hret⟩ := Prog.bind_eq_some.mp hrun
        exact .inr (Prog.pure_eq_some.mp hret).1

end RangeFilled

/-! ## What the range is afterwards -/

/-- The page of an address of an aligned range. -/
theorem range_indices (hal : v % memPageSize = 0) (hw : v ≤ w) :
    pdeIndex w = pdeIndex (v + (w - v) / memPageSize * memPageSize) ∧
      pteIndex w = pteIndex (v + (w - v) / memPageSize * memPageSize) := by
  unfold pdeIndex pteIndex memPageSize at *
  omega

theorem RangeFilled.entry_in (h : RangeFilled sp n s v perm c sp' s') (hal : v % memPageSize = 0)
    (hw : v ≤ w) (hw' : w < v + c * memPageSize) : sp.entry (pdeIndex w) (pteIndex w) = none ∧
      ∃ p, KernelPage p ∧ sp'.entry (pdeIndex w) (pteIndex w) = some (p + perm) := by
  obtain ⟨hi, hj⟩ := range_indices hal hw
  have hk : (w - v) / memPageSize < c := by
    unfold memPageSize at *
    omega
  rw [hi, hj]
  exact ⟨h.unmapped _ hk, h.mapped _ hk⟩

theorem RangeMapped.entry_out (h : RangeMapped sp n s v perm c sp' s') (hal : v % memPageSize = 0)
    (hw : w < v ∨ v + c * memPageSize ≤ w) :
    sp'.entry (pdeIndex w) (pteIndex w) = sp.entry (pdeIndex w) (pteIndex w) := by
  refine h.old _ _ fun k hk heq => ?_
  have hlt : (k + 1) * memPageSize ≤ c * memPageSize := Nat.mul_le_mul_right _ hk
  obtain ⟨hi, hj⟩ := heq
  unfold pdeIndex pteIndex memPageSize at *
  omega

/-- The frames that were mapped keep their bytes. -/
theorem RangeMapped.frame_same {i j p x : ℕ} (h : RangeMapped sp n s v perm c sp' s')
    (ho : sp.Owned n s) (hp : sp.page (.frame i j) = some p) (hx : InPage p x) :
    s'.mem x = s.mem x := by
  have hpal := (ho.shape.kernelPage _ p hp).aligned
  refine h.out x (fun hdir => ?_) (fun k t ht hin => ?_) fun q hq hin => ?_
  · have hd := ho.dirPage.aligned
    have hin : InPage sp.dir x := by
      unfold InUserPdes InPage at *
      omega
    cases ho.shape.distinct _ .dir p hp (congrArg some (InPage.unique hd hpal hin hx))
  · have htp := (ho.tablePage ht).aligned
    cases ho.shape.distinct _ (.table k) p hp (InPage.unique htp hpal hin hx ▸ ht)
  · have heq := InPage.unique (ho.clear q hq).aligned hpal hin hx
    exact ho.apart _ p hp (heq ▸ hq)

/-! ## Whole calls -/

theorem pageCount_mul_le (size : ℕ) :
    up2 size memPageSize / memPageSize * memPageSize ≤ up2 size memPageSize := Nat.div_mul_le_self _ _

/-- A call that ends has mapped the range, or it returns an error. -/
theorem rangeFilled_of_call {r : ℤ} (h : sp.Owned n s) (hv : memoryTaskBase ≤ v)
    (hend : v + up2 size memPageSize ≤ 2 ^ 32) (hperm : Present perm) (hperm' : perm < memPageSize)
    (hrun : memoryAllocForPageDir sp.dir v size perm s = some (r, s')) :
    (r = 0 ∧ ∃ sp', RangeFilled sp n s v perm (up2 size memPageSize / memPageSize) sp' s') ∨
      r = -1 := by
  have hround : ∀ c t r t', 0 ≤ c → c < 0 + up2 size memPageSize / memPageSize →
      (∃ sp', RangeFilled sp n s v perm c sp' t) →
      memoryAllocRound sp.dir v perm c t = some (r, t') →
      r.elim (∃ sp', RangeFilled sp n s v perm (c + 1) sp' t') fun b => b = -1 := by
    rintro c t r t' - hc ⟨sp', hfilled⟩ ht
    have hlt : c * memPageSize < up2 size memPageSize / memPageSize * memPageSize :=
      Nat.mul_lt_mul_of_pos_right (by omega) (by decide)
    have hle := pageCount_mul_le size
    rcases hfilled.round_cases hv (by omega) hperm hperm' ht with ⟨rfl, hnext⟩ | rfl
    · exact hnext
    · rfl
  obtain ⟨q, s₁, hloop, hret⟩ := Prog.bind_eq_some.mp hrun
  obtain ⟨rfl, rfl⟩ := Prog.pure_eq_some.mp hret
  have hcases := Prog.loop_cases (Q := fun b _ => b = -1) hround ⟨sp, .refl h v perm⟩ hloop
  rw [Nat.zero_add] at hcases
  cases q with
  | none => exact .inl ⟨rfl, hcases⟩
  | some b => exact .inr hcases

/-- With exactly enough pages a range that is not mapped is mapped. -/
theorem rangeFilled_total (h : sp.Owned n s) (hv : memoryTaskBase ≤ v)
    (hend : v + up2 size memPageSize ≤ 2 ^ 32) (hnone : ∀ k < up2 size memPageSize / memPageSize,
      sp.entry (pdeIndex (v + k * memPageSize)) (pteIndex (v + k * memPageSize)) = none)
    (hroom : rangeNeed sp v (up2 size memPageSize / memPageSize) ≤ s.alloc.clearPages.card)
    (hperm : Present perm) (hperm' : perm < memPageSize) :
    ∃ sp' s', memoryAllocForPageDir sp.dir v size perm s = some (0, s') ∧
      RangeFilled sp n s v perm (up2 size memPageSize / memPageSize) sp' s' := by
  have hround : ∀ c t, 0 ≤ c → c < 0 + up2 size memPageSize / memPageSize →
      (∃ sp', RangeFilled sp n s v perm c sp' t) →
      ∃ t', memoryAllocRound sp.dir v perm c t = some (none, t') ∧
        ∃ sp', RangeFilled sp n s v perm (c + 1) sp' t' := by
    rintro c t - hc ⟨sp', hfilled⟩
    have hlt : c * memPageSize < up2 size memPageSize / memPageSize * memPageSize :=
      Nat.mul_lt_mul_of_pos_right (by omega) (by decide)
    have hle := pageCount_mul_le size
    -- What is left pays for the next page, and for its table if that is missing.
    have hneed := rangeNeed_mono sp v (show c + 1 ≤ up2 size memPageSize / memPageSize by omega)
    have hspent := hfilled.spent
    rw [rangeNeed] at hneed
    have hmissing : sp'.table (pdeIndex (v + c * memPageSize)) = none →
        2 ≤ t.alloc.clearPages.card := by
      intro ht
      rw [if_pos (hfilled.table_none.mp ht)] at hneed
      omega
    obtain ⟨sp₂, t', ht', hnext⟩ := hfilled.round hv (by omega) (hnone c (by omega))
      (Finset.card_pos.mp (by omega)) hmissing hperm hperm'
    exact ⟨t', ht', sp₂, hnext⟩
  obtain ⟨s', hloop, sp', hfilled⟩ := Prog.loop_total (i := 0) hround ⟨sp, .refl h v perm⟩
  rw [Nat.zero_add] at hfilled
  refine ⟨sp', s', ?_, hfilled⟩
  rw [memoryAllocForPageDir, Prog.bind_of_eq hloop]
  rfl

/-! ## Two calls in a row -/

variable {dir k i : ℕ}

theorem allocRound_result {b : ℤ} (hrun : memoryAllocRound dir v perm i s = some (some b, s')) :
    b = -1 := by
  obtain ⟨p, s₁, -, h₁⟩ := Prog.bind_eq_some.mp hrun
  obtain ⟨u, s₂, -, h₂⟩ := Prog.bind_eq_some.mp h₁
  obtain ⟨err, s₃, -, h₃⟩ := Prog.bind_eq_some.mp h₂
  split_ifs at h₃
  · obtain ⟨u, s₄, -, h₄⟩ := Prog.bind_eq_some.mp h₃
    exact Option.some.inj (Prog.pure_eq_some.mp h₄).1
  · cases (Prog.pure_eq_some.mp h₃).1

theorem allocLoop_of_call {r : ℤ} (hrun : memoryAllocForPageDir dir v size perm s = some (r, s'))
    (hr : 0 ≤ r) : r = 0 ∧ Prog.loop (memoryAllocRound dir v perm)
      (up2 size memPageSize / memPageSize) 0 s = some (none, s') := by
  obtain ⟨q, s₁, hloop, hret⟩ := Prog.bind_eq_some.mp hrun
  obtain ⟨rfl, rfl⟩ := Prog.pure_eq_some.mp hret
  have hround : ∀ j t q t', 0 ≤ j → j < 0 + up2 size memPageSize / memPageSize → True →
      memoryAllocRound dir v perm j t = some (q, t') → q.elim True fun b => b = -1 := by
    rintro j t q t' - - - ht
    cases q with
    | none => trivial
    | some b => exact allocRound_result ht
  have hcases := Prog.loop_cases (I := fun _ _ => True) (Q := fun b _ => b = -1) hround trivial hloop
  cases q with
  | none => exact ⟨rfl, hloop⟩
  | some b =>
      have hb : b = -1 := hcases
      subst b
      norm_num at hr

/-- The rounds of a range after `k` pages are those of the range that starts there. -/
theorem allocRound_shift {j : ℕ} (hrun : memoryAllocRound dir v perm (k + j) s = some (none, s')) :
    memoryAllocRound dir (v + k * memPageSize) perm j s = some (none, s') := by
  obtain ⟨p, s₁, hs₁, h₁⟩ := Prog.bind_eq_some.mp hrun
  obtain ⟨u, s₂, hs₂, h₂⟩ := Prog.bind_eq_some.mp h₁
  obtain ⟨err, s₃, hs₃, h₃⟩ := Prog.bind_eq_some.mp h₂
  have haddr : v + k * memPageSize + j * memPageSize = v + (k + j) * memPageSize := by
    rw [Nat.add_mul, Nat.add_assoc]
  rw [memoryAllocRound, Prog.bind_of_eq hs₁, Prog.bind_of_eq hs₂, haddr, Prog.bind_of_eq hs₃]
  split_ifs at h₃ with herr
  · obtain ⟨u, s₄, -, h₄⟩ := Prog.bind_eq_some.mp h₃
    cases (Prog.pure_eq_some.mp h₄).1
  · rw [if_neg herr]
    exact h₃

/-- A call for a range does what a call for its first pages and one for the others do. -/
theorem allocLoop_split {m : ℕ}
    (h : Prog.loop (memoryAllocRound dir v perm) (k + m) 0 s = some (none, s')) :
    ∃ s₁, Prog.loop (memoryAllocRound dir v perm) k 0 s = some (none, s₁) ∧
      Prog.loop (memoryAllocRound dir (v + k * memPageSize) perm) m 0 s₁ = some (none, s') := by
  obtain ⟨s₁, hfirst, hrest⟩ := Prog.loop_split h
  rw [Nat.zero_add] at hrest
  exact ⟨s₁, hfirst, Prog.loop_shift (k := k) (fun j t t' ht => allocRound_shift ht) hrest⟩

end X86Os
