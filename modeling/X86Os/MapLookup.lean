import X86Os.PageDirectory
import X86Os.UvmSeparate

/-!
# Mapping and looking up

What `memory_get_paddr` says after a successful call of `memory_create_map`. The mapped addresses are
found, and so is everything in other directories. In the same directory a new table changes the answer
for its other pages: `memory_get_paddr` does not look at the present bit of their zero entries.
-/

namespace X86Os

variable {n dir dir' v p perm count : ℕ} {s s' : Vm}

/-- The address `w` is looked up in both states with the same result. -/
def SameLookup (dir w : ℕ) (s s' : Vm) : Prop :=
  ∃ a, memoryGetPaddr dir w s = some (a, s) ∧ memoryGetPaddr dir w s' = some (a, s')

/-- The user half of the directory `dir'` shares nothing with the directory `dir`. -/
structure ApartUser (m : Mem) (clear : Finset ℕ) (dir dir' : ℕ) : Prop where
  dirPage : KernelPage dir'
  ne_dir : dir' ≠ dir
  unused : dir' ∉ clear
  no_table : ∀ k < pdeCnt, Present (m.pde dir k) → m.table dir k ≠ dir'
  tablePage : ∀ i, userPdeStart ≤ i → i < pdeCnt → Present (m.pde dir' i) →
    KernelPage (m.table dir' i) ∧ m.table dir' i ≠ dir ∧ m.table dir' i ∉ clear ∧
      ∀ k < pdeCnt, Present (m.pde dir k) → m.table dir k ≠ m.table dir' i

/-- After mapping `count` pages from `v` to `p`, lookups find these and are otherwise the same. -/
structure MapsRange (dir v p count perm : ℕ) (s s' : Vm) : Prop where
  mapped : ∀ k < count, ∀ off < memPageSize,
    memoryGetPaddr dir (v + memPageSize * k + off) s' =
      some (u32 (p + memPageSize * k + off), s') ∧
    ∃ e, s'.mem.userEntry dir (pdeIndex (v + memPageSize * k + off))
      (pteIndex (v + memPageSize * k + off)) = some e ∧ e % memPageSize = perm ||| pteP
  others : ∀ w < 2 ^ 32, (w < v ∨ v + memPageSize * count ≤ w) → SameLookup dir w s s'
  otherDirs : ∀ dir', ApartUser s.mem s.alloc.clearPages dir dir' →
    ∀ w, memoryTaskBase ≤ w → w < 2 ^ 32 → SameLookup dir' w s s'

/-- Every 4 MiB region that the range touches had a table before, or lies in the range. -/
def RegionsCovered (dir v count : ℕ) (s : Vm) : Prop :=
  ∀ k < count, Present (s.mem.pde dir (pdeIndex (v + memPageSize * k))) ∨
    (v ≤ pdeIndex (v + memPageSize * k) * 2 ^ 22 ∧
      (pdeIndex (v + memPageSize * k) + 1) * 2 ^ 22 ≤ v + memPageSize * count)

theorem Directory.sameLookup_iff (h : Directory s.mem dir) (h' : Directory s'.mem dir) {w : ℕ}
    (hw : w < 2 ^ 32) : SameLookup dir w s s' ↔ s'.mem.lookup dir w = s.mem.lookup dir w := by
  rw [SameLookup, h.memoryGetPaddr hw, h'.memoryGetPaddr hw]
  constructor
  · rintro ⟨a, ha, ha'⟩
    rw [(Prod.mk.inj (Option.some.inj ha)).1, (Prod.mk.inj (Option.some.inj ha')).1]
  · exact fun he => ⟨_, rfl, by rw [he]⟩

/-- Other directories are found as before, whatever is added to this one. -/
theorem Extended.otherDirs {tabled : Set ℕ} {new : ℕ → ℕ → Option ℕ}
    (hext : Extended n dir s tabled new s') (h : Growable n dir s)
    (ha : ApartUser s.mem s.alloc.clearPages dir dir') {w : ℕ} (hw : memoryTaskBase ≤ w)
    (hw' : w < 2 ^ 32) : SameLookup dir' w s s' := by
  obtain ⟨hi, hi'⟩ := pdeIndex_user hw hw'
  have hout : ∀ q, KernelPage q → q ≠ dir → q ∉ s.alloc.clearPages →
      (∀ k < pdeCnt, Present (s.mem.pde dir k) → s.mem.table dir k ≠ q) →
      ∀ x, InPage q x → s'.mem x = s.mem x := by
    intro q hq hne hclear htable x hx
    refine hext.out x (fun hd => hne ?_) (fun k hk hp ht => htable k hk hp ?_) fun r hr hxr => ?_
    · exact InPage.unique hq.aligned h.directory.dirPage.aligned hx hd
    · exact InPage.unique (h.directory.tablePage k hk hp).1.aligned hq.aligned ht hx
    · exact hclear (InPage.unique hq.aligned (h.usable r hr).aligned hx hxr ▸ hr)
  have hdir := hout dir' ha.dirPage ha.ne_dir ha.unused ha.no_table
  have htable := ha.tablePage _ hi hi'
  have hpde : s'.mem.pde dir' (pdeIndex w) = s.mem.pde dir' (pdeIndex w) :=
    Mem.read32_congr fun x hx hx' => hdir x (inPage_word hi' hx hx')
  have hword : s'.mem.pteWord dir' (pdeIndex w) (pteIndex w) =
      s.mem.pteWord dir' (pdeIndex w) (pteIndex w) := by
    refine Mem.pteWord_congr hi' (pteIndex_lt w) hdir fun hp => ?_
    obtain ⟨htp, hne, hclear, hno⟩ := htable hp
    exact hout _ htp hne hclear hno
  refine ⟨_, memoryGetPaddr_eq ha.dirPage hw' fun hp => (htable hp).1, ?_⟩
  rw [memoryGetPaddr_eq ha.dirPage hw' fun hp => ?_, Mem.lookup, Mem.lookup, hword]
  rw [Mem.table, hpde]
  exact (htable (hpde ▸ hp)).1

/-! ## The mapped range -/

/-- An address of the page with number `k` of an aligned range has the indices of that page. -/
theorem rangePage_index {k off : ℕ} (hal : v % memPageSize = 0) (hoff : off < memPageSize)
    (hlt : v + memPageSize * k + off < 2 ^ 32) :
    pdeIndex (v + memPageSize * k + off) = pdeIndex (u32 (v + k * memPageSize)) ∧
      pteIndex (v + memPageSize * k + off) = pteIndex (u32 (v + k * memPageSize)) := by
  unfold pdeIndex pteIndex u32 memPageSize at *
  omega

theorem mapEntry_eq {a : ℕ} (ha : a % memPageSize = 0) (hperm : perm < memPageSize) :
    entryPaddr (a ||| perm ||| pteP) = a ∧ (a ||| perm ||| pteP) % memPageSize = perm ||| pteP := by
  have hlow : perm ||| pteP < memPageSize := by
    have hone : pteP < 2 ^ 12 := by decide
    exact Nat.or_lt_two_pow (show perm < 2 ^ 12 from hperm) hone
  rw [Nat.or_assoc, or_eq_add ha hlow]
  refine ⟨entryPaddr_add ha hlow, ?_⟩
  unfold memPageSize at *
  omega

/-- A directory to which the range was added. -/
def RangeAdded (n dir v p count perm : ℕ) (s s' : Vm) : Prop :=
  Extended n dir s (rangeTables v count)
    (rangeEntries v (fun k => u32 (p + k * memPageSize) ||| perm ||| pteP) count) s'

theorem RangeAdded.mapped (hext : RangeAdded n dir v p count perm s s')
    (hv : v % memPageSize = 0) (hp : p % memPageSize = 0) (hend : v + memPageSize * count ≤ 2 ^ 32)
    (hperm : perm < memPageSize) {k off : ℕ} (hk : k < count) (hoff : off < memPageSize) :
    memoryGetPaddr dir (v + memPageSize * k + off) s' =
      some (u32 (p + memPageSize * k + off), s') ∧
    ∃ e, s'.mem.userEntry dir (pdeIndex (v + memPageSize * k + off))
      (pteIndex (v + memPageSize * k + off)) = some e ∧ e % memPageSize = perm ||| pteP := by
  have hkc : memPageSize * k + memPageSize ≤ memPageSize * count := by
    rw [← Nat.mul_succ]
    exact Nat.mul_le_mul_left _ hk
  have hlt : v + memPageSize * k + off < 2 ^ 32 := by omega
  obtain ⟨hi, hj⟩ := rangePage_index hv hoff hlt
  have hal : u32 (p + k * memPageSize) % memPageSize = 0 := by
    unfold u32 memPageSize at *
    omega
  obtain ⟨hpaddr, hlow⟩ := mapEntry_eq hal hperm
  have hcount : count ≤ 2 ^ 20 := by
    unfold memPageSize at hend
    omega
  have hword := hext.added _ (pdeIndex_lt hlt) _ (pteIndex_lt _) _
    (by rw [hi, hj]; exact rangeEntries_at hcount hk)
  refine ⟨?_, _, ?_, hlow⟩
  · rw [hext.growable.directory.memoryGetPaddr hlt, Mem.lookup, hword]
    simp only [hpaddr]
    congr 2
    unfold u32 memPageSize at *
    omega
  · rw [Mem.userEntry_eq_filter, hword]
    simp [Option.filter, present_or_pteP]

/-- The pages of an aligned range that does not wrap. -/
theorem rangePage_wrap {k : ℕ} (hend : v + memPageSize * count ≤ 2 ^ 32) (hk : k < count) :
    u32 (v + k * memPageSize) = v + memPageSize * k ∧ v + memPageSize * k < 2 ^ 32 := by
  have hkc := Nat.mul_lt_mul_of_pos_left hk (show 0 < memPageSize by decide)
  rw [Nat.mul_comm k]
  exact ⟨u32_of_lt (by omega), by omega⟩

theorem rangeEntries_out {f : ℕ → ℕ} {w : ℕ} (hv : v % memPageSize = 0)
    (hend : v + memPageSize * count ≤ 2 ^ 32) (hw : w < v ∨ v + memPageSize * count ≤ w) :
    rangeEntries v f count (pdeIndex w) (pteIndex w) = none := by
  rw [rangeEntries_eq_none]
  rintro k hk ⟨hi, hj⟩
  have hkc := Nat.mul_le_mul_left memPageSize (show k + 1 ≤ count from hk)
  rw [(rangePage_wrap hend hk).1] at hi hj
  unfold pdeIndex pteIndex memPageSize at *
  omega

/-- The other addresses keep their lookups exactly if no touched region had no table before. -/
theorem RangeAdded.others_iff (hext : RangeAdded n dir v p count perm s s') (h : Growable n dir s)
    (hv : v % memPageSize = 0) (hend : v + memPageSize * count ≤ 2 ^ 32) :
    (∀ w < 2 ^ 32, (w < v ∨ v + memPageSize * count ≤ w) → SameLookup dir w s s') ↔
      RegionsCovered dir v count s := by
  constructor
  · intro hothers k hk
    obtain ⟨hwrap, hlt⟩ := rangePage_wrap hend hk
    by_contra hno
    rw [not_or, not_and_or] at hno
    obtain ⟨habsent, hpart⟩ := hno
    have hi := pdeIndex_lt hlt
    have hnew : ∀ w < 2 ^ 32, (w < v ∨ v + memPageSize * count ≤ w) →
        pdeIndex w = pdeIndex (v + memPageSize * k) → w % memPageSize = 0 := by
      intro w hw hout hwi
      have hsame := (h.directory.sameLookup_iff hext.growable.directory hw).mp (hothers w hw hout)
      have hfilled := hext.filled (pdeIndex w) (hwi ▸ hi) ⟨k, hk, by rw [hwrap, hwi]⟩ _
        (pteIndex_lt w) (rangeEntries_out hv hend hout)
      rw [Mem.lookup, Mem.lookup, hfilled, Mem.pteWord, hwi, if_neg habsent] at hsame
      have hoff : u32 (w % memPageSize) = w % memPageSize := u32_of_lt (by
        unfold memPageSize
        omega)
      simpa [entryPaddr, hoff] using hsame
    rcases hpart with hlow | hhigh
    · -- The second byte of the region is before the range.
      have := hnew (pdeIndex (v + memPageSize * k) * 2 ^ 22 + 1) ?_ (.inl ?_) ?_
      all_goals
        unfold pdeIndex memPageSize at *
        omega
    · -- The last byte of the region is behind the range.
      have := hnew ((pdeIndex (v + memPageSize * k) + 1) * 2 ^ 22 - 1) ?_ (.inr ?_) ?_
      all_goals
        unfold pdeIndex memPageSize at *
        omega
  · intro hcovered w hw hout
    rw [h.directory.sameLookup_iff hext.growable.directory hw, Mem.lookup, Mem.lookup]
    by_cases ht : pdeIndex w ∈ rangeTables v count
    · obtain ⟨k, hk, hki⟩ := ht
      obtain ⟨hwrap, hlt⟩ := rangePage_wrap hend hk
      rw [hwrap] at hki
      rcases hcovered k hk with hpres | hin
      · rw [hext.filled _ (pdeIndex_lt hw) ⟨k, hk, by rw [hwrap, hki]⟩ _ (pteIndex_lt w)
          (rangeEntries_out hv hend hout), Mem.pteWord, hki, if_pos hpres]
        rfl
      · exfalso
        rw [← hki] at hin
        unfold pdeIndex memPageSize at *
        omega
    · rw [hext.kept _ (pdeIndex_lt hw) ht _ (pteIndex_lt w)]

theorem RangeAdded.mapsRange_iff (hext : RangeAdded n dir v p count perm s s')
    (h : Growable n dir s) (hv : v % memPageSize = 0) (hp : p % memPageSize = 0)
    (hend : v + memPageSize * count ≤ 2 ^ 32) (hperm : perm < memPageSize) :
    MapsRange dir v p count perm s s' ↔ RegionsCovered dir v count s := by
  rw [← hext.others_iff h hv hend]
  exact ⟨MapsRange.others, fun hothers =>
    ⟨fun k hk off hoff => hext.mapped hv hp hend hperm hk hoff, hothers,
      fun dir' ha w hw hw' => hext.otherDirs h ha hw hw'⟩⟩

/-- A successful call of `memory_create_map` maps the range and leaves all other lookups as they
were exactly if every region that it touches had a table or is mapped completely. -/
theorem map_then_look_up (h : Growable n dir s) (hv : v % memPageSize = 0) (hv' : v < 2 ^ 32)
    (hp : p % memPageSize = 0) (hp' : p < 2 ^ 32) (hend : v + memPageSize * count ≤ 2 ^ 32)
    (hperm : perm < memPageSize) (hrun : memoryCreateMap dir perm count v p s = some (0, s')) :
    MapsRange dir v p count perm s s' ↔ RegionsCovered dir v count s := by
  have hperm' : perm < 2 ^ 32 := hperm.trans (by decide)
  have hext : RangeAdded n dir v p count perm s s' := h.createMap hp' hv' hperm' hrun
  exact hext.mapsRange_iff h hv hp hend hperm

/-! ## The directory with one page -/

theorem onePage_pde {i : ℕ} (hi : i < pdeCnt) :
    onePageVm.mem.pde 0x200000 i = if i = 512 then 0x201007 else 0 := by
  by_cases hlow : i < 512
  · rw [if_neg (by omega)]
    exact onePageVm_zero (by omega)
  · have htables := onePage_owned.shape.pde i (by
      show 512 ≤ i
      omega) hi
    refine htables.trans ?_
    by_cases he : i = 512
    · subst i
      rfl
    · rw [if_neg he]
      simp [onePage, Space.addEntry, Space.addTable, Space.empty, he]

theorem onePage_table {i : ℕ} (hi : i < pdeCnt) (hp : Present (onePageVm.mem.pde 0x200000 i)) :
    i = 512 ∧ onePageVm.mem.table 0x200000 i = 0x201000 := by
  rw [onePage_pde hi] at hp
  by_cases he : i = 512
  · refine ⟨he, ?_⟩
    rw [Mem.table, onePage_pde hi, if_pos he]
    rfl
  · rw [if_neg he] at hp
    cases hp

theorem onePage_growable : Growable 8 0x200000 onePageVm := by
  have htable : onePage.page (.table 512) = some 0x201000 := rfl
  refine ⟨⟨onePage_owned.dirPage, fun i hi hp => ?_, fun i hi k hk hp hp' _ => ?_⟩,
    onePage_owned.managed, onePage_owned.clear, onePage_owned.apart .dir _ rfl, fun i hi hp => ?_⟩
  · rw [(onePage_table hi hp).2]
    exact ⟨onePage_owned.shape.kernelPage _ _ htable, by decide⟩
  · rw [(onePage_table hi hp).1, (onePage_table hk hp').1]
  · rw [(onePage_table hi hp).2]
    exact onePage_owned.apart _ _ htable

theorem onePageVm_nonempty : onePageVm.alloc.clearPages.Nonempty := by
  refine Finset.card_pos.mp ?_
  rw [onePageVm_card]
  norm_num

/-- A user page other than the first one can be mapped to the page at 4 MiB. -/
theorem onePage_map {v : ℕ} (hv : memoryTaskBase ≤ v) (hv' : v < 2 ^ 32)
    (hnone : onePage.entry (pdeIndex v) (pteIndex v) = none) :
    ∃ s, memoryCreateMap 0x200000 7 1 v 0x400000 onePageVm = some (0, s) := by
  have hclear : 0x400000 ∉ onePageVm.alloc.clearPages := by
    intro h
    obtain ⟨k, hk, h⟩ := onePageVm_clear h
    omega
  have hfresh : ∀ x, onePage.page x ≠ some 0x400000 := by
    intro x hx
    have := onePage_page hx
    omega
  obtain ⟨sp, s, t, hrun, -⟩ := onePage_owned.mapPage hv hv' hnone (fun _ => onePageVm_nonempty)
    ⟨by decide, .inr ⟨by decide, by decide⟩, by decide⟩ hclear hfresh (show Present 7 by decide)
    (by decide)
  exact ⟨s, hrun⟩

/-- A page is mapped next to the first one, in the same table. -/
theorem map_then_look_up_onePage : ∃ s,
    memoryCreateMap 0x200000 7 1 0x80001000 0x400000 onePageVm = some (0, s) ∧
      MapsRange 0x200000 0x80001000 0x400000 1 7 onePageVm s := by
  obtain ⟨s, hrun⟩ := onePage_map (v := 0x80001000) (by decide) (by decide) rfl
  refine ⟨s, hrun, (map_then_look_up onePage_growable (by decide) (by decide) (by decide) (by decide)
    (by decide) (by decide) hrun).mpr fun k hk => .inl ?_⟩
  obtain rfl : k = 0 := by omega
  have hpde := onePage_pde (show 512 < pdeCnt by decide)
  show Present (onePageVm.mem.pde 0x200000 512)
  rw [hpde]
  decide

/-- A page is mapped in the next region: its new table answers for the address after it. -/
theorem map_then_look_up_counterexample : ∃ s,
    memoryCreateMap 0x200000 7 1 0x80400000 0x400000 onePageVm = some (0, s) ∧
      memoryGetPaddr 0x200000 0x80401001 onePageVm = some (0, onePageVm) ∧
      memoryGetPaddr 0x200000 0x80401001 s = some (1, s) ∧
      ¬ MapsRange 0x200000 0x80400000 0x400000 1 7 onePageVm s := by
  have hw : 0x80401001 < 2 ^ 32 := by decide
  have hg := onePage_growable
  obtain ⟨s, hrun⟩ := onePage_map (v := 0x80400000) (by decide) (by decide) rfl
  have hext := hg.createMap (by decide) (by decide) (by decide) hrun
  have habsent : onePageVm.mem.pteWord 0x200000 513 1 = none := by
    have hpde := onePage_pde (show 513 < pdeCnt by decide)
    rw [Mem.pteWord, hpde]
    rfl
  have hfilled := hext.filled 513 (by decide) ⟨0, by decide, rfl⟩ 1 (by decide) rfl
  rw [habsent] at hfilled
  have hbefore : memoryGetPaddr 0x200000 0x80401001 onePageVm = some (0, onePageVm) := by
    rw [hg.directory.memoryGetPaddr hw, Mem.lookup, show pdeIndex 0x80401001 = 513 by decide,
      show pteIndex 0x80401001 = 1 by decide, habsent]
  have hafter : memoryGetPaddr 0x200000 0x80401001 s = some (1, s) := by
    rw [hext.growable.directory.memoryGetPaddr hw, Mem.lookup,
      show pdeIndex 0x80401001 = 513 by decide, show pteIndex 0x80401001 = 1 by decide, hfilled]
    rfl
  refine ⟨s, hrun, hbefore, hafter, fun hmaps => ?_⟩
  obtain ⟨a, ha, ha'⟩ := hmaps.others 0x80401001 hw (.inr (by decide))
  rw [hbefore] at ha
  rw [hafter] at ha'
  have h0 := (Prod.mk.inj (Option.some.inj ha)).1
  have h1 := (Prod.mk.inj (Option.some.inj ha')).1
  omega

end X86Os
