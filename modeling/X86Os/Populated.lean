import X86Os.RangeAlloc
import X86Os.UvmData

/-!
# Filling an address space

A new directory is filled from clear pages: ranges are mapped and bytes are written to mapped pages.
The bytes that were written are an image by user address, and what was mapped and never written is
still what the page held when it was clear.
-/

namespace X86Os

variable {n dir v w size perm : ℕ} {s₀ s s' : Vm} {img img' : ℕ → Option (BitVec 8)} {m' : Mem}

def UserAddr (v : ℕ) : Prop := memoryTaskBase ≤ v ∧ v < 2 ^ 32

/-- The directory `dir` maps pages that were clear in `s₀`, every user page its own, and shows the image
`img` and, where that has no byte, what was in the page. -/
structure Populated (n dir : ℕ) (s₀ : Vm) (img : ℕ → Option (BitVec 8)) (s : Vm) : Prop where
  growable : Growable n dir s
  clear : s.alloc.clearPages ⊆ s₀.alloc.clearPages
  usable : ∀ p ∈ s₀.alloc.clearPages, KernelPage p
  dir_out : dir ∉ s₀.alloc.clearPages
  tables : ∀ i < pdeCnt, Present (s.mem.pde dir i) →
    (Present (s₀.mem.pde dir i) ∧ s.mem.table dir i = s₀.mem.table dir i) ∨
      s.mem.table dir i ∈ s₀.alloc.clearPages
  frame : ∀ v e, UserAddr v → s.mem.entryAt dir v = some e →
    entryPaddr e ∈ s₀.alloc.clearPages ∧ entryPaddr e ∉ s.alloc.clearPages ∧
      ∀ i < pdeCnt, Present (s.mem.pde dir i) → s.mem.table dir i ≠ entryPaddr e
  distinct : ∀ v w e e', UserAddr v → UserAddr w → s.mem.entryAt dir v = some e →
    s.mem.entryAt dir w = some e' → entryPaddr e = entryPaddr e' →
    v / memPageSize = w / memPageSize
  zero : ∀ v x, UserAddr v → s.mem.pteWord dir (pdeIndex v) (pteIndex v) = some x →
    ¬ Present x → x = 0
  content : ∀ v x, UserAddr v → s.mem.walk dir v = some x → s.mem x = (img v).getD (s₀.mem x)
  unmapped : ∀ v, UserAddr v → s.mem.walk dir v = none → img v = none
  unused : ∀ p ∈ s.alloc.clearPages, ∀ x, InPage p x → s.mem x = s₀.mem x

/-- Nothing outside the directory, its tables and the pages that were taken has changed. -/
def Untouched (dir : ℕ) (s₀ s : Vm) : Prop :=
  ∀ x, ¬ InPage dir x →
    (∀ i < pdeCnt, Present (s₀.mem.pde dir i) → ¬ InPage (s₀.mem.table dir i) x) →
    (∀ p ∈ s₀.alloc.clearPages, p ∉ s.alloc.clearPages → ¬ InPage p x) → s.mem x = s₀.mem x

theorem UserAddr.indices (hv : UserAddr v) : userPdeStart ≤ pdeIndex v ∧ pdeIndex v < pdeCnt :=
  pdeIndex_user hv.1 hv.2

theorem walk_eq_some {m : Mem} {x : ℕ} :
    m.walk dir v = some x ↔ ∃ e, m.entryAt dir v = some e ∧ x = entryPaddr e + v % memPageSize := by
  rw [walk_eq, Option.map_eq_some_iff]
  constructor
  · rintro ⟨e, he, rfl⟩
    exact ⟨e, he, rfl⟩
  · rintro ⟨e, he, rfl⟩
    exact ⟨e, he, rfl⟩

theorem walk_eq_none {m : Mem} : m.walk dir v = none ↔ m.entryAt dir v = none := by
  rw [walk_eq, Option.map_eq_none_iff]

theorem walk_in_frame {e : ℕ} : InPage (entryPaddr e) (entryPaddr e + v % memPageSize) := by
  unfold InPage memPageSize
  omega

/-- The addresses of a mapped page follow each other in its frame. -/
theorem walk_add {m : Mem} {k x : ℕ} (hk : v % memPageSize + k < memPageSize)
    (hx : m.walk dir v = some x) : m.walk dir (v + k) = some (x + k) := by
  obtain ⟨e, he, rfl⟩ := walk_eq_some.mp hx
  have hpage : (v + k) / memPageSize = v / memPageSize := by
    unfold memPageSize at *
    omega
  have hoff : (v + k) % memPageSize = v % memPageSize + k := by
    unfold memPageSize at *
    omega
  rw [walk_eq_some]
  exact ⟨e, (same_page hpage).2.trans he, by rw [hoff, Nat.add_assoc]⟩

/-- Bytes outside the directory do not matter. -/
theorem Growable.congr (h : Growable n dir s) (hdir : ∀ x, InPage dir x → m' x = s.mem x) :
    Growable n dir { s with mem := m' } ∧ ∀ i < pdeCnt, m'.pde dir i = s.mem.pde dir i := by
  have hpde : ∀ i < pdeCnt, m'.pde dir i = s.mem.pde dir i := fun i hi =>
    Mem.read32_congr fun x hx hx' => hdir x (inPage_word hi hx hx')
  refine ⟨⟨⟨h.directory.dirPage, fun i hi hp => ?_, fun i hi k hk hp hp' he => ?_⟩, h.managed,
    h.usable, h.dir_taken, fun i hi hp => ?_⟩, hpde⟩
  · rw [hpde i hi] at hp
    rw [Mem.table, hpde i hi]
    exact h.directory.tablePage i hi hp
  · rw [hpde i hi] at hp
    rw [hpde k hk] at hp'
    rw [Mem.table, Mem.table, hpde i hi, hpde k hk] at he
    exact h.directory.apart i hi k hk hp hp' he
  · rw [hpde i hi] at hp
    rw [Mem.table, hpde i hi]
    exact h.table_taken i hi hp

/-- The pages of the space are the same after bytes outside the directory and the tables changed. -/
theorem entries_congr (hdir : ∀ x, InPage dir x → m' x = s.mem x)
    (htables : ∀ i < pdeCnt, Present (s.mem.pde dir i) → ∀ x, InPage (s.mem.table dir i) x →
      m' x = s.mem x) :
    (∀ v, UserAddr v → m'.pteWord dir (pdeIndex v) (pteIndex v) =
        s.mem.pteWord dir (pdeIndex v) (pteIndex v)) ∧
      ∀ v, UserAddr v → m'.entryAt dir v = s.mem.entryAt dir v := by
  have hword : ∀ v, UserAddr v → m'.pteWord dir (pdeIndex v) (pteIndex v) =
      s.mem.pteWord dir (pdeIndex v) (pteIndex v) := fun v hv =>
    Mem.pteWord_congr hv.indices.2 (pteIndex_lt v) hdir (htables _ hv.indices.2)
  refine ⟨hword, fun v hv => ?_⟩
  rw [Mem.entryAt, Mem.entryAt, Mem.userEntry_eq_filter, Mem.userEntry_eq_filter, hword v hv]

/-- An empty user half. -/
theorem Populated.start (h : Growable n dir s)
    (hnone : ∀ i, userPdeStart ≤ i → i < pdeCnt → ¬ Present (s.mem.pde dir i)) :
    Populated n dir s (fun _ => none) s := by
  have hword : ∀ v, UserAddr v → s.mem.pteWord dir (pdeIndex v) (pteIndex v) = none :=
    fun v hv => if_neg (hnone _ hv.indices.1 hv.indices.2)
  have hentry : ∀ v, UserAddr v → s.mem.entryAt dir v = none := by
    intro v hv
    rw [Mem.entryAt, Mem.userEntry_eq_filter, hword v hv]
    rfl
  refine ⟨h, Finset.Subset.refl _, h.usable, h.dir_taken, fun i _ hp => .inl ⟨hp, rfl⟩,
    fun v e hv he => ?_, fun v w e e' hv _ he => ?_, fun v x hv hx => ?_, fun v x hv hx => ?_,
    fun _ _ _ => rfl, fun _ _ _ _ => rfl⟩
  · rw [hentry v hv] at he
    cases he
  · rw [hentry v hv] at he
    cases he
  · rw [hword v hv] at hx
    cases hx
  · rw [walk_eq_none.mpr (hentry v hv)] at hx
    cases hx

namespace Populated

/-- The frame of a user address is apart from the directory and the tables. -/
theorem frame_apart (h : Populated n dir s₀ img s) {x : ℕ} (hv : UserAddr v)
    (hx : s.mem.walk dir v = some x) : ∃ p ∈ s₀.alloc.clearPages, InPage p x ∧ KernelPage p ∧
      p ≠ dir ∧ p ∉ s.alloc.clearPages ∧
      ∀ i < pdeCnt, Present (s.mem.pde dir i) → s.mem.table dir i ≠ p := by
  obtain ⟨e, he, rfl⟩ := walk_eq_some.mp hx
  obtain ⟨hmem, hout, htables⟩ := h.frame v e hv he
  exact ⟨_, hmem, walk_in_frame, h.usable _ hmem, fun heq => h.dir_out (heq ▸ hmem), hout, htables⟩

theorem walk_injective (h : Populated n dir s₀ img s) {x : ℕ} (hv : UserAddr v) (hw : UserAddr w)
    (hvx : s.mem.walk dir v = some x) (hwx : s.mem.walk dir w = some x) : v = w := by
  obtain ⟨e, he, rfl⟩ := walk_eq_some.mp hvx
  obtain ⟨e', he', heq⟩ := walk_eq_some.mp hwx
  have hal := entryPaddr_mod e
  have hal' := entryPaddr_mod e'
  have hpage : entryPaddr e = entryPaddr e' ∧ v % memPageSize = w % memPageSize := by
    unfold memPageSize at *
    omega
  have := h.distinct v w e e' hv hw he he' hpage.1
  unfold memPageSize at *
  omega

theorem walk_identity (h : Populated n dir s₀ img s) {x : ℕ} (hv : UserAddr v)
    (hx : s.mem.walk dir v = some x) : Identity x := by
  obtain ⟨e, he, rfl⟩ := walk_eq_some.mp hx
  have hkp := h.usable _ (h.frame v e hv he).1
  exact hkp.identity.add hkp.aligned (Nat.mod_lt v (by decide))

theorem getPaddr (h : Populated n dir s₀ img s) {x : ℕ} (hv : UserAddr v)
    (hx : s.mem.walk dir v = some x) : memoryGetPaddr dir v s = some (x, s) := by
  have hlt := (h.walk_identity hv hx).lt
  obtain ⟨e, he, rfl⟩ := walk_eq_some.mp hx
  rw [h.growable.directory.memoryGetPaddr hv.2, Mem.lookup, pteWord_of_entryAt he]
  show some (u32 (entryPaddr e + v % memPageSize), s) = _
  rw [u32_of_lt (by omega)]

/-! ## Mapping a range -/

/-- The entry of a user page after a range was allocated: one of the new frames, or what it was. -/
theorem alloc_cases {f : ℕ → ℕ} {c e : ℕ} (h : Populated n dir s₀ img s)
    (hr : RangeAllocated n dir v perm f c s s') (hg : RangeGrown dir v f c s s')
    (hperm : perm < memPageSize) (hw : UserAddr w) (he : s'.mem.entryAt dir w = some e) :
    (∃ k < c, entryPaddr e = f k ∧ s.mem.entryAt dir w = none ∧
      pdeIndex w = pdeIndex (u32 (v + k * memPageSize)) ∧
      pteIndex w = pteIndex (u32 (v + k * memPageSize))) ∨ s.mem.entryAt dir w = some e := by
  rw [Mem.entryAt, hr.userEntry_eq hw.indices.2 (pteIndex_lt w)] at he
  cases hnew : rangeEntries v (fun k => f k ||| perm ||| pteP) c (pdeIndex w) (pteIndex w) with
  | none =>
      rw [hnew, Option.none_or] at he
      exact .inr he
  | some x =>
      rw [hnew] at he
      obtain rfl : x = e := Option.some.inj he
      obtain ⟨k, hk, rfl, hi, hj⟩ := rangeEntries_eq_some hnew
      have hold := hg.unmapped k hk
      rw [← hi, ← hj] at hold
      exact .inl ⟨k, hk, (mapEntry_eq (h.growable.usable _ (hr.fresh k hk).1).aligned hperm).1, hold,
        hi, hj⟩

/-- What was mapped stays mapped to the same frame. -/
theorem alloc_entry {f : ℕ → ℕ} {c e : ℕ} (hr : RangeAllocated n dir v perm f c s s')
    (hg : RangeGrown dir v f c s s') (hw : UserAddr w) (he : s.mem.entryAt dir w = some e) :
    s'.mem.entryAt dir w = some e := by
  rw [Mem.entryAt, hr.userEntry_eq hw.indices.2 (pteIndex_lt w)]
  cases hnew : rangeEntries v (fun k => f k ||| perm ||| pteP) c (pdeIndex w) (pteIndex w) with
  | none => exact he
  | some x =>
      obtain ⟨k, hk, -, hi, hj⟩ := rangeEntries_eq_some hnew
      have hold := hg.unmapped k hk
      rw [← hi, ← hj] at hold
      rw [Mem.entryAt, hold] at he
      cases he

theorem alloc {f : ℕ → ℕ} {c : ℕ} (h : Populated n dir s₀ img s)
    (hr : RangeAllocated n dir v perm f c s s') (hg : RangeGrown dir v f c s s')
    (hperm : perm < memPageSize) : Populated n dir s₀ img s' := by
  have hg' := hr.extended.growable
  have hsub := hr.extended.clear
  have hframe : ∀ w e, UserAddr w → s'.mem.entryAt dir w = some e →
      entryPaddr e ∈ s₀.alloc.clearPages ∧ entryPaddr e ∉ s'.alloc.clearPages ∧
        ∀ i < pdeCnt, Present (s'.mem.pde dir i) → s'.mem.table dir i ≠ entryPaddr e := by
    intro w e hw he
    rcases h.alloc_cases hr hg hperm hw he with ⟨k, hk, hef, -⟩ | hold
    · rw [hef]
      exact ⟨h.clear (hr.fresh k hk).1, (hr.fresh k hk).2, hg.apart k hk⟩
    · obtain ⟨hmem, hout, htables⟩ := h.frame w e hw hold
      refine ⟨hmem, fun hc => hout (hsub hc), fun i hi hp heq => ?_⟩
      rcases hg.grows.fresh i hi hp with hp₀ | hc
      · exact htables i hi hp₀ ((hg.grows.keeps i hi hp₀).2.symm.trans heq)
      · exact hout (heq ▸ hc)
  -- Bytes of frames, old and new, are not written to.
  have hsame : ∀ w x, UserAddr w → s'.mem.walk dir w = some x → s'.mem x = s.mem x := by
    intro w x hw hx
    obtain ⟨e, he, rfl⟩ := walk_eq_some.mp hx
    obtain ⟨hmem, -, htables⟩ := hframe w e hw he
    have hal := entryPaddr_mod e
    refine hg.grows.confined _ (fun hin => ?_) fun i hi hp hin => ?_
    · exact h.dir_out (InPage.unique hal h.growable.directory.dirPage.aligned walk_in_frame hin ▸ hmem)
    · exact htables i hi hp
        (InPage.unique (entryPaddr_mod _) hal hin walk_in_frame)
  refine ⟨hg', hsub.trans h.clear, h.usable, h.dir_out, fun i hi hp => ?_, hframe,
    fun w w' e e' hw hw' he he' heq => ?_, fun w x hw hx hp => ?_, fun w x hw hx => ?_,
    fun w hw hnone => ?_, fun p hp x hx => ?_⟩
  · rcases hg.grows.fresh i hi hp with hp₀ | hc
    · have htable := (hg.grows.keeps i hi hp₀).2
      rw [htable]
      exact h.tables i hi hp₀
    · exact .inr (h.clear hc)
  · rcases h.alloc_cases hr hg hperm hw he with ⟨k, hk, hef, -, hi, hj⟩ | hold
    · rcases h.alloc_cases hr hg hperm hw' he' with ⟨l, hl, hef', -, hi', hj'⟩ | hold'
      · have hkl := hr.distinct k hk l hl (hef.symm.trans (heq.trans hef'))
        subst l
        exact page_of_indices (hi.trans hi'.symm) (hj.trans hj'.symm)
      · exact absurd (heq.symm.trans hef ▸ (hr.fresh k hk).1) (h.frame w' e' hw' hold').2.1
    · rcases h.alloc_cases hr hg hperm hw' he' with ⟨l, hl, hef', -⟩ | hold'
      · exact absurd (heq.trans hef' ▸ (hr.fresh l hl).1) (h.frame w e hw hold).2.1
      · exact h.distinct w w' e e' hw hw' hold hold' heq
  · have hi := hw.indices.2
    have hj := pteIndex_lt w
    cases hnew : rangeEntries v (fun k => f k ||| perm ||| pteP) c (pdeIndex w) (pteIndex w) with
    | some y =>
        rw [hr.extended.added _ hi _ hj y hnew] at hx
        obtain ⟨k, -, rfl, -⟩ := rangeEntries_eq_some hnew
        exact absurd (Option.some.inj hx ▸ present_or_pteP _) hp
    | none =>
        by_cases ht : pdeIndex w ∈ rangeTables v c
        · rw [hr.extended.filled _ hi ht _ hj hnew] at hx
          cases hold : s.mem.pteWord dir (pdeIndex w) (pteIndex w) with
          | none =>
              rw [hold] at hx
              exact (Option.some.inj hx).symm
          | some y =>
              rw [hold] at hx
              obtain rfl : y = x := Option.some.inj hx
              exact h.zero w y hw hold hp
        · rw [hr.extended.kept _ hi ht _ hj] at hx
          exact h.zero w x hw hx hp
  · rw [hsame w x hw hx]
    obtain ⟨e, he, rfl⟩ := walk_eq_some.mp hx
    rcases h.alloc_cases hr hg hperm hw he with ⟨k, hk, hef, hold, -⟩ | hold
    · rw [h.unmapped w hw (walk_eq_none.mpr hold)]
      exact h.unused _ (hr.fresh k hk).1 _ (hef ▸ walk_in_frame)
    · exact h.content w _ hw (walk_eq_some.mpr ⟨e, hold, rfl⟩)
  · refine h.unmapped w hw (walk_eq_none.mpr ?_)
    cases hold : s.mem.entryAt dir w with
    | none => rfl
    | some e =>
        have hkept := alloc_entry hr hg hw hold
        rw [walk_eq_none.mp hnone] at hkept
        cases hkept
  · rw [← h.unused p (hsub hp) x hx]
    have hal := (h.growable.usable p (hsub hp)).aligned
    refine hg.grows.confined x (fun hin => ?_) fun i hi hpi hin => ?_
    · exact hg'.dir_taken (InPage.unique hal hg'.directory.dirPage.aligned hx hin ▸ hp)
    · have heq : p = s'.mem.table dir i := InPage.unique hal (entryPaddr_mod _) hx hin
      exact hg'.table_taken i hi hpi (heq ▸ hp)

theorem alloc_walk {f : ℕ → ℕ} {c x : ℕ} (hr : RangeAllocated n dir v perm f c s s')
    (hg : RangeGrown dir v f c s s') (hw : UserAddr w) (hx : s.mem.walk dir w = some x) :
    s'.mem.walk dir w = some x := by
  obtain ⟨e, he, rfl⟩ := walk_eq_some.mp hx
  exact walk_eq_some.mpr ⟨e, alloc_entry hr hg hw he, rfl⟩

theorem alloc_untouched {f : ℕ → ℕ} {c : ℕ} (h : Populated n dir s₀ img s)
    (hr : RangeAllocated n dir v perm f c s s') (hg : RangeGrown dir v f c s s')
    (hu : Untouched dir s₀ s) : Untouched dir s₀ s' := by
  intro x hdir htables hclear
  rw [← hu x hdir htables fun p hp hout => hclear p hp fun hin => hout (hr.extended.clear hin)]
  refine hg.grows.confined x hdir fun i hi hp hin => ?_
  have htaken := hr.extended.growable.table_taken i hi hp
  rcases hg.grows.fresh i hi hp with hp₀ | hc
  · rw [(hg.grows.keeps i hi hp₀).2] at hin htaken
    rcases h.tables i hi hp₀ with ⟨hp', he⟩ | hc
    · exact htables i hi hp' (he ▸ hin)
    · exact hclear _ hc htaken hin
  · exact hclear _ (h.clear hc) htaken hin

/-! ## Writing -/

/-- Another memory with the same directory and tables, and the image that it shows. -/
theorem reimage (h : Populated n dir s₀ img s) (hdir : ∀ x, InPage dir x → m' x = s.mem x)
    (htables : ∀ i < pdeCnt, Present (s.mem.pde dir i) → ∀ x, InPage (s.mem.table dir i) x →
      m' x = s.mem x)
    (hcontent : ∀ v x, UserAddr v → s.mem.walk dir v = some x → m' x = (img' v).getD (s₀.mem x))
    (hunmapped : ∀ v, UserAddr v → s.mem.walk dir v = none → img' v = none)
    (hunused : ∀ p ∈ s.alloc.clearPages, ∀ x, InPage p x → m' x = s.mem x) :
    Populated n dir s₀ img' { s with mem := m' } ∧
      ∀ v, UserAddr v → m'.walk dir v = s.mem.walk dir v := by
  obtain ⟨hg', hpde⟩ := h.growable.congr hdir
  obtain ⟨hword, hentry⟩ := entries_congr hdir htables
  have hwalk : ∀ v, UserAddr v → m'.walk dir v = s.mem.walk dir v := fun v hv => by
    rw [walk_eq, walk_eq]
    exact congrArg _ (hentry v hv)
  have htable : ∀ i < pdeCnt, m'.table dir i = s.mem.table dir i := fun i hi => by
    rw [Mem.table, hpde i hi]
  refine ⟨⟨hg', h.clear, h.usable, h.dir_out, fun i hi hp => ?_, fun v e hv he => ?_,
    fun v w e e' hv hw he he' => ?_, fun v x hv hx => ?_, fun v x hv hx => ?_, fun v hv hnone => ?_,
    fun p hp x hx => ?_⟩, hwalk⟩
  · rw [hpde i hi] at hp
    rw [htable i hi]
    exact h.tables i hi hp
  · rw [hentry v hv] at he
    obtain ⟨hmem, hno, hapart⟩ := h.frame v e hv he
    refine ⟨hmem, hno, fun i hi hp => ?_⟩
    rw [hpde i hi] at hp
    rw [htable i hi]
    exact hapart i hi hp
  · rw [hentry v hv] at he
    rw [hentry w hw] at he'
    exact h.distinct v w e e' hv hw he he'
  · rw [hword v hv] at hx
    exact h.zero v x hv hx
  · rw [hwalk v hv] at hx
    exact hcontent v x hv hx
  · rw [hwalk v hv] at hnone
    exact hunmapped v hv hnone
  · rw [← h.unused p hp x hx]
    exact hunused p hp x hx

/-- Bytes change only at mapped user addresses of the set `W`. -/
theorem write {W : Set ℕ} (h : Populated n dir s₀ img s)
    (hout : ∀ x, (∀ v ∈ W, UserAddr v → s.mem.walk dir v ≠ some x) → m' x = s.mem x)
    (hin : ∀ v ∈ W, UserAddr v → img' v = (s.mem.walk dir v).map m')
    (himg : ∀ v, v ∉ W → UserAddr v → img' v = img v) :
    Populated n dir s₀ img' { s with mem := m' } ∧
      ∀ v, UserAddr v → m'.walk dir v = s.mem.walk dir v := by
  have hal := h.growable.directory.dirPage.aligned
  refine h.reimage (fun x hx => hout x fun v _ hv hwx => ?_)
    (fun i hi hp x hx => hout x fun v _ hv hwx => ?_) (fun v x hv hx => ?_) (fun v hv hnone => ?_)
    (fun p hp x hx => hout x fun v _ hv hwx => ?_)
  · obtain ⟨p, -, hpx, hkp, hne, -⟩ := h.frame_apart hv hwx
    exact hne (InPage.unique hkp.aligned hal hpx hx)
  · obtain ⟨p, -, hpx, hkp, -, -, hapart⟩ := h.frame_apart hv hwx
    exact hapart i hi hp (InPage.unique (entryPaddr_mod _) hkp.aligned hx hpx)
  · by_cases hvW : v ∈ W
    · rw [hin v hvW hv, hx]
      rfl
    · rw [himg v hvW hv, ← h.content v x hv hx]
      exact hout x fun w hw hw' hwx => hvW (h.walk_injective hv hw' hx hwx ▸ hw)
  · by_cases hvW : v ∈ W
    · rw [hin v hvW hv, hnone]
      rfl
    · rw [himg v hvW hv, h.unmapped v hv hnone]
  · obtain ⟨q, -, hqx, hkq, -, hno, -⟩ := h.frame_apart hv hwx
    exact hno (InPage.unique hkq.aligned (h.growable.usable p hp).aligned hqx hx ▸ hp)

/-- Bytes change outside the directory, its tables and the pages that were clear. -/
theorem congr (h : Populated n dir s₀ img s) (hdir : ∀ x, InPage dir x → m' x = s.mem x)
    (htables : ∀ i < pdeCnt, Present (s.mem.pde dir i) → ∀ x, InPage (s.mem.table dir i) x →
      m' x = s.mem x)
    (hclear : ∀ p ∈ s₀.alloc.clearPages, ∀ x, InPage p x → m' x = s.mem x) :
    Populated n dir s₀ img { s with mem := m' } ∧
      ∀ v, UserAddr v → m'.walk dir v = s.mem.walk dir v := by
  refine h.reimage hdir htables (fun v x hv hx => ?_) h.unmapped fun p hp => hclear p (h.clear hp)
  obtain ⟨p, hp, hpx, -⟩ := h.frame_apart hv hx
  rw [← h.content v x hv hx]
  exact hclear p hp x hpx

end Populated

end X86Os
