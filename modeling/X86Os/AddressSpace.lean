import X86Os.Paging

/-!
# Address spaces

The abstract view of a user address space: its directory page, the table of every directory index
and the entry of every page. Every page that it consists of has a slot. `Space.At` relates it to
memory: no page serves two slots, and the words of directory and tables are those of the space. New
tables and entries are added page by page; what lies outside the directory and the tables stays as it is.
-/

namespace X86Os

def InPage (p x : ℕ) : Prop := p ≤ x ∧ x < p + memPageSize

instance (p x : ℕ) : Decidable (InPage p x) :=
  inferInstanceAs (Decidable (p ≤ x ∧ x < p + memPageSize))

theorem InPage.unique {p q x : ℕ} (hp : p % memPageSize = 0) (hq : q % memPageSize = 0)
    (h : InPage p x) (h' : InPage q x) : p = q := by
  unfold InPage memPageSize at *
  omega

/-- A page that the kernel can use at its physical address. -/
structure KernelPage (p : ℕ) : Prop where
  aligned : p % memPageSize = 0
  identity : Identity p
  ne_zero : p ≠ 0

/-- The present entry of a directory for the user page with indices `i` and `j`. -/
def Mem.userEntry (m : Mem) (dir i j : ℕ) : Option ℕ :=
  let pde := m.read32 (dir + 4 * i)
  if Present pde then
    let pte := m.read32 (entryPaddr pde + 4 * j)
    if Present pte then some pte else none
  else none

theorem userEntry_eq_some {m : Mem} {dir i j e : ℕ} : m.userEntry dir i j = some e ↔
    Present (m.read32 (dir + 4 * i)) ∧
      m.read32 (entryPaddr (m.read32 (dir + 4 * i)) + 4 * j) = e ∧ Present e := by
  simp only [Mem.userEntry]
  constructor
  · intro h
    split_ifs at h with h1 h2
    obtain rfl := Option.some.inj h
    exact ⟨h1, rfl, h2⟩
  · rintro ⟨h1, rfl, h2⟩
    rw [if_pos h1, if_pos h2]

theorem walk_eq (m : Mem) (dir v : ℕ) : m.walk dir v =
    (m.userEntry dir (pdeIndex v) (pteIndex v)).map fun e => entryPaddr e + v % memPageSize := by
  simp only [Mem.walk, Mem.userEntry]
  split_ifs <;> rfl

/-! ## Entries -/

theorem or_eq_add {p x : ℕ} (hp : p % memPageSize = 0) (hx : x < memPageSize) : p ||| x = p + x := by
  have hdiv : p = 2 ^ 12 * (p / 2 ^ 12) := by
    unfold memPageSize at hp
    omega
  rw [hdiv, Nat.two_pow_add_eq_or_of_lt hx]

theorem entryPaddr_add {p x : ℕ} (hp : p % memPageSize = 0) (hx : x < memPageSize) :
    entryPaddr (p + x) = p := by
  unfold entryPaddr memPageSize at *
  omega

theorem getPtePerm_eq (v : ℕ) : getPtePerm v = v % 2 ^ 9 := Nat.and_two_pow_sub_one_eq_mod v 9

theorem or_pteP_of_present {x : ℕ} (h : Present x) : x ||| pteP = x := by
  unfold Present at h
  apply Nat.eq_of_testBit_eq
  intro i
  rw [Nat.testBit_or]
  cases i with
  | zero => simp [pteP, Nat.testBit_zero, h]
  | succ i => simp [pteP, Nat.testBit_succ]

/-! ## Spaces -/

inductive Slot
  | dir
  | table (i : ℕ)
  | frame (i j : ℕ)

structure Space where
  dir : ℕ
  table : ℕ → Option ℕ
  entry : ℕ → ℕ → Option ℕ

namespace Space

def page (sp : Space) : Slot → Option ℕ
  | .dir => some sp.dir
  | .table i => sp.table i
  | .frame i j => (sp.entry i j).map entryPaddr

/-- The directory and the tables from the directory index `lo` on. -/
structure Tables (sp : Space) (lo : ℕ) (m : Mem) : Prop where
  dirPage : KernelPage sp.dir
  tablePage : ∀ i t, sp.table i = some t → KernelPage t ∧ t ≠ sp.dir
  apart : ∀ i j t, sp.table i = some t → sp.table j = some t → i = j
  pde : ∀ i, lo ≤ i → i < pdeCnt → m.read32 (sp.dir + 4 * i) = ((sp.table i).map (· + 7)).getD 0
  pte : ∀ i t, sp.table i = some t → ∀ j < pteCnt, m.read32 (t + 4 * j) = (sp.entry i j).getD 0
  present : ∀ i j e, sp.entry i j = some e → Present e ∧ j < pteCnt ∧ ∃ t, sp.table i = some t
  range : ∀ i t, sp.table i = some t → lo ≤ i ∧ i < pdeCnt

structure At (sp : Space) (m : Mem) : Prop where
  kernelPage : ∀ x p, sp.page x = some p → KernelPage p
  distinct : ∀ x y p, sp.page x = some p → sp.page y = some p → x = y
  pde : ∀ i, userPdeStart ≤ i → i < pdeCnt →
    m.read32 (sp.dir + 4 * i) = ((sp.table i).map (· + 7)).getD 0
  pte : ∀ i t, sp.table i = some t → ∀ j < pteCnt, m.read32 (t + 4 * j) = (sp.entry i j).getD 0
  present : ∀ i j e, sp.entry i j = some e → Present e ∧ j < pteCnt ∧ ∃ t, sp.table i = some t
  range : ∀ i t, sp.table i = some t → userPdeStart ≤ i ∧ i < pdeCnt

def addTable (sp : Space) (i t : ℕ) : Space :=
  { sp with table := Function.update sp.table i (some t) }

def addEntry (sp : Space) (i j e : ℕ) : Space :=
  { sp with entry := fun i' j' => if i' = i ∧ j' = j then some e else sp.entry i' j' }

variable {sp : Space} {m m' : Mem} {i j t e p lo : ℕ}

theorem addEntry_entry_self : (sp.addEntry i j e).entry i j = some e := if_pos ⟨rfl, rfl⟩

theorem addEntry_entry_of_ne {i' j' : ℕ} (h : ¬ (i' = i ∧ j' = j)) :
    (sp.addEntry i j e).entry i' j' = sp.entry i' j' := if_neg h

theorem addTable_table_self : (sp.addTable i t).table i = some t := Function.update_self _ _ _

theorem addTable_page {x : Slot} (h : (sp.addTable i t).page x = some p) :
    (x = .table i ∧ p = t) ∨ (x ≠ .table i ∧ sp.page x = some p) := by
  cases x with
  | dir => exact .inr ⟨by simp, h⟩
  | frame i' j' => exact .inr ⟨by simp, h⟩
  | table i' =>
      by_cases he : i' = i
      · subst i'
        simp only [page, Space.addTable, Function.update_self, Option.some.injEq] at h
        exact .inl ⟨rfl, h.symm⟩
      · simp only [page, Space.addTable, Function.update_of_ne he] at h
        exact .inr ⟨by simpa using he, h⟩

theorem addEntry_page {x : Slot} (h : (sp.addEntry i j e).page x = some p) :
    (x = .frame i j ∧ p = entryPaddr e) ∨ (x ≠ .frame i j ∧ sp.page x = some p) := by
  cases x with
  | dir => exact .inr ⟨by simp, h⟩
  | table i' => exact .inr ⟨by simp, h⟩
  | frame i' j' =>
      by_cases heq : i' = i ∧ j' = j
      · obtain ⟨rfl, rfl⟩ := heq
        simp only [page, Space.addEntry, and_self, if_true, Option.map_some,
          Option.some.injEq] at h
        exact .inl ⟨rfl, h.symm⟩
      · simp only [page, Space.addEntry, if_neg heq] at h
        exact .inr ⟨by simpa using heq, h⟩

/-! ## Directory and tables -/

/-- Only the words of the directory and the tables matter. -/
theorem Tables.congr (h : sp.Tables lo m) (hdir : ∀ x, InPage sp.dir x → m' x = m x)
    (htable : ∀ i t, sp.table i = some t → ∀ x, InPage t x → m' x = m x) : sp.Tables lo m' where
  dirPage := h.dirPage
  tablePage := h.tablePage
  apart := h.apart
  pde i hi hi' := by
    rw [← h.pde i hi hi']
    refine Mem.read32_congr fun x hx hx' => hdir x ?_
    unfold InPage memPageSize pdeCnt at *
    omega
  pte i t ht j hj := by
    rw [← h.pte i t ht j hj]
    refine Mem.read32_congr fun x hx hx' => htable i t ht x ?_
    unfold InPage memPageSize pteCnt at *
    omega
  present := h.present
  range := h.range

theorem Tables.entry_none (h : sp.Tables lo m) (hnone : sp.table i = none) (j : ℕ) :
    sp.entry i j = none := by
  cases he : sp.entry i j with
  | none => rfl
  | some e =>
      obtain ⟨u, hu⟩ := (h.present i j e he).2.2
      rw [hnone] at hu
      cases hu

theorem Tables.userEntry_eq (h : sp.Tables lo m) (hi : lo ≤ i) (hi' : i < pdeCnt)
    (hj : j < pteCnt) : m.userEntry sp.dir i j = sp.entry i j := by
  rw [Mem.userEntry, h.pde i hi hi']
  cases ht : sp.table i with
  | none => simp [h.entry_none ht, Present]
  | some t =>
      have hal := (h.tablePage i t ht).1.aligned
      have hpres : Present (t + 7) := by
        unfold Present memPageSize at *
        omega
      simp only [Option.map_some, Option.getD_some, if_pos hpres,
        entryPaddr_add hal (show 7 < memPageSize by unfold memPageSize; norm_num),
        h.pte i t ht j hj]
      cases he : sp.entry i j with
      | none => simp [Present]
      | some e => simp [(h.present i j e he).1]

/-- A cleared fresh page becomes the table of a directory index without one. -/
theorem Tables.addTable (h : sp.Tables lo m) (hi : lo ≤ i) (hi' : i < pdeCnt)
    (hnone : sp.table i = none) (ht : KernelPage t) (hdirt : t ≠ sp.dir)
    (hfresh : ∀ k, sp.table k ≠ some t) :
    (sp.addTable i t).Tables lo ((m.write32 (sp.dir + 4 * i) (t + 7)).fill t 0 memPageSize) := by
  have hdir := h.dirPage.aligned
  have hlt : t + 7 < 2 ^ 32 := by have := ht.identity.lt; omega
  have hal := ht.aligned
  have htable : ∀ k u, (sp.addTable i t).table k = some u →
      (k = i ∧ u = t) ∨ (k ≠ i ∧ sp.table k = some u) := by
    intro k u hu
    by_cases he : k = i
    · subst k
      exact .inl ⟨rfl, Option.some.inj (hu.symm.trans addTable_table_self)⟩
    · exact .inr ⟨he, by simpa [Space.addTable, Function.update_of_ne he] using hu⟩
  refine ⟨h.dirPage, fun k u hu => ?_, fun k l u hk hl => ?_, fun k h1 h2 => ?_,
    fun k u hu j hj => ?_, fun k j e he => ?_, fun k u hu => ?_⟩
  · rcases htable k u hu with ⟨-, rfl⟩ | ⟨-, hu⟩
    · exact ⟨ht, hdirt⟩
    · exact h.tablePage k u hu
  · rcases htable k u hk with ⟨rfl, rfl⟩ | ⟨-, hk'⟩
    · rcases htable l u hl with ⟨rfl, -⟩ | ⟨-, hl'⟩
      · rfl
      · exact absurd hl' (hfresh l)
    · rcases htable l u hl with ⟨rfl, rfl⟩ | ⟨-, hl'⟩
      · exact absurd hk' (hfresh k)
      · exact h.apart k l u hk' hl'
  · have hout : ((m.write32 (sp.dir + 4 * i) (t + 7)).fill t 0 memPageSize).read32
        (sp.dir + 4 * k) = (m.write32 (sp.dir + 4 * i) (t + 7)).read32 (sp.dir + 4 * k) := by
      refine Mem.read32_congr fun x hx hx' => Mem.fill_apply_of_out x ?_
      unfold memPageSize pdeCnt at *
      omega
    show _ = ((Function.update sp.table i (some t) k).map (· + 7)).getD 0
    rw [show (sp.addTable i t).dir = sp.dir from rfl, hout]
    by_cases he : k = i
    · subst k
      rw [Mem.read32_write32_self hlt, Function.update_self]
      rfl
    · rw [Mem.read32_write32_of_apart (by omega), Function.update_of_ne he]
      exact h.pde k h1 h2
  · rcases htable k u hu with ⟨rfl, rfl⟩ | ⟨hk, hu⟩
    · rw [show (sp.addTable k u).entry = sp.entry from rfl, h.entry_none hnone j]
      refine Mem.read32_fill_zero (by omega) ?_
      unfold memPageSize pteCnt at *
      omega
    · obtain ⟨hkp, hne'⟩ := h.tablePage k u hu
      have hal' := hkp.aligned
      have hne : u ≠ t := fun heq => hfresh k (heq ▸ hu)
      refine Eq.trans (Mem.read32_congr fun x hx hx' => ?_) (h.pte k u hu j hj)
      unfold memPageSize pdeCnt pteCnt at *
      rw [Mem.fill_apply_of_out x (by omega), Mem.write32_apply_of_out x (by omega)]
  · obtain ⟨hp, hj, u, hu⟩ := h.present k j e he
    refine ⟨hp, hj, u, ?_⟩
    have hne : k ≠ i := by
      rintro rfl
      rw [hnone] at hu
      cases hu
    simpa [Space.addTable, Function.update_of_ne hne] using hu
  · rcases htable k u hu with ⟨rfl, -⟩ | ⟨-, hu⟩
    · exact ⟨hi, hi'⟩
    · exact h.range k u hu

/-- A present entry is added to an existing table. -/
theorem Tables.addEntry (h : sp.Tables lo m) (ht : sp.table i = some t) (hj : j < pteCnt)
    (hpres : Present e) (hlt : e < 2 ^ 32) :
    (sp.addEntry i j e).Tables lo (m.write32 (t + 4 * j) e) := by
  obtain ⟨htp, hdirt⟩ := h.tablePage i t ht
  have hal := htp.aligned
  have hdir := h.dirPage.aligned
  refine ⟨h.dirPage, h.tablePage, h.apart, fun k h1 h2 => ?_, fun k u hu j' hj' => ?_,
    fun k j' e' he' => ?_, h.range⟩
  · refine Eq.trans (Mem.read32_write32_of_apart ?_) (h.pde k h1 h2)
    show sp.dir + 4 * k + 4 ≤ t + 4 * j ∨ t + 4 * j + 4 ≤ sp.dir + 4 * k
    unfold memPageSize pdeCnt pteCnt at *
    omega
  · have hu' : sp.table k = some u := hu
    have hal' := (h.tablePage k u hu').1.aligned
    by_cases heq : k = i
    · subst k
      obtain rfl : t = u := Option.some.inj (ht.symm.trans hu')
      by_cases hjj : j' = j
      · subst j'
        rw [Mem.read32_write32_self hlt, addEntry_entry_self]
        rfl
      · rw [Mem.read32_write32_of_apart (by omega), h.pte i t ht j' hj',
          addEntry_entry_of_ne (by simp [hjj])]
    · have hne : u ≠ t := fun hee => heq (h.apart k i t (hee ▸ hu') ht)
      rw [Mem.read32_write32_of_apart (by unfold memPageSize pteCnt at *; omega),
        h.pte k u hu' j' hj', addEntry_entry_of_ne (by simp [heq])]
  · by_cases heq : k = i ∧ j' = j
    · obtain ⟨rfl, rfl⟩ := heq
      obtain rfl : e = e' := Option.some.inj (addEntry_entry_self.symm.trans he')
      exact ⟨hpres, hj, t, ht⟩
    · exact h.present k j' e' (by rwa [addEntry_entry_of_ne heq] at he')

/-! ## Whole spaces -/

theorem At.tables (h : sp.At m) : sp.Tables userPdeStart m where
  dirPage := h.kernelPage .dir _ rfl
  tablePage i t ht := by
    refine ⟨h.kernelPage (.table i) t ht, fun he => ?_⟩
    have := h.distinct (.table i) .dir t ht (congrArg some he.symm)
    cases this
  apart i j t hi hj := Slot.table.inj (h.distinct (.table i) (.table j) t hi hj)
  pde := h.pde
  pte := h.pte
  present := h.present
  range := h.range

theorem At.congr (h : sp.At m) (hdir : ∀ x, InPage sp.dir x → m' x = m x)
    (htable : ∀ i t, sp.table i = some t → ∀ x, InPage t x → m' x = m x) : sp.At m' :=
  have ht := h.tables.congr hdir htable
  ⟨h.kernelPage, h.distinct, ht.pde, ht.pte, ht.present, ht.range⟩

theorem At.userEntry_eq (h : sp.At m) (hi : userPdeStart ≤ i) (hi' : i < pdeCnt) (hj : j < pteCnt) :
    m.userEntry sp.dir i j = sp.entry i j := h.tables.userEntry_eq hi hi' hj

theorem At.addTable (h : sp.At m) (hi : userPdeStart ≤ i) (hi' : i < pdeCnt)
    (hnone : sp.table i = none) (ht : KernelPage t) (hfresh : ∀ x, sp.page x ≠ some t) :
    (sp.addTable i t).At ((m.write32 (sp.dir + 4 * i) (t + 7)).fill t 0 memPageSize) := by
  have htables := h.tables.addTable hi hi' hnone ht (fun he => hfresh .dir (congrArg some he.symm))
    fun k => hfresh (.table k)
  refine ⟨fun x p hx => ?_, fun x y p hx hy => ?_, htables.pde, htables.pte, htables.present,
    htables.range⟩
  · rcases addTable_page hx with ⟨-, rfl⟩ | ⟨-, hx⟩
    · exact ht
    · exact h.kernelPage x p hx
  · rcases addTable_page hx with ⟨rfl, rfl⟩ | ⟨-, hx'⟩
    · rcases addTable_page hy with ⟨rfl, -⟩ | ⟨-, hy'⟩
      · rfl
      · exact absurd hy' (hfresh y)
    · rcases addTable_page hy with ⟨rfl, rfl⟩ | ⟨-, hy'⟩
      · exact absurd hx' (hfresh x)
      · exact h.distinct x y p hx' hy'

/-- A present entry for a fresh frame is added to an existing table. -/
theorem At.addEntry (h : sp.At m) (ht : sp.table i = some t) (hj : j < pteCnt)
    (hpres : Present e) (hlt : e < 2 ^ 32) (he : KernelPage (entryPaddr e))
    (hfresh : ∀ x, sp.page x ≠ some (entryPaddr e)) :
    (sp.addEntry i j e).At (m.write32 (t + 4 * j) e) := by
  have htables := h.tables.addEntry ht hj hpres hlt
  refine ⟨fun x p hx => ?_, fun x y p hx hy => ?_, htables.pde, htables.pte, htables.present,
    htables.range⟩
  · rcases addEntry_page hx with ⟨-, rfl⟩ | ⟨-, hx⟩
    · exact he
    · exact h.kernelPage x p hx
  · rcases addEntry_page hx with ⟨rfl, rfl⟩ | ⟨-, hx'⟩
    · rcases addEntry_page hy with ⟨rfl, -⟩ | ⟨-, hy'⟩
      · rfl
      · exact absurd hy' (hfresh y)
    · rcases addEntry_page hy with ⟨rfl, rfl⟩ | ⟨-, hy'⟩
      · exact absurd hx' (hfresh x)
      · exact h.distinct x y p hx' hy'

end Space

end X86Os
