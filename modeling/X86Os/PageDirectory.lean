import X86Os.Uvm

/-!
# Any page directory

A directory as the walk sees it: its words, its tables and the words of its tables, present or not.
All that is asked for is that directory and tables are different pages which the kernel can use, and
that no clear page is one of them. Mapping pages extends such a directory: the new entries appear,
the tables they need are filled with zeros, and every other word stays as it is.
-/

namespace X86Os

namespace Mem

abbrev pde (m : Mem) (dir i : ℕ) : ℕ := m.read32 (dir + 4 * i)

abbrev table (m : Mem) (dir i : ℕ) : ℕ := entryPaddr (m.pde dir i)

/-- The word for the page with indices `i` and `j`, present or not, if there is a table for it. -/
def pteWord (m : Mem) (dir i j : ℕ) : Option ℕ :=
  if Present (m.pde dir i) then some (m.read32 (m.table dir i + 4 * j)) else none

/-- What `memory_get_paddr` computes. -/
def lookup (m : Mem) (dir v : ℕ) : ℕ :=
  match m.pteWord dir (pdeIndex v) (pteIndex v) with
  | none => 0
  | some x => u32 (entryPaddr x + v % memPageSize)

theorem userEntry_eq_filter (m : Mem) (dir i j : ℕ) :
    m.userEntry dir i j = (m.pteWord dir i j).filter fun x => Present x := by
  rw [userEntry, pteWord]
  by_cases hp : Present (m.pde dir i)
  · rw [if_pos hp, if_pos hp]
    by_cases hp' : Present (m.read32 (m.table dir i + 4 * j))
    · simp [hp', Option.filter]
    · simp [hp', Option.filter]
  · rw [if_neg hp, if_neg hp]
    rfl

end Mem

/-- Directory and tables are different pages, and the kernel reaches them. -/
structure Directory (m : Mem) (dir : ℕ) : Prop where
  dirPage : KernelPage dir
  tablePage : ∀ i < pdeCnt, Present (m.pde dir i) →
    KernelPage (m.table dir i) ∧ m.table dir i ≠ dir
  apart : ∀ i < pdeCnt, ∀ k < pdeCnt, Present (m.pde dir i) → Present (m.pde dir k) →
    m.table dir i = m.table dir k → i = k

/-- A directory that may take clear pages for new tables. -/
structure Growable (n dir : ℕ) (s : Vm) : Prop where
  directory : Directory s.mem dir
  managed : s.alloc.Managed n
  usable : ∀ p ∈ s.alloc.clearPages, KernelPage p
  dir_taken : dir ∉ s.alloc.clearPages
  table_taken : ∀ i < pdeCnt, Present (s.mem.pde dir i) → s.mem.table dir i ∉ s.alloc.clearPages

/-- The entries `new` were added to the directory, and the indices `tabled` have tables for them. -/
structure Extended (n dir : ℕ) (s : Vm) (tabled : Set ℕ) (new : ℕ → ℕ → Option ℕ) (s' : Vm) :
    Prop where
  growable : Growable n dir s'
  added : ∀ i < pdeCnt, ∀ j < pteCnt, ∀ e, new i j = some e → s'.mem.pteWord dir i j = some e
  filled : ∀ i < pdeCnt, i ∈ tabled → ∀ j < pteCnt, new i j = none →
    s'.mem.pteWord dir i j = some ((s.mem.pteWord dir i j).getD 0)
  kept : ∀ i < pdeCnt, i ∉ tabled → ∀ j < pteCnt, s'.mem.pteWord dir i j = s.mem.pteWord dir i j
  tables : ∀ i < pdeCnt, Present (s'.mem.pde dir i) →
    (Present (s.mem.pde dir i) ∧ s'.mem.table dir i = s.mem.table dir i) ∨
      s'.mem.table dir i ∈ s.alloc.clearPages
  clear : s'.alloc.clearPages ⊆ s.alloc.clearPages
  start : s'.alloc.start = s.alloc.start
  cr3 : s'.cr3 = s.cr3
  out : ∀ x, ¬ InPage dir x →
    (∀ i < pdeCnt, Present (s.mem.pde dir i) → ¬ InPage (s.mem.table dir i) x) →
    (∀ p ∈ s.alloc.clearPages, ¬ InPage p x) → s'.mem x = s.mem x

/-- Tables stay where they are, new ones were clear, and nothing else was written to. -/
structure Grows (dir : ℕ) (s s' : Vm) : Prop where
  keeps : ∀ i < pdeCnt, Present (s.mem.pde dir i) →
    Present (s'.mem.pde dir i) ∧ s'.mem.table dir i = s.mem.table dir i
  fresh : ∀ i < pdeCnt, Present (s'.mem.pde dir i) →
    Present (s.mem.pde dir i) ∨ s'.mem.table dir i ∈ s.alloc.clearPages
  confined : ∀ x, ¬ InPage dir x →
    (∀ i < pdeCnt, Present (s'.mem.pde dir i) → ¬ InPage (s'.mem.table dir i) x) →
    s'.mem x = s.mem x

variable {n dir v p t perm i j e : ℕ} {m m' : Mem} {s s' s₁ s₂ : Vm} {tabled tabled' : Set ℕ}
  {new new' : ℕ → ℕ → Option ℕ}

theorem Grows.refl (dir : ℕ) (s : Vm) : Grows dir s s where
  keeps _ _ hp := ⟨hp, rfl⟩
  fresh _ _ hp := .inl hp
  confined _ _ _ := rfl

theorem Grows.trans (h : Grows dir s s₁) (h' : Grows dir s₁ s₂)
    (hclear : s₁.alloc.clearPages ⊆ s.alloc.clearPages) : Grows dir s s₂ where
  keeps i hi hp := by
    obtain ⟨hp₁, he₁⟩ := h.keeps i hi hp
    obtain ⟨hp₂, he₂⟩ := h'.keeps i hi hp₁
    exact ⟨hp₂, he₂.trans he₁⟩
  fresh i hi hp := by
    rcases h'.fresh i hi hp with hp₁ | hc
    · rcases h.fresh i hi hp₁ with hp₀ | hc
      · exact .inl hp₀
      · rw [(h'.keeps i hi hp₁).2]
        exact .inr hc
    · exact .inr (hclear hc)
  confined x hx hx' := by
    refine (h'.confined x hx hx').trans (h.confined x hx fun i hi hp => ?_)
    obtain ⟨hp', he⟩ := h'.keeps i hi hp
    exact he ▸ hx' i hi hp'

theorem Grows.of_take (h : Grows dir s₁ s₂) (hmem : s₁.mem = s.mem)
    (hclear : s₁.alloc.clearPages ⊆ s.alloc.clearPages) : Grows dir s s₂ where
  keeps := hmem ▸ h.keeps
  fresh i hi hp := by
    have hnew := h.fresh i hi hp
    rw [hmem] at hnew
    exact hnew.imp_right fun hc => hclear hc
  confined := hmem ▸ h.confined

/-- The bytes of a word are in its page. -/
theorem inPage_word {x : ℕ} (hj : j < 1024) (hx : p + 4 * j ≤ x) (hx' : x < p + 4 * j + 4) :
    InPage p x := by
  unfold InPage memPageSize
  omega

theorem pdeIndex_lt (hv : v < 2 ^ 32) : pdeIndex v < pdeCnt := by
  unfold pdeIndex pdeCnt
  omega

/-- Addresses with the same indices are in the same page. -/
theorem page_of_indices {w : ℕ} (hi : pdeIndex v = pdeIndex w) (hj : pteIndex v = pteIndex w) :
    v / memPageSize = w / memPageSize := by
  unfold pdeIndex pteIndex memPageSize at *
  omega

theorem allocPage_start (hs : allocPage s = some (p, s')) : s'.alloc.start = s.alloc.start := by
  obtain ⟨-, rfl⟩ := Prod.mk.inj (Option.some.inj hs)
  rfl

/-- Only the words of the directory and the tables matter. -/
theorem Mem.pteWord_congr (hi : i < pdeCnt) (hj : j < pteCnt)
    (hdir : ∀ x, InPage dir x → m' x = m x)
    (htable : Present (m.pde dir i) → ∀ x, InPage (m.table dir i) x → m' x = m x) :
    m'.pteWord dir i j = m.pteWord dir i j := by
  have hpde : m'.pde dir i = m.pde dir i :=
    Mem.read32_congr fun x hx hx' => hdir x (inPage_word hi hx hx')
  by_cases hp : Present (m.pde dir i)
  · have hword : m'.read32 (m.table dir i + 4 * j) = m.read32 (m.table dir i + 4 * j) :=
      Mem.read32_congr fun x hx hx' => htable hp x (inPage_word hj hx hx')
    rw [Mem.pteWord, Mem.pteWord, Mem.table, hpde, if_pos hp, if_pos hp]
    exact congrArg some hword
  · rw [Mem.pteWord, Mem.pteWord, hpde, if_neg hp, if_neg hp]

theorem Mem.present_of_pteWord (h : m.pteWord dir i j = some e) : Present (m.pde dir i) := by
  rw [pteWord] at h
  by_contra hp
  rw [if_neg hp] at h
  cases h

/-! ## Lookups -/

theorem findPte_present (hd : KernelPage dir) (hv : v < 2 ^ 32)
    (hp : Present (s.mem.pde dir (pdeIndex v))) (ht : KernelPage (s.mem.table dir (pdeIndex v)))
    (alloc : Bool) :
    findPte dir v alloc s = some (s.mem.table dir (pdeIndex v) + 4 * pteIndex v, s) := by
  rw [findPte, Prog.bind_of_eq (hd.load32 (pdeIndex_lt hv)), if_pos hp]
  exact congrArg (fun a => some (a, s)) (ht.word (pteIndex_lt v)).2.2

theorem findPte_absent (hd : KernelPage dir) (hv : v < 2 ^ 32)
    (hp : ¬ Present (s.mem.pde dir (pdeIndex v))) : findPte dir v false s = some (0, s) := by
  rw [findPte, Prog.bind_of_eq (hd.load32 (pdeIndex_lt hv)), if_neg hp, if_neg (by simp)]
  rfl

/-- The present bit of the entry does not matter. -/
theorem memoryGetPaddr_eq (hd : KernelPage dir) (hv : v < 2 ^ 32)
    (ht : Present (s.mem.pde dir (pdeIndex v)) → KernelPage (s.mem.table dir (pdeIndex v))) :
    memoryGetPaddr dir v s = some (s.mem.lookup dir v, s) := by
  by_cases hp : Present (s.mem.pde dir (pdeIndex v))
  · have hne := (ht hp).ne_zero
    obtain ⟨hid, hal, -⟩ := (ht hp).word (pteIndex_lt v)
    rw [memoryGetPaddr, Prog.bind_of_eq (findPte_present hd hv hp (ht hp) false),
      if_neg (by omega), Prog.bind_of_eq (load32_of_identity hid hal), Mem.lookup, Mem.pteWord,
      if_pos hp]
    rfl
  · rw [memoryGetPaddr, Prog.bind_of_eq (findPte_absent hd hv hp), if_pos rfl, Mem.lookup,
      Mem.pteWord, if_neg hp]
    rfl

theorem Directory.memoryGetPaddr (h : Directory s.mem dir) (hv : v < 2 ^ 32) :
    memoryGetPaddr dir v s = some (s.mem.lookup dir v, s) :=
  memoryGetPaddr_eq h.dirPage hv fun hp => (h.tablePage _ (pdeIndex_lt hv) hp).1

/-! ## New tables -/

namespace Growable

theorem take (h : Growable n dir s) (hmem : s'.mem = s.mem) (hm : s'.alloc.Managed n)
    (hclear : s'.alloc.clearPages ⊆ s.alloc.clearPages) : Growable n dir s' where
  directory := hmem ▸ h.directory
  managed := hm
  usable q hq := h.usable q (hclear hq)
  dir_taken hq := h.dir_taken (hclear hq)
  table_taken i hi hp hq := by
    rw [hmem] at hp hq
    exact h.table_taken i hi hp (hclear hq)

/-- A directory without a table for `v` and no clear page. -/
theorem findPte_empty (h : Growable n dir s) (hv : v < 2 ^ 32)
    (hp : ¬ Present (s.mem.pde dir (pdeIndex v))) (hempty : s.alloc.clearPages = ∅) :
    findPte dir v true s = some (0, s) := by
  have halloc : allocPage s = some (0, s) := by
    rw [allocPage, AddrAlloc.allocPage_empty h.managed hempty]
  rw [findPte, Prog.bind_of_eq (h.directory.dirPage.load32 (pdeIndex_lt hv)), if_neg hp, if_pos rfl,
    Prog.bind_of_eq halloc, if_pos rfl]
  rfl

/-- The words of a directory with a new table. -/
theorem newTable_pde (hd : KernelPage dir) (ht : KernelPage t) (hne : t ≠ dir) :
    ∀ k < pdeCnt, ((m.write32 (dir + 4 * i) (t + 7)).fill t 0 memPageSize).pde dir k =
      if k = i then t + 7 else m.pde dir k := by
  intro k hk
  have hal := ht.aligned
  have hdal := hd.aligned
  have hword : ((m.write32 (dir + 4 * i) (t + 7)).fill t 0 memPageSize).pde dir k =
      (m.write32 (dir + 4 * i) (t + 7)).pde dir k := by
    refine Mem.read32_congr fun x hx hx' => Mem.fill_apply_of_out x ?_
    unfold memPageSize pdeCnt at *
    omega
  rw [hword]
  by_cases hki : k = i
  · subst k
    rw [if_pos rfl]
    exact Mem.read32_write32_self (by have := ht.identity.lt; omega)
  · rw [if_neg hki]
    exact Mem.read32_write32_of_apart (by omega)

theorem addTable_grows (h : Growable n dir s) (hi : i < pdeCnt) (hp : ¬ Present (s.mem.pde dir i))
    (ht : t ∈ s.alloc.clearPages)
    (hmem : s'.mem = (s.mem.write32 (dir + 4 * i) (t + 7)).fill t 0 memPageSize) :
    Grows dir s s' := by
  have htp := h.usable t ht
  have hal := htp.aligned
  have hpde := newTable_pde (m := s.mem) h.directory.dirPage htp
    (i := i) (fun he => h.dir_taken (he ▸ ht))
  rw [← hmem] at hpde
  have htable : s'.mem.table dir i = t := by
    rw [Mem.table, hpde i hi, if_pos rfl, entryPaddr_add hal (by unfold memPageSize; norm_num)]
  have hsame : ∀ k < pdeCnt, k ≠ i → s'.mem.pde dir k = s.mem.pde dir k := fun k hk hki =>
    (hpde k hk).trans (if_neg hki)
  refine ⟨fun k hk hpk => ?_, fun k hk hpk => ?_, fun x hx hx' => ?_⟩
  · have hki : k ≠ i := fun he => hp (he ▸ hpk)
    rw [Mem.table, Mem.table, hsame k hk hki]
    exact ⟨hpk, rfl⟩
  · by_cases hki : k = i
    · subst k
      exact .inr (htable ▸ ht)
    · rw [hsame k hk hki] at hpk
      exact .inl hpk
  · have hpres : Present (s'.mem.pde dir i) := by
      rw [hpde i hi, if_pos rfl]
      unfold Present memPageSize at *
      omega
    have hout := hx' i hi hpres
    rw [htable] at hout
    rw [hmem]
    exact newTable_out hi hx hout

/-- The directory after a clear page became its table with the index `i`. -/
theorem addTable (h : Growable n dir s) (hi : i < pdeCnt) (hp : ¬ Present (s.mem.pde dir i))
    (ht : t ∈ s.alloc.clearPages) (hm : s'.alloc.Managed n)
    (hclear : s'.alloc.clearPages = s.alloc.clearPages.erase t) (hstart : s'.alloc.start = s.alloc.start)
    (hcr : s'.cr3 = s.cr3)
    (hmem : s'.mem = (s.mem.write32 (dir + 4 * i) (t + 7)).fill t 0 memPageSize) :
    Extended n dir s {i} (fun _ _ => none) s' ∧ Present (s'.mem.pde dir i) ∧
      s'.mem.table dir i = t := by
  have htp := h.usable t ht
  have hdp := h.directory.dirPage
  have hne : t ≠ dir := fun he => h.dir_taken (he ▸ ht)
  have hold : ∀ k < pdeCnt, Present (s.mem.pde dir k) → s.mem.table dir k ≠ t :=
    fun k hk hpk he => h.table_taken k hk hpk (he ▸ ht)
  have hal := htp.aligned
  have hdal := hdp.aligned
  have hout : ∀ x, ¬ InPage t x → ¬ (dir + 4 * i ≤ x ∧ x < dir + 4 * i + 4) →
      s'.mem x = s.mem x := by
    intro x hx hx'
    unfold InPage at hx
    rw [hmem, Mem.fill_apply_of_out x (by omega), Mem.write32_apply_of_out x (by omega)]
  have hall := newTable_pde (m := s.mem) (i := i) hdp htp hne
  rw [← hmem] at hall
  have hpdei : s'.mem.pde dir i = t + 7 := (hall i hi).trans (if_pos rfl)
  have hpde : ∀ k < pdeCnt, k ≠ i → s'.mem.pde dir k = s.mem.pde dir k := fun k hk hki =>
    (hall k hk).trans (if_neg hki)
  have hpres : Present (s'.mem.pde dir i) := by
    rw [hpdei]
    unfold Present memPageSize at *
    omega
  have htable : s'.mem.table dir i = t := by
    rw [Mem.table, hpdei, entryPaddr_add hal (by unfold memPageSize; norm_num)]
  have htables : ∀ k < pdeCnt, Present (s'.mem.pde dir k) →
      (k = i ∧ s'.mem.table dir k = t) ∨
        (k ≠ i ∧ Present (s.mem.pde dir k) ∧ s'.mem.table dir k = s.mem.table dir k) := by
    intro k hk hpk
    by_cases hki : k = i
    · exact .inl ⟨hki, hki ▸ htable⟩
    · rw [hpde k hk hki] at hpk
      exact .inr ⟨hki, hpk, by rw [Mem.table, Mem.table, hpde k hk hki]⟩
  have hword : ∀ k < pdeCnt, k ≠ i → ∀ j < pteCnt,
      s'.mem.pteWord dir k j = s.mem.pteWord dir k j := by
    intro k hk hki j hj
    rw [Mem.pteWord, Mem.pteWord, Mem.table, hpde k hk hki]
    by_cases hpk : Present (s.mem.pde dir k)
    · rw [if_pos hpk, if_pos hpk]
      obtain ⟨hkp, hkne⟩ := h.directory.tablePage k hk hpk
      refine congrArg some (Mem.read32_congr fun x hx hx' => ?_)
      have hin : InPage (s.mem.table dir k) x := inPage_word hj hx hx'
      refine hout x (fun hint => hold k hk hpk (InPage.unique hkp.aligned hal hin hint)) ?_
      exact fun hind => hkne (InPage.unique hkp.aligned hdal hin (inPage_word hi hind.1 hind.2))
    · rw [if_neg hpk, if_neg hpk]
  refine ⟨⟨⟨⟨hdp, fun k hk hpk => ?_, fun k hk l hl hpk hpl he => ?_⟩, hm, fun q hq => ?_,
    fun hd => ?_, fun k hk hpk hq => ?_⟩, nofun, ?_, fun k hk hki => hword k hk hki,
    fun k hk hpk => ?_, ?_, hstart, hcr, fun x hx hx' hx'' => ?_⟩, hpres, htable⟩
  · rcases htables k hk hpk with ⟨-, he⟩ | ⟨-, hpk, he⟩
    · rw [he]
      exact ⟨htp, hne⟩
    · rw [he]
      exact h.directory.tablePage k hk hpk
  · rcases htables k hk hpk with ⟨rfl, hek⟩ | ⟨-, hpk, hek⟩
    · rcases htables l hl hpl with ⟨rfl, -⟩ | ⟨-, hpl, hel⟩
      · rfl
      · exact absurd (hel.symm.trans (he.symm.trans hek)) (hold l hl hpl)
    · rcases htables l hl hpl with ⟨rfl, hel⟩ | ⟨-, hpl, hel⟩
      · exact absurd (hek.symm.trans (he.trans hel)) (hold k hk hpk)
      · exact h.directory.apart k hk l hl hpk hpl (hek.symm.trans (he.trans hel))
  · exact h.usable q (Finset.mem_of_mem_erase (hclear ▸ hq))
  · exact h.dir_taken (Finset.mem_of_mem_erase (hclear ▸ hd))
  · rw [hclear] at hq
    rcases htables k hk hpk with ⟨-, he⟩ | ⟨-, hpk, he⟩
    · exact (Finset.mem_erase.mp hq).1 he
    · rw [he] at hq
      exact h.table_taken k hk hpk (Finset.mem_of_mem_erase hq)
  · rintro k hk rfl j hj -
    rw [Mem.pteWord, if_pos hpres, htable, hmem, Mem.pteWord, if_neg hp]
    refine congrArg some (Mem.read32_fill_zero (by omega) ?_)
    unfold memPageSize pteCnt at *
    omega
  · rcases htables k hk hpk with ⟨-, he⟩ | ⟨-, hpk, he⟩
    · rw [he]
      exact .inr ht
    · exact .inl ⟨hpk, he⟩
  · rw [hclear]
    exact Finset.erase_subset _ _
  · exact hout x (hx'' t ht) fun hin => hx (inPage_word hi hin.1 hin.2)

/-- A word of a table is written. -/
theorem setEntry (h : Growable n dir s) (hi : i < pdeCnt) (hp : Present (s.mem.pde dir i))
    (hj : j < pteCnt) (he : e < 2 ^ 32) : Extended n dir s {i}
      (fun i' j' => if i' = i ∧ j' = j then some e else none)
      { s with mem := s.mem.write32 (s.mem.table dir i + 4 * j) e } := by
  obtain ⟨htp, hne⟩ := h.directory.tablePage i hi hp
  have hdal := h.directory.dirPage.aligned
  generalize hm' : s.mem.write32 (s.mem.table dir i + 4 * j) e = m'
  have hout : ∀ x, ¬ (s.mem.table dir i + 4 * j ≤ x ∧ x < s.mem.table dir i + 4 * j + 4) →
      m' x = s.mem x := by
    intro x hx
    rw [← hm']
    exact Mem.write32_apply_of_out x (by omega)
  have hpde : ∀ k < pdeCnt, m'.pde dir k = s.mem.pde dir k := by
    intro k hk
    refine Mem.read32_congr fun x hx hx' => hout x fun hin => hne ?_
    exact InPage.unique htp.aligned hdal (inPage_word hj hin.1 hin.2) (inPage_word hk hx hx')
  have hword : ∀ k < pdeCnt, ∀ l < pteCnt, ¬ (k = i ∧ l = j) →
      m'.pteWord dir k l = s.mem.pteWord dir k l := by
    intro k hk l hl hkl
    rw [Mem.pteWord, Mem.pteWord, Mem.table, hpde k hk]
    by_cases hpk : Present (s.mem.pde dir k)
    · rw [if_pos hpk, if_pos hpk]
      refine congrArg some (Mem.read32_congr fun x hx hx' => hout x fun hin => hkl ?_)
      have hkp := (h.directory.tablePage k hk hpk).1
      have hsame : s.mem.table dir k = s.mem.table dir i := InPage.unique hkp.aligned htp.aligned
        (inPage_word hl hx hx') (inPage_word hj hin.1 hin.2)
      have hki := h.directory.apart k hk i hi hpk hp hsame
      subst k
      have hlow : s.mem.table dir i + 4 * l ≤ x := hx
      have hhigh : x < s.mem.table dir i + 4 * l + 4 := hx'
      exact ⟨rfl, by omega⟩
    · rw [if_neg hpk, if_neg hpk]
  have hset : m'.pteWord dir i j = some e := by
    rw [Mem.pteWord, Mem.table, hpde i hi, if_pos hp, ← hm']
    exact congrArg some (Mem.read32_write32_self he)
  refine ⟨⟨⟨h.directory.dirPage, fun k hk hpk => ?_, fun k hk l hl hpk hpl => ?_⟩, h.managed, h.usable,
    h.dir_taken, fun k hk hpk => ?_⟩, fun k hk l hl e' he' => ?_, ?_, fun k hk hki l hl => ?_,
    fun k hk hpk => ?_, Finset.Subset.refl _, rfl, rfl, fun x _ hx _ => ?_⟩
  · rw [hpde k hk] at hpk
    rw [Mem.table, hpde k hk]
    exact h.directory.tablePage k hk hpk
  · rw [hpde k hk] at hpk
    rw [hpde l hl] at hpl
    rw [Mem.table, Mem.table, hpde k hk, hpde l hl]
    exact h.directory.apart k hk l hl hpk hpl
  · rw [hpde k hk] at hpk
    rw [Mem.table, hpde k hk]
    exact h.table_taken k hk hpk
  · by_cases hkl : k = i ∧ l = j
    · rw [if_pos hkl] at he'
      rw [hkl.1, hkl.2, hset, he']
    · rw [if_neg hkl] at he'
      cases he'
  · rintro k hk rfl l hl hnone
    have hkl : ¬ (k = k ∧ l = j) := fun hkl => by simp [hkl] at hnone
    refine (hword k hk l hl hkl).trans ?_
    rw [Mem.pteWord, if_pos hp]
    rfl
  · exact hword k hk l hl fun hkl => hki hkl.1
  · rw [hpde k hk] at hpk
    exact .inl ⟨hpk, by rw [Mem.table, Mem.table, hpde k hk]⟩
  · exact hout x fun hin => hx i hi hp (inPage_word hj hin.1 hin.2)

theorem setEntry_grows (h : Growable n dir s) (hi : i < pdeCnt) (hp : Present (s.mem.pde dir i))
    (hj : j < pteCnt) :
    Grows dir s { s with mem := s.mem.write32 (s.mem.table dir i + 4 * j) e } := by
  obtain ⟨htp, hne⟩ := h.directory.tablePage i hi hp
  have hdal := h.directory.dirPage.aligned
  have hpde : ∀ k < pdeCnt,
      (s.mem.write32 (s.mem.table dir i + 4 * j) e).pde dir k = s.mem.pde dir k := by
    intro k hk
    refine Mem.read32_congr fun x hx hx' => Mem.write32_apply_of_out x ?_
    by_contra hin
    rw [not_or, not_lt, not_le] at hin
    exact hne (InPage.unique htp.aligned hdal (inPage_word hj hin.1 hin.2) (inPage_word hk hx hx'))
  refine ⟨fun k hk hpk => ?_, fun k hk hpk => ?_, fun x _ hx => ?_⟩
  · show Present ((s.mem.write32 _ e).pde dir k) ∧
      entryPaddr ((s.mem.write32 _ e).pde dir k) = entryPaddr (s.mem.pde dir k)
    rw [hpde k hk]
    exact ⟨hpk, rfl⟩
  · have hpk' : Present ((s.mem.write32 (s.mem.table dir i + 4 * j) e).pde dir k) := hpk
    rw [hpde k hk] at hpk'
    exact .inl hpk'
  · have hpi : Present ((s.mem.write32 (s.mem.table dir i + 4 * j) e).pde dir i) := by
      rw [hpde i hi]
      exact hp
    have hout : ¬ InPage ((s.mem.write32 (s.mem.table dir i + 4 * j) e).table dir i) x := hx i hi hpi
    rw [Mem.table, hpde i hi] at hout
    refine Mem.write32_apply_of_out x ?_
    by_contra hin
    rw [not_or, not_lt, not_le] at hin
    exact hout (inPage_word hj hin.1 hin.2)

/-- `find_pte` with allocation: it gives up only without a table and without a clear page. -/
theorem findPte_cases (h : Growable n dir s) (hv : v < 2 ^ 32) :
    (¬ Present (s.mem.pde dir (pdeIndex v)) ∧ s.alloc.clearPages = ∅ ∧
      findPte dir v true s = some (0, s)) ∨
    ∃ s₁, findPte dir v true s = some (s₁.mem.table dir (pdeIndex v) + 4 * pteIndex v, s₁) ∧
      Present (s₁.mem.pde dir (pdeIndex v)) ∧
      Extended n dir s {pdeIndex v} (fun _ _ => none) s₁ ∧ Grows dir s s₁ := by
  have hi := pdeIndex_lt hv
  by_cases hp : Present (s.mem.pde dir (pdeIndex v))
  · have ht := (h.directory.tablePage _ hi hp).1
    refine .inr ⟨s, findPte_present h.directory.dirPage hv hp ht true, hp, ⟨h, nofun, ?_,
      fun _ _ _ _ _ => rfl, fun _ _ hpk => .inl ⟨hpk, rfl⟩, Finset.Subset.refl _, rfl, rfl,
      fun _ _ _ _ => rfl⟩, .refl dir s⟩
    rintro k hk rfl j hj -
    rw [Mem.pteWord, if_pos hp]
    rfl
  · by_cases hempty : s.alloc.clearPages = ∅
    · exact .inl ⟨hp, hempty, h.findPte_empty hv hp hempty⟩
    · obtain ⟨t, ht, s₁, hs₁, hm₁, hclear₁, hmem₁, hcr₁⟩ :=
        allocPage_spec h.managed (Finset.nonempty_iff_ne_empty.mpr hempty)
      have htp := h.usable t ht
      have hal := htp.aligned
      have hor : t ||| pteP ||| pteW ||| pdeU = t + 7 := by
        rw [Nat.or_assoc, Nat.or_assoc]
        exact or_eq_add hal (by decide)
      have hstart := allocPage_start hs₁
      let s₂ : Vm :=
        { s₁ with mem := (s.mem.write32 (dir + 4 * pdeIndex v) (t + 7)).fill t 0 memPageSize }
      obtain ⟨hext, hpres, htable⟩ : Extended n dir s {pdeIndex v} (fun _ _ => none) s₂ ∧
          Present (s₂.mem.pde dir (pdeIndex v)) ∧ s₂.mem.table dir (pdeIndex v) = t :=
        h.addTable hi hp ht hm₁ hclear₁ hstart hcr₁ rfl
      refine .inr ⟨s₂, ?_, hpres, hext, h.addTable_grows hi hp ht rfl⟩
      rw [findPte, Prog.bind_of_eq (h.directory.dirPage.load32 hi), if_neg hp, if_pos rfl,
        Prog.bind_of_eq hs₁, if_neg htp.ne_zero, hor,
        Prog.bind_of_eq (h.directory.dirPage.store32 hi _),
        Prog.bind_of_eq (memset_page htp.identity hal htp.ne_zero 0), hmem₁, htable,
        (htp.word (pteIndex_lt v)).2.2]
      rfl

end Growable

/-! ## Extensions -/

namespace Extended

theorem refl (h : Growable n dir s) : Extended n dir s ∅ (fun _ _ => none) s where
  growable := h
  added := nofun
  filled := nofun
  kept _ _ _ _ _ := rfl
  tables _ _ hp := .inl ⟨hp, rfl⟩
  clear := Finset.Subset.refl _
  start := rfl
  cr3 := rfl
  out _ _ _ _ := rfl

theorem congr (h : Extended n dir s tabled new s') (ht : tabled = tabled')
    (hn : ∀ i < pdeCnt, ∀ j < pteCnt, new' i j = new i j) : Extended n dir s tabled' new' s' where
  growable := h.growable
  added i hi j hj e he := h.added i hi j hj e (hn i hi j hj ▸ he)
  filled i hi hi' j hj he := h.filled i hi (ht ▸ hi') j hj (hn i hi j hj ▸ he)
  kept i hi hi' := h.kept i hi (ht ▸ hi')
  tables := h.tables
  clear := h.clear
  start := h.start
  cr3 := h.cr3
  out := h.out

theorem trans (h : Extended n dir s tabled new s₁) (h' : Extended n dir s₁ tabled' new' s₂) :
    Extended n dir s (tabled ∪ tabled') (fun i j => (new' i j).or (new i j)) s₂ where
  growable := h'.growable
  added i hi j hj e he := by
    cases hnew : new' i j with
    | some x =>
        rw [hnew] at he
        exact (h'.added i hi j hj x hnew).trans he
    | none =>
        rw [hnew, Option.none_or] at he
        have hword := h.added i hi j hj e he
        by_cases ht : i ∈ tabled'
        · rw [h'.filled i hi ht j hj hnew, hword]
          rfl
        · rw [h'.kept i hi ht j hj, hword]
  filled i hi ht j hj he := by
    obtain ⟨hnew', hnew⟩ := Option.or_eq_none_iff.mp he
    by_cases hti : i ∈ tabled
    · have hword := h.filled i hi hti j hj hnew
      by_cases hti' : i ∈ tabled'
      · rw [h'.filled i hi hti' j hj hnew', hword]
        rfl
      · rw [h'.kept i hi hti' j hj, hword]
    · rw [h'.filled i hi (ht.resolve_left hti) j hj hnew', h.kept i hi hti j hj]
  kept i hi ht j hj := by
    rw [h'.kept i hi (fun hm => ht (.inr hm)) j hj, h.kept i hi (fun hm => ht (.inl hm)) j hj]
  tables i hi hp := by
    rcases h'.tables i hi hp with ⟨hp', he'⟩ | hc
    · rcases h.tables i hi hp' with ⟨hp, he⟩ | hc
      · exact .inl ⟨hp, he'.trans he⟩
      · rw [he']
        exact .inr hc
    · exact .inr (h.clear hc)
  clear := h'.clear.trans h.clear
  start := h'.start.trans h.start
  cr3 := h'.cr3.trans h.cr3
  out x hd ht hc := by
    refine (h'.out x hd (fun i hi hp => ?_) fun p hp => hc p (h.clear hp)).trans (h.out x hd ht hc)
    rcases h.tables i hi hp with ⟨hp', he⟩ | hcl
    · rw [he]
      exact ht i hi hp'
    · exact hc _ hcl

/-- Present entries, those that are added included. -/
theorem userEntry_eq (h : Extended n dir s tabled new s') (hi : i < pdeCnt) (hj : j < pteCnt)
    (hpres : ∀ e, new i j = some e → Present e) :
    s'.mem.userEntry dir i j = (new i j).or (s.mem.userEntry dir i j) := by
  rw [Mem.userEntry_eq_filter, Mem.userEntry_eq_filter]
  cases hnew : new i j with
  | some e =>
      rw [h.added i hi j hj e hnew]
      simp [Option.filter, hpres e hnew]
  | none =>
      rw [Option.none_or]
      by_cases ht : i ∈ tabled
      · rw [h.filled i hi ht j hj hnew]
        cases s.mem.pteWord dir i j with
        | none => simp [Option.filter, Present]
        | some x => rfl
      · rw [h.kept i hi ht j hj]

end Extended

/-! ## Mapping pages -/

/-- The entry `e` for the page of `v`. -/
def pageEntry (v e i j : ℕ) : Option ℕ :=
  if i = pdeIndex v ∧ j = pteIndex v then some e else none

/-- The entries `e 0, e 1, …` for the first `c` pages from `v` on. -/
def rangeEntries (v : ℕ) (e : ℕ → ℕ) : ℕ → ℕ → ℕ → Option ℕ
  | 0, _, _ => none
  | c + 1, i, j => (pageEntry (u32 (v + c * memPageSize)) (e c) i j).or (rangeEntries v e c i j)

def rangeTables (v c : ℕ) : Set ℕ := {i | ∃ k < c, i = pdeIndex (u32 (v + k * memPageSize))}

theorem pageEntry_lt_two_pow (hp : p < 2 ^ 32) (hperm : perm < 2 ^ 32) :
    p ||| perm ||| pteP < 2 ^ 32 :=
  Nat.or_lt_two_pow (Nat.or_lt_two_pow hp hperm) (by decide)

theorem present_or_pteP (x : ℕ) : Present (x ||| pteP) := by
  have hbit : (x ||| pteP).testBit 0 = true := by
    rw [Nat.testBit_or]
    simp [pteP]
  simpa [Present, Nat.testBit_zero] using hbit

/-- One page of `memory_create_map`. -/
theorem Growable.createMap_succ {r : ℤ} {c : ℕ} (h : Growable n dir s) (hv : v < 2 ^ 32)
    (hp : p < 2 ^ 32) (hperm : perm < 2 ^ 32)
    (hrun : memoryCreateMap dir perm (c + 1) v p s = some (r, s')) :
    (r = -1 ∧ s' = s ∧ ¬ Present (s.mem.pde dir (pdeIndex v)) ∧ s.alloc.clearPages = ∅) ∨
    ∃ s₁, s.mem.userEntry dir (pdeIndex v) (pteIndex v) = none ∧
      Extended n dir s {pdeIndex v} (pageEntry v (p ||| perm ||| pteP)) s₁ ∧ Grows dir s s₁ ∧
      memoryCreateMap dir perm c (u32 (v + memPageSize)) (u32 (p + memPageSize)) s₁ =
        some (r, s') := by
  rcases h.findPte_cases hv with ⟨habsent, hempty, hfind⟩ | ⟨s₁, hfind, hpres, hext, hgrows⟩
  · rw [memoryCreateMap, Prog.bind_of_eq hfind, if_pos rfl, Prog.pure_eq_some] at hrun
    exact .inl ⟨hrun.1, hrun.2, habsent, hempty⟩
  · have hi := pdeIndex_lt hv
    have hj := pteIndex_lt v
    have htp := (hext.growable.directory.tablePage _ hi hpres).1
    have hne := htp.ne_zero
    obtain ⟨hid, hal, -⟩ := htp.word hj
    rw [memoryCreateMap, Prog.bind_of_eq hfind, if_neg (by omega),
      Prog.bind_of_eq (load32_of_identity hid hal)] at hrun
    obtain ⟨u, s₂, hreq, hrun⟩ := Prog.bind_eq_some.mp hrun
    obtain ⟨hfree, rfl⟩ := Prog.require_eq_some.mp hreq
    rw [Prog.bind_of_eq (store32_of_identity hid _)] at hrun
    have hset := hext.growable.setEntry hi hpres hj (pageEntry_lt_two_pow hp hperm)
    refine .inr ⟨_, ?_, (hext.trans hset).congr (Set.union_self _) fun i _ j _ => ?_,
      hgrows.trans (hext.growable.setEntry_grows hi hpres hj) hext.clear, hrun⟩
    · have hentry := hext.userEntry_eq hi hj (by simp)
      rw [Mem.userEntry, if_pos hpres, if_neg hfree, Option.none_or] at hentry
      exact hentry.symm
    · exact (Option.or_none).symm

/-- The entries of a range, from its first page on. -/
theorem rangeEntries_cons (v : ℕ) (f : ℕ → ℕ) (c i j : ℕ) :
    (rangeEntries (u32 (v + memPageSize)) (fun k => f (k + 1)) c i j).or
      (pageEntry (u32 v) (f 0) i j) = rangeEntries v f (c + 1) i j := by
  induction c with
  | zero => simp [rangeEntries]
  | succ c ih =>
      have hwrap : u32 (u32 (v + memPageSize) + c * memPageSize) =
          u32 (v + (c + 1) * memPageSize) := by
        unfold u32 memPageSize
        omega
      rw [rangeEntries, hwrap, Option.or_assoc, ih]
      rfl

theorem rangeTables_cons (v c : ℕ) :
    {pdeIndex (u32 v)} ∪ rangeTables (u32 (v + memPageSize)) c = rangeTables v (c + 1) := by
  have hwrap : ∀ k, u32 (u32 (v + memPageSize) + k * memPageSize) =
      u32 (v + (k + 1) * memPageSize) := by
    intro k
    unfold u32 memPageSize
    omega
  ext i
  constructor
  · rintro (rfl | ⟨k, hk, rfl⟩)
    · exact ⟨0, by omega, by simp⟩
    · exact ⟨k + 1, by omega, by rw [hwrap]⟩
  · rintro ⟨k, hk, rfl⟩
    cases k with
    | zero => exact .inl (by simp)
    | succ k => exact .inr ⟨k, by omega, by rw [hwrap]⟩

/-- Different pages of a range have different indices. -/
theorem pageIndices_wrap {v k l : ℕ} (hk : k < 2 ^ 20) (hl : l < 2 ^ 20)
    (hi : pdeIndex (u32 (v + k * memPageSize)) = pdeIndex (u32 (v + l * memPageSize)))
    (hj : pteIndex (u32 (v + k * memPageSize)) = pteIndex (u32 (v + l * memPageSize))) :
    k = l := by
  unfold pdeIndex pteIndex u32 memPageSize at *
  omega

theorem rangeEntries_eq_none {f : ℕ → ℕ} {c : ℕ} : rangeEntries v f c i j = none ↔
    ∀ k < c, ¬ (i = pdeIndex (u32 (v + k * memPageSize)) ∧
      j = pteIndex (u32 (v + k * memPageSize))) := by
  induction c with
  | zero => simp [rangeEntries]
  | succ c ih =>
      rw [rangeEntries, Option.or_eq_none_iff, ih]
      constructor
      · rintro ⟨hc, hold⟩ k hk he
        rcases Nat.lt_succ_iff_lt_or_eq.mp hk with hk | rfl
        · exact hold k hk he
        · simp [pageEntry, he] at hc
      · intro hall
        exact ⟨if_neg (hall c (by omega)), fun k hk => hall k (by omega)⟩

theorem rangeEntries_at {f : ℕ → ℕ} {c k : ℕ} (hc : c ≤ 2 ^ 20) (hk : k < c) :
    rangeEntries v f c (pdeIndex (u32 (v + k * memPageSize)))
      (pteIndex (u32 (v + k * memPageSize))) = some (f k) := by
  induction c with
  | zero => omega
  | succ c ih =>
      rw [rangeEntries]
      by_cases hkc : k = c
      · subst k
        simp [pageEntry]
      · have hne : ¬ (pdeIndex (u32 (v + k * memPageSize)) = pdeIndex (u32 (v + c * memPageSize)) ∧
            pteIndex (u32 (v + k * memPageSize)) = pteIndex (u32 (v + c * memPageSize))) :=
          fun he => hkc (pageIndices_wrap (by omega) (by omega) he.1 he.2)
        rw [pageEntry, if_neg hne, Option.none_or]
        exact ih (by omega) (by omega)

theorem rangeEntries_eq_some {f : ℕ → ℕ} {c : ℕ} (h : rangeEntries v f c i j = some e) :
    ∃ k < c, f k = e ∧ i = pdeIndex (u32 (v + k * memPageSize)) ∧
      j = pteIndex (u32 (v + k * memPageSize)) := by
  induction c with
  | zero => cases h
  | succ c ih =>
      rw [rangeEntries] at h
      cases hp : pageEntry (u32 (v + c * memPageSize)) (f c) i j with
      | none =>
          rw [hp, Option.none_or] at h
          obtain ⟨k, hk, he⟩ := ih h
          exact ⟨k, by omega, he⟩
      | some x =>
          rw [hp] at h
          obtain rfl : x = e := Option.some.inj h
          unfold pageEntry at hp
          split_ifs at hp with hij
          exact ⟨c, by omega, Option.some.inj hp, hij⟩

/-- A whole run of `memory_create_map` that succeeds. -/
theorem Growable.createMap {c : ℕ} (h : Growable n dir s) (hp : p < 2 ^ 32) (hv : v < 2 ^ 32)
    (hperm : perm < 2 ^ 32) (hrun : memoryCreateMap dir perm c v p s = some (0, s')) :
    Extended n dir s (rangeTables v c)
      (rangeEntries v (fun k => u32 (p + k * memPageSize) ||| perm ||| pteP) c) s' := by
  induction c generalizing v p s with
  | zero =>
      obtain ⟨-, rfl⟩ := Prog.pure_eq_some.mp hrun
      refine (Extended.refl h).congr ?_ fun _ _ _ _ => rfl
      ext i
      simp [rangeTables]
  | succ c ih =>
      rcases h.createMap_succ hv hp hperm hrun with ⟨hr, -⟩ | ⟨s₁, -, hext, -, hrest⟩
      · omega
      · refine (hext.trans (ih hext.growable (u32_lt _) (u32_lt _) hrest)).congr ?_
          fun i _ j _ => ?_
        · rw [← rangeTables_cons, u32_of_lt hv]
        · rw [← rangeEntries_cons, u32_of_lt hv, Nat.zero_mul, Nat.add_zero, u32_of_lt hp]
          have hwrap : ∀ k, u32 (u32 (p + memPageSize) + k * memPageSize) =
              u32 (p + (k + 1) * memPageSize) := by
            intro k
            unfold u32 memPageSize
            omega
          simp only [hwrap]

end X86Os
