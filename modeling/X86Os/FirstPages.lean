import X86Os.Paging

/-!
# A kernel with fewer pages

The allocator hands out the first clear page. So a kernel that manages only the first `K` pages of its
memory maps what the kernel with all pages maps, as long as these pages suffice.
-/

namespace X86Os

variable {A B : Type} {f : Prog Vm A} {g : A → Prog Vm B}
variable {n K dir v p perm c a : ℕ} {s s' t : Vm} {alloc : AddrAlloc}

/-- The allocator of the first `K` pages. -/
def AddrAlloc.first (alloc : AddrAlloc) (K : ℕ) : AddrAlloc :=
  { alloc with bitmap := { alloc.bitmap with bitCount := K } }

def Vm.withAlloc (s : Vm) (alloc : AddrAlloc) : Vm := { s with alloc := alloc }

def Vm.first (s : Vm) (K : ℕ) : Vm := s.withAlloc (s.alloc.first K)

theorem AddrAlloc.Managed.first (hm : alloc.Managed n) (hK : K ≤ n) : (alloc.first K).Managed K :=
  ⟨hm.pageSize, hm.start, rfl, lt_of_le_of_lt hK hm.pages⟩

theorem Bitmap.setBit_first {bitmap : Bitmap} {k : ℕ} (hk : k < K)
    (hcount : (k : ℤ) < bitmap.bitCount) (bit : ℤ) :
    bitmapSetBit { bitmap with bitCount := K } k 1 bit =
      { bitmapSetBit bitmap k 1 bit with bitCount := K } := by
  have hk' : (k : ℤ) < K := Int.ofNat_lt.mpr hk
  show (if (k : ℤ) < K then bitmapPutBit _ _ _ else _) =
    { (if (k : ℤ) < bitmap.bitCount then bitmapPutBit _ _ _ else _ : Bitmap) with bitCount := K }
  rw [if_pos hk', if_pos hcount]
  rfl

/-- While the first pages are not used up, all is as if there were no others. -/
theorem AddrAlloc.allocPage_first (hm : alloc.Managed n) (hK : K ≤ n)
    (hroom : (alloc.first K).clearPages.Nonempty) :
    ∃ p alloc', addrAllocPage alloc 1 = (p, alloc') ∧
      addrAllocPage (alloc.first K) 1 = (p, alloc'.first K) := by
  rcases (alloc.first K).firstClear_or with ⟨k, hk⟩ | hfull
  · have hlt : k < K := Int.ofNat_lt.mp hk.1
    have hcount : (k : ℤ) < alloc.bitmap.bitCount := by
      rw [hm.bitCount]
      omega
    refine ⟨_, _, allocPage_found ⟨hcount, hk.2⟩, ?_⟩
    rw [allocPage_found hk]
    exact congrArg (fun b => (alloc.pageAddr k, { alloc with bitmap := b }))
      (Bitmap.setBit_first hlt hcount (-1))
  · rw [clearPages_of_full (hm.first hK) hfull] at hroom
    exact absurd hroom Finset.not_nonempty_empty

/-! ## Programs that leave the allocator alone -/

/-- The program behaves the same with any allocator and does not change it. -/
def NoAlloc (f : Prog Vm A) : Prop :=
  ∀ alloc s, f (s.withAlloc alloc) = (f s).map fun r => (r.1, r.2.withAlloc alloc)

theorem noAlloc_pure (a : A) : NoAlloc (pure a) := fun _ _ => rfl

theorem NoAlloc.bind (hf : NoAlloc f) (hg : ∀ a, NoAlloc (g a)) : NoAlloc (f >>= g) := by
  intro alloc s
  rw [Prog.bind_apply, Prog.bind_apply, hf alloc s]
  cases f s with
  | none => rfl
  | some r => exact hg r.1 alloc r.2

theorem noAlloc_load8 (v : ℕ) : NoAlloc (load8 v) := by
  intro alloc s
  show ((s.phys v).map _) = ((s.phys v).map _).map _
  rw [Option.map_map]
  rfl

theorem noAlloc_store8 (v : ℕ) (b : BitVec 8) : NoAlloc (store8 v b) := by
  intro alloc s
  show ((s.phys v).map _) = ((s.phys v).map _).map _
  rw [Option.map_map]
  rfl

theorem noAlloc_load32 (v : ℕ) : NoAlloc (load32 v) :=
  (noAlloc_load8 _).bind fun _ => (noAlloc_load8 _).bind fun _ => (noAlloc_load8 _).bind fun _ =>
    (noAlloc_load8 _).bind fun _ => noAlloc_pure _

theorem noAlloc_store32 (v x : ℕ) : NoAlloc (store32 v x) := by
  intro alloc s
  show ((s.phys v).map _) = ((s.phys v).map _).map _
  rw [Option.map_map]
  rfl

theorem noAlloc_memset (dest : ℕ) (b : BitVec 8) (size : ℕ) : NoAlloc (memset dest b size) := by
  have hloop : ∀ n dest, NoAlloc (memsetLoop b n dest) := by
    intro n
    induction n with
    | zero => exact fun _ => noAlloc_pure ()
    | succ n ih => exact fun dest => (noAlloc_store8 dest b).bind fun _ => ih _
  unfold memset
  split_ifs
  · exact noAlloc_pure ()
  · exact hloop size dest

theorem NoAlloc.alloc_eq {a : A} (hf : NoAlloc f) (hs : f s = some (a, s')) :
    s'.alloc = s.alloc := by
  have hsame := hf s.alloc s
  rw [show s.withAlloc s.alloc = s from rfl, hs] at hsame
  exact congrArg (fun r : A × Vm => r.2.alloc) (Option.some.inj hsame)

theorem NoAlloc.first {a : A} (hf : NoAlloc f) (hrun : f (s.first K) = some (a, t)) :
    ∃ s', f s = some (a, s') ∧ s'.first K = t ∧ s'.alloc = s.alloc := by
  have hmap := hf (s.alloc.first K) s
  rw [show s.withAlloc (s.alloc.first K) = s.first K from rfl, hrun, eq_comm,
    Option.map_eq_some_iff] at hmap
  obtain ⟨⟨b, s'⟩, hs, hr⟩ := hmap
  obtain ⟨rfl, ht⟩ := Prod.mk.inj hr
  have halloc := hf.alloc_eq hs
  refine ⟨s', hs, ?_, halloc⟩
  rw [Vm.first, halloc]
  exact ht

/-! ## Mapping -/

theorem findPte_first (hm : s.alloc.Managed n) (hK : K ≤ n)
    (hrun : findPte dir v true (s.first K) = some (a, t)) (ha : a ≠ 0) :
    ∃ s', findPte dir v true s = some (a, s') ∧ s'.first K = t ∧ s'.alloc.Managed n := by
  rw [findPte] at hrun ⊢
  obtain ⟨pde, t₁, hload, hrest⟩ := Prog.bind_eq_some.mp hrun
  obtain ⟨s₁, hload', rfl, halloc⟩ := (noAlloc_load32 _).first hload
  obtain rfl : s = s₁ := load32_along _ s pde s₁ hload'
  rw [Prog.bind_of_eq hload']
  by_cases hp : Present pde
  · rw [if_pos hp] at hrest ⊢
    obtain ⟨rfl, rfl⟩ := Prog.pure_eq_some.mp hrest
    exact ⟨s, rfl, rfl, hm⟩
  rw [if_neg hp, if_pos rfl] at hrest ⊢
  obtain ⟨pgPaddr, t₂, halloc₂, hrest⟩ := Prog.bind_eq_some.mp hrest
  by_cases hroom : (s.alloc.first K).clearPages.Nonempty
  · obtain ⟨p, alloc', hbig, hsmall⟩ := AddrAlloc.allocPage_first hm hK hroom
    have hs₂ : allocPage s = some (p, s.withAlloc alloc') := by
      rw [allocPage, hbig]
      rfl
    have ht₂ : allocPage (s.first K) = some (p, (s.withAlloc alloc').first K) := by
      show some ((addrAllocPage (s.alloc.first K) 1).1,
        (s.first K).withAlloc (addrAllocPage (s.alloc.first K) 1).2) = _
      rw [hsmall]
      rfl
    obtain ⟨rfl, rfl⟩ := Prog.result_unique halloc₂ ht₂
    rw [Prog.bind_of_eq hs₂]
    have hm₂ : alloc'.Managed n := by
      have := hm.allocPage 1
      rwa [hbig] at this
    by_cases hzero : pgPaddr = 0
    · rw [if_pos hzero] at hrest
      exact absurd (Prog.pure_eq_some.mp hrest).1 ha
    rw [if_neg hzero] at hrest ⊢
    have hno : NoAlloc (do
        store32 (u32 (dir + 4 * pdeIndex v)) (pgPaddr ||| pteP ||| pteW ||| pdeU)
        memset pgPaddr 0 memPageSize
        pure (u32 (pgPaddr + 4 * pteIndex v)) : Prog Vm ℕ) :=
      (noAlloc_store32 _ _).bind fun _ => (noAlloc_memset _ _ _).bind fun _ => noAlloc_pure _
    obtain ⟨s', hs', ht, halloc'⟩ := hno.first hrest
    exact ⟨s', hs', ht, halloc' ▸ hm₂⟩
  · have hempty := Finset.not_nonempty_iff_eq_empty.mp hroom
    have hnone : allocPage (s.first K) = some (0, s.first K) := by
      rw [allocPage, show (s.first K).alloc = s.alloc.first K from rfl,
        AddrAlloc.allocPage_empty (hm.first hK) hempty]
      rfl
    obtain ⟨rfl, -⟩ := Prog.result_unique halloc₂ hnone
    rw [if_pos rfl] at hrest
    exact absurd (Prog.pure_eq_some.mp hrest).1 ha

/-- A range that the first pages suffice for is mapped in the same way with all pages. -/
theorem memoryCreateMap_first (hm : s.alloc.Managed n) (hK : K ≤ n)
    (hrun : memoryCreateMap dir perm c v p (s.first K) = some (0, t)) :
    ∃ s', memoryCreateMap dir perm c v p s = some (0, s') ∧ s'.first K = t ∧
      s'.alloc.Managed n := by
  induction c generalizing v p s with
  | zero =>
      obtain ⟨-, rfl⟩ := Prog.pure_eq_some.mp hrun
      exact ⟨s, rfl, rfl, hm⟩
  | succ c ih =>
      obtain ⟨pte, t₁, hfind, hrest⟩ := Prog.bind_eq_some.mp hrun
      by_cases hpte : pte = 0
      · rw [if_pos hpte] at hrest
        exact absurd (Prog.pure_eq_some.mp hrest).1 (by norm_num)
      rw [if_neg hpte] at hrest
      obtain ⟨s₁, hfind', rfl, hm₁⟩ := findPte_first hm hK hfind hpte
      obtain ⟨x, t₂, hload, hrest⟩ := Prog.bind_eq_some.mp hrest
      obtain ⟨s₂, hload', rfl, halloc₂⟩ := (noAlloc_load32 _).first hload
      obtain ⟨u, t₃, hreq, hrest⟩ := Prog.bind_eq_some.mp hrest
      obtain ⟨hfree, rfl⟩ := Prog.require_eq_some.mp hreq
      obtain ⟨u, t₄, hstore, hrest⟩ := Prog.bind_eq_some.mp hrest
      obtain ⟨s₄, hstore', rfl, halloc₄⟩ := (noAlloc_store32 _ _).first hstore
      obtain ⟨s', hs', ht, hm'⟩ := ih (by rw [halloc₄, halloc₂]; exact hm₁) hrest
      refine ⟨s', ?_, ht, hm'⟩
      rw [memoryCreateMap, Prog.bind_of_eq hfind', if_neg hpte, Prog.bind_of_eq hload',
        Prog.bind_of_eq (Prog.require_of hfree), Prog.bind_of_eq hstore']
      exact hs'

end X86Os
