import X86Os.MapLookup
import X86Os.UvmCopy

/-!
# Tearing down an address space

What `memory_destroy_uvm` gives back. For every table of the user half it frees the mapped frames, the
page that the word behind the table names, and the table; the directory it never frees.
-/

namespace X86Os

variable {n dir i : ℕ} {m : Mem} {s s' s₁ s₂ : Vm} {L : Layout} {sp : Space} {l l' : List ℕ}

/-! ## What is freed -/

/-- The frames of the first `k` entries of a table. -/
def tableFrames (m : Mem) (t k : ℕ) : List ℕ :=
  (List.range k).flatMap fun j =>
    if Present (m.read32 (t + 4 * j)) then [entryPaddr (m.read32 (t + 4 * j))] else []

/-- The word behind a table. -/
def pastWord (m : Mem) (t : ℕ) : ℕ := m.read32 (t + memPageSize)

def freedTable (m : Mem) (dir i : ℕ) : List ℕ :=
  if Present (m.pde dir i) then tableFrames m (m.table dir i) pteCnt ++
    [entryPaddr (pastWord m (m.table dir i)), m.table dir i]
  else []

/-- What the first `k` rounds of `memory_destroy_uvm` free. -/
def freedPages (m : Mem) (dir k : ℕ) : List ℕ :=
  (List.range' userPdeStart k).flatMap (freedTable m dir)

/-- The entries of the user half. -/
theorem mem_userPdes : i ∈ List.range' userPdeStart (pdeCnt - userPdeStart) ↔
    userPdeStart ≤ i ∧ i < pdeCnt := by
  rw [List.mem_range'_1]
  unfold userPdeStart pdeIndex memoryTaskBase pdeCnt
  omega

theorem mem_freedPages {p : ℕ} (h : p ∈ freedPages m dir (pdeCnt - userPdeStart)) :
    ∃ i, userPdeStart ≤ i ∧ i < pdeCnt ∧ Present (m.pde dir i) ∧
      ((∃ j < pteCnt, Present (m.read32 (m.table dir i + 4 * j)) ∧
        p = entryPaddr (m.read32 (m.table dir i + 4 * j))) ∨
        p = entryPaddr (pastWord m (m.table dir i)) ∨ p = m.table dir i) := by
  obtain ⟨i, hi, hp⟩ := List.mem_flatMap.mp h
  obtain ⟨hlow, hhigh⟩ := mem_userPdes.mp hi
  rw [freedTable] at hp
  split_ifs at hp with hpres
  · refine ⟨i, hlow, hhigh, hpres, ?_⟩
    rcases List.mem_append.mp hp with hframe | hlast
    · obtain ⟨j, hj, hq⟩ := List.mem_flatMap.mp hframe
      split_ifs at hq with hpte
      · exact .inl ⟨j, List.mem_range.mp hj, hpte, List.mem_singleton.mp hq⟩
      · cases hq
    · rcases List.mem_pair.mp hlast with rfl | rfl
      · exact .inr (.inl rfl)
      · exact .inr (.inr rfl)
  · cases hp

/-- The state after the pages `l` were freed one after the other. -/
def Vm.freedAll (s : Vm) (l : List ℕ) : Vm := l.foldl (fun s p => s.freed p 1) s

/-- The single pages `l` were freed between the two states, none of them with a negative index. -/
structure Freed (s : Vm) (l : List ℕ) (s' : Vm) : Prop where
  freeable : ∀ p ∈ l, s.alloc.Freeable p
  eq : s' = s.freedAll l

theorem Vm.freedAll_cons (s : Vm) (p : ℕ) (l : List ℕ) :
    s.freedAll (p :: l) = (s.freed p 1).freedAll l := rfl

theorem Vm.freedAll_append (s : Vm) (l l' : List ℕ) :
    s.freedAll (l ++ l') = (s.freedAll l).freedAll l' := List.foldl_append

/-- Freeing changes neither the memory nor the directory in use nor where the managed pages start. -/
theorem Vm.freedAll_keeps (s : Vm) (l : List ℕ) :
    (s.freedAll l).mem = s.mem ∧ (s.freedAll l).cr3 = s.cr3 ∧
      (s.freedAll l).alloc.start = s.alloc.start := by
  induction l generalizing s with
  | nil => exact ⟨rfl, rfl, rfl⟩
  | cons p l ih => exact ih (s.freed p 1)

theorem Vm.freeable_freedAll (s : Vm) (l : List ℕ) (p : ℕ) :
    (s.freedAll l).alloc.Freeable p ↔ s.alloc.Freeable p :=
  AddrAlloc.freeable_congr (s.freedAll_keeps l).2.2

theorem Vm.freedAll_calls (s : Vm) (l : List ℕ) : ∃ calls,
    (s.freedAll l).frees = s.frees ++ calls ∧ calls.map FreeCall.addr = l ∧
      ∀ call ∈ calls, call.count = 1 := by
  induction l generalizing s with
  | nil => exact ⟨[], (List.append_nil _).symm, rfl, nofun⟩
  | cons p l ih =>
      obtain ⟨calls, hcalls, hmap, hone⟩ := ih (s.freed p 1)
      let call : FreeCall := ⟨p, 1, s.alloc.lost (addrFreePage s.alloc p 1)⟩
      refine ⟨call :: calls, ?_, congrArg (p :: ·) hmap, List.forall_mem_cons.mpr ⟨rfl, hone⟩⟩
      rw [Vm.freedAll_cons, hcalls]
      exact List.append_assoc _ _ _

namespace Freed

theorem refl (s : Vm) : Freed s [] s := ⟨nofun, rfl⟩

theorem nil_iff : Freed s [] s' ↔ s' = s := ⟨Freed.eq, fun h => h ▸ .refl s⟩

theorem mem (h : Freed s l s') : s'.mem = s.mem := h.eq ▸ (s.freedAll_keeps l).1

theorem cr3 (h : Freed s l s') : s'.cr3 = s.cr3 := h.eq ▸ (s.freedAll_keeps l).2.1

theorem calls (h : Freed s l s') : ∃ calls, s'.frees = s.frees ++ calls ∧
    calls.map FreeCall.addr = l ∧ ∀ call ∈ calls, call.count = 1 :=
  h.eq ▸ s.freedAll_calls l

theorem append_iff : Freed s (l ++ l') s' ↔ ∃ s₁, Freed s l s₁ ∧ Freed s₁ l' s' := by
  constructor
  · rintro ⟨hall, rfl⟩
    refine ⟨s.freedAll l, ⟨fun p hp => hall p (List.mem_append_left _ hp), rfl⟩, fun p hp => ?_,
      s.freedAll_append l l'⟩
    exact (s.freeable_freedAll l p).mpr (hall p (List.mem_append_right _ hp))
  · rintro ⟨_, ⟨h, rfl⟩, h', rfl⟩
    refine ⟨fun p hp => ?_, (s.freedAll_append l l').symm⟩
    exact (List.mem_append.mp hp).elim (h p) fun hp => (s.freeable_freedAll l p).mp (h' p hp)

theorem trans (h : Freed s l s₁) (h' : Freed s₁ l' s₂) : Freed s (l ++ l') s₂ :=
  append_iff.mpr ⟨s₁, h, h'⟩

end Freed

theorem freePages_eq_some_freed {a : ℕ} {u : Unit} :
    freePages a 1 s = some (u, s') ↔ Freed s [a] s' := by
  rw [freePages_eq_some]
  exact ⟨fun h => ⟨fun p hp => List.mem_singleton.mp hp ▸ h.1, h.2⟩,
    fun h => ⟨h.freeable a (List.mem_singleton_self a), h.eq⟩⟩

/-! ## The loops -/

/-- Rounds of which each frees its own list. -/
theorem Freed.loop_eq_some {body : ℕ → Prog Vm (Option Unit)} {g : ℕ → List ℕ} {P : ℕ → Prop}
    {k : ℕ} {r : Option Unit}
    (hbody : ∀ j s₁ q s₂, i ≤ j → j < i + k → s₁.mem = s.mem →
      (body j s₁ = some (q, s₂) ↔ q = none ∧ P j ∧ Freed s₁ (g j) s₂)) :
    Prog.loop body k i s = some (r, s') ↔
      r = none ∧ (∀ j, i ≤ j → j < i + k → P j) ∧ Freed s ((List.range' i k).flatMap g) s' := by
  induction k generalizing i s with
  | zero =>
      rw [Prog.loop, Prog.pure_eq_some, List.range'_zero, List.flatMap_nil, Freed.nil_iff]
      exact ⟨fun h => ⟨h.1, fun j hj hj' => absurd hj (by omega), h.2⟩, fun h => ⟨h.1, h.2.2⟩⟩
  | succ k ih =>
      rw [List.range'_succ, List.flatMap_cons, Freed.append_iff, Prog.loop, Prog.bind_eq_some]
      have hrest : ∀ s₁ : Vm, s₁.mem = s.mem → (Prog.loop body k (i + 1) s₁ = some (r, s') ↔ _) :=
        fun s₁ hs₁ => ih (i := i + 1) (s := s₁) fun j s₂ q s₃ hj hj' hs₂ =>
          hbody j s₂ q s₃ (by omega) (by omega) (hs₂.trans hs₁)
      constructor
      · rintro ⟨q, s₁, hq, hloop⟩
        obtain ⟨rfl, hi, hfreed⟩ := (hbody i s q s₁ le_rfl (by omega) rfl).mp hq
        obtain ⟨rfl, hall, hfreed'⟩ := (hrest s₁ hfreed.mem).mp hloop
        refine ⟨rfl, fun j hj hj' => ?_, s₁, hfreed, hfreed'⟩
        rcases hj.eq_or_lt with rfl | hlt
        · exact hi
        · exact hall j hlt (by omega)
      · rintro ⟨rfl, hall, s₁, hfreed, hfreed'⟩
        refine ⟨none, s₁, (hbody i s none s₁ le_rfl (by omega) rfl).mpr
          ⟨rfl, hall i le_rfl (by omega), hfreed⟩, (hrest s₁ hfreed.mem).mpr ⟨rfl, ?_, hfreed'⟩⟩
        exact fun j hj hj' => hall j (by omega) (by omega)

theorem destroyPage_eq_some {t j : ℕ} {q : Option Unit} (ht : KernelPage t) (hj : j < pteCnt) :
    destroyPage t j s = some (q, s') ↔ q = none ∧ Freed s
      (if Present (s.mem.read32 (t + 4 * j)) then [entryPaddr (s.mem.read32 (t + 4 * j))] else [])
      s' := by
  rw [destroyPage, Prog.bind_of_eq (ht.load32 hj)]
  split_ifs with hp
  · rw [Prog.bind_eq_some]
    constructor
    · rintro ⟨u, s₁, hfree, hpure⟩
      obtain ⟨rfl, rfl⟩ := Prog.pure_eq_some.mp hpure
      exact ⟨rfl, freePages_eq_some_freed.mp hfree⟩
    · rintro ⟨rfl, hfreed⟩
      exact ⟨(), s', freePages_eq_some_freed.mpr hfreed, rfl⟩
  · rw [Prog.pure_eq_some, Freed.nil_iff]

theorem destroyPages_eq_some {t : ℕ} {r : Option Unit} (ht : KernelPage t) :
    Prog.loop (destroyPage t) pteCnt 0 s = some (r, s') ↔
      r = none ∧ Freed s (tableFrames s.mem t pteCnt) s' := by
  rw [Freed.loop_eq_some (P := fun _ => True) (g := fun j =>
    if Present (s.mem.read32 (t + 4 * j)) then [entryPaddr (s.mem.read32 (t + 4 * j))] else []),
    tableFrames, List.range_eq_range']
  · exact ⟨fun h => ⟨h.1, h.2.2⟩, fun h => ⟨h.1, fun _ _ _ => trivial, h.2⟩⟩
  · intro j s₁ q s₂ _ hj hs₁
    rw [destroyPage_eq_some ht (by omega), hs₁]
    exact ⟨fun h => ⟨h.1, trivial, h.2⟩, fun h => ⟨h.1, h.2.2⟩⟩

/-- The word behind a table can be read if its page is mapped. -/
theorem load32_past {t : ℕ} (ht : KernelPage t) (s : Vm) :
    load32 (u32 (t + 4 * pteCnt)) s =
      if Identity (t + memPageSize) then some (pastWord s.mem t, s) else none := by
  have hlt := ht.identity.lt
  have hal := ht.aligned
  have hwrap : u32 (t + 4 * pteCnt) = t + memPageSize :=
    u32_of_lt (by unfold pteCnt; omega)
  rw [hwrap]
  by_cases hid : Identity (t + memPageSize)
  · rw [if_pos hid, load32_of_identity hid (by unfold memPageSize at *; omega)]
    rfl
  · have hload : load8 (t + memPageSize) s = none := by
      rw [load8, Vm.phys, if_pos (by unfold memPageSize memoryTaskBase; omega), if_neg hid]
      rfl
    rw [if_neg hid, load32, Prog.bind_of_none hload]

/-- The kernel reaches the directory and the tables of its user half. -/
structure Reached (m : Mem) (dir : ℕ) : Prop where
  dirPage : KernelPage dir
  table : ∀ i, userPdeStart ≤ i → i < pdeCnt → Present (m.pde dir i) → KernelPage (m.table dir i)

/-- The word behind every table of the directory can be read. -/
def PastMapped (m : Mem) (dir : ℕ) : Prop := ∀ i, userPdeStart ≤ i → i < pdeCnt →
  Present (m.pde dir i) → Identity (m.table dir i + memPageSize)

theorem destroyTable_eq_some {q : Option Unit} (h : Reached s.mem dir) (hi : userPdeStart ≤ i)
    (hi' : i < pdeCnt) : destroyTable dir i s = some (q, s') ↔
      q = none ∧ (Present (s.mem.pde dir i) → Identity (s.mem.table dir i + memPageSize)) ∧
        Freed s (freedTable s.mem dir i) s' := by
  rw [destroyTable, Prog.bind_of_eq (h.dirPage.load32 hi'), freedTable]
  by_cases hp : Present (s.mem.pde dir i)
  · have ht := h.table i hi hi' hp
    rw [if_pos hp, if_pos hp, Prog.bind_eq_some]
    constructor
    · rintro ⟨r, s₁, hloop, hrest⟩
      obtain ⟨rfl, hframes⟩ := (destroyPages_eq_some ht).mp hloop
      obtain ⟨w, s₂, hload, hrest⟩ := Prog.bind_eq_some.mp hrest
      have hpast := hload.symm.trans (load32_past ht s₁)
      split_ifs at hpast with hid
      obtain ⟨rfl, rfl⟩ := Prod.mk.inj (Option.some.inj hpast)
      obtain ⟨_, s₃, hfree, hrest⟩ := Prog.bind_eq_some.mp hrest
      obtain ⟨_, s₄, hfree', hrest⟩ := Prog.bind_eq_some.mp hrest
      obtain ⟨rfl, rfl⟩ := Prog.pure_eq_some.mp hrest
      have hall := hframes.trans ((freePages_eq_some_freed.mp hfree).trans
        (freePages_eq_some_freed.mp hfree'))
      rw [hframes.mem] at hall
      exact ⟨rfl, fun _ => hid, hall⟩
    · rintro ⟨rfl, hid, hfreed⟩
      obtain ⟨s₁, hframes, hfreed⟩ := Freed.append_iff.mp hfreed
      obtain ⟨s₂, hpage, htable⟩ := Freed.append_iff (l := [_]).mp hfreed
      have hload := load32_past ht s₁
      rw [if_pos (hid hp), hframes.mem] at hload
      refine ⟨none, s₁, (destroyPages_eq_some ht).mpr ⟨rfl, hframes⟩, ?_⟩
      rw [Prog.bind_of_eq hload, Prog.bind_of_eq (freePages_eq_some_freed (u := ()).mpr hpage),
        Prog.bind_of_eq (freePages_eq_some_freed (u := ()).mpr htable)]
      rfl
  · rw [if_neg hp, if_neg hp, Prog.pure_eq_some, Freed.nil_iff]
    exact ⟨fun h => ⟨h.1, fun hpres => absurd hpres hp, h.2⟩, fun h => ⟨h.1, h.2.2⟩⟩

theorem freedPages_nil (h : ∀ i, userPdeStart ≤ i → i < pdeCnt → ¬ Present (m.pde dir i)) :
    freedPages m dir (pdeCnt - userPdeStart) = [] := by
  refine List.flatMap_eq_nil_iff.mpr fun i hi => if_neg ?_
  obtain ⟨hlow, hhigh⟩ := mem_userPdes.mp hi
  exact h i hlow hhigh

/-- The call returns if and only if the word behind every table can be read and no page that it frees
has a negative index. -/
theorem memoryDestroyUvm_eq_some {u : Unit} (h : Reached s.mem dir) :
    memoryDestroyUvm dir s = some (u, s') ↔
      PastMapped s.mem dir ∧ Freed s (freedPages s.mem dir (pdeCnt - userPdeStart)) s' := by
  have hcnt : userPdeStart + (pdeCnt - userPdeStart) = pdeCnt := by
    unfold userPdeStart pdeIndex memoryTaskBase pdeCnt
    omega
  have hloop : ∀ r s₁, Prog.loop (destroyTable dir) (pdeCnt - userPdeStart) userPdeStart s =
      some (r, s₁) ↔ r = none ∧ PastMapped s.mem dir ∧
        Freed s (freedPages s.mem dir (pdeCnt - userPdeStart)) s₁ := by
    intro r s₁
    rw [Freed.loop_eq_some (g := freedTable s.mem dir)
      (P := fun i => Present (s.mem.pde dir i) → Identity (s.mem.table dir i + memPageSize)), hcnt]
    · rfl
    · intro j s₂ q s₃ hj hj' hs₂
      rw [hcnt] at hj'
      rw [destroyTable_eq_some (hs₂ ▸ h) hj hj', hs₂]
  rw [memoryDestroyUvm, Prog.bind_eq_some]
  constructor
  · rintro ⟨r, s₁, hrun, hpure⟩
    obtain ⟨-, rfl⟩ := Prog.pure_eq_some.mp hpure
    exact ((hloop r s').mp hrun).2
  · exact fun hfreed => ⟨none, s', (hloop none s').mpr ⟨rfl, hfreed⟩, rfl⟩

/-- The processor keeps its directory. -/
def SameCr3 (s s' : Vm) : Prop := s'.cr3 = s.cr3

instance : IsPreorder Vm SameCr3 where
  refl _ := rfl
  trans _ _ _ h h' := h'.trans h

theorem sameCr3_freePages (addr count : ℕ) : Prog.Along SameCr3 (freePages addr count) := by
  intro s u s' h
  obtain ⟨-, rfl⟩ := freePages_eq_some.mp h
  rfl

theorem sameCr3_load32 (v : ℕ) : Prog.Along SameCr3 (load32 v) := fun s _ s' h =>
  congrArg Vm.cr3 (load32_along v s _ s' h).symm

theorem memoryDestroyUvm_cr3 (dir : ℕ) : Prog.Along SameCr3 (memoryDestroyUvm dir) := by
  have hpage : ∀ t j, Prog.Along SameCr3 (destroyPage t j) := fun t j =>
    (sameCr3_load32 _).bind fun pte =>
      ((sameCr3_freePages _ 1).bind fun _ => Prog.along_pure _).ite (Prog.along_pure _)
  have htable : ∀ i, Prog.Along SameCr3 (destroyTable dir i) := fun i =>
    (sameCr3_load32 _).bind fun pde =>
      ((Prog.Along.loop (hpage _) _ _).bind fun _ => (sameCr3_load32 _).bind fun _ =>
        (sameCr3_freePages _ 1).bind fun _ => (sameCr3_freePages _ 1).bind fun _ =>
          Prog.along_pure _).ite (Prog.along_pure _)
  exact (Prog.Along.loop htable _ _).bind fun _ => Prog.along_pure _

/-! ## Directories that the kernel built -/

/-- The space has its directory and tables in memory, and no clear page is one of them. -/
structure Space.Tabled (sp : Space) (n : ℕ) (s : Vm) : Prop where
  tables : sp.Tables userPdeStart s.mem
  managed : s.alloc.Managed n
  usable : ∀ p ∈ s.alloc.clearPages, KernelPage p
  dir_taken : sp.dir ∉ s.alloc.clearPages
  table_taken : ∀ i t, sp.table i = some t → t ∉ s.alloc.clearPages

namespace Space.Tabled

theorem ofOwned (h : sp.Owned n s) : sp.Tabled n s where
  tables := h.shape.tables
  managed := h.managed
  usable := h.clear
  dir_taken := h.apart .dir _ rfl
  table_taken i t ht := h.apart (.table i) t ht

/-- A clear page became the table with the index `i`. -/
theorem addTable {t : ℕ} (h : sp.Tabled n s) (hi : userPdeStart ≤ i) (hi' : i < pdeCnt)
    (hnone : sp.table i = none) (ht : t ∈ s.alloc.clearPages) (hm : s'.alloc.Managed n)
    (hclear : s'.alloc.clearPages = s.alloc.clearPages.erase t)
    (hmem : s'.mem = (s.mem.write32 (sp.dir + 4 * i) (t + 7)).fill t 0 memPageSize) :
    (sp.addTable i t).Tabled n s' where
  tables := by
    rw [hmem]
    exact h.tables.addTable hi hi' hnone (h.usable t ht) (fun he => h.dir_taken (he ▸ ht))
      fun k hk => h.table_taken k t hk ht
  managed := hm
  usable p hp := h.usable p (Finset.mem_of_mem_erase (hclear ▸ hp))
  dir_taken hd := h.dir_taken (Finset.mem_of_mem_erase (hclear ▸ hd))
  table_taken k u hu hc := by
    rw [hclear] at hc
    rcases addTable_page (x := .table k) hu with ⟨-, rfl⟩ | ⟨-, hold⟩
    · exact (Finset.mem_erase.mp hc).1 rfl
    · exact h.table_taken k u hold (Finset.mem_of_mem_erase hc)

/-- `find_pte` with allocation gives up, or there is a table in the end. -/
theorem findPte_cases {v : ℕ} (h : sp.Tabled n s) (hv : memoryTaskBase ≤ v) (hv' : v < 2 ^ 32) :
    findPte sp.dir v true s = some (0, s) ∨
    ∃ (sp' : Space) (s₁ : Vm) (t : ℕ), findPte sp.dir v true s = some (t + 4 * pteIndex v, s₁) ∧
      sp'.dir = sp.dir ∧ sp'.table (pdeIndex v) = some t ∧ sp'.Tabled n s₁ := by
  obtain ⟨hi, hi'⟩ := pdeIndex_user hv hv'
  cases ht : sp.table (pdeIndex v) with
  | some t => exact .inr ⟨sp, s, t, h.tables.findPte_table ht true, rfl, ht, h⟩
  | none =>
      by_cases hempty : s.alloc.clearPages = ∅
      · have halloc : allocPage s = some (0, s) := by
          rw [allocPage, AddrAlloc.allocPage_empty h.managed hempty]
        have hpde : s.mem.read32 (sp.dir + 4 * pdeIndex v) = 0 := by
          rw [h.tables.pde _ hi hi', ht]
          rfl
        left
        rw [findPte, Prog.bind_of_eq (h.tables.dirPage.load32 hi'), hpde, if_neg (by decide),
          if_pos rfl, Prog.bind_of_eq halloc, if_pos rfl]
        rfl
      · obtain ⟨t, htc, s₁, hs₁, hmem, hm, hclear, -⟩ := h.tables.findPte_none h.managed h.usable hi
          hi' ht (Finset.nonempty_iff_ne_empty.mpr hempty)
        exact .inr ⟨sp.addTable (pdeIndex v) t, s₁, t, hs₁, rfl, addTable_table_self,
          h.addTable hi hi' ht htc hm hclear hmem⟩

/-- A call of `memory_create_map` on user addresses, also one that gives up. -/
theorem createMap {perm count v p : ℕ} {r : ℤ} (h : sp.Tabled n s) (hv : v < 2 ^ 32)
    (huser : ∀ k < count, memoryTaskBase ≤ u32 (v + k * memPageSize)) (hp : p < 2 ^ 32)
    (hperm : perm < 2 ^ 32) (hrun : memoryCreateMap sp.dir perm count v p s = some (r, s')) :
    ∃ sp' : Space, sp'.dir = sp.dir ∧ sp'.Tabled n s' := by
  induction count generalizing v p s sp with
  | zero =>
      obtain ⟨-, rfl⟩ := Prog.pure_eq_some.mp hrun
      exact ⟨sp, rfl, h⟩
  | succ count ih =>
      have hbase : memoryTaskBase ≤ v := by
        have h0 := huser 0 (by omega)
        rwa [Nat.zero_mul, Nat.add_zero, u32_of_lt hv] at h0
      rcases h.findPte_cases hbase hv with hfind | ⟨sp', s₁, t, hfind, hdir, ht, h₁⟩
      · rw [memoryCreateMap, Prog.bind_of_eq hfind, if_pos rfl] at hrun
        obtain ⟨-, rfl⟩ := Prog.pure_eq_some.mp hrun
        exact ⟨sp, rfl, h⟩
      · have htp := (h₁.tables.tablePage _ t ht).1
        have hne := htp.ne_zero
        obtain ⟨hid, hal, -⟩ := htp.word (pteIndex_lt v)
        rw [memoryCreateMap, Prog.bind_of_eq hfind, if_neg (by omega),
          Prog.bind_of_eq (load32_of_identity hid hal)] at hrun
        obtain ⟨u, s₂, hreq, hrest⟩ := Prog.bind_eq_some.mp hrun
        obtain ⟨-, rfl⟩ := Prog.require_eq_some.mp hreq
        rw [Prog.bind_of_eq (store32_of_identity hid _), ← hdir] at hrest
        have hset : (sp'.addEntry (pdeIndex v) (pteIndex v) (p ||| perm ||| pteP)).Tabled n
            { s₂ with mem := s₂.mem.write32 (t + 4 * pteIndex v) (p ||| perm ||| pteP) } :=
          ⟨h₁.tables.addEntry ht (pteIndex_lt v) (present_or_pteP _) (pageEntry_lt_two_pow hp hperm),
            h₁.managed, h₁.usable, h₁.dir_taken, h₁.table_taken⟩
        have huser' : ∀ k < count, memoryTaskBase ≤ u32 (u32 (v + memPageSize) + k * memPageSize) := by
          intro k hk
          have hnext := huser (k + 1) (by omega)
          have hwrap : u32 (u32 (v + memPageSize) + k * memPageSize) =
              u32 (v + (k + 1) * memPageSize) := by
            unfold u32 memPageSize
            omega
          rwa [hwrap]
        obtain ⟨sp₂, hdir₂, h₂⟩ := ih hset (u32_lt _) huser' (u32_lt _) hrest
        exact ⟨sp₂, hdir₂.trans hdir, h₂⟩

theorem table_eq_some {t : ℕ} (h : sp.Tabled n s) (hi : userPdeStart ≤ i) (hi' : i < pdeCnt) :
    sp.table i = some t ↔ Present (s.mem.pde sp.dir i) ∧ s.mem.table sp.dir i = t := by
  have hpde : s.mem.pde sp.dir i = ((sp.table i).map (· + 7)).getD 0 := h.tables.pde i hi hi'
  rw [Mem.table, hpde]
  cases ht : sp.table i with
  | none => simp [Present]
  | some u =>
      have hal := (h.tables.tablePage i u ht).1.aligned
      have hpres : Present (u + 7) := by
        unfold Present memPageSize at *
        omega
      simp [hpres, entryPaddr_add hal (show 7 < memPageSize by decide)]

theorem reached (h : sp.Tabled n s) : Reached s.mem sp.dir where
  dirPage := h.tables.dirPage
  table i hi hi' hp := (h.tables.tablePage i _ ((h.table_eq_some hi hi').mpr ⟨hp, rfl⟩)).1

end Space.Tabled

/-- The bytes of a directory that concern the user half: its entries and the tables. -/
def UserTableByte (m : Mem) (dir x : ℕ) : Prop :=
  InUserPdes dir x ∨
    ∃ i, userPdeStart ≤ i ∧ i < pdeCnt ∧ Present (m.pde dir i) ∧ InPage (m.table dir i) x

/-- A directory that `memory_create_uvm` returned, with the calls of `memory_create_map` on user
addresses since then. In between, the rest of the kernel leaves the directory and its tables alone. -/
inductive BuiltDir (L : Layout) (n dir : ℕ) : Vm → Prop
  | create {s s' : Vm} (managed : s.alloc.Managed n)
      (usable : ∀ p ∈ s.alloc.clearPages, KernelPage p) (kernelDir : KernelPage L.kernelPageDir)
      (kernelDir_unused : L.kernelPageDir ∉ s.alloc.clearPages) (ne_zero : dir ≠ 0)
      (run : memoryCreateUvm L s = some (dir, s')) : BuiltDir L n dir s'
  | map {s s' : Vm} {perm count v p : ℕ} {r : ℤ} (built : BuiltDir L n dir s) (hv : v < 2 ^ 32)
      (user : ∀ k < count, memoryTaskBase ≤ u32 (v + k * memPageSize)) (hp : p < 2 ^ 32)
      (hperm : perm < 2 ^ 32) (run : memoryCreateMap dir perm count v p s = some (r, s')) :
      BuiltDir L n dir s'
  | other {s s' : Vm} (built : BuiltDir L n dir s) (managed : s'.alloc.Managed n)
      (usable : ∀ p ∈ s'.alloc.clearPages, KernelPage p) (dir_taken : dir ∉ s'.alloc.clearPages)
      (table_taken : ∀ i, userPdeStart ≤ i → i < pdeCnt → Present (s.mem.pde dir i) →
        s.mem.table dir i ∉ s'.alloc.clearPages)
      (same : ∀ x, InPage dir x ∨ UserTableByte s.mem dir x → s'.mem x = s.mem x) :
      BuiltDir L n dir s'

theorem BuiltDir.tabled (h : BuiltDir L n dir s) : ∃ sp : Space, sp.dir = dir ∧ sp.Tabled n s := by
  induction h with
  | @create s s' managed usable kernelDir kernelDir_unused ne_zero run =>
      by_cases hempty : s.alloc.clearPages = ∅
      · have halloc : allocPage s = some (0, s) := by
          rw [allocPage, AddrAlloc.allocPage_empty managed hempty]
        rw [memoryCreateUvm, Prog.bind_of_eq halloc, if_pos rfl] at run
        exact absurd (Prog.pure_eq_some.mp run).1 ne_zero
      · obtain ⟨d, -, s₁, hs₁, howned, -⟩ := memoryCreateUvm_spec managed usable kernelDir
          kernelDir_unused (Finset.nonempty_iff_ne_empty.mpr hempty)
        obtain ⟨rfl, rfl⟩ := Prog.result_unique hs₁ run
        exact ⟨Space.empty d, rfl, .ofOwned howned⟩
  | map built hv user hp hperm run ih =>
      obtain ⟨sp, rfl, h⟩ := ih
      exact h.createMap hv user hp hperm run
  | @other s s' built managed usable dir_taken table_taken same ih =>
      obtain ⟨sp, rfl, h⟩ := ih
      have hpresent : ∀ i t, sp.table i = some t → userPdeStart ≤ i ∧ i < pdeCnt ∧
          Present (s.mem.pde sp.dir i) ∧ s.mem.table sp.dir i = t := by
        intro i t ht
        obtain ⟨hi, hi'⟩ := h.tables.range i t ht
        exact ⟨hi, hi', (h.table_eq_some hi hi').mp ht⟩
      refine ⟨sp, rfl, h.tables.congr (fun x hx => same x (.inl hx)) fun i t ht x hx => ?_, managed,
        usable, dir_taken, fun i t ht => ?_⟩
      · obtain ⟨hi, hi', hp, rfl⟩ := hpresent i t ht
        exact same x (.inr (.inr ⟨i, hi, hi', hp, hx⟩))
      · obtain ⟨hi, hi', hp, rfl⟩ := hpresent i t ht
        exact table_taken i hi hi' hp

/-! ## The word behind the last table -/

/-- Exactly the user pages are freed, each of them once; no byte of memory changes, and no byte
matters but the user entries of the directory and the tables. -/
def DestroysRight (dir : ℕ) (s : Vm) : Prop :=
  ∃ s', memoryDestroyUvm dir s = some ((), s') ∧ s'.mem = s.mem ∧
    (∃ calls, s'.frees = s.frees ++ calls ∧ (∀ call ∈ calls, call.count = 1) ∧
      ∀ p, (p ∈ userPages s.mem dir → (calls.map FreeCall.addr).count p = 1) ∧
        (p ∉ userPages s.mem dir → p ∉ calls.map FreeCall.addr)) ∧
    ∀ m : Mem, (∀ x, UserTableByte s.mem dir x → m x = s.mem x) →
      ∃ s₂, memoryDestroyUvm dir { s with mem := m } = some ((), s₂) ∧ s₂.frees = s'.frees

/-- Two concatenations that are equal and differ in one piece at most. -/
theorem flatMap_eq_at {A B : Type} {l : List A} {f g : A → List B} (hl : l.Nodup) {a : A}
    (ha : a ∈ l) (hfg : ∀ b ∈ l, b ≠ a → f b = g b) (h : l.flatMap f = l.flatMap g) : f a = g a := by
  obtain ⟨l₁, l₂, rfl⟩ := List.append_of_mem ha
  have hnodup := List.nodup_middle.mp hl
  have hne : ∀ b ∈ l₁ ++ l₂, b ≠ a := fun b hb he => (List.nodup_cons.mp hnodup).1 (he ▸ hb)
  have hl₁ : l₁.flatMap f = l₁.flatMap g :=
    List.flatMap_congr fun b hb => hfg b (by simp [hb]) (hne b (by simp [hb]))
  have hl₂ : l₂.flatMap f = l₂.flatMap g :=
    List.flatMap_congr fun b hb => hfg b (by simp [hb]) (hne b (by simp [hb]))
  rw [List.flatMap_append, List.flatMap_append, List.flatMap_cons, List.flatMap_cons, hl₁, hl₂] at h
  exact List.append_cancel_right (List.append_cancel_left h)

theorem tableFrames_congr {m' : Mem} {t : ℕ} (h : ∀ x, InPage t x → m' x = m x) :
    tableFrames m' t pteCnt = tableFrames m t pteCnt := by
  refine List.flatMap_congr fun j hj => ?_
  have hword : m'.read32 (t + 4 * j) = m.read32 (t + 4 * j) :=
    Mem.read32_congr fun x hx hx' => h x (inPage_word (List.mem_range.mp hj) hx hx')
  rw [hword]

theorem freedTable_congr {m' : Mem} (hdir : m'.pde dir i = m.pde dir i)
    (htable : Present (m.pde dir i) → ∀ x, InPage (m.table dir i) x → m' x = m x)
    (hpast : Present (m.pde dir i) → pastWord m' (m.table dir i) = pastWord m (m.table dir i)) :
    freedTable m' dir i = freedTable m dir i := by
  rw [freedTable, freedTable, Mem.table, hdir]
  by_cases hp : Present (m.pde dir i)
  · rw [if_pos hp, if_pos hp, hpast hp, tableFrames_congr (htable hp)]
  · rw [if_neg hp, if_neg hp]

/-- Without a table nothing is freed, not even the directory. -/
theorem Space.Tabled.not_destroysRight_empty (h : sp.Tabled n s) (hnone : ∀ i, sp.table i = none) :
    ¬ DestroysRight sp.dir s := by
  rintro ⟨s', hrun, -, ⟨calls, hcalls, -, hcount⟩, -⟩
  obtain ⟨calls', hcalls', hfreed, -⟩ := ((memoryDestroyUvm_eq_some h.reached).mp hrun).2.calls
  obtain rfl : calls = calls' := List.append_cancel_left (hcalls.symm.trans hcalls')
  have hnil : freedPages s.mem sp.dir (pdeCnt - userPdeStart) = [] := by
    refine freedPages_nil fun i hi hi' hp => ?_
    have hsome := (h.table_eq_some hi hi').mpr ⟨hp, rfl⟩
    rw [hnone i] at hsome
    cases hsome
  have hdir := (hcount sp.dir).1 (.inl rfl)
  rw [hfreed, hnil] at hdir
  cases hdir

/-- The word behind the last table in memory is read, and decides what is freed. -/
theorem Space.Tabled.not_destroysRight_table (h : sp.Tabled n s) {t : ℕ} (ht : sp.table i = some t)
    (hmax : ∀ k u, sp.table k = some u → u ≤ t) : ¬ DestroysRight sp.dir s := by
  rintro ⟨s', hrun, -, -, hinside⟩
  obtain ⟨hi, hi'⟩ := h.tables.range i t ht
  obtain ⟨hp, htable⟩ := (h.table_eq_some hi hi').mp ht
  have htal := (h.tables.tablePage i t ht).1.aligned
  have hdal := h.tables.dirPage.aligned
  generalize hw : (if entryPaddr (pastWord s.mem t) = memExtStart then memExtStart + memPageSize
    else memExtStart) = w
  let m := s.mem.write32 (t + memPageSize) w
  have hout : ∀ x, ¬ (t + memPageSize ≤ x ∧ x < t + memPageSize + 4) → m x = s.mem x := by
    intro x hx
    exact Mem.write32_apply_of_out x (by omega)
  have hpages : ∀ k u, sp.table k = some u → ∀ x, InPage u x → m x = s.mem x := by
    intro k u hu x hx
    have hle := hmax k u hu
    refine hout x fun hin => ?_
    unfold InPage at hx
    omega
  have hpdes : ∀ x, InUserPdes sp.dir x → m x = s.mem x := by
    intro x hx
    refine hout x fun hin => ?_
    unfold InUserPdes userPdeStart pdeIndex memoryTaskBase memPageSize at *
    omega
  have hsame : ∀ x, UserTableByte s.mem sp.dir x → m x = s.mem x := by
    rintro x (hx | ⟨k, hk, hk', hpk, hx⟩)
    · exact hpdes x hx
    · exact hpages k _ ((h.table_eq_some hk hk').mpr ⟨hpk, rfl⟩) x hx
  have hpde : ∀ k, userPdeStart ≤ k → k < pdeCnt → m.pde sp.dir k = s.mem.pde sp.dir k := by
    intro k hk hk'
    refine Mem.read32_congr fun x hx hx' => hpdes x ⟨by omega, ?_⟩
    unfold memPageSize pdeCnt at *
    omega
  have hreached : Reached m sp.dir := by
    refine ⟨h.tables.dirPage, fun k hk hk' hpk => ?_⟩
    rw [hpde k hk hk'] at hpk
    rw [Mem.table, hpde k hk hk']
    exact h.reached.table k hk hk' hpk
  obtain ⟨s₂, hrun₂, hfrees⟩ := hinside m hsame
  obtain ⟨calls, hcalls, hfreed, -⟩ := ((memoryDestroyUvm_eq_some h.reached).mp hrun).2.calls
  have hreached₂ : Reached ({ s with mem := m } : Vm).mem sp.dir := hreached
  obtain ⟨calls₂, hcalls₂, hfreed₂, -⟩ := ((memoryDestroyUvm_eq_some hreached₂).mp hrun₂).2.calls
  obtain rfl : calls = calls₂ := by
    rw [hcalls, hcalls₂] at hfrees
    exact (List.append_cancel_left hfrees).symm
  have hlists : freedPages m sp.dir (pdeCnt - userPdeStart) =
      freedPages s.mem sp.dir (pdeCnt - userPdeStart) := hfreed₂.symm.trans hfreed
  have hothers : ∀ k ∈ List.range' userPdeStart (pdeCnt - userPdeStart), k ≠ i →
      freedTable m sp.dir k = freedTable s.mem sp.dir k := by
    intro k hk hki
    obtain ⟨hk, hk'⟩ := mem_userPdes.mp hk
    refine freedTable_congr (hpde k hk hk') (fun hpk => ?_) fun hpk => ?_
    · exact hpages k _ ((h.table_eq_some hk hk').mpr ⟨hpk, rfl⟩)
    · have hu := (h.table_eq_some hk hk').mpr ⟨hpk, rfl⟩
      have hual := (h.tables.tablePage k _ hu).1.aligned
      have hne : s.mem.table sp.dir k ≠ t := fun he => hki (h.tables.apart k i t (he ▸ hu) ht)
      exact Mem.read32_write32_of_apart (by unfold memPageSize at *; omega)
  have hat := flatMap_eq_at List.nodup_range' (mem_userPdes.mpr ⟨hi, hi'⟩) hothers hlists
  have hpast : pastWord m t = w := Mem.read32_write32_self (by
    rw [← hw]
    split_ifs <;> decide)
  have htable' : m.table sp.dir i = t := by rw [Mem.table, hpde i hi hi', ← htable]
  rw [freedTable, freedTable, hpde i hi hi', if_pos hp, if_pos hp, htable', htable,
    tableFrames_congr (hpages i t ht), List.append_cancel_left_eq, List.cons.injEq, hpast, ← hw]
    at hat
  have hword := hat.1
  split_ifs at hword with hfirst
  · rw [hfirst] at hword
    exact absurd hword (by decide)
  · exact hfirst hword.symm

/-- `memory_destroy_uvm` does its work right for no directory that the kernel builds. What it frees
are the frames of every table, the page that the word behind the table names, and the table; it returns
without a page fault and without a write outside the bitmap if and only if the word behind every table
can be read and no freed page has a negative index. -/
theorem memory_destroy_uvm_never_right (h : BuiltDir L n dir s) :
    (∀ s', memoryDestroyUvm dir s = some ((), s') ↔ PastMapped s.mem dir ∧
      Freed s (freedPages s.mem dir (pdeCnt - userPdeStart)) s') ∧ ¬ DestroysRight dir s := by
  obtain ⟨sp, rfl, ht⟩ := h.tabled
  refine ⟨fun s' => memoryDestroyUvm_eq_some ht.reached, ?_⟩
  by_cases hnone : ∀ i, sp.table i = none
  · exact ht.not_destroysRight_empty hnone
  · push Not at hnone
    obtain ⟨i₀, hi₀⟩ := hnone
    let tabled := (Finset.range pdeCnt).filter fun i => sp.table i ≠ none
    have hmem : ∀ k u, sp.table k = some u → k ∈ tabled := by
      intro k u hu
      simp [tabled, hu, (ht.tables.range k u hu).2]
    obtain ⟨u₀, hu₀⟩ := Option.ne_none_iff_exists'.mp hi₀
    obtain ⟨i, hi, hmax⟩ :=
      Finset.exists_max_image tabled (fun i => (sp.table i).getD 0) ⟨i₀, hmem i₀ u₀ hu₀⟩
    obtain ⟨t, hti⟩ := Option.ne_none_iff_exists'.mp (Finset.mem_filter.mp hi).2
    refine ht.not_destroysRight_table hti fun k u hu => ?_
    have hle := hmax k (hmem k u hu)
    rwa [hu, hti] at hle

/-! ## Fresh directories -/

/-- Empty memory with eight clear pages. -/
def freshVm : Vm := { onePageVm with mem := Mem.zero }

theorem freshVm_create : ∃ dir s, memoryCreateUvm sampleLayout freshVm = some (dir, s) ∧
    dir ∈ freshVm.alloc.clearPages ∧ (Space.empty dir).Owned 8 s ∧
    s.alloc.clearPages = freshVm.alloc.clearPages.erase dir ∧ BuiltDir sampleLayout 8 dir s := by
  have hmanaged : freshVm.alloc.Managed 8 := onePage_owned.managed
  have husable : ∀ p ∈ freshVm.alloc.clearPages, KernelPage p := onePage_owned.clear
  have hdir : KernelPage sampleLayout.kernelPageDir := ⟨by decide, by decide, by decide⟩
  have hunused : sampleLayout.kernelPageDir ∉ freshVm.alloc.clearPages := onePage_source.kernelDir_unused
  obtain ⟨dir, hmem, s, hrun, howned, hclear, -⟩ :=
    memoryCreateUvm_spec hmanaged husable hdir hunused onePageVm_nonempty
  exact ⟨dir, s, hrun, hmem, howned, hclear,
    .create hmanaged husable hdir hunused (husable dir hmem).ne_zero hrun⟩

/-- The page at 4 MiB is mapped in a fresh directory. -/
theorem memory_destroy_uvm_never_right_onePage : ∃ dir s s₁,
    memoryCreateUvm sampleLayout freshVm = some (dir, s) ∧
      memoryCreateMap dir 7 1 0x80000000 0x400000 s = some (0, s₁) ∧ ¬ DestroysRight dir s₁ := by
  obtain ⟨dir, s, hrun, hmem, howned, hclear, hbuilt⟩ := freshVm_create
  obtain ⟨k, hk, hdir⟩ := onePageVm_clear hmem
  have hcard : freshVm.alloc.clearPages.card = 8 := onePageVm_card
  have hroom : s.alloc.clearPages.Nonempty := by
    have := Finset.card_erase_add_one hmem
    rw [hclear]
    refine Finset.card_pos.mp ?_
    omega
  have hunused : 0x400000 ∉ s.alloc.clearPages := by
    intro hc
    obtain ⟨l, hl, h⟩ := onePageVm_clear (Finset.mem_of_mem_erase (hclear ▸ hc))
    omega
  obtain ⟨sp, s₁, t, hmap, -⟩ := howned.mapPage (v := 0x80000000) (p := 0x400000) (by decide)
    (by decide) rfl (fun _ => hroom) ⟨by decide, .inr ⟨by decide, by decide⟩, by decide⟩ hunused
    (fun x hx => by
      have := (Space.empty_page hx).2
      omega) (show Present 7 by decide) (by decide)
  have huser : ∀ k < 1, memoryTaskBase ≤ u32 (0x80000000 + k * memPageSize) := by
    intro k hk
    obtain rfl : k = 0 := by omega
    decide
  exact ⟨dir, s, s₁, hrun, hmap, (memory_destroy_uvm_never_right
    (hbuilt.map (by decide) huser (by decide) (by decide) hmap)).2⟩

/-- A directory is created and destroyed: it is not given back. -/
theorem memory_destroy_uvm_counterexample : ∃ dir s s',
    memoryCreateUvm sampleLayout freshVm = some (dir, s) ∧ dir ∉ s.alloc.clearPages ∧
      memoryDestroyUvm dir s = some ((), s') ∧ s'.frees = s.frees ∧ ¬ DestroysRight dir s := by
  obtain ⟨dir, s, hrun, -, howned, hclear, -⟩ := freshVm_create
  have htabled := Space.Tabled.ofOwned howned
  have habsent : ∀ i, userPdeStart ≤ i → i < pdeCnt → ¬ Present (s.mem.pde dir i) := by
    intro i hi hi' hp
    cases (htabled.table_eq_some hi hi').mpr ⟨hp, rfl⟩
  have hnothing : Freed s (freedPages s.mem dir (pdeCnt - userPdeStart)) s := by
    rw [freedPages_nil habsent]
    exact .refl s
  exact ⟨dir, s, s, hrun, by rw [hclear]; exact Finset.notMem_erase _ _,
    (memoryDestroyUvm_eq_some htabled.reached).mpr
      ⟨fun i hi hi' hp => absurd hp (habsent i hi hi'), hnothing⟩,
    rfl, htabled.not_destroysRight_empty fun _ => rfl⟩

end X86Os
