import X86Os.Paging

/-!
# Setting up memory

The model of `memory_init`: the loader reports the regions of memory, the page allocator takes over
what lies above one megabyte, and the kernel gets its own page tables. While these are built the loader's
directory maps the first four megabytes to themselves; the tables are the first pages of the allocator.
-/

namespace X86Os

structure RamRegion where
  start : ℕ
  size : ℕ

structure BootInfo where
  ramRegions : List RamRegion

def totalMemSize (boot : BootInfo) : ℕ := u32 (boot.ramRegions.map RamRegion.size).sum

/-- The bytes above one megabyte, rounded down to pages. -/
def memUp1MBFree (boot : BootInfo) : ℕ :=
  down2 (u32Sub (totalMemSize boot) memExtStart) memPageSize

structure MemoryMap where
  vstart : ℕ
  vend : ℕ
  pstart : ℕ
  perm : ℕ

def kernelMap (L : Layout) : List MemoryMap :=
  [⟨0, L.sText, 0, pteW⟩, ⟨L.sText, L.eText, L.sText, 0⟩,
    ⟨L.sData, memEbdaStart - 1, L.sData, pteW⟩,
    ⟨memExtStart, memExtLimit - 1, memExtStart, pteW⟩]

def MemoryMap.create (L : Layout) (map : MemoryMap) : Prog Vm ℤ :=
  let vstart := down2 map.vstart memPageSize
  let vend := up2 map.vend memPageSize
  memoryCreateMap L.kernelPageDir map.perm ((vend - vstart) / memPageSize) vstart map.pstart

/-- The result of `memory_create_map` is ignored. -/
def createKernelTable (L : Layout) : Prog Vm Unit :=
  (kernelMap L).forM fun map => do
    let _ ← map.create L
    pure ()

/-- What is left of the low memory for the bitmap is checked by an assertion. -/
def BitmapFits (L : Layout) (boot : BootInfo) : Prop :=
  L.memFreeStart + bitmapByteCount (memUp1MBFree boot / memPageSize : ℕ) < memEbdaStart

instance (L : Layout) (boot : BootInfo) : Decidable (BitmapFits L boot) :=
  inferInstanceAs (Decidable (_ < _))

def memoryInit (L : Layout) (bits : ℤ → BitVec 8) (boot : BootInfo) : Prog Vm Unit := do
  Prog.modify fun s =>
    { s with alloc := addrAllocInit bits memExtStart (memUp1MBFree boot) memPageSize }
  Prog.require (BitmapFits L boot)
  createKernelTable L
  Prog.modify fun s => { s with cr3 := L.kernelPageDir }

/-- The calls of the allocator that `memory_init` has set up; the first allocations are those of
`create_kernel_table`. Every address may be freed. -/
def bootMachine (L : Layout) (boot : BootInfo) : Machine PageRun PageOp where
  init r := BitmapFits L boot ∧ ∃ bits, r =
    { alloc := addrAllocInit bits memExtStart (memUp1MBFree boot) memPageSize, outstanding := ∅ }
  enabled _ _ := True
  step r op := some (r.next op)

theorem memUp1MBFree_lt (boot : BootInfo) : memUp1MBFree boot < 2 ^ 32 := by
  have hlt : u32Sub (totalMemSize boot) memExtStart < 2 ^ 32 := Nat.mod_lt _ (by norm_num)
  unfold memUp1MBFree down2
  exact lt_of_le_of_lt (Nat.div_mul_le_self _ _) hlt

theorem memUp1MBFree_mod (boot : BootInfo) : memUp1MBFree boot % memPageSize = 0 :=
  Nat.mul_mod_left _ _

theorem bootMachine_sound {L : Layout} {boot : BootInfo} {r : PageRun}
    (h : (bootMachine L boot).Reach r) :
    r.Sound (memUp1MBFree boot / memPageSize) ∧ r.alloc.start = memExtStart := by
  apply h.invariant (I := fun r =>
    r.Sound (memUp1MBFree boot / memPageSize) ∧ r.alloc.start = memExtStart)
  · rintro _ ⟨-, bits, rfl⟩
    exact ⟨⟨AddrAlloc.managed_init (by decide) (memUp1MBFree_lt boot), by simp⟩, rfl⟩
  · rintro r op r' ⟨hs, hstart⟩ - hr
    obtain rfl : r.next op = r' := Option.some.inj hr
    cases op with
    | alloc => exact ⟨hs.next_alloc, hstart⟩
    | free addr => exact ⟨hs.next_free addr, hstart⟩

theorem bootMachine_fits {L : Layout} {boot : BootInfo} {r : PageRun}
    (hr : (bootMachine L boot).Reach r) : BitmapFits L boot := by
  induction hr with
  | init h => exact h.1
  | step _ _ _ ih => exact ih

/-- Allocations alone hand out the pages in order. -/
theorem bootMachine_alloc {L : Layout} {boot : BootInfo} (hfits : BitmapFits L boot) {k : ℕ}
    (hk : k ≤ memUp1MBFree boot / memPageSize) :
    ∃ r, (bootMachine L boot).Reach r ∧ r.alloc.Managed (memUp1MBFree boot / memPageSize) ∧
      (∀ j < k, r.alloc.pageAddr j ≠ 0 → r.alloc.pageAddr j ∈ r.outstanding) ∧
      ∀ j : ℕ, j < memUp1MBFree boot / memPageSize →
        (r.alloc.bitmap.bitAt j = true ↔ j < k) := by
  induction k with
  | zero =>
      refine ⟨_, .init ⟨hfits, fun _ => 0, rfl⟩,
        AddrAlloc.managed_init (by decide) (memUp1MBFree_lt boot), by simp, fun j hj => ?_⟩
      rw [addrAllocInit, Bitmap.bitAt_init _ hj]
      simp
  | succ k ih =>
      obtain ⟨r, hr, hm, hout, hbits⟩ := ih (by omega)
      have hclear : r.alloc.bitmap.FirstClear k := by
        refine ⟨?_, ?_, fun j hj => (hbits j (by omega)).mpr hj⟩
        · rw [hm.bitCount]
          omega
        · have hnot : ¬ r.alloc.bitmap.bitAt k = true := by
            rw [hbits k (by omega)]
            omega
          simpa using hnot
      have halloc := AddrAlloc.allocPage_found hclear
      refine ⟨r.next .alloc, .step (a := .alloc) hr trivial rfl, hm.allocPage 1, fun j hj hne => ?_,
        fun j hj => ?_⟩
      · have hsame : (r.next .alloc).alloc.pageAddr j = r.alloc.pageAddr j := rfl
        rw [hsame] at hne ⊢
        simp only [PageRun.next, halloc]
        by_cases he : j = k
        · rw [if_neg (he ▸ hne), he]
          exact Finset.mem_insert_self _ _
        · have hold := hout j (by omega) hne
          split_ifs
          · exact hold
          · exact Finset.mem_insert_of_mem hold
      · simp only [PageRun.next, halloc, Bitmap.bitAt_setBit_one _ hclear.1]
        by_cases he : j = k
        · simp [he]
        · simp only [he, if_false]
          rw [hbits j hj]
          omega

end X86Os
