import X86Os.AddressSpace
import X86Os.Boot

/-!
# Managed memory

Which pages the allocator of `memory_init` hands out. Their number comes from the sum of the sizes of
the reported regions, less one megabyte, and is compared neither with the place of the regions nor with
the end of the identity mapping.
-/

namespace X86Os

/-- The page lies in a reported region and the kernel reaches it at its physical address. -/
structure UsablePage (boot : BootInfo) (p : ℕ) : Prop where
  region : ∃ region ∈ boot.ramRegions, region.start ≤ p ∧ p + memPageSize ≤ region.start + region.size
  identity : ∀ x, InPage p x → Identity x

/-- Neither the sum of the sizes nor the subtraction of one megabyte wraps. -/
def NoWrap (boot : BootInfo) : Prop :=
  memExtStart ≤ (boot.ramRegions.map RamRegion.size).sum ∧
    (boot.ramRegions.map RamRegion.size).sum < 2 ^ 32

/-- In every state of the allocator the page that it returns is usable. -/
def ManagedUsable (L : Layout) (boot : BootInfo) : Prop :=
  NoWrap boot ∧ ∀ r, (bootMachine L boot).Reach r →
    (addrAllocPage r.alloc 1).1 ≠ 0 → UsablePage boot (addrAllocPage r.alloc 1).1

/-- The managed pages end with the identity mapping, and each lies in a region. -/
def RegionsSuffice (boot : BootInfo) : Prop :=
  memUp1MBFree boot ≤ memExtLimit - memExtStart ∧
    ∀ k < memUp1MBFree boot / memPageSize, ∃ region ∈ boot.ramRegions,
      region.start ≤ memExtStart + k * memPageSize ∧
        memExtStart + (k + 1) * memPageSize ≤ region.start + region.size

variable {L : Layout} {boot : BootInfo} {r : PageRun} {k : ℕ}

theorem NoWrap.memUp1MBFree_le (h : NoWrap boot) : memExtStart + memUp1MBFree boot < 2 ^ 32 := by
  obtain ⟨hlow, hhigh⟩ := h
  have hsum : totalMemSize boot = (boot.ramRegions.map RamRegion.size).sum := u32_of_lt hhigh
  have hsub : u32Sub (totalMemSize boot) memExtStart =
      (boot.ramRegions.map RamRegion.size).sum - memExtStart := by
    rw [hsum]
    exact u32Sub_of_le hlow hhigh
  have hdown : memUp1MBFree boot ≤ u32Sub (totalMemSize boot) memExtStart := Nat.div_mul_le_self _ _
  omega

/-- The pages of the allocator in their order. -/
theorem bootMachine_pageAddr (hwrap : NoWrap boot) (hr : (bootMachine L boot).Reach r)
    (hk : k < memUp1MBFree boot / memPageSize) :
    r.alloc.pageAddr k = memExtStart + k * memPageSize := by
  obtain ⟨hs, hstart⟩ := bootMachine_sound hr
  have hlt := hwrap.memUp1MBFree_le
  have hle := Nat.div_mul_le_self (memUp1MBFree boot) memPageSize
  have hmul : k * memPageSize < memUp1MBFree boot / memPageSize * memPageSize :=
    Nat.mul_lt_mul_of_pos_right hk (by decide)
  rw [AddrAlloc.pageAddr, hs.managed.pageSize, hstart]
  exact u32_of_lt (by omega)

/-- Every managed page is returned in some state. -/
theorem bootMachine_returns (hwrap : NoWrap boot) (hfits : BitmapFits L boot)
    (hk : k < memUp1MBFree boot / memPageSize) :
    ∃ r, (bootMachine L boot).Reach r ∧
      (addrAllocPage r.alloc 1).1 = memExtStart + k * memPageSize := by
  obtain ⟨r, hr, hm, -, hbits⟩ := bootMachine_alloc hfits hk.le
  have hclear : r.alloc.bitmap.bitAt k = false := by
    have hnot : ¬ r.alloc.bitmap.bitAt k = true := by
      rw [hbits k hk]
      omega
    simpa using hnot
  have hfirst : r.alloc.bitmap.FirstClear k := by
    refine ⟨?_, hclear, fun j hj => (hbits j (by omega)).mpr hj⟩
    rw [hm.bitCount]
    omega
  refine ⟨r, hr, ?_⟩
  rw [AddrAlloc.allocPage_found hfirst]
  exact bootMachine_pageAddr hwrap hr hk

/-- A page that is returned is one of the managed pages. -/
theorem bootMachine_returned (hwrap : NoWrap boot) (hr : (bootMachine L boot).Reach r)
    (hne : (addrAllocPage r.alloc 1).1 ≠ 0) : ∃ k < memUp1MBFree boot / memPageSize,
      (addrAllocPage r.alloc 1).1 = memExtStart + k * memPageSize := by
  rcases r.alloc.firstClear_or with ⟨k, hfirst⟩ | hfull
  · have hk : k < memUp1MBFree boot / memPageSize := by
      have hcount := hfirst.1
      rw [(bootMachine_sound hr).1.managed.bitCount] at hcount
      omega
    rw [AddrAlloc.allocPage_found hfirst]
    exact ⟨k, hk, bootMachine_pageAddr hwrap hr hk⟩
  · rw [AddrAlloc.allocPage_none hfull] at hne
    exact absurd rfl hne

/-- A page behind one megabyte is mapped to itself as a whole exactly if it ends in time. -/
theorem page_identity_iff (k : ℕ) : (∀ x, InPage (memExtStart + k * memPageSize) x → Identity x) ↔
    memExtStart + (k + 1) * memPageSize ≤ memExtLimit := by
  unfold InPage Identity memPageSize memExtStart memExtLimit memEbdaStart
  constructor
  · intro h
    have := h (1024 * 1024 + k * 4096 + 4095) (by omega)
    omega
  · intro h x hx
    omega

/-- The allocator hands out usable pages only, exactly if nothing wraps and the managed pages lie in
the regions and end with the identity mapping, or the assertion of `memory_init` stops the kernel. -/
theorem managed_memory_usable (L : Layout) (boot : BootInfo) :
    ManagedUsable L boot ↔ NoWrap boot ∧ (BitmapFits L boot → RegionsSuffice boot) := by
  have hmod := memUp1MBFree_mod boot
  constructor
  · rintro ⟨hwrap, husable⟩
    have hpage : BitmapFits L boot → ∀ k < memUp1MBFree boot / memPageSize,
        UsablePage boot (memExtStart + k * memPageSize) := by
      intro hfits k hk
      obtain ⟨r, hr, hp⟩ := bootMachine_returns hwrap hfits hk
      have hnext := husable r hr
      rw [hp] at hnext
      exact hnext (by unfold memExtStart; omega)
    refine ⟨hwrap, fun hfits => ⟨?_, fun k hk => ?_⟩⟩
    · by_contra hlarge
      have hlast := (page_identity_iff _).mp
        (hpage hfits (memUp1MBFree boot / memPageSize - 1) (by
          unfold memExtLimit memExtStart memPageSize at *
          omega)).identity
      unfold memExtLimit memExtStart memPageSize at *
      omega
    · obtain ⟨region, hmem, hlow, hhigh⟩ := (hpage hfits k hk).region
      exact ⟨region, hmem, hlow, by rwa [Nat.add_mul, Nat.one_mul, ← Nat.add_assoc]⟩
  · rintro ⟨hwrap, hsuffice⟩
    refine ⟨hwrap, fun r hr hne => ?_⟩
    obtain ⟨hsize, hregions⟩ := hsuffice (bootMachine_fits hr)
    obtain ⟨k, hk, hp⟩ := bootMachine_returned hwrap hr hne
    obtain ⟨region, hmem, hlow, hhigh⟩ := hregions k hk
    rw [Nat.add_mul, Nat.one_mul, ← Nat.add_assoc] at hhigh
    rw [hp]
    refine ⟨⟨region, hmem, hlow, hhigh⟩, (page_identity_iff k).mpr ?_⟩
    unfold memExtLimit memExtStart memPageSize at *
    omega

/-- One region of 256 megabytes. -/
def largeBoot : BootInfo where
  ramRegions := [⟨0, 256 * 1024 * 1024⟩]

/-- The page at 128 megabytes is handed out, and no table maps its address. -/
theorem managed_memory_counterexample :
    (∃ r, (bootMachine sampleLayout largeBoot).Reach r ∧
      (addrAllocPage r.alloc 1).1 = memExtLimit) ∧ ¬ Identity memExtLimit ∧
      ¬ ManagedUsable sampleLayout largeBoot := by
  have hwrap : NoWrap largeBoot := ⟨by decide, by decide⟩
  have hfits : BitmapFits sampleLayout largeBoot := by decide
  have hcount : 127 * 256 < memUp1MBFree largeBoot / memPageSize := by decide
  obtain ⟨r, hr, hp⟩ := bootMachine_returns hwrap hfits hcount
  have hp' : (addrAllocPage r.alloc 1).1 = memExtLimit := hp
  have hout : ¬ Identity memExtLimit := by decide
  refine ⟨⟨r, hr, hp'⟩, hout, fun husable => ?_⟩
  have hpage := husable.2 r hr (by rw [hp']; decide)
  rw [hp'] at hpage
  exact hout (hpage.identity _ ⟨le_rfl, by decide⟩)

end X86Os
