import X86Os.AddressSpace
import X86Os.Boot
import X86Os.Fs

/-!
# The file buffer and the page allocator

`sys_open` fills a fixed range of physical memory at eight megabytes. The allocator does not know of
it: the range is nobody's memory exactly when the allocator ends below it.
-/

namespace X86Os

/-- Where the allocator may end: seven megabytes from its start to the buffer. -/
def bufferRoom : ℕ := tempAddr - memExtStart

/-- The buffer is apart from the pages that are handed out: opening a file leaves their bytes, and
neither writing to them nor reading a file into them changes what is still to be read. -/
structure BufferApart (r : PageRun) : Prop where
  apart : ∀ p ∈ r.outstanding, ∀ x, InPage p x → ¬ InBuffer x
  opened : ∀ disk name s c s', sysOpen disk name s = some (c, s') →
    ∀ p ∈ r.outstanding, ∀ x, InPage p x → s'.vm.mem x = s.vm.mem x
  written : ∀ p ∈ r.outstanding, ∀ x, InPage p x → ∀ (m : Mem) b y, InBuffer y →
    m.write8 x b y = m y
  loaded : ∀ p ∈ r.outstanding, ∀ file k len s c s', k + len ≤ memPageSize →
    sysRead file (p + k) len s = some (c, s') → ∀ y, InBuffer y → s'.vm.mem y = s.vm.mem y

/-- Copying to the kernel half changes nothing outside the destination. -/
theorem memcpyLoop_out {n dest src : ℕ} {s s' : Vm} {u : Unit} (hd : dest + n ≤ memoryTaskBase)
    (h : memcpyLoop n dest src s = some (u, s')) {x : ℕ} (hx : x < dest ∨ dest + n ≤ x) :
    s'.mem x = s.mem x := by
  induction n generalizing dest src s with
  | zero =>
      obtain ⟨-, rfl⟩ := Prod.mk.inj (Option.some.inj h)
      rfl
  | succ n ih =>
      obtain ⟨b, s₁, hload, hrest⟩ := Prog.bind_eq_some.mp h
      obtain ⟨v, s₂, hstore, hloop⟩ := Prog.bind_eq_some.mp hrest
      have hs₁ : s₁ = s := by
        simp only [load8, Option.map_eq_some_iff] at hload
        obtain ⟨a, -, hpair⟩ := hload
        exact (Prod.mk.inj hpair).2.symm
      subst s₁
      have hs₂ : s₂.mem x = s.mem x := by
        simp only [store8, Vm.phys, if_pos (show dest < memoryTaskBase by omega),
          Option.map_eq_some_iff] at hstore
        obtain ⟨a, ha, hpair⟩ := hstore
        split_ifs at ha with hid
        obtain rfl : dest = a := Option.some.inj ha
        rw [← (Prod.mk.inj hpair).2]
        exact Function.update_of_ne (by omega) _ _
      have hwrap : u32 (dest + 1) = dest + 1 := u32_of_lt (by
        unfold memoryTaskBase at hd
        omega)
      rw [hwrap] at hloop
      rw [ih (by omega) hloop (by omega), hs₂]

theorem sysRead_out {file : ℤ} {ptr len : ℕ} {s s' : FileState} {c : ℤ}
    (hp : ptr + len ≤ memoryTaskBase) (h : sysRead file ptr len s = some (c, s')) {x : ℕ}
    (hx : x < ptr ∨ ptr + len ≤ x) : s'.vm.mem x = s.vm.mem x := by
  rw [sysRead] at h
  by_cases hfile : file = tempFileId
  · rw [if_pos hfile] at h
    obtain ⟨pos, s₁, hpos, h⟩ := Prog.bind_eq_some.mp h
    obtain ⟨-, rfl⟩ := Prod.mk.inj (Option.some.inj hpos)
    obtain ⟨u, s₂, hcopy, h⟩ := Prog.bind_eq_some.mp h
    obtain ⟨-, rfl⟩ := Prod.mk.inj (Option.some.inj h)
    simp only [onVm, Prog.zoom, Option.map_eq_some_iff] at hcopy
    obtain ⟨⟨v, t⟩, hcopy, hpair⟩ := hcopy
    obtain ⟨-, rfl⟩ := Prod.mk.inj hpair
    show t.mem x = s.vm.mem x
    rw [kernelMemcpy] at hcopy
    split_ifs at hcopy with hnull
    · obtain ⟨-, rfl⟩ := Prod.mk.inj (Option.some.inj hcopy)
      rfl
    · exact memcpyLoop_out hp hcopy hx
  · rw [if_neg hfile] at h
    obtain ⟨-, rfl⟩ := Prod.mk.inj (Option.some.inj h)
    rfl

variable {L : Layout} {boot : BootInfo} {r : PageRun}

/-- Every page of an allocator that ends below the buffer lies below it. -/
theorem outstanding_below (hr : (bootMachine L boot).Reach r)
    (hsize : memUp1MBFree boot ≤ bufferRoom) {p : ℕ} (hp : p ∈ r.outstanding) :
    p + memPageSize ≤ tempAddr := by
  obtain ⟨hs, hstart⟩ := bootMachine_sound hr
  obtain ⟨-, k, hk, rfl⟩ := hs.page p hp
  rw [AddrAlloc.pageAddr, hs.managed.pageSize, hstart]
  unfold bufferRoom tempAddr memExtStart memPageSize at *
  rw [u32_of_lt (by omega)]
  omega

theorem bufferApart_of_below (h : ∀ p ∈ r.outstanding, p + memPageSize ≤ tempAddr) :
    BufferApart r := by
  have hapart : ∀ p ∈ r.outstanding, ∀ x, InPage p x → ¬ InBuffer x := by
    intro p hp x hx hin
    have hle := h p hp
    unfold InPage at hx
    unfold InBuffer at hin
    omega
  refine ⟨hapart, fun disk name s c s' hopen p hp x hx => ?_, fun p hp x hx m b y hy => ?_,
    fun p hp file k len s c s' hlen hread y hy => ?_⟩
  · exact sysOpen_out hopen (hapart p hp x hx)
  · refine Function.update_of_ne ?_ _ _
    rintro rfl
    exact hapart p hp y hx hy
  · have hle := h p hp
    refine sysRead_out ?_ hread ?_
    · unfold memoryTaskBase tempAddr at *
      omega
    · unfold InBuffer at hy
      omega

/-- A larger allocator hands out the first page of the buffer at last. -/
theorem buffer_handed_out (hfits : BitmapFits L boot) (hsize : bufferRoom < memUp1MBFree boot) :
    ∃ r, (bootMachine L boot).Reach r ∧ tempAddr ∈ r.outstanding := by
  have hmod := memUp1MBFree_mod boot
  have hroom : bufferRoom / memPageSize + 1 ≤ memUp1MBFree boot / memPageSize := by
    unfold bufferRoom tempAddr memExtStart memPageSize at *
    omega
  obtain ⟨r, hr, hm, hout, -⟩ := bootMachine_alloc hfits hroom
  have haddr : r.alloc.pageAddr (bufferRoom / memPageSize) = tempAddr := by
    rw [AddrAlloc.pageAddr, hm.pageSize, (bootMachine_sound hr).2]
    rfl
  refine ⟨r, hr, haddr ▸ hout _ (Nat.lt_succ_self _) ?_⟩
  rw [haddr]
  decide

theorem not_bufferApart (h : tempAddr ∈ r.outstanding) : ¬ BufferApart r := fun hb =>
  hb.apart tempAddr h tempAddr ⟨le_rfl, by decide⟩ ⟨le_rfl, by decide⟩

/-- The buffer stays apart in every state of the allocator exactly when the reported memory ends at it,
or when the assertion of `memory_init` stops the kernel. -/
theorem file_buffer_apart (L : Layout) (boot : BootInfo) :
    (∀ r, (bootMachine L boot).Reach r → BufferApart r) ↔
      memUp1MBFree boot ≤ bufferRoom ∨ ¬ BitmapFits L boot := by
  constructor
  · intro h
    by_contra hnot
    rw [not_or, not_le, not_not] at hnot
    obtain ⟨r, hr, hmem⟩ := buffer_handed_out hnot.2 hnot.1
    exact not_bufferApart hmem (h r hr)
  · rintro (hsize | hfits) r hr
    · exact bufferApart_of_below fun p hp => outstanding_below hr hsize hp
    · exact absurd (bootMachine_fits hr) hfits

/-- Sixteen megabytes of memory. -/
def sampleBoot : BootInfo where
  ramRegions := [⟨0, 16 * 1024 * 1024⟩]

theorem file_buffer_handed_out :
    ¬ ∀ r, (bootMachine sampleLayout sampleBoot).Reach r → BufferApart r := by
  intro h
  have hfits : BitmapFits sampleLayout sampleBoot := by decide
  have hsize : bufferRoom < memUp1MBFree sampleBoot := by decide
  obtain ⟨r, hr, hmem⟩ := buffer_handed_out hfits hsize
  exact not_bufferApart hmem (h r hr)

end X86Os
