import X86Os.ArgStrings
import X86Os.ExecSteps
import X86Os.FirstPages
import X86Os.SegmentLoad

/-!
# Pages that stay taken

`addr_free_page` takes the distance of a page from the start of the memory in bytes for its number. So
whatever is freed, only bits whose index is a multiple of the page size are cleared. The page that
`sys_execve` takes first is therefore still taken in the end, unless its number is such a multiple.
-/

namespace X86Os

variable {n i j p c dir v perm : ℕ} {s s' : Vm} {alloc : AddrAlloc} {A : Type} {f : Prog Vm A}

/-- `addr_free_page` clears the bit whose number is the distance in bytes, if there is one. -/
theorem bitAt_freePage (hm : alloc.Managed n) (hstart : alloc.start = memExtStart) (hj : j < n) :
    (addrFreePage alloc p 1).bitmap.bitAt j =
      if i32 (u32Sub p memExtStart) = j then false else alloc.bitmap.bitAt j := by
  have hcount := hm.bitCount
  have hlt : u32Sub p memExtStart < 2 ^ 32 := u32_lt _
  rw [addrFreePage, hstart]
  generalize u32Sub p memExtStart = d at *
  show (bitmapSetBit alloc.bitmap (i32 d) 1 0).bitAt j = _
  rw [i32_cast hlt]
  split_ifs with hhalf heq heq
  · obtain rfl : d = j := Int.ofNat_inj.mp heq
    rw [Bitmap.bitAt_setBit_one _ (by omega), if_pos rfl]
    rfl
  · by_cases hin : (d : ℤ) < alloc.bitmap.bitCount
    · rw [Bitmap.bitAt_setBit_one _ hin, if_neg (by omega)]
    · rw [Bitmap.setBit_one_out _ (by omega)]
  · omega
  · exact Bitmap.bitAt_setBit_neg _ (by omega) (by omega) _ _

/-- The page with the number `i` is taken. -/
structure Taken (n i : ℕ) (s : Vm) : Prop where
  managed : s.alloc.Managed n
  start : s.alloc.start = memExtStart
  lt : i < n
  bit : s.alloc.bitmap.bitAt i = true

def KeepsTaken (n i : ℕ) (s s' : Vm) : Prop := Taken n i s → Taken n i s'

instance : IsPreorder Vm (KeepsTaken n i) where
  refl _ h := h
  trans _ _ _ h h' := h' ∘ h

/-- Where no bit is cleared, no page becomes free. -/
theorem Taken.clear_subset (h : Taken n j s) (hk : ∀ i, KeepsTaken n i s s') :
    s'.alloc.clearPages ⊆ s.alloc.clearPages := by
  have h' := hk j h
  intro p hp
  obtain ⟨i, hi, hbit, rfl⟩ := (AddrAlloc.mem_clearPages h'.managed).mp hp
  have haddr : s.alloc.pageAddr i = s'.alloc.pageAddr i := by
    rw [AddrAlloc.pageAddr, AddrAlloc.pageAddr, h.start, h'.start, h.managed.pageSize,
      h'.managed.pageSize]
  refine (AddrAlloc.mem_clearPages h.managed).mpr ⟨i, hi, ?_, haddr⟩
  by_contra hset
  have hkept := (hk i ⟨h.managed, h.start, hi, Bool.eq_true_of_not_eq_false hset⟩).bit
  rw [hbit] at hkept
  cases hkept

/-! ## Steps of the memory -/

theorem Taken.of_alloc (h : Taken n i s) (hs : s'.alloc = s.alloc) : Taken n i s' :=
  ⟨hs ▸ h.managed, hs ▸ h.start, h.lt, hs ▸ h.bit⟩

theorem keepsTaken_sameAlloc (h : Prog.Along SameAlloc f) : Prog.Along (KeepsTaken n i) f :=
  fun s a s' hs ht => ht.of_alloc (h s a s' hs)

theorem keepsTaken_of_eq (h : Prog.Along Eq f) : Prog.Along (KeepsTaken n i) f :=
  keepsTaken_sameAlloc (sameAlloc_of_eq h)

theorem NoAlloc.sameAlloc (h : NoAlloc f) : Prog.Along SameAlloc f := fun _ _ _ hs => h.alloc_eq hs

theorem keepsTaken_allocPage : Prog.Along (KeepsTaken n i) allocPage := by
  intro s a s' hs ht
  obtain ⟨-, rfl⟩ := Prod.mk.inj (Option.some.inj hs)
  refine ⟨ht.managed.allocPage 1, ht.start, ht.lt, ?_⟩
  show (addrAllocPage s.alloc 1).2.bitmap.bitAt i = true
  rcases s.alloc.firstClear_or with ⟨k, hk⟩ | hfull
  · rw [AddrAlloc.allocPage_found hk, Bitmap.bitAt_setBit_one _ hk.1, ht.bit]
    simp
  · rw [AddrAlloc.allocPage_none hfull]
    exact ht.bit

/-- Only the page whose number is the distance of `p` in bytes is given back. -/
theorem keepsTaken_free (hi : i32 (u32Sub p memExtStart) ≠ i) :
    Prog.Along (KeepsTaken n i) (freePages p 1) := by
  intro s a s' hs ht
  obtain ⟨-, rfl⟩ := freePages_eq_some.mp hs
  refine ⟨ht.managed.freePage p 1, ht.start, ht.lt, ?_⟩
  show (addrFreePage s.alloc p 1).bitmap.bitAt i = true
  rw [bitAt_freePage ht.managed ht.start ht.lt, if_neg hi, ht.bit]

theorem keepsTaken_freePage (hi : ¬ memPageSize ∣ i) (hp : p % memPageSize = 0) :
    Prog.Along (KeepsTaken n i) (freePages p 1) := by
  refine keepsTaken_free fun heq => hi (Nat.dvd_of_mod_eq_zero ?_)
  have hlt : u32Sub p memExtStart < 2 ^ 32 := u32_lt _
  have hal : u32Sub p memExtStart % memPageSize = 0 := by
    unfold u32Sub u32 memExtStart memPageSize at *
    omega
  rw [i32_cast hlt] at heq
  split_ifs at heq
  · rwa [Int.ofNat_inj.mp heq] at hal
  · omega

theorem keepsTaken_freeUser (hv : memoryTaskBase ≤ v) (hv' : v < 2 ^ 32)
    (hal : v % memPageSize = 0) (hc : c ≤ 2 ^ 20) : Prog.Along (KeepsTaken n i) (freePages v c) := by
  intro s a s' hs ht
  obtain ⟨-, rfl⟩ := freePages_eq_some.mp hs
  refine ⟨ht.managed.freePage v c, ht.start, ht.lt, ?_⟩
  exact (bitAt_free_user ht.managed ht.start hv hv' hal hc i).trans ht.bit

theorem keepsTaken_findPte (dir v : ℕ) (alloc : Bool) :
    Prog.Along (KeepsTaken n i) (findPte dir v alloc) := by
  have hload : ∀ a, Prog.Along (KeepsTaken n i) (load32 a) := fun a => keepsTaken_of_eq (load32_along a)
  refine (hload _).bind fun pde => (Prog.along_pure _).ite (.ite (keepsTaken_allocPage.bind fun t =>
    (Prog.along_pure _).ite ?_) (Prog.along_pure _))
  exact (keepsTaken_sameAlloc (noAlloc_store32 _ _).sameAlloc).bind fun _ =>
    (keepsTaken_sameAlloc (noAlloc_memset _ _ _).sameAlloc).bind fun _ => Prog.along_pure _

theorem keepsTaken_createMap (dir perm c v p : ℕ) :
    Prog.Along (KeepsTaken n i) (memoryCreateMap dir perm c v p) := by
  induction c generalizing v p with
  | zero => exact Prog.along_pure 0
  | succ c ih =>
      refine (keepsTaken_findPte dir v true).bind fun pte => (Prog.along_pure _).ite ?_
      refine (keepsTaken_of_eq (load32_along _)).bind fun w => ?_
      exact (Prog.along_require _).bind fun _ =>
        (keepsTaken_sameAlloc (noAlloc_store32 _ _).sameAlloc).bind fun _ => ih _ _

/-- What `memory_create_uvm` does with its page allocates nothing. -/
theorem sameAlloc_kernelHalf (L : Layout) (d : ℕ) : Prog.Along SameAlloc (if d = 0 then pure 0 else do
    memset d 0 memPageSize
    let _ ← Prog.loop (copyKernelPdes L d) userPdeStart 0
    pure d) := by
  have hcopy : ∀ j, Prog.Along SameAlloc (copyKernelPdes L d j) := fun j =>
    (sameAlloc_of_eq (load32_along _)).bind fun _ =>
      (noAlloc_store32 _ _).sameAlloc.bind fun _ => Prog.along_pure _
  exact (Prog.along_pure 0).ite ((noAlloc_memset _ _ _).sameAlloc.bind fun _ =>
    (Prog.Along.loop hcopy _ _).bind fun _ => Prog.along_pure d)

theorem keepsTaken_createUvm (L : Layout) : Prog.Along (KeepsTaken n i) (memoryCreateUvm L) :=
  keepsTaken_allocPage.bind fun d => keepsTaken_sameAlloc (sameAlloc_kernelHalf L d)

/-- The new directory is a page that is taken. -/
theorem memoryCreateUvm_taken {L : Layout} {d : ℕ} (hm : s.alloc.Managed n)
    (hstart : s.alloc.start = memExtStart) (hrun : memoryCreateUvm L s = some (d, s')) (hd : d ≠ 0) :
    ∃ j, Taken n j s' := by
  obtain ⟨page, s₁, halloc, hrest⟩ := Prog.bind_eq_some.mp hrun
  obtain ⟨rfl, rfl⟩ := Prod.mk.inj (Option.some.inj halloc)
  have hsame : s'.alloc = (addrAllocPage s.alloc 1).2 := sameAlloc_kernelHalf L _ _ _ _ hrest
  rcases s.alloc.firstClear_or with ⟨k, hk⟩ | hfull
  · rw [AddrAlloc.allocPage_found hk] at hsame
    have hlt := hk.1
    rw [hm.bitCount] at hlt
    refine ⟨k, ?_, hsame ▸ hstart, Int.ofNat_lt.mp hlt, ?_⟩
    · have hmanaged := hm.allocPage 1
      rw [AddrAlloc.allocPage_found hk] at hmanaged
      exact hsame ▸ hmanaged
    · rw [hsame]
      show (bitmapSetBit s.alloc.bitmap k 1 1).bitAt k = true
      rw [Bitmap.bitAt_setBit_one _ hk.1, if_pos rfl]
      rfl
  · rw [AddrAlloc.allocPage_none hfull, if_pos rfl] at hrest
    exact absurd (Prog.pure_eq_some.mp hrest).1 hd

/-- A call for user addresses; when it gives up, it frees nothing that counts. -/
theorem keepsTaken_allocForPageDir (size : ℕ) (hv : memoryTaskBase ≤ v) (hv' : v < 2 ^ 32) :
    Prog.Along (KeepsTaken n i) (memoryAllocForPageDir dir v size perm) := by
  have hpages : up2 size memPageSize / memPageSize ≤ 2 ^ 20 := by
    have := u32_lt (size + memPageSize - 1)
    unfold up2 memPageSize at *
    omega
  have hdown : memoryTaskBase ≤ down2 v memPageSize ∧ down2 v memPageSize ≤ v ∧
      down2 v memPageSize % memPageSize = 0 := by
    unfold down2 memoryTaskBase memPageSize at *
    omega
  refine (Prog.Along.loop_lt fun j _ hj => ?_).bind fun r => Prog.along_pure _
  refine keepsTaken_allocPage.bind fun a => (Prog.along_require _).bind fun _ =>
    (keepsTaken_createMap _ _ _ _ _).bind fun err => .ite ?_ (Prog.along_pure _)
  exact (keepsTaken_freeUser hdown.1 (by omega) hdown.2.2 (by omega)).bind fun _ => Prog.along_pure _

theorem keepsTaken_destroyUvm (hi : ¬ memPageSize ∣ i) (dir : ℕ) :
    Prog.Along (KeepsTaken n i) (memoryDestroyUvm dir) := by
  have hload : ∀ a, Prog.Along (KeepsTaken n i) (load32 a) := fun a => keepsTaken_of_eq (load32_along a)
  have hfree : ∀ w, Prog.Along (KeepsTaken n i) (freePages (entryPaddr w) 1) := fun w =>
    keepsTaken_freePage hi (entryPaddr_mod w)
  have hpage : ∀ t j, Prog.Along (KeepsTaken n i) (destroyPage t j) := fun t j =>
    (hload _).bind fun w => ((hfree w).bind fun _ => Prog.along_pure _).ite (Prog.along_pure _)
  have htable : ∀ j, Prog.Along (KeepsTaken n i) (destroyTable dir j) := fun j =>
    (hload _).bind fun pde => ((Prog.Along.loop (hpage _) _ _).bind fun _ => (hload _).bind fun w =>
      (hfree w).bind fun _ => (hfree pde).bind fun _ => Prog.along_pure _).ite (Prog.along_pure _)
  exact (Prog.Along.loop htable _ _).bind fun _ => Prog.along_pure _

/-! ## System calls -/

namespace Kernel

variable {L : Layout} {disk : Disk} {t : TaskId} {k k' : Kernel} {r : ℤ}

/-- The page stays taken, whatever else happens to the kernel. -/
def KeepsPage (n i : ℕ) : Kernel → Kernel → Prop := Order.Preimage Kernel.vm (KeepsTaken n i)

instance : IsPreorder Kernel (KeepsPage n i) := Order.Preimage.instIsPreorder

/-- The same for a state with a file. -/
def FileKeeps (n i : ℕ) : FileState → FileState → Prop := Order.Preimage FileState.vm (KeepsTaken n i)

instance : IsPreorder FileState (FileKeeps n i) := Order.Preimage.instIsPreorder

theorem keepsPage_onVm (h : Prog.Along (KeepsTaken n i) f) : Prog.Along (KeepsPage n i) (onVm f) :=
  h.zoom fun _ _ => rfl

theorem fileKeeps_onVm (h : Prog.Along (KeepsTaken n i) f) :
    Prog.Along (FileKeeps n i) (X86Os.onVm f) := h.zoom fun _ _ => rfl

theorem keepsPage_onFile {g : Prog FileState A} (h : Prog.Along (FileKeeps n i) g) :
    Prog.Along (KeepsPage n i) (onFile g) := by
  intro k a k' hs
  obtain ⟨fs, hfs, rfl⟩ := Prog.zoom_eq_some.mp hs
  exact h _ _ _ hfs

theorem keepsPage_setTask (t : TaskId) (g : Task → Task) :
    Prog.Along (KeepsPage n i) (setTask t g) := Prog.along_modify fun _ ht => ht

theorem fileKeeps_sysLseek (file : ℤ) (ptr : ℕ) : Prog.Along (FileKeeps n i) (sysLseek file ptr) :=
  ((Prog.along_modify fun _ ht => ht).bind fun _ => Prog.along_pure _).ite (Prog.along_pure _)

theorem loadBytes_along (c v : ℕ) : Prog.Along Eq (loadBytes c v) := by
  induction c generalizing v with
  | zero => exact Prog.along_pure _
  | succ c ih => exact (load8_along v).bind fun _ => (ih _).bind fun _ => Prog.along_pure _

theorem memcpyLocal_along (src size : ℕ) (old : Option (List (BitVec 8))) :
    Prog.Along Eq (memcpyLocal src size old) := by
  refine Prog.Along.ite ?_ (loadBytes_along size src)
  cases old with
  | none => exact Prog.along_halt
  | some bytes => exact Prog.along_pure bytes

theorem fileKeeps_sysReadLocal (file : ℤ) (len : ℕ) (old : Option (List (BitVec 8))) :
    Prog.Along (FileKeeps n i) (sysReadLocal file len old) :=
  ((Prog.along_gets _).bind fun pos =>
    (fileKeeps_onVm (keepsTaken_of_eq (memcpyLocal_along pos len old))).bind fun _ =>
      (Prog.along_modify fun _ ht => ht).bind fun _ => Prog.along_pure _).ite (Prog.along_pure _)

theorem fileKeeps_loadPhdr (file : ℤ) {phdr : Elf32Phdr} (hv : memoryTaskBase ≤ phdr.vaddr)
    (hv' : phdr.vaddr < 2 ^ 32) : Prog.Along (FileKeeps n i) (loadPhdr file phdr dir) := by
  refine (Prog.along_require _).bind fun _ =>
    (fileKeeps_onVm (keepsTaken_allocForPageDir _ hv hv')).bind fun err => (Prog.along_pure _).ite ?_
  refine (fileKeeps_sysLseek _ _).bind fun pos => (Prog.along_pure _).ite ?_
  exact fun fs a fs' hs ht => ht.of_alloc (sameAlloc_loadPhdrLoop _ _ _ _ _ fs a fs' hs)

theorem sameAlloc_kernelMemcpy (dest src size : ℕ) :
    Prog.Along SameAlloc (kernelMemcpy dest src size) :=
  (Prog.along_pure ()).ite (sameAlloc_memcpyLoop size dest src)

theorem sameAlloc_copyUvmData (dest dir src size : ℕ) :
    Prog.Along SameAlloc (memoryCopyUvmData dest dir src size) := by
  have hloop : ∀ fuel dest src size,
      Prog.Along SameAlloc (memoryCopyUvmDataLoop dir fuel dest src size) := by
    intro fuel
    induction fuel with
    | zero => exact fun _ _ _ => Prog.along_pure 0
    | succ fuel ih =>
        intro dest src size
        refine (Prog.along_pure 0).ite ?_
        refine (sameAlloc_of_eq (memoryGetPaddr_along dir dest)).bind fun a => (Prog.along_pure _).ite ?_
        exact (sameAlloc_kernelMemcpy _ _ _).bind fun _ => ih _ _ _
  exact hloop size dest src size

theorem sameAlloc_copyArgs (argsAt dest dir argc argv : ℕ) :
    Prog.Along SameAlloc (copyArgs argsAt dest dir argc argv) := by
  have harg : ∀ table j d, Prog.Along SameAlloc (copyArg dir argv table j d) := fun table j d =>
    (sameAlloc_of_eq (load32_along _)).bind fun src =>
      (sameAlloc_of_eq (kernelStrlen_along src)).bind fun len =>
        (sameAlloc_copyUvmData _ _ _ _).bind fun err => (Prog.along_require _).bind fun _ =>
          (noAlloc_store32 _ _).sameAlloc.bind fun _ => Prog.along_pure _
  have hloop : ∀ table c j d, Prog.Along SameAlloc (copyArgsLoop dir argv table c j d) := by
    intro table c
    induction c with
    | zero => exact fun _ _ => Prog.along_pure ()
    | succ c ih => exact fun j d => (harg table j d).bind fun d => ih (j + 1) d
  exact (noAlloc_store32 _ _).sameAlloc.bind fun _ => (noAlloc_store32 _ _).sameAlloc.bind fun _ =>
    (sameAlloc_of_eq (memoryGetPaddr_along _ _)).bind fun table => (Prog.along_require _).bind fun _ =>
      (hloop _ _ _ _).bind fun _ => sameAlloc_copyUvmData _ _ _ _

theorem stringsCount_along (start : ℕ) : Prog.Along Eq (stringsCount start) := by
  have hloop : ∀ fuel start count, Prog.Along Eq (stringsCountLoop fuel start count) := by
    intro fuel
    induction fuel with
    | zero => exact fun _ _ => Prog.along_halt
    | succ fuel ih =>
        exact fun start count => (load32_along start).bind fun _ => (Prog.along_pure _).ite (ih _ _)
  exact (Prog.along_pure _).ite (hloop _ _ _)

/-- While a program is loaded every page stays taken. -/
theorem keepsPage_loadSteps (disk : Disk) (t : TaskId) : LoadSteps (KeepsPage n i) disk t where
  sysOpen name := by
    refine keepsPage_onFile fun fs a fs' hs ht => ?_
    rcases sysOpen_eq_some hs with ⟨-, rfl⟩ | ⟨-, rfl⟩
    · exact ht
    · exact ht.of_alloc rfl
  sysLseek file ptr := keepsPage_onFile (fileKeeps_sysLseek file ptr)
  openFailed name := keepsPage_onVm (keepsTaken_of_eq (logOpenFailed_along name))
  sysRead file len old := keepsPage_onFile (fileKeeps_sysReadLocal file len old)
  loadPhdr file phdr dir hv hv' := keepsPage_onFile (fileKeeps_loadPhdr file hv hv')
  heap addr := keepsPage_setTask t _
  stack dir := keepsPage_onVm (keepsTaken_allocForPageDir _ (by decide) (by decide))

/-- Whatever `sys_execve` does, the page stays taken. -/
theorem keepsPage_execSteps (hi : ¬ memPageSize ∣ i) (disk : Disk) (argsAt : ℕ) (t : TaskId) :
    ExecSteps (KeepsPage n i) disk argsAt t where
  toLoadSteps := keepsPage_loadSteps disk t
  count argv := keepsPage_onVm (keepsTaken_of_eq (stringsCount_along argv))
  args dest dir argc argv :=
    keepsPage_onVm (keepsTaken_sameAlloc (sameAlloc_copyArgs argsAt dest dir argc argv))
  frame _ _ _ := keepsPage_onVm (keepsTaken_sameAlloc (noAlloc_store32 _ _).sameAlloc)
  tss _ := keepsPage_setTask t _
  cr3 _ := keepsPage_onVm (Prog.along_modify fun _ ht => ht.of_alloc rfl)
  destroy dir := keepsPage_onVm (keepsTaken_destroyUvm hi dir)

end Kernel

end X86Os
