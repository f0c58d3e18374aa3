import X86Os.LoadImage

/-!
# The bytes of a segment

What `load_phdr` stores when it returns zero, over any directory and any place of the file that the
kernel can read. The file position, the user address and the remaining size advance together, so the
loop is one transfer from the bytes of the file to the frames of the segment, in whatever order the
allocator gave them.
-/

namespace X86Os

variable {n dir v o c size perm pos : ℕ} {d a f : ℕ → ℕ} {file : ℕ → BitVec 8} {s s' : Vm}
  {ph : Elf32Phdr} {fd r : ℤ} {fs fs' : FileState}

/-! ## The loop -/

/-- A round reads its chunk to the frame of its page. -/
theorem Landing.sysRead {p k : ℕ} (h : Landing dir v pos size d a s) (hpos : pos + size ≤ 2 ^ 32)
    (hnull : pos ≠ 0) (hp : p ≠ 0) (hc : c ≠ 0) (hk : k + c ≤ size)
    (hplace : ∀ t < c, d (k + t) = p + t) :
    sysRead tempFileId p c ⟨moved s d a k, u32 (pos + k)⟩ =
      some ((c : ℤ), ⟨moved s d a (k + c), u32 (pos + (k + c))⟩) := by
  have hwrap : u32 (pos + k) = pos + k := u32_of_lt (by omega)
  have hcopy : kernelMemcpy p (pos + k) c (moved s d a k) = some ((), moved s d a (k + c)) := by
    rw [kernelMemcpy, if_neg (by omega)]
    exact h.memcpyLoop hpos hk hplace
  have hcopy' : onVm (kernelMemcpy p (pos + k) c) ⟨moved s d a k, pos + k⟩ =
      some ((), ⟨moved s d a (k + c), pos + k⟩) :=
    Prog.zoom_of_eq (t := (⟨moved s d a k, pos + k⟩ : FileState)) hcopy
  rw [hwrap, X86Os.sysRead, if_pos rfl, Prog.gets_bind, Prog.bind_of_eq hcopy', Prog.modify_bind,
    Nat.add_assoc]
  rfl

/-- The loop from the start of a page on moves the rest of the bytes. -/
theorem Landing.loadPhdrLoop (h : Landing dir v pos size d a s) (hpos : pos + size ≤ 2 ^ 32)
    (hnull : pos ≠ 0) (hv : v % memPageSize = 0) (hend : v + size ≤ 2 ^ 32)
    (hplace : ∀ k < size, d k ≠ 0) {fuel k : ℕ} (hfuel : size - k ≤ fuel) (hk : k ≤ size)
    (hstart : k = size ∨ (v + k) % memPageSize = 0) :
    loadPhdrLoop tempFileId dir fuel (u32 (v + k)) (size - k) ⟨moved s d a k, u32 (pos + k)⟩ =
      some (0, ⟨moved s d a size, u32 (pos + size)⟩) := by
  induction fuel generalizing k with
  | zero =>
      obtain rfl : k = size := by omega
      rfl
  | succ fuel ih =>
      rw [X86Os.loadPhdrLoop]
      by_cases hz : k = size
      · subst k
        rw [if_pos (Nat.sub_self size)]
        rfl
      · have hal := hstart.resolve_left hz
        generalize hc : min (size - k) memPageSize = c
        have hpage : 0 < memPageSize := by decide
        have hlookup : X86Os.memoryGetPaddr dir (v + k) (moved s d a k) =
            some (d k, moved s d a k) := by
          rw [h.memoryGetPaddr hk (by omega), (h.lookup_eq (by omega)).1]
        have hget : onVm (X86Os.memoryGetPaddr dir (v + k)) ⟨moved s d a k, u32 (pos + k)⟩ =
            some (d k, ⟨moved s d a k, u32 (pos + k)⟩) :=
          Prog.zoom_of_eq (t := (⟨moved s d a k, u32 (pos + k)⟩ : FileState)) hlookup
        have hread := h.sysRead hpos hnull (hplace k (by omega)) (c := c) (by omega) (by omega)
          fun t ht => h.place_add (by omega) (by omega)
        have hnext : k + c = size ∨ (v + (k + c)) % memPageSize = 0 := by
          unfold memPageSize at *
          omega
        have hrest := ih (k := k + c) (by omega) (by omega) hnext
        have hadvance : u32 (v + k + c) = u32 (v + (k + c)) := by rw [Nat.add_assoc]
        rw [if_neg (by omega), u32_of_lt (show v + k < 2 ^ 32 by omega), Prog.bind_of_eq hget,
          Prog.bind_of_eq hread, if_neg (lt_irrefl _), hadvance, Nat.sub_sub]
        exact hrest

/-- The whole loop. -/
theorem Landing.readSegment (h : Landing dir v pos size d a s) (hpos : pos + size ≤ 2 ^ 32)
    (hnull : pos ≠ 0) (hv : v % memPageSize = 0) (hend : v + size ≤ 2 ^ 32)
    (hplace : ∀ k < size, d k ≠ 0) :
    X86Os.loadPhdrLoop tempFileId dir size v size ⟨s, u32 pos⟩ =
      some (0, ⟨moved s d a size, u32 (pos + size)⟩) := by
  by_cases hz : size = 0
  · subst size
    rfl
  · have hrun := h.loadPhdrLoop hpos hnull hv hend hplace (le_refl (size - 0)) (Nat.zero_le _) (.inr hv)
    rw [Nat.add_zero, u32_of_lt (by omega)] at hrun
    exact hrun

/-! ## What allocating keeps -/

/-- The pages that were given out. -/
def given (s s' : Vm) : Finset ℕ := s.alloc.clearPages \ s'.alloc.clearPages

/-- The byte at `x` is in no page of the directory and its tables, and in none that was taken. -/
structure Spared (dir : ℕ) (taken : Finset ℕ) (m : Mem) (x : ℕ) : Prop where
  directory : ¬ InPage dir x
  table : ∀ i < pdeCnt, Present (m.pde dir i) → ¬ InPage (m.table dir i) x
  taken : ∀ p ∈ taken, ¬ InPage p x

/-- A new table was given out. -/
theorem RangeGrown.table_cases {i : ℕ} (h : RangeGrown dir v f c s s') (hg : Growable n dir s')
    (hi : i < pdeCnt) (hp : Present (s'.mem.pde dir i)) :
    (Present (s.mem.pde dir i) ∧ s'.mem.table dir i = s.mem.table dir i) ∨
      s'.mem.table dir i ∈ given s s' := by
  rcases h.grows.fresh i hi hp with hold | hnew
  · exact .inl ⟨hold, (h.grows.keeps i hi hold).2⟩
  · exact .inr (Finset.mem_sdiff.mpr ⟨hnew, hg.table_taken i hi hp⟩)

theorem RangeGrown.spared {x : ℕ} (h : RangeGrown dir v f c s s') (hg : Growable n dir s')
    (hx : Spared dir (given s s') s.mem x) : s'.mem x = s.mem x := by
  refine h.grows.confined x hx.directory fun i hi hp hin => ?_
  rcases h.table_cases hg hi hp with ⟨hold, he⟩ | hnew
  · exact hx.table i hi hold (he ▸ hin)
  · exact hx.taken _ hnew hin

/-- A present word of a directory or a table, of whichever address space, still leads to its page. -/
theorem RangeAllocated.word_kept {p j : ℕ} (h : RangeAllocated n dir v perm f c s s')
    (hgrown : RangeGrown dir v f c s s') (hp : p % memPageSize = 0) (hj : j < 1024)
    (hout : p ∉ given s s') (hpres : Present (s.mem.read32 (p + 4 * j))) :
    Present (s'.mem.read32 (p + 4 * j)) ∧
      entryPaddr (s'.mem.read32 (p + 4 * j)) = entryPaddr (s.mem.read32 (p + 4 * j)) := by
  have hg := h.extended.growable
  by_cases hdir : p = dir
  · subst p
    exact hgrown.grows.keeps j hj hpres
  suffices hsame : s'.mem.read32 (p + 4 * j) = s.mem.read32 (p + 4 * j) from
    ⟨(congrArg Present hsame).mpr hpres, congrArg entryPaddr hsame⟩
  by_cases htable : ∃ i < pdeCnt, Present (s'.mem.pde dir i) ∧ s'.mem.table dir i = p
  · obtain ⟨i, hi, hpi, hpt⟩ := htable
    obtain ⟨hold, he⟩ := (hgrown.table_cases hg hi hpi).resolve_right (hpt ▸ hout)
    have hold_eq : s.mem.table dir i = p := he.symm.trans hpt
    have hentry : s.mem.userEntry dir i j = some (s.mem.read32 (p + 4 * j)) :=
      userEntry_eq_some.mpr ⟨hold, congrArg (fun t => s.mem.read32 (t + 4 * j)) hold_eq, hpres⟩
    have hnone : rangeEntries v (fun k => f k ||| perm ||| pteP) c i j = none := by
      refine rangeEntries_eq_none.mpr fun k hk hidx => ?_
      have hfree := hgrown.unmapped k hk
      rw [← hidx.1, ← hidx.2, hentry] at hfree
      cases hfree
    have hentry' := h.userEntry_eq (j := j) hi hj
    rw [hnone, Option.none_or, hentry, userEntry_eq_some] at hentry'
    exact (congrArg (fun t => s'.mem.read32 (t + 4 * j)) hpt).symm.trans hentry'.2.1
  · refine Mem.read32_congr fun x hx hx' => ?_
    have hin : InPage p x := inPage_word hj hx hx'
    refine hgrown.grows.confined x (fun hd => hdir ?_) fun i hi hpi ht => htable ⟨i, hi, hpi, ?_⟩
    · exact InPage.unique hp hg.directory.dirPage.aligned hin hd
    · exact InPage.unique (entryPaddr_mod _) hp ht hin

/-! ## The segment -/

/-- A segment in user space whose file bytes the kernel can read. No page of the user half is a table,
and the pages `taken` are in use neither there nor for the file bytes, nor for the tables through which
these are read. -/
structure SegmentInput (n dir : ℕ) (file : ℕ → BitVec 8) (ph : Elf32Phdr) (taken : Finset ℕ)
    (s : Vm) : Prop where
  growable : Growable n dir s
  base : memoryTaskBase ≤ ph.vaddr
  filesz_le : ph.filesz ≤ ph.memsz
  segment_end : ph.vaddr + ph.memsz ≤ 2 ^ 32
  file_end : tempAddr + ph.offset + ph.filesz ≤ 2 ^ 32
  stored : ∀ k < ph.filesz, load8 (tempAddr + ph.offset + k) s = some (file (ph.offset + k), s)
  apart : ∀ k < ph.filesz, ∀ x, s.phys (tempAddr + ph.offset + k) = some x →
    Spared dir taken s.mem x
  current : ∀ k < ph.filesz, memoryTaskBase ≤ tempAddr + ph.offset + k →
    ∀ p, p = entryPaddr s.cr3 ∨
      p = s.mem.table (entryPaddr s.cr3) (pdeIndex (tempAddr + ph.offset + k)) →
      KernelPage p ∧ p ∉ taken
  pages : ∀ w x, UserAddr w → s.mem.walk dir w = some x → Spared dir taken s.mem x

/-- The address `w` is in no page of the segment. -/
def OutsideSegment (ph : Elf32Phdr) (w : ℕ) : Prop :=
  ∀ k < ph.memsz, w / memPageSize ≠ (ph.vaddr + k) / memPageSize

/-- The bytes of the file are seen in the segment; the other pages of the directory are mapped as
before, and neither the user pages among them nor the file bytes have changed. -/
structure SegmentStored (dir : ℕ) (file : ℕ → BitVec 8) (ph : Elf32Phdr) (taken : Finset ℕ)
    (s s' : Vm) : Prop where
  bytes : ∀ k < ph.filesz, s'.mem.seen dir (ph.vaddr + k) = some (file (ph.offset + k))
  mapping : ∀ w < 2 ^ 32, OutsideSegment ph w → s'.mem.walk dir w = s.mem.walk dir w
  contents : ∀ w, UserAddr w → OutsideSegment ph w → s'.mem.seen dir w = s.mem.seen dir w
  buffer : ∀ k < ph.filesz, load8 (tempAddr + ph.offset + k) s' = some (file (ph.offset + k), s')
  untouched : ∀ x, Spared dir taken s.mem x → s'.mem x = s.mem x

theorem load8_eq_some {b : BitVec 8} :
    load8 v s = some (b, s) ↔ ∃ x, s.phys v = some x ∧ s.mem x = b := by
  rw [load8, Option.map_eq_some_iff]
  constructor
  · rintro ⟨x, hx, hb⟩
    exact ⟨x, hx, (Prod.mk.inj hb).1⟩
  · rintro ⟨x, hx, rfl⟩
    exact ⟨x, hx, rfl⟩

/-- A byte that can be read is still read from the same place. -/
theorem RangeAllocated.phys_kept {w x : ℕ} (h : RangeAllocated n dir v perm f c s s')
    (hgrown : RangeGrown dir v f c s s') (hw : w < 2 ^ 32)
    (hcur : memoryTaskBase ≤ w → ∀ p, p = entryPaddr s.cr3 ∨
      p = s.mem.table (entryPaddr s.cr3) (pdeIndex w) → p ∉ given s s')
    (hx : s.phys w = some x) : s'.phys w = some x ∧ (memoryTaskBase ≤ w →
      s'.mem.table (entryPaddr s'.cr3) (pdeIndex w) = s.mem.table (entryPaddr s.cr3) (pdeIndex w)) := by
  rw [Vm.phys] at hx ⊢
  rw [h.extended.cr3]
  by_cases hlow : w < memoryTaskBase
  · rw [if_pos hlow] at hx ⊢
    exact ⟨hx, fun hle => by omega⟩
  · rw [if_neg hlow] at hx ⊢
    obtain ⟨e, he, rfl⟩ := walk_eq_some.mp hx
    obtain ⟨hpde, rfl, hpte⟩ := userEntry_eq_some.mp he
    obtain ⟨hpde', htable⟩ := h.word_kept hgrown (entryPaddr_mod _) (pdeIndex_lt hw)
      (hcur (by omega) _ (.inl rfl)) hpde
    obtain ⟨hpte', hframe⟩ := h.word_kept hgrown (entryPaddr_mod _) (pteIndex_lt w)
      (hcur (by omega) _ (.inr rfl)) hpte
    refine ⟨walk_eq_some.mpr ⟨_, userEntry_eq_some.mpr ⟨hpde', rfl, ?_⟩, ?_⟩, fun _ => htable⟩
    · rw [htable]
      exact hpte'
    · rw [htable]
      exact congrArg (· + w % memPageSize) hframe.symm

/-- The frame of a user page of the segment was given out, and is no table. -/
theorem RangeAllocated.segment_frame {p : ℕ} (h : RangeAllocated n dir v perm f c s s')
    (hgrown : RangeGrown dir v f c s s') (hg : Growable n dir s) (hv : v % memPageSize = 0)
    (hperm : perm < memPageSize) (hc : c ≤ 2 ^ 20) (hsize : size ≤ c * memPageSize)
    (hend : v + size ≤ 2 ^ 32) (hp : TargetFrame s'.mem dir v size p) :
    p ∈ given s s' ∧ KernelPage p ∧ p ≠ dir ∧
      ∀ i < pdeCnt, Present (s'.mem.pde dir i) → s'.mem.table dir i ≠ p := by
  obtain ⟨k, hk, e, he, rfl⟩ := hp
  have hpage : k / memPageSize < c := by
    unfold memPageSize at *
    omega
  obtain ⟨hentry, hframe, -⟩ := h.entry_at hg hv hperm hc hpage
  rw [u32_of_lt (by omega)] at hentry
  obtain rfl := Option.some.inj (he.symm.trans hentry)
  rw [hframe]
  obtain ⟨hclear, hnot⟩ := h.fresh _ hpage
  exact ⟨Finset.mem_sdiff.mpr ⟨hclear, hnot⟩, hg.usable _ hclear,
    fun heq => hg.dir_taken (heq ▸ hclear), hgrown.apart _ hpage⟩

namespace SegmentInput

variable {taken : Finset ℕ}

/-- After the pages were mapped the file bytes can be copied to them. -/
theorem copyInput (h : SegmentInput n dir file ph (given s s') s)
    (hall : RangeAllocated n dir ph.vaddr perm f c s s') (hgrown : RangeGrown dir ph.vaddr f c s s')
    (hv : ph.vaddr % memPageSize = 0) (hperm : perm < memPageSize) (hc : c = (ph.memsz + 4095) / 4096) :
    CopyInput dir ph.vaddr (tempAddr + ph.offset) ph.filesz s' := by
  have hle := h.filesz_le
  have hend := h.segment_end
  have hfile := h.file_end
  have hc' : c ≤ 2 ^ 20 := by
    have := h.base
    unfold memoryTaskBase at this
    omega
  have hcovered := hall.covered h.growable hv hperm hc hc'
  have hframe : ∀ p, TargetFrame s'.mem dir ph.vaddr ph.filesz p → p ∈ given s s' ∧ KernelPage p ∧
      p ≠ dir ∧ ∀ i < pdeCnt, Present (s'.mem.pde dir i) → s'.mem.table dir i ≠ p := fun p hp =>
    hall.segment_frame hgrown h.growable hv hperm hc' (by unfold memPageSize; omega) (by omega) hp
  have hsource : ∀ k < ph.filesz, ∃ x, s.phys (tempAddr + ph.offset + k) = some x ∧
      s'.phys (tempAddr + ph.offset + k) = some x ∧
      (memoryTaskBase ≤ tempAddr + ph.offset + k →
        s'.mem.table (entryPaddr s'.cr3) (pdeIndex (tempAddr + ph.offset + k)) =
          s.mem.table (entryPaddr s.cr3) (pdeIndex (tempAddr + ph.offset + k))) := by
    intro k hk
    obtain ⟨x, hx, -⟩ := load8_eq_some.mp (h.stored k hk)
    exact ⟨x, hx, hall.phys_kept hgrown (by omega) (fun hbase p hp => (h.current k hk hbase p hp).2) hx⟩
  refine ⟨hall.extended.growable.directory, by omega, hfile, by unfold tempAddr; omega,
    fun p hp => (hframe p hp).2, fun k hk l hl e e' he he' heq => ?_, fun k hk => ?_,
    fun k hk hbase p hp => ?_⟩
  · have hwrap : ∀ i < ph.filesz, u32 (ph.vaddr + i) = ph.vaddr + i := fun i hi =>
      u32_of_lt (by omega)
    have hsame := hcovered.distinct k (by omega) l (by omega) e e'
    rw [hwrap k hk, hwrap l hl] at hsame
    obtain ⟨hi, hj⟩ := hsame he he' heq
    exact page_of_indices hi hj
  · obtain ⟨x, hx, hx', -⟩ := hsource k hk
    exact ⟨x, hx', fun p hp => (h.apart k hk x hx).taken p (hframe p hp).1⟩
  · obtain ⟨x, -, -, htable⟩ := hsource k hk
    rw [hall.extended.cr3] at hp htable
    rw [htable hbase] at hp
    obtain ⟨hkp, hout⟩ := h.current k hk hbase p hp
    exact ⟨hkp, fun ht => hout (hframe p ht).1⟩

end SegmentInput

/-- Addresses lead where they did while bytes are moved. -/
theorem Landing.walk {j w : ℕ} (h : Landing dir v pos size d a s) (hj : j ≤ size) (hw : w < 2 ^ 32) :
    (s.mem.transfer d a j).walk dir w = s.mem.walk dir w := by
  have hi := pdeIndex_lt hw
  have hword : (s.mem.transfer d a j).pteWord dir (pdeIndex w) (pteIndex w) =
      s.mem.pteWord dir (pdeIndex w) (pteIndex w) :=
    Mem.pteWord_congr hi (pteIndex_lt w)
      (fun x hx => h.outside hj h.directory.dirPage.aligned hx (.inl rfl))
      fun hp x hx => h.outside hj (entryPaddr_mod _) hx (.inr ⟨_, hi, hp, rfl⟩)
  rw [walk_eq, walk_eq, Mem.userEntry_eq_filter, Mem.userEntry_eq_filter, hword]

/-- The address of a page that the range does not meet is mapped as before. -/
theorem RangeCovered.walk {w : ℕ} (h : RangeCovered dir v size perm s s') (hend : v + size ≤ 2 ^ 32)
    (hw : w < 2 ^ 32) (hout : ∀ k < size, w / memPageSize ≠ (v + k) / memPageSize) :
    s'.mem.walk dir w = s.mem.walk dir w := by
  have hentry := h.others (pdeIndex w) (pdeIndex_lt hw) (pteIndex w) (pteIndex_lt w) fun k hk hidx => by
    rw [u32_of_lt (by omega)] at hidx
    exact hout k hk (page_of_indices hidx.1 hidx.2)
  rw [walk_eq, walk_eq, hentry]

/-- Each byte of the file part of the segment is mapped to a page that was given out. -/
theorem RangeCovered.lands {k : ℕ} (h : RangeCovered dir v size perm s s') (hend : v + size ≤ 2 ^ 32)
    (hk : k < size) : ∃ e, s'.mem.entryAt dir (v + k) = some e ∧ entryPaddr e ∈ given s s' := by
  obtain ⟨e, he, -, hclear, hnot⟩ := h.mapped k hk
  rw [u32_of_lt (by omega)] at he
  exact ⟨e, he, Finset.mem_sdiff.mpr ⟨hclear, hnot⟩⟩

/-- What is there after the bytes were moved to the pages of the segment. -/
theorem SegmentInput.stored_of_copy {d a : ℕ → ℕ} {m' : Mem}
    (h : SegmentInput n dir file ph (given s s') s)
    (hall : RangeAllocated n dir ph.vaddr perm f c s s') (hgrown : RangeGrown dir ph.vaddr f c s s')
    (hcovered : RangeCovered dir ph.vaddr ph.memsz perm s s')
    (hland : Landing dir ph.vaddr (tempAddr + ph.offset) ph.filesz d a s')
    (hm' : m' = s'.mem.transfer d a ph.filesz)
    (hinj : ∀ k < ph.filesz, ∀ l < ph.filesz, d k = d l → k = l)
    (hplace : ∀ k < ph.filesz, s'.mem.walk dir (ph.vaddr + k) = some (d k)) :
    SegmentStored dir file ph (given s s') s { s' with mem := m' } := by
  have hle := h.filesz_le
  have hend := h.segment_end
  have hfile := h.file_end
  have hin : ∀ k < ph.filesz, ∃ p ∈ given s s', InPage p (d k) := fun k hk => by
    obtain ⟨e, he, hgiven⟩ := hcovered.lands hend (show k < ph.memsz by omega)
    obtain ⟨e', he', hd⟩ := walk_eq_some.mp (hplace k hk)
    obtain rfl := Option.some.inj (he.symm.trans he')
    exact ⟨_, hgiven, hd ▸ walk_in_frame⟩
  have hkept : ∀ x, Spared dir (given s s') s.mem x → m' x = s.mem x := fun x hx => by
    rw [hm', Mem.transfer_out fun k hk he => ?_]
    · exact hgrown.spared hall.extended.growable hx
    · obtain ⟨p, hp, hpd⟩ := hin k hk
      exact hx.taken p hp (he ▸ hpd)
  have hsource : ∀ k < ph.filesz, ({ s' with mem := m' } : Vm).phys (tempAddr + ph.offset + k) =
      some (a k) ∧ s'.mem (a k) = file (ph.offset + k) ∧ Spared dir (given s s') s.mem (a k) := by
    intro k hk
    obtain ⟨x, hx, hbyte⟩ := load8_eq_some.mp (h.stored k hk)
    have hspared := h.apart k hk x hx
    have hphys := (hall.phys_kept hgrown (by omega)
      (fun hbase p hp => (h.current k hk hbase p hp).2) hx).1
    have hstart : s'.phys (tempAddr + ph.offset + k) = some (a k) :=
      hland.source k hk s'.mem fun _ _ => rfl
    obtain rfl : a k = x := Option.some.inj (hstart.symm.trans hphys)
    refine ⟨hland.source k hk m' fun y hy => ?_, ?_, hspared⟩
    · rw [hm']
      exact Mem.transfer_out hy
    · rw [hgrown.spared hall.extended.growable hspared, hbyte]
  have hwalk : ∀ w < 2 ^ 32, m'.walk dir w = s'.mem.walk dir w := fun w hw => by
    rw [hm', hland.walk le_rfl hw]
  have hmapping : ∀ w < 2 ^ 32, OutsideSegment ph w → m'.walk dir w = s.mem.walk dir w :=
    fun w hw hout => (hwalk w hw).trans (hcovered.walk hend hw hout)
  refine ⟨fun k hk => ?_, hmapping, fun w hw hout => ?_, fun k hk => ?_, hkept⟩
  · have hmoved : m' (d k) = s'.mem (a k) := by
      rw [hm']
      refine Mem.transfer_at hinj (fun i hi j hj he => ?_) hk
      obtain ⟨p, hp, hpd⟩ := hin j hj
      exact (hsource i hi).2.2.taken p hp (he ▸ hpd)
    show (m'.walk dir (ph.vaddr + k)).map m' = _
    rw [hwalk _ (by omega), hplace k hk, Option.map_some, hmoved, (hsource k hk).2.1]
  · show (m'.walk dir w).map m' = (s.mem.walk dir w).map s.mem
    rw [hmapping w hw.2 hout]
    exact Option.map_congr fun x hx => hkept x (h.pages w x hw hx)
  · obtain ⟨hphys, hbyte, hspared⟩ := hsource k hk
    refine load8_eq_some.mpr ⟨a k, hphys, ?_⟩
    rw [← hbyte, hgrown.spared hall.extended.growable hspared]
    exact hkept _ hspared

/-- The loop reads the whole segment once its pages are mapped. -/
theorem SegmentInput.reads {s₁ : Vm} (h : SegmentInput n dir file ph (given s s₁) s)
    (hv : ph.vaddr % memPageSize = 0) (hperm : perm < memPageSize)
    (halloc : memoryAllocForPageDir dir ph.vaddr ph.memsz perm s = some (0, s₁)) :
    ∃ s₂ pos, loadPhdrLoop tempFileId dir ph.filesz ph.vaddr ph.filesz
        ⟨s₁, u32 (ph.offset + tempAddr)⟩ = some (0, ⟨s₂, pos⟩) ∧
      SegmentStored dir file ph (given s s₁) s s₂ := by
  have hbase := h.base
  have hend := h.segment_end
  have hle := h.filesz_le
  have hmemsz : ph.memsz < 2 ^ 32 ∧ ph.memsz ≤ 2 ^ 32 - memPageSize := by
    unfold memoryTaskBase memPageSize at *
    omega
  obtain ⟨f, hall, hgrown⟩ := rangeAllocated_of_call h.growable (hperm.trans (by decide)) halloc
  have hcount := (pageCount_eq hmemsz.1).trans (if_pos hmemsz.2)
  have hcovered := (range_allocation_covers h.growable hv hmemsz.1 hperm halloc).mpr hmemsz.2
  have hcopy := h.copyInput hall hgrown hv hperm hcount
  have hentry : ∀ k < ph.filesz, ∃ e, s₁.mem.entryAt dir (ph.vaddr + k) = some e := fun k hk =>
    (hcovered.lands hend (show k < ph.memsz by omega)).imp fun _ he => he.1
  have hlands : ∀ k < ph.filesz, CopyInput.LandsAt s₁.mem dir ph.vaddr k := fun k hk =>
    .inl (hentry k hk)
  have hplace : ∀ k < ph.filesz, s₁.mem.walk dir (ph.vaddr + k) =
      some (s₁.mem.lookup dir (ph.vaddr + k)) := fun k hk => by
    obtain ⟨x, hx⟩ := Option.isSome_iff_exists.mp (walk_isSome_iff.mpr (hentry k hk))
    rw [hcopy.lookup_of_walk hk hx, hx]
  have hne : ∀ k < ph.filesz, s₁.mem.lookup dir (ph.vaddr + k) ≠ 0 := fun k hk => by
    obtain ⟨e, he, hp⟩ := walk_eq_some.mp (hplace k hk)
    have := (hcopy.frame _ ⟨k, hk, e, he, rfl⟩).1.ne_zero
    omega
  have hland := hcopy.landing le_rfl hlands
  have hrun := hland.readSegment h.file_end (by unfold tempAddr; omega) hv (by omega) hne
  rw [Nat.add_comm ph.offset]
  exact ⟨_, _, hrun, h.stored_of_copy hall hgrown hcovered hland rfl
    (hcopy.place_injective le_rfl hlands) hplace⟩

/-- A segment that was loaded shows the bytes of the file, in whatever order its frames were given;
nothing else of the directory has changed, and neither have the bytes of the file. -/
theorem segment_bytes_loaded (h : SegmentInput n dir file ph (given fs.vm fs'.vm) fs.vm)
    (hrun : loadPhdr fd ph dir fs = some (0, fs')) :
    SegmentStored dir file ph (given fs.vm fs'.vm) fs.vm fs'.vm := by
  obtain ⟨-, hal, s₁, halloc, hloop⟩ := loadPhdr_not_neg h.growable hrun (lt_irrefl _)
  have hgiven : given fs.vm fs'.vm = given fs.vm s₁ :=
    congrArg (fun alloc : AddrAlloc => fs.vm.alloc.clearPages \ alloc.clearPages)
      (sameAlloc_loadPhdrLoop _ _ _ _ _ _ _ _ hloop)
  rw [hgiven] at h ⊢
  obtain ⟨s₂, pos, hread, hstored⟩ := h.reads hal (by decide) halloc
  obtain ⟨-, rfl⟩ := Prog.result_unique hloop hread
  exact hstored

/-! ## A segment of two pages -/

def sampleFile (i : ℕ) : BitVec 8 := BitVec.ofNat 8 i

/-- The space with one page, and a file in the buffer. -/
def fileVm : Vm := { onePageVm with mem := onePageVm.mem.place tempAddr tempSize sampleFile }

/-- The second page of the segment is filled in part. -/
def samplePhdr : Elf32Phdr where
  type := ptLoad
  offset := 0x1234
  vaddr := 0x80001000
  paddr := 0x80001000
  filesz := 0x1010
  memsz := 0x1800

theorem fileVm_mem {x : ℕ} (hx : x < tempAddr) : fileVm.mem x = onePageVm.mem x := if_neg (by omega)

theorem fileVm_entries :
    (∀ i < pdeCnt, fileVm.mem.pde 0x200000 i = onePageVm.mem.pde 0x200000 i) ∧
      Growable 8 0x200000 fileVm ∧
      ∀ w, UserAddr w → fileVm.mem.entryAt 0x200000 w = onePageVm.mem.entryAt 0x200000 w := by
  have hdir : ∀ x, InPage 0x200000 x → fileVm.mem x = onePageVm.mem x := fun x hx =>
    fileVm_mem (by unfold InPage memPageSize at hx; unfold tempAddr; omega)
  obtain ⟨hg, hpde⟩ := onePage_growable.congr hdir
  refine ⟨hpde, hg, (entries_congr hdir fun i hi hp x hx => fileVm_mem ?_).2⟩
  rw [(onePage_table hi hp).2] at hx
  unfold InPage memPageSize at hx
  unfold tempAddr
  omega

theorem fileVm_spared {taken : Finset ℕ} (htaken : taken ⊆ fileVm.alloc.clearPages) {x : ℕ}
    (hx : InPage 0x202000 x ∨ tempAddr ≤ x) : Spared 0x200000 taken fileVm.mem x := by
  unfold InPage memPageSize tempAddr at hx
  refine ⟨fun hin => ?_, fun i hi hp hin => ?_, fun p hp hin => ?_⟩
  · unfold InPage memPageSize at hin
    omega
  · rw [fileVm_entries.1 i hi] at hp
    rw [Mem.table, fileVm_entries.1 i hi, ← Mem.table, (onePage_table hi hp).2] at hin
    unfold InPage memPageSize at hin
    omega
  · obtain ⟨k, hk, rfl⟩ := onePageVm_clear (htaken hp)
    unfold InPage memPageSize at hin
    omega

theorem samplePhdr_input {taken : Finset ℕ} (htaken : taken ⊆ fileVm.alloc.clearPages) :
    SegmentInput 8 0x200000 sampleFile samplePhdr taken fileVm := by
  have hfile : ∀ k < samplePhdr.filesz,
      fileVm.phys (tempAddr + samplePhdr.offset + k) = some (tempAddr + samplePhdr.offset + k) ∧
        fileVm.mem (tempAddr + samplePhdr.offset + k) = sampleFile (samplePhdr.offset + k) := by
    intro k hk
    have hsize : samplePhdr.offset + k < tempSize := by
      have hk' : k < 0x1010 := hk
      show 0x1234 + k < 80 * 512
      omega
    rw [Nat.add_assoc]
    refine ⟨phys_of_identity (buffer_identity hsize).2, ?_⟩
    exact (if_pos ⟨by omega, by omega⟩).trans (congrArg sampleFile (Nat.add_sub_cancel_left _ _))
  refine ⟨fileVm_entries.2.1, by decide, by decide, by decide, by decide, fun k hk => ?_,
    fun k hk x hx => ?_, fun k hk hbase => ?_, fun w x hw hx => ?_⟩
  · exact load8_eq_some.mpr ⟨_, hfile k hk⟩
  · obtain rfl := Option.some.inj ((hfile k hk).1.symm.trans hx)
    exact fileVm_spared htaken (.inr (by omega))
  · have hk' : k < 0x1010 := hk
    have hbase' : 0x80000000 ≤ 0x800000 + 0x1234 + k := hbase
    omega
  · obtain ⟨e, he, rfl⟩ := walk_eq_some.mp hx
    rw [fileVm_entries.2.2 w hw] at he
    rw [(onePage_entryAt hw.1 hw.2 he).1]
    have hframe : InPage 0x202000 (entryPaddr 0x202007 + w % memPageSize) :=
      walk_in_frame (e := 0x202007)
    exact fileVm_spared htaken (.inl hframe)

theorem segment_bytes_loaded_twoPages : ∃ fs', loadPhdr tempFileId samplePhdr 0x200000 ⟨fileVm, 0⟩ =
    some (0, fs') ∧ SegmentStored 0x200000 sampleFile samplePhdr (given fileVm fs'.vm) fileVm fs'.vm := by
  have hg := fileVm_entries.2.1
  have hcard : fileVm.alloc.clearPages.card = 8 := onePageVm_card
  have hnone : ∀ k < 2, fileVm.mem.userEntry 0x200000 (pdeIndex (u32 (0x80001000 + k * memPageSize)))
      (pteIndex (u32 (0x80001000 + k * memPageSize))) = none := by
    intro k hk
    have hw : UserAddr (u32 (0x80001000 + k * memPageSize)) := by
      unfold UserAddr memoryTaskBase memPageSize u32
      omega
    refine Option.eq_none_iff_forall_not_mem.mpr fun e he => ?_
    have he' : onePageVm.mem.entryAt 0x200000 (u32 (0x80001000 + k * memPageSize)) = some e :=
      (fileVm_entries.2.2 _ hw).symm.trans he
    have hpage := (onePage_entryAt hw.1 hw.2 he').2
    unfold memPageSize u32 at hpage
    omega
  have hperm : pteP ||| pteU ||| pteW < 2 ^ 32 := by decide
  have hcount : 2 = up2 samplePhdr.memsz memPageSize / memPageSize := by decide
  have hal : samplePhdr.vaddr % memPageSize = 0 := by decide
  obtain ⟨s₁, hcall, -⟩ :=
    rangeAlloc_total hg hperm hcount (by norm_num) (by rw [hcard]; norm_num) hnone
  have halloc : memoryAllocForPageDir 0x200000 samplePhdr.vaddr samplePhdr.memsz
      (pteP ||| pteU ||| pteW) (⟨fileVm, 0⟩ : FileState).vm = some (0, s₁) := hcall
  obtain ⟨s₂, pos, hread, -⟩ := (samplePhdr_input Finset.sdiff_subset).reads hal (by decide) halloc
  have hrun : loadPhdr tempFileId samplePhdr 0x200000 ⟨fileVm, 0⟩ = some (0, ⟨s₂, pos⟩) :=
    (loadPhdr_of_alloc hal halloc).trans hread
  have hin : SegmentInput 8 0x200000 sampleFile samplePhdr (given fileVm s₂) fileVm :=
    samplePhdr_input Finset.sdiff_subset
  exact ⟨⟨s₂, pos⟩, hrun, @segment_bytes_loaded 8 0x200000 sampleFile samplePhdr tempFileId
    ⟨fileVm, 0⟩ ⟨s₂, pos⟩ hin hrun⟩

end X86Os
