import X86Os.Elf

/-!
# Executable files

What the bytes of an executable say: its headers, its segments and the bytes of a segment in memory.
The boot loader's `reload_elf_file` copies segments to their load addresses before paging is on, and
every segment that it copies has these bytes afterwards.
-/

namespace X86Os

variable {file : ℕ → BitVec 8} {ph : Elf32Phdr} {m : Mem} {n d a x : ℕ}

/-! ## Headers and segments -/

def fileBytes (file : ℕ → BitVec 8) (o n : ℕ) : List (BitVec 8) :=
  (List.range n).map fun k => file (o + k)

def fileHeader (file : ℕ → BitVec 8) : Elf32Ehdr := .ofBytes (fileBytes file 0 ehdrSize)

/-- The segment number `i` of a file whose program headers are `entSize` bytes apart. -/
def segmentAt (file : ℕ → BitVec 8) (entSize i : ℕ) : Elf32Phdr :=
  .ofBytes (fileBytes file ((fileHeader file).phoff + i * entSize) phdrSize)

/-- What a segment has in memory: the bytes of the file, then zeros. -/
def segmentByte (file : ℕ → BitVec 8) (ph : Elf32Phdr) (k : ℕ) : BitVec 8 :=
  if k < ph.filesz then file (ph.offset + k) else 0

theorem fileBytes_succ (file : ℕ → BitVec 8) (o n : ℕ) :
    fileBytes file o (n + 1) = file o :: fileBytes file (o + 1) n := by
  rw [fileBytes, List.range_succ_eq_map, List.map_cons, List.map_map, Nat.add_zero, fileBytes]
  congr 1
  refine List.map_congr_left fun k _ => ?_
  show file (o + (k + 1)) = file (o + 1 + k)
  congr 1
  omega

theorem fileBytes_congr {file' : ℕ → BitVec 8} {o : ℕ}
    (h : ∀ k < n, file' (o + k) = file (o + k)) : fileBytes file' o n = fileBytes file o n :=
  List.map_congr_left fun k hk => h k (List.mem_range.mp hk)

/-! ## The boot loader -/

/-- `*dest++ = *src++`, with paging off. -/
def reloadCopy : ℕ → ℕ → ℕ → Mem → Mem
  | 0, _, _, m => m
  | n + 1, dest, src, m => reloadCopy n (u32 (dest + 1)) (u32 (src + 1)) (m.write8 dest (m src))

/-- `*dest++ = 0`. -/
def reloadZero : ℕ → ℕ → Mem → Mem
  | 0, _, m => m
  | n + 1, dest, m => reloadZero n (u32 (dest + 1)) (m.write8 dest 0)

/-- The bytes of `m` from the address `a` on, as a file. -/
def Mem.fileAt (m : Mem) (a : ℕ) : ℕ → BitVec 8 := fun o => m (u32 (a + o))

def reloadSegment (fileBuffer : ℕ) (ph : Elf32Phdr) (m : Mem) : Mem :=
  reloadZero (u32Sub ph.memsz ph.filesz) (u32 (ph.paddr + ph.filesz))
    (reloadCopy ph.filesz ph.paddr (u32 (fileBuffer + ph.offset)) m)

/-- One round of the loop of `reload_elf_file`; the program headers are an array. -/
def reloadHeader (fileBuffer i : ℕ) (m : Mem) : Mem :=
  let ph := segmentAt (m.fileAt fileBuffer) phdrSize i
  if ph.type ≠ ptLoad then m else reloadSegment fileBuffer ph m

def reloadLoop (fileBuffer : ℕ) : ℕ → ℕ → Mem → Mem
  | 0, _, m => m
  | n + 1, i, m => reloadLoop fileBuffer n (i + 1) (reloadHeader fileBuffer i m)

def reloadElfFile (fileBuffer : ℕ) (m : Mem) : ℕ × Mem :=
  let hdr := fileHeader (m.fileAt fileBuffer)
  if hdr.ident ≠ elfMagic then (0, m) else (hdr.entry, reloadLoop fileBuffer hdr.phnum 0 m)

/-! ## What the boot loader leaves -/

theorem reloadCopy_out (hdest : d + n ≤ 2 ^ 32) (hx : x < d ∨ d + n ≤ x) :
    reloadCopy n d a m x = m x := by
  induction n generalizing d a m with
  | zero => rfl
  | succ n ih =>
      have hne : x ≠ d := by omega
      rw [reloadCopy]
      cases n with
      | zero => exact Function.update_of_ne hne _ _
      | succ n =>
          rw [u32_of_lt (show d + 1 < 2 ^ 32 by omega), ih (by omega) (by omega)]
          exact Function.update_of_ne hne _ _

theorem reloadCopy_at (hdest : d + n ≤ 2 ^ 32) (hsrc : a + n ≤ 2 ^ 32)
    (hapart : d + n ≤ a ∨ a + n ≤ d) {k : ℕ} (hk : k < n) :
    reloadCopy n d a m (d + k) = m (a + k) := by
  induction n generalizing d a m k with
  | zero => omega
  | succ n ih =>
      rw [reloadCopy]
      cases n with
      | zero =>
          obtain rfl : k = 0 := by omega
          exact Function.update_self _ _ _
      | succ n =>
          rw [u32_of_lt (show d + 1 < 2 ^ 32 by omega),
            u32_of_lt (show a + 1 < 2 ^ 32 by omega)]
          cases k with
          | zero =>
              rw [reloadCopy_out (by omega) (by omega)]
              exact Function.update_self _ _ _
          | succ k =>
              have hnext := ih (m := m.write8 d (m a)) (d := d + 1) (a := a + 1)
                (by omega) (by omega) (by omega) (show k < n + 1 by omega)
              rw [Nat.add_right_comm d, Nat.add_right_comm a] at hnext
              exact hnext.trans (Function.update_of_ne (by omega) _ _)

theorem reloadZero_out (hdest : d + n ≤ 2 ^ 32) (hx : x < d ∨ d + n ≤ x) :
    reloadZero n d m x = m x := by
  induction n generalizing d m with
  | zero => rfl
  | succ n ih =>
      have hne : x ≠ d := by omega
      rw [reloadZero]
      cases n with
      | zero => exact Function.update_of_ne hne _ _
      | succ n =>
          rw [u32_of_lt (show d + 1 < 2 ^ 32 by omega), ih (by omega) (by omega)]
          exact Function.update_of_ne hne _ _

theorem reloadZero_at (hdest : d + n ≤ 2 ^ 32) {k : ℕ} (hk : k < n) :
    reloadZero n d m (d + k) = 0 := by
  induction n generalizing d m k with
  | zero => omega
  | succ n ih =>
      rw [reloadZero]
      cases n with
      | zero =>
          obtain rfl : k = 0 := by omega
          exact Function.update_self _ _ _
      | succ n =>
          rw [u32_of_lt (show d + 1 < 2 ^ 32 by omega)]
          cases k with
          | zero =>
              rw [reloadZero_out (by omega) (by omega)]
              exact Function.update_self _ _ _
          | succ k =>
              have hnext := ih (m := m.write8 d 0) (d := d + 1) (by omega)
                (show k < n + 1 by omega)
              rwa [Nat.add_right_comm d] at hnext

/-- The first `len` bytes of the file lie from `a` on. -/
def Mem.Holds (m : Mem) (file : ℕ → BitVec 8) (len a : ℕ) : Prop := ∀ o < len, m (a + o) = file o

namespace Mem.Holds

variable {len fileBuffer j : ℕ}

theorem fileAt_eq (hm : m.Holds file len fileBuffer) (hend : fileBuffer + len ≤ 2 ^ 32) {o : ℕ}
    (ho : o < len) : m.fileAt fileBuffer o = file o := by
  rw [Mem.fileAt, u32_of_lt (by omega), hm o ho]

theorem header_eq (hm : m.Holds file len fileBuffer) (hend : fileBuffer + len ≤ 2 ^ 32)
    (hlen : ehdrSize ≤ len) : fileHeader (m.fileAt fileBuffer) = fileHeader file := by
  rw [fileHeader, fileHeader,
    fileBytes_congr fun o ho => hm.fileAt_eq hend (show 0 + o < len by omega)]

theorem segment_eq (hm : m.Holds file len fileBuffer) (hend : fileBuffer + len ≤ 2 ^ 32)
    (hlen : ehdrSize ≤ len) (hj : (fileHeader file).phoff + j * phdrSize + phdrSize ≤ len) :
    segmentAt (m.fileAt fileBuffer) phdrSize j = segmentAt file phdrSize j := by
  rw [segmentAt, segmentAt, hm.header_eq hend hlen]
  exact congrArg _ (fileBytes_congr fun o ho => hm.fileAt_eq hend (by omega))

end Mem.Holds

/-- A file of `len` bytes lies in the buffer, and its segments have their load addresses outside. -/
structure ReloadInput (file : ℕ → BitVec 8) (len fileBuffer : ℕ) (m : Mem) : Prop where
  stored : m.Holds file len fileBuffer
  buffer_end : fileBuffer + len ≤ 2 ^ 32
  header : ehdrSize ≤ len
  ident : (fileHeader file).ident = elfMagic
  headers : ∀ j < (fileHeader file).phnum, (fileHeader file).phoff + j * phdrSize + phdrSize ≤ len
  segment : ∀ j < (fileHeader file).phnum, ∀ ph, ph = segmentAt file phdrSize j → ph.type = ptLoad →
    ph.offset + ph.filesz ≤ len ∧ ph.filesz ≤ ph.memsz ∧ ph.paddr + ph.memsz ≤ 2 ^ 32 ∧
      (ph.paddr + ph.memsz ≤ fileBuffer ∨ fileBuffer + len ≤ ph.paddr)

/-- No two of the load ranges share a byte. -/
def LoadApart (ph ph' : Elf32Phdr) : Prop :=
  ph.paddr + ph.memsz ≤ ph'.paddr ∨ ph'.paddr + ph'.memsz ≤ ph.paddr

variable {len fileBuffer i : ℕ}

theorem reloadSegment_out (hsize : ph.filesz ≤ ph.memsz) (hend : ph.paddr + ph.memsz ≤ 2 ^ 32)
    (hm : ph.memsz < 2 ^ 32) (hx : x < ph.paddr ∨ ph.paddr + ph.memsz ≤ x) :
    reloadSegment fileBuffer ph m x = m x := by
  rw [reloadSegment]
  by_cases hfull : ph.paddr + ph.filesz = 2 ^ 32
  · have hzero : u32Sub ph.memsz ph.filesz = 0 := by
      unfold u32Sub u32
      omega
    rw [hzero]
    exact reloadCopy_out (by omega) (by omega)
  · rw [u32_of_lt (by omega), u32Sub_of_le hsize hm, reloadZero_out (by omega) (by omega)]
    exact reloadCopy_out (by omega) (by omega)

theorem reloadSegment_at (hsize : ph.filesz ≤ ph.memsz) (hend : ph.paddr + ph.memsz ≤ 2 ^ 32)
    (hm : ph.memsz < 2 ^ 32) (hsrc : fileBuffer + ph.offset + ph.filesz ≤ 2 ^ 32)
    (hapart : ph.paddr + ph.memsz ≤ fileBuffer ∨ fileBuffer + ph.offset + ph.filesz ≤ ph.paddr)
    (hfile : ∀ k < ph.filesz, m (fileBuffer + ph.offset + k) = file (ph.offset + k)) {k : ℕ}
    (hk : k < ph.memsz) : reloadSegment fileBuffer ph m (ph.paddr + k) = segmentByte file ph k := by
  rw [reloadSegment, u32Sub_of_le hsize hm, segmentByte]
  by_cases hin : k < ph.filesz
  · have hcopy := reloadCopy_at (m := m) (n := ph.filesz) (d := ph.paddr)
      (a := fileBuffer + ph.offset) (by omega) (by omega) (by omega) hin
    rw [if_pos hin, u32_of_lt (show fileBuffer + ph.offset < 2 ^ 32 by omega)]
    by_cases hnone : ph.memsz - ph.filesz = 0
    · rw [hnone]
      exact hcopy.trans (hfile k hin)
    · rw [u32_of_lt (show ph.paddr + ph.filesz < 2 ^ 32 by omega),
        reloadZero_out (by omega) (by omega), hcopy, hfile k hin]
  · rw [if_neg hin, u32_of_lt (show ph.paddr + ph.filesz < 2 ^ 32 by omega)]
    have hzero := reloadZero_at (m := reloadCopy ph.filesz ph.paddr (u32 (fileBuffer + ph.offset)) m)
      (n := ph.memsz - ph.filesz) (d := ph.paddr + ph.filesz) (by omega)
      (show k - ph.filesz < ph.memsz - ph.filesz by omega)
    rwa [show ph.paddr + ph.filesz + (k - ph.filesz) = ph.paddr + k by omega] at hzero

theorem halfAt_lt (b : List (BitVec 8)) (i : ℕ) : halfAt b i < 2 ^ 16 := by
  have h0 := (b.getD i 0).isLt
  have h1 := (b.getD (i + 1) 0).isLt
  unfold halfAt
  omega

theorem wordAt_lt (b : List (BitVec 8)) (i : ℕ) : wordAt b i < 2 ^ 32 := by
  have h0 := halfAt_lt b i
  have h2 := halfAt_lt b (i + 2)
  unfold wordAt
  omega

namespace ReloadInput

variable {m' : Mem} {j : ℕ}

/-- The file stays in the buffer, and the segment `i` has its bytes once its round is over. -/
theorem round (h : ReloadInput file len fileBuffer m) (hph : ph = segmentAt file phdrSize i)
    (hload : ph.type = ptLoad)
    (hapart : ∀ j < (fileHeader file).phnum, j ≠ i → ∀ q, q = segmentAt file phdrSize j →
      q.type = ptLoad → LoadApart ph q) (hj : j < (fileHeader file).phnum)
    (hm : m'.Holds file len fileBuffer)
    (hdone : i < j → ∀ k < ph.memsz, m' (ph.paddr + k) = segmentByte file ph k) :
    (reloadHeader fileBuffer j m').Holds file len fileBuffer ∧
      (i < j + 1 → ∀ k < ph.memsz,
        reloadHeader fileBuffer j m' (ph.paddr + k) = segmentByte file ph k) := by
  have hmemsz : ∀ j, (segmentAt file phdrSize j).memsz < 2 ^ 32 := fun j => wordAt_lt _ _
  rw [reloadHeader]
  simp only [hm.segment_eq h.buffer_end h.header (h.headers j hj)]
  by_cases htype : (segmentAt file phdrSize j).type = ptLoad
  · obtain ⟨hin, hsize, hend, hbuf⟩ := h.segment j hj _ rfl htype
    rw [if_neg (not_not.mpr htype)]
    refine ⟨fun o ho => ?_, fun hij k hk => ?_⟩
    · rw [reloadSegment_out hsize hend (hmemsz j) (by omega), hm o ho]
    · have hbound := h.buffer_end
      rcases Nat.lt_succ_iff_lt_or_eq.mp hij with hlt | rfl
      · have hap := hapart j hj (by omega) _ rfl htype
        unfold LoadApart at hap
        rw [reloadSegment_out hsize hend (hmemsz j) (by omega)]
        exact hdone hlt k hk
      · rw [hph] at hk ⊢
        refine reloadSegment_at hsize hend (hmemsz i) (by omega) (by omega) (fun l hl => ?_) hk
        rw [Nat.add_assoc]
        exact hm _ (by omega)
  · rw [if_pos htype]
    refine ⟨hm, fun hij => hdone ?_⟩
    rcases Nat.lt_succ_iff_lt_or_eq.mp hij with hlt | rfl
    · exact hlt
    · exact absurd (hph ▸ hload) htype

end ReloadInput

/-- Every segment has its bytes at its load address after the whole file is loaded. -/
theorem reloadElfFile_fills (h : ReloadInput file len fileBuffer m)
    (hi : i < (fileHeader file).phnum) (hph : ph = segmentAt file phdrSize i)
    (hload : ph.type = ptLoad)
    (hapart : ∀ j < (fileHeader file).phnum, j ≠ i → ∀ q, q = segmentAt file phdrSize j →
      q.type = ptLoad → LoadApart ph q) {k : ℕ} (hk : k < ph.memsz) :
    (reloadElfFile fileBuffer m).2 (ph.paddr + k) = segmentByte file ph k := by
  have hloop : ∀ n j (m' : Mem), j + n = (fileHeader file).phnum →
      m'.Holds file len fileBuffer →
      (i < j → ∀ k < ph.memsz, m' (ph.paddr + k) = segmentByte file ph k) →
      ∀ k < ph.memsz, reloadLoop fileBuffer n j m' (ph.paddr + k) = segmentByte file ph k := by
    intro n
    induction n with
    | zero =>
        intro j m' hj _ hdone
        exact hdone (by omega)
    | succ n ih =>
        intro j m' hj hm hdone
        obtain ⟨hm', hdone'⟩ := h.round hph hload hapart (by omega) hm hdone
        exact ih (j + 1) _ (by omega) hm' hdone'
  rw [reloadElfFile]
  simp only [h.stored.header_eq h.buffer_end h.header]
  rw [if_neg (not_not.mpr h.ident)]
  exact hloop _ 0 m (by omega) h.stored (by omega) k hk

end X86Os
