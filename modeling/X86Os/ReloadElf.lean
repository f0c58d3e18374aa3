import X86Os.ElfImage
import Mathlib.Order.CompletePartialOrder

/-!
# The loops of the boot loader

`reload_elf_file` as the code has it. Its bounds are read from memory in every round, and its
counters are of the type `int`, whereas the sizes are unsigned.
-/

namespace X86Os

variable {file : ℕ → BitVec 8} {ph : Elf32Phdr} {m m' : Mem}
variable {n d a k len fileBuffer phdr fuel i : ℕ}

/-! ## The code -/

/-- `*phdr`. -/
def phdrAt (m : Mem) (phdr : ℕ) : Elf32Phdr := .ofBytes (fileBytes (m.fileAt phdr) 0 phdrSize)

/-- `for (int j = 0; j < phdr->p_filesz; j++) *dest++ = *src++`. -/
def fileszLoop (phdr : ℕ) : ℕ → ℤ → ℕ → ℕ → Mem → Option Mem
  | 0, _, _, _, _ => none
  | fuel + 1, j, dest, src, m =>
    if toU32 j < (phdrAt m phdr).filesz then
      fileszLoop phdr fuel (i32 (j + 1)) (u32 (dest + 1)) (u32 (src + 1)) (m.write8 dest (m src))
    else some m

/-- `for (int j = 0; j < phdr->p_memsz - phdr->p_filesz; j++) *dest++ = 0`. -/
def memszLoop (phdr : ℕ) : ℕ → ℤ → ℕ → Mem → Option Mem
  | 0, _, _, _ => none
  | fuel + 1, j, dest, m =>
    if toU32 j < u32Sub (phdrAt m phdr).memsz (phdrAt m phdr).filesz then
      memszLoop phdr fuel (i32 (j + 1)) (u32 (dest + 1)) (m.write8 dest 0)
    else some m

/-- The body of the loop over the program headers. -/
def reloadPhdr (fuel fileBuffer phdr : ℕ) (m : Mem) : Option Mem := do
  if (phdrAt m phdr).type ≠ ptLoad then return m
  let src := u32 (fileBuffer + (phdrAt m phdr).offset)
  let m ← fileszLoop phdr fuel 0 (phdrAt m phdr).paddr src m
  memszLoop phdr fuel 0 (u32 ((phdrAt m phdr).paddr + (phdrAt m phdr).filesz)) m

def phnumLoop (fileBuffer : ℕ) : ℕ → ℤ → Mem → Option Mem
  | 0, _, _ => none
  | fuel + 1, i, m =>
    let hdr := fileHeader (m.fileAt fileBuffer)
    if i < hdr.phnum then do
      let phdr := u32 (u32 (fileBuffer + hdr.phoff) + toU32 (i * phdrSize))
      let m ← reloadPhdr fuel fileBuffer phdr m
      phnumLoop fileBuffer fuel (i32 (i + 1)) m
    else some m

/-- `reload_elf_file`. -/
def reloadElf (fuel fileBuffer : ℕ) (m : Mem) : Option (ℕ × Mem) := do
  if (fileHeader (m.fileAt fileBuffer)).ident ≠ elfMagic then return (0, m)
  let m ← phnumLoop fileBuffer fuel 0 m
  return ((fileHeader (m.fileAt fileBuffer)).entry, m)

/-! ## Counters and headers -/

theorem toU32_i32_natCast (hk : k < 2 ^ 32) : toU32 (i32 k) = k := by
  unfold toU32
  rw [i32_cast hk]
  split_ifs <;> omega

theorem phdrAt_congr (h : ∀ o < phdrSize, m' (u32 (phdr + o)) = m (u32 (phdr + o))) :
    phdrAt m' phdr = phdrAt m phdr := by
  refine congrArg _ (fileBytes_congr fun o ho => ?_)
  rw [Nat.zero_add]
  exact h o ho

theorem phdrAt_filesz_lt (m : Mem) (phdr : ℕ) : (phdrAt m phdr).filesz < 2 ^ 32 := wordAt_lt _ _

theorem phdrAt_memsz_lt (m : Mem) (phdr : ℕ) : (phdrAt m phdr).memsz < 2 ^ 32 := wordAt_lt _ _

/-- `(Elf32_Phdr *)(file_buffer + e_phoff) + i` points to the header of the segment `i`. -/
theorem phdrAt_element (m : Mem) (fileBuffer i : ℕ) :
    phdrAt m (u32 (u32 (fileBuffer + (fileHeader (m.fileAt fileBuffer)).phoff) +
      toU32 ((i : ℤ) * phdrSize))) = segmentAt (m.fileAt fileBuffer) phdrSize i := by
  rw [phdrAt, segmentAt]
  generalize (fileHeader (m.fileAt fileBuffer)).phoff = phoff
  congr 1
  refine List.map_congr_left fun o _ => congrArg m ?_
  unfold u32 toU32 phdrSize
  omega

theorem element_byte {phoff o : ℕ} (h : fileBuffer + (phoff + i * phdrSize + o) < 2 ^ 32) :
    u32 (u32 (u32 (fileBuffer + phoff) + toU32 ((i : ℤ) * phdrSize)) + o) =
      fileBuffer + (phoff + i * phdrSize + o) := by
  unfold u32 toU32 phdrSize
  unfold phdrSize at h
  omega

/-! ## The inner loops -/

/-- The `n` bytes from `d` on do not wrap, and the program header is not among them. -/
structure OutsideHeader (phdr d n : ℕ) : Prop where
  no_wrap : d + n ≤ 2 ^ 32
  apart : ∀ o < phdrSize, u32 (phdr + o) < d ∨ d + n ≤ u32 (phdr + o)

theorem OutsideHeader.next (h : OutsideHeader phdr d (n + 1)) :
    OutsideHeader phdr (u32 (d + 1)) n := by
  have hwrap := h.no_wrap
  refine ⟨?_, fun o ho => ?_⟩
  · unfold u32
    omega
  · have := h.apart o ho
    unfold u32 at this ⊢
    omega

theorem OutsideHeader.write8 (h : OutsideHeader phdr d (n + 1)) (m : Mem) (b : BitVec 8) :
    phdrAt (m.write8 d b) phdr = phdrAt m phdr :=
  phdrAt_congr fun o ho => Function.update_of_ne (by have := h.apart o ho; omega) _ _

theorem fileszLoop_eq (h : OutsideHeader phdr d n) (hk : k + n = (phdrAt m phdr).filesz)
    (hfuel : n < fuel) : fileszLoop phdr fuel (i32 k) d a m = some (reloadCopy n d a m) := by
  induction n generalizing k d a m fuel with
  | zero =>
      have hlt := phdrAt_filesz_lt m phdr
      cases fuel with
      | zero => omega
      | succ fuel =>
          rw [fileszLoop, toU32_i32_natCast (by omega), if_neg (by omega), reloadCopy]
  | succ n ih =>
      have hlt := phdrAt_filesz_lt m phdr
      cases fuel with
      | zero => omega
      | succ fuel =>
          rw [fileszLoop, toU32_i32_natCast (by omega), if_pos (by omega), i32_succ, reloadCopy,
            show ((k : ℤ) + 1) = ((k + 1 : ℕ) : ℤ) from rfl]
          exact ih h.next (by rw [h.write8]; omega) (by omega)

theorem memszLoop_eq (h : OutsideHeader phdr d n)
    (hk : k + n = u32Sub (phdrAt m phdr).memsz (phdrAt m phdr).filesz) (hfuel : n < fuel) :
    memszLoop phdr fuel (i32 k) d m = some (reloadZero n d m) := by
  induction n generalizing k d m fuel with
  | zero =>
      have hlt : u32Sub (phdrAt m phdr).memsz (phdrAt m phdr).filesz < 2 ^ 32 := u32_lt _
      cases fuel with
      | zero => omega
      | succ fuel =>
          rw [memszLoop, toU32_i32_natCast (by omega), if_neg (by omega), reloadZero]
  | succ n ih =>
      have hlt : u32Sub (phdrAt m phdr).memsz (phdrAt m phdr).filesz < 2 ^ 32 := u32_lt _
      cases fuel with
      | zero => omega
      | succ fuel =>
          rw [memszLoop, toU32_i32_natCast (by omega), if_pos (by omega), i32_succ, reloadZero,
            show ((k : ℤ) + 1) = ((k + 1 : ℕ) : ℤ) from rfl]
          exact ih h.next (by rw [h.write8]; omega) (by omega)

/-- The two inner loops load a segment whose own header is outside its load addresses. -/
theorem reloadPhdr_eq (hph : phdrAt m phdr = ph) (hload : ph.type = ptLoad)
    (hsize : ph.filesz ≤ ph.memsz) (h : OutsideHeader phdr ph.paddr ph.memsz)
    (hfuel : 2 ^ 32 ≤ fuel) :
    reloadPhdr fuel fileBuffer phdr m = some (reloadSegment fileBuffer ph m) := by
  subst hph
  have hmemsz := phdrAt_memsz_lt m phdr
  have hend := h.no_wrap
  have hfile : OutsideHeader phdr (phdrAt m phdr).paddr (phdrAt m phdr).filesz :=
    ⟨by omega, fun o ho => by have := h.apart o ho; omega⟩
  have hrest : OutsideHeader phdr (u32 ((phdrAt m phdr).paddr + (phdrAt m phdr).filesz))
      ((phdrAt m phdr).memsz - (phdrAt m phdr).filesz) := by
    refine ⟨?_, fun o ho => ?_⟩
    · unfold u32
      omega
    · have := h.apart o ho
      unfold u32 at this ⊢
      omega
  have hcopy := fileszLoop_eq (k := 0) (a := u32 (fileBuffer + (phdrAt m phdr).offset)) hfile
    (Nat.zero_add _) (show _ < fuel by omega)
  have hsame : phdrAt (reloadCopy (phdrAt m phdr).filesz (phdrAt m phdr).paddr
      (u32 (fileBuffer + (phdrAt m phdr).offset)) m) phdr = phdrAt m phdr :=
    phdrAt_congr fun o ho => reloadCopy_out hfile.no_wrap (hfile.apart o ho)
  rw [reloadPhdr, if_neg (not_not.mpr hload), show (0 : ℤ) = i32 ((0 : ℕ) : ℤ) from rfl]
  show (fileszLoop phdr fuel _ _ _ m).bind _ = _
  rw [hcopy]
  show memszLoop phdr fuel _ _ _ = _
  rw [hsame, reloadSegment, u32Sub_of_le hsize hmemsz]
  refine memszLoop_eq hrest ?_ (by omega)
  rw [hsame, Nat.zero_add, u32Sub_of_le hsize hmemsz]

/-! ## What the loader is given -/

/-- The addresses that a segment is loaded to. -/
def Elf32Phdr.loadRange (ph : Elf32Phdr) : Set ℕ := Set.Ico ph.paddr (ph.paddr + ph.memsz)

/-- `ph` is the segment `i` of the file and is to be loaded. -/
structure LoadSegment (file : ℕ → BitVec 8) (i : ℕ) (ph : Elf32Phdr) : Prop where
  lt : i < (fileHeader file).phnum
  header : ph = segmentAt file (fileHeader file).phentsize i
  load : ph.type = ptLoad

/-- An executable of `len` bytes lies in the buffer. Its segments are loaded to disjoint ranges
outside the buffer. -/
structure BootFile (file : ℕ → BitVec 8) (len fileBuffer : ℕ) (m : Mem) : Prop where
  stored : m.Holds file len fileBuffer
  buffer_end : fileBuffer + len ≤ 2 ^ 32
  header : ehdrSize ≤ len
  ident : (fileHeader file).ident = elfMagic
  phentsize : (fileHeader file).phentsize = phdrSize
  headers : ∀ i < (fileHeader file).phnum, (fileHeader file).phoff + i * phdrSize + phdrSize ≤ len
  source : ∀ i ph, LoadSegment file i ph → ∀ k < ph.filesz, ph.offset + k < len
  size : ∀ i ph, LoadSegment file i ph → ph.filesz ≤ ph.memsz
  no_wrap : ∀ i ph, LoadSegment file i ph → ph.paddr + ph.memsz ≤ 2 ^ 32
  buffer_apart : ∀ i ph, LoadSegment file i ph →
    Disjoint ph.loadRange (Set.Ico fileBuffer (fileBuffer + len))
  apart : ∀ i j ph q, LoadSegment file i ph → LoadSegment file j q → i ≠ j →
    Disjoint ph.loadRange q.loadRange

/-- The segments before `j` are loaded, and nothing else is changed. -/
structure LoadedBefore (file : ℕ → BitVec 8) (j : ℕ) (m m' : Mem) : Prop where
  filled : ∀ i ph, LoadSegment file i ph → i < j → ∀ k < ph.memsz,
    m' (ph.paddr + k) = segmentByte file ph k
  frame : ∀ x, (∀ i ph, LoadSegment file i ph → x ∉ ph.loadRange) → m' x = m x

theorem Elf32Phdr.not_mem_loadRange {x : ℕ} :
    x ∉ ph.loadRange ↔ x < ph.paddr ∨ ph.paddr + ph.memsz ≤ x := by
  unfold loadRange
  rw [Set.mem_Ico]
  omega

theorem Elf32Phdr.mem_loadRange (hk : k < ph.memsz) : ph.paddr + k ∈ ph.loadRange :=
  ⟨Nat.le_add_right _ _, Nat.add_lt_add_left hk _⟩

theorem LoadSegment.memsz_lt (hs : LoadSegment file i ph) : ph.memsz < 2 ^ 32 := by
  rw [hs.header]
  exact wordAt_lt _ _

namespace BootFile

variable {j : ℕ}

theorem phnum_lt (file : ℕ → BitVec 8) : (fileHeader file).phnum < 2 ^ 16 := halfAt_lt _ _

theorem loadSegment (h : BootFile file len fileBuffer m) (hi : i < (fileHeader file).phnum)
    (hload : (segmentAt file phdrSize i).type = ptLoad) :
    LoadSegment file i (segmentAt file phdrSize i) :=
  ⟨hi, by rw [h.phentsize], hload⟩

theorem buffer_cases (h : BootFile file len fileBuffer m) (hs : LoadSegment file i ph) :
    ph.memsz = 0 ∨ ph.paddr + ph.memsz ≤ fileBuffer ∨ fileBuffer + len ≤ ph.paddr := by
  have hapart := h.buffer_apart i ph hs
  have hlen := h.header
  unfold Elf32Phdr.loadRange at hapart
  rw [Set.Ico_disjoint_Ico] at hapart
  unfold ehdrSize at hlen
  omega

/-- The loader does not write to the buffer. -/
theorem holds (h : BootFile file len fileBuffer m) (hl : LoadedBefore file j m m') :
    m'.Holds file len fileBuffer := by
  intro o ho
  rw [hl.frame _ fun i ph hs hx => ?_]
  · exact h.stored o ho
  · exact Set.disjoint_left.mp (h.buffer_apart i ph hs) hx
      ⟨Nat.le_add_right _ _, Nat.add_lt_add_left ho _⟩

theorem reloadSegment_at (h : BootFile file len fileBuffer m) (hs : LoadSegment file i ph)
    (hm : m'.Holds file len fileBuffer) (hk : k < ph.memsz) :
    reloadSegment fileBuffer ph m' (ph.paddr + k) = segmentByte file ph k := by
  have hend := h.no_wrap i ph hs
  rcases Nat.eq_zero_or_pos ph.filesz with hzero | hpos
  · rw [reloadSegment, segmentByte, hzero, if_neg (by omega), Nat.add_zero, reloadCopy,
      u32Sub_of_le (Nat.zero_le _) hs.memsz_lt, u32_of_lt (by omega), Nat.sub_zero]
    exact reloadZero_at hend hk
  · have hsrc := h.source i ph hs (ph.filesz - 1) (by omega)
    have hbuf := h.buffer_cases hs
    have hbound := h.buffer_end
    refine X86Os.reloadSegment_at (h.size i ph hs) hend hs.memsz_lt (by omega) (by omega)
      (fun l hl => ?_) hk
    rw [Nat.add_assoc]
    exact hm _ (by omega)

/-- One round of the loop over the headers. -/
theorem round (h : BootFile file len fileBuffer m) (hj : j < (fileHeader file).phnum)
    (hl : LoadedBefore file j m m') :
    LoadedBefore file (j + 1) m (reloadHeader fileBuffer j m') := by
  have hm := h.holds hl
  rw [reloadHeader]
  simp only [hm.segment_eq h.buffer_end h.header (h.headers j hj)]
  by_cases htype : (segmentAt file phdrSize j).type = ptLoad
  · have hs := h.loadSegment hj htype
    rw [if_neg (not_not.mpr htype)]
    have hout : ∀ x, x ∉ (segmentAt file phdrSize j).loadRange →
        reloadSegment fileBuffer (segmentAt file phdrSize j) m' x = m' x := fun x hx =>
      reloadSegment_out (h.size j _ hs) (h.no_wrap j _ hs) hs.memsz_lt
        (Elf32Phdr.not_mem_loadRange.mp hx)
    refine ⟨fun i ph hi hij k hk => ?_, fun x hx => ?_⟩
    · rcases Nat.lt_succ_iff_lt_or_eq.mp hij with hlt | rfl
      · rw [hout _ (Set.disjoint_left.mp (h.apart i j ph _ hi hs (by omega))
          (Elf32Phdr.mem_loadRange hk))]
        exact hl.filled i ph hi hlt k hk
      · obtain rfl : ph = segmentAt file phdrSize i := by rw [hi.header, h.phentsize]
        exact h.reloadSegment_at hs hm hk
    · rw [hout x (hx j _ hs)]
      exact hl.frame x hx
  · rw [if_pos htype]
    refine ⟨fun i ph hi hij => ?_, hl.frame⟩
    rcases Nat.lt_succ_iff_lt_or_eq.mp hij with hlt | rfl
    · exact hl.filled i ph hi hlt
    · have hload := hi.load
      rw [hi.header, h.phentsize] at hload
      exact absurd hload htype

/-- The bounds that the loops read in every round are those of the file. -/
theorem reloadPhdr_eq (h : BootFile file len fileBuffer m) (hj : j < (fileHeader file).phnum)
    (hm : m'.Holds file len fileBuffer) (hfuel : 2 ^ 32 ≤ fuel) :
    reloadPhdr fuel fileBuffer (u32 (u32 (fileBuffer + (fileHeader (m'.fileAt fileBuffer)).phoff) +
      toU32 ((j : ℤ) * phdrSize))) m' = some (reloadHeader fileBuffer j m') := by
  have hph := phdrAt_element m' fileBuffer j
  have hent := h.headers j hj
  have hbound := h.buffer_end
  rw [reloadHeader]
  simp only [hm.segment_eq h.buffer_end h.header hent] at hph ⊢
  by_cases htype : (segmentAt file phdrSize j).type = ptLoad
  · have hs := h.loadSegment hj htype
    have hbuf := h.buffer_cases hs
    rw [if_neg (not_not.mpr htype)]
    refine X86Os.reloadPhdr_eq hph htype (h.size j _ hs) ⟨h.no_wrap j _ hs, fun o ho => ?_⟩ hfuel
    rw [hm.header_eq h.buffer_end h.header, element_byte (by omega)]
    omega
  · rw [if_pos htype, reloadPhdr, hph, if_pos htype]
    rfl

theorem phnumLoop_eq (h : BootFile file len fileBuffer m) (hj : j + n = (fileHeader file).phnum)
    (hl : LoadedBefore file j m m') (hfuel : 2 ^ 32 + n < fuel) :
    phnumLoop fileBuffer fuel (i32 j) m' = some (reloadLoop fileBuffer n j m') ∧
      LoadedBefore file (fileHeader file).phnum m (reloadLoop fileBuffer n j m') := by
  have hphnum := phnum_lt file
  have hcount : i32 (j : ℤ) = j := i32_of_bounds (by omega) (by omega)
  induction n generalizing j m' fuel with
  | zero =>
      cases fuel with
      | zero => omega
      | succ fuel =>
          refine ⟨?_, hj ▸ hl⟩
          rw [phnumLoop, (h.holds hl).header_eq h.buffer_end h.header, hcount, if_neg (by omega),
            reloadLoop]
  | succ n ih =>
      cases fuel with
      | zero => omega
      | succ fuel =>
          have hm := h.holds hl
          have hjlt : j < (fileHeader file).phnum := by omega
          obtain ⟨hrun, hdone⟩ := ih (j := j + 1) (by omega) (h.round hjlt hl)
            (show _ < fuel by omega) (i32_of_bounds (by omega) (by omega))
          refine ⟨?_, hdone⟩
          rw [phnumLoop, hcount]
          have hstep := h.reloadPhdr_eq hjlt hm (show 2 ^ 32 ≤ fuel by omega)
          simp only [hm.header_eq h.buffer_end h.header] at hstep ⊢
          rw [if_pos (by omega), hstep]
          exact hrun

theorem loop_eq (h : BootFile file len fileBuffer m) (hfuel : 2 ^ 33 ≤ fuel) :
    phnumLoop fileBuffer fuel 0 m =
        some (reloadLoop fileBuffer (fileHeader file).phnum 0 m) ∧
      LoadedBefore file (fileHeader file).phnum m
        (reloadLoop fileBuffer (fileHeader file).phnum 0 m) := by
  have hphnum := phnum_lt file
  have hstart : LoadedBefore file 0 m m :=
    ⟨fun _ _ _ hi => absurd hi (Nat.not_lt_zero _), fun _ _ => rfl⟩
  have hloop := h.phnumLoop_eq (Nat.zero_add _) hstart (show _ < fuel by omega)
  rwa [show i32 ((0 : ℕ) : ℤ) = 0 from rfl] at hloop

/-- Reading a bound once or in every round is the same. -/
theorem reloadElf_eq (h : BootFile file len fileBuffer m) (hfuel : 2 ^ 33 ≤ fuel) :
    reloadElf fuel fileBuffer m = some (reloadElfFile fileBuffer m) := by
  obtain ⟨hrun, hdone⟩ := h.loop_eq hfuel
  rw [reloadElf, reloadElfFile]
  simp only [h.stored.header_eq h.buffer_end h.header]
  rw [if_neg (not_not.mpr h.ident), if_neg (not_not.mpr h.ident), hrun]
  show some ((fileHeader _).entry, _) = _
  rw [(h.holds hdone).header_eq h.buffer_end h.header]

end BootFile

/-- A file without the magic is refused. An executable is loaded: its segments have their bytes, and
nothing else is changed. -/
theorem reloadElf_loads (fuel fileBuffer : ℕ) (m : Mem) (hfuel : 2 ^ 33 ≤ fuel) :
    ((fileHeader (m.fileAt fileBuffer)).ident ≠ elfMagic →
      reloadElf fuel fileBuffer m = some (0, m)) ∧
    ∀ file len, BootFile file len fileBuffer m →
      ∃ m', reloadElf fuel fileBuffer m = some ((fileHeader file).entry, m') ∧
        (∀ i ph, LoadSegment file i ph → ∀ k < ph.memsz,
          m' (ph.paddr + k) = segmentByte file ph k) ∧
        (∀ x, (∀ i ph, LoadSegment file i ph → x ∉ ph.loadRange) → m' x = m x) ∧
        m'.Holds file len fileBuffer := by
  refine ⟨fun hident => ?_, fun file len h => ?_⟩
  · rw [reloadElf, if_pos hident]
    rfl
  · obtain ⟨-, hdone⟩ := h.loop_eq hfuel
    refine ⟨_, ?_, fun i ph hs => hdone.filled i ph hs hs.lt, hdone.frame, h.holds hdone⟩
    rw [h.reloadElf_eq hfuel, reloadElfFile]
    simp only [h.stored.header_eq h.buffer_end h.header]
    rw [if_neg (not_not.mpr h.ident)]

/-- An executable with two segments, of which the first ends in zeros. -/
def loaderFile : List (BitVec 8) :=
  [0x7F, 0x45, 0x4C, 0x46, 1, 1, 1, 0, 0, 0, 0, 0, 0, 0, 0, 0, 2, 0, 3, 0, 1, 0, 0, 0,
   0, 0, 1, 0, 52, 0, 0, 0, 0, 0, 0, 0, 0, 0, 0, 0, 52, 0, 32, 0, 2, 0, 0, 0, 0, 0, 0, 0,
   1, 0, 0, 0, 116, 0, 0, 0, 0, 0, 1, 0, 0, 0, 1, 0, 4, 0, 0, 0, 8, 0, 0, 0, 5, 0, 0, 0, 4, 0, 0, 0,
   1, 0, 0, 0, 120, 0, 0, 0, 8, 0, 1, 0, 8, 0, 1, 0, 2, 0, 0, 0, 2, 0, 0, 0, 6, 0, 0, 0, 4, 0, 0, 0,
   1, 2, 3, 4, 5, 6]

/-- The file lies at `SYS_KERNEL_LOAD_ADDR`. -/
def loaderMem : Mem := fun x => if x < 0x100000 then 0xFF else loaderFile.getD (x - 0x100000) 0

theorem loaderFile_header : fileHeader (fun o => loaderFile.getD o 0) =
    ⟨elfMagic, etExec, et386, 0x10000, 52, 32, 2⟩ := rfl

theorem loaderFile_segment (hs : LoadSegment (fun o => loaderFile.getD o 0) i ph) :
    (i = 0 ∧ ph = ⟨ptLoad, 116, 0x10000, 0x10000, 4, 8⟩) ∨
      (i = 1 ∧ ph = ⟨ptLoad, 120, 0x10008, 0x10008, 2, 2⟩) := by
  have hlt := hs.lt
  have hph := hs.header
  rw [loaderFile_header] at hlt hph
  have hi : i = 0 ∨ i = 1 := by
    change i < 2 at hlt
    omega
  rcases hi with rfl | rfl
  · exact .inl ⟨rfl, hph⟩
  · exact .inr ⟨rfl, hph⟩

theorem loaderFile_boot :
    BootFile (fun o => loaderFile.getD o 0) loaderFile.length 0x100000 loaderMem where
  stored o _ := by rw [loaderMem, if_neg (by omega), Nat.add_sub_cancel_left]
  buffer_end := by decide
  header := by decide
  ident := by rw [loaderFile_header]
  phentsize := by rw [loaderFile_header]; rfl
  headers i hi := by
    rw [loaderFile_header] at hi ⊢
    change i < 2 at hi
    change 52 + i * 32 + 32 ≤ 122
    omega
  source i ph hs k hk := by
    change ph.offset + k < 122
    rcases loaderFile_segment hs with ⟨-, rfl⟩ | ⟨-, rfl⟩ <;> dsimp only at hk ⊢ <;> omega
  size i ph hs := by rcases loaderFile_segment hs with ⟨-, rfl⟩ | ⟨-, rfl⟩ <;> decide
  no_wrap i ph hs := by rcases loaderFile_segment hs with ⟨-, rfl⟩ | ⟨-, rfl⟩ <;> decide
  buffer_apart i ph hs := by
    change Disjoint _ (Set.Ico 0x100000 (0x100000 + 122))
    rcases loaderFile_segment hs with ⟨-, rfl⟩ | ⟨-, rfl⟩ <;>
      exact Set.Ico_disjoint_Ico.mpr (by decide)
  apart i j ph q hs hs' hij := by
    rcases loaderFile_segment hs with ⟨rfl, rfl⟩ | ⟨rfl, rfl⟩ <;>
      rcases loaderFile_segment hs' with ⟨rfl, rfl⟩ | ⟨rfl, rfl⟩
    · exact absurd rfl hij
    · exact Set.Ico_disjoint_Ico.mpr (by decide)
    · exact Set.Ico_disjoint_Ico.mpr (by decide)
    · exact absurd rfl hij

theorem reloadElf_loads_two : ∃ m', reloadElf (2 ^ 33) 0x100000 loaderMem = some (0x10000, m') ∧
    m' 0x10003 = 4 ∧ m' 0x10004 = 0 ∧ m' 0x10008 = 5 ∧ m' 0x1000A = 0xFF := by
  obtain ⟨m', hrun, hfill, hframe, -⟩ :=
    (reloadElf_loads (2 ^ 33) 0x100000 loaderMem (Nat.le_refl _)).2 _ _ loaderFile_boot
  have h0 : LoadSegment (fun o => loaderFile.getD o 0) 0 ⟨ptLoad, 116, 0x10000, 0x10000, 4, 8⟩ :=
    ⟨by decide, rfl, rfl⟩
  have h1 : LoadSegment (fun o => loaderFile.getD o 0) 1 ⟨ptLoad, 120, 0x10008, 0x10008, 2, 2⟩ :=
    ⟨by decide, rfl, rfl⟩
  refine ⟨m', hrun, hfill 0 _ h0 3 (by decide), hfill 0 _ h0 4 (by decide),
    hfill 1 _ h1 0 (by decide), hframe 0x1000A fun i ph hs => ?_⟩
  rcases loaderFile_segment hs with ⟨-, rfl⟩ | ⟨-, rfl⟩ <;>
    exact Elf32Phdr.not_mem_loadRange.mpr (by decide)

end X86Os
