import X86Os.ExecImage

/-!
# Programs that are accepted

A file with a header that `load_elf_file` accepts, whose segments share no page with each other or with
the stack, is loaded and entered if there are enough pages. What these pages hold does not matter.
-/

namespace X86Os

variable {n dir d stack : ℕ} {L : Layout} {disk : Disk} {t : TaskId} {file : ℕ → BitVec 8} {s₀ s s' : Vm}
  {fs : FileState} {img : ℕ → Option (BitVec 8)} {ph : Elf32Phdr} {k₀ k k' : Kernel}

/-! ## Segments -/

instance (ph : Elf32Phdr) : Decidable ph.Loadable :=
  inferInstanceAs (Decidable (ph.type = ptLoad ∧ memoryTaskBase ≤ ph.vaddr))

def pageCount (size : ℕ) : ℕ := (size + 4095) / 4096

theorem Populated.rangeAlloc_total (v size perm : ℕ) (hp : Populated n dir s₀ img s)
    (hv : memoryTaskBase ≤ v) (hend : v + size ≤ 2 ^ 32) (hperm : perm < memPageSize)
    (hfree : ∀ l < size, s.mem.walk dir (v + l) = none)
    (hroom : 2 * pageCount size ≤ s.alloc.clearPages.card) :
    ∃ s', memoryAllocForPageDir dir v size perm s = some (0, s') ∧
      s.alloc.clearPages.card ≤ s'.alloc.clearPages.card + 2 * pageCount size := by
  have hsmall : size ≤ 2 ^ 32 - memPageSize := by
    unfold memoryTaskBase memPageSize at *
    omega
  have hcount : up2 size memPageSize / memPageSize = pageCount size :=
    (pageCount_eq (show size < 2 ^ 32 by unfold memPageSize at hsmall; omega)).trans (if_pos hsmall)
  refine X86Os.rangeAlloc_total hp.growable (hperm.trans (by decide)) hcount.symm ?_ hroom
    fun l hl => ?_
  · unfold pageCount
    unfold memPageSize at hsmall
    omega
  · have hlt : l * memPageSize < size := by
      unfold pageCount at hl
      unfold memPageSize
      omega
    rw [u32_of_lt (by omega)]
    exact walk_eq_none.mp (hfree _ hlt)

theorem loadPhdr_total (fs : FileState) (hb : LoadBase file dir s₀ ∅) (hp : Populated n dir s₀ img fs.vm)
    (hu : Untouched dir s₀ fs.vm) (hv : memoryTaskBase ≤ ph.vaddr) (hal : ph.vaddr % memPageSize = 0)
    (hend : ph.vaddr + ph.filesz ≤ 2 ^ 32) (hend' : ph.vaddr + ph.memsz ≤ 2 ^ 32)
    (ho : ph.offset + ph.filesz ≤ tempSize)
    (hfree : ∀ l < ph.memsz, fs.vm.mem.walk dir (ph.vaddr + l) = none)
    (hroom : 2 * pageCount ph.memsz ≤ fs.vm.alloc.clearPages.card) :
    ∃ fs', loadPhdr tempFileId ph dir fs = some (0, fs') ∧
      fs.vm.alloc.clearPages.card ≤ fs'.vm.alloc.clearPages.card + 2 * pageCount ph.memsz := by
  obtain ⟨s₁, halloc, hcard⟩ :=
    hp.rangeAlloc_total _ _ (pteP ||| pteU ||| pteW) hv hend' (by decide) hfree hroom
  have hadd := hp.addRange hu hv hend' hal (by decide) halloc (lt_irrefl _)
  have hpos : u32 (ph.offset + tempAddr) = tempAddr + ph.offset := by
    rw [u32_of_lt (by unfold tempAddr tempSize sectorSize at *; omega), Nat.add_comm]
  have hreads : ∃ m' img' pos, loadPhdrLoop tempFileId dir ph.filesz ph.vaddr ph.filesz
      ⟨s₁, tempAddr + ph.offset⟩ = some (0, ⟨{ s₁ with mem := m' }, pos⟩) ∧
      BytesRead n dir s₀ file img ph.vaddr ph.offset ph.filesz s₁ img' m' :=
    loadPhdrLoop_reads hb hadd.populated hadd.untouched (Finset.empty_subset _) (.inr ⟨hv, hal⟩) hend
      le_rfl rfl ho
  obtain ⟨m', img', pos, hloop, -⟩ := hreads
  refine ⟨⟨{ s₁ with mem := m' }, pos⟩, ?_, hcard⟩
  rw [loadPhdr_of_alloc hal halloc, hpos]
  exact hloop

/-! ## Headers -/

/-- A file that `load_elf_file` can load: a valid header, and segments that share no page. -/
structure ElfProgram (file : ℕ → BitVec 8) : Prop where
  ident : (fileHeader file).ident = elfMagic
  type : (fileHeader file).type = etExec
  machine : (fileHeader file).machine = et386
  entry : (fileHeader file).entry ≠ 0
  phentsize : (fileHeader file).phentsize ≠ 0
  phoff : (fileHeader file).phoff ≠ 0
  aligned : ∀ i < (fileHeader file).phnum, (programHeader file i).Loadable →
    (programHeader file i).vaddr % memPageSize = 0
  apart : ∀ i < (fileHeader file).phnum, ∀ j < (fileHeader file).phnum, i ≠ j →
    (programHeader file i).Loadable → (programHeader file j).Loadable →
    ∀ l < (programHeader file i).memsz, ∀ o < (programHeader file j).memsz,
      ((programHeader file i).vaddr + l) / memPageSize ≠
        ((programHeader file j).vaddr + o) / memPageSize
  stack_apart : ∀ i < (fileHeader file).phnum, (programHeader file i).Loadable →
    ∀ l < (programHeader file i).memsz, ∀ w, StackAddr w →
      w / memPageSize ≠ ((programHeader file i).vaddr + l) / memPageSize

/-- The number of pages of the first `i` segments. -/
def segmentPages (file : ℕ → BitVec 8) : ℕ → ℕ
  | 0 => 0
  | i + 1 => segmentPages file i +
    if (programHeader file i).Loadable then pageCount (programHeader file i).memsz else 0

theorem segmentPages_mono (file : ℕ → BitVec 8) : Monotone (segmentPages file) :=
  monotone_nat_of_le_succ fun _ => Nat.le_add_right _ _

namespace Kernel

/-- Before the round `i`: the segments from there on and the stack are not mapped. -/
structure HeadersPending (n dir : ℕ) (s₀ : Vm) (file : ℕ → BitVec 8) (t : TaskId) (k₀ : Kernel)
    (i : ℕ) (k : Kernel) : Prop where
  loaded : HeadersLoaded n dir s₀ file t k₀ i k
  free : ∀ j, i ≤ j → j < (fileHeader file).phnum → (programHeader file j).Loadable →
    ∀ l < (programHeader file j).memsz, k.vm.mem.walk dir ((programHeader file j).vaddr + l) = none
  stack : ∀ w, StackAddr w → k.vm.mem.walk dir w = none
  room : s₀.alloc.clearPages.card ≤ k.vm.alloc.clearPages.card + 2 * segmentPages file i

theorem HeadersPending.round_total {i : ℕ} (hb : LoadBase file dir s₀ ∅) (hf : FitsBuffer file)
    (he : ElfProgram file) (hi : i < (fileHeader file).phnum)
    (hroom : 2 * segmentPages file (fileHeader file).phnum ≤ s₀.alloc.clearPages.card)
    (h : HeadersPending n dir s₀ file t k₀ i k) (old : Option (List (BitVec 8))) :
    ∃ next k', loadHeader t tempFileId dir (fileHeader file).phoff (fileHeader file).phentsize i old k =
      some (.inr next, k') ∧ HeadersPending n dir s₀ file t k₀ (i + 1) k' := by
  obtain ⟨pos, bytes, hread⟩ :=
    loadHeader_read (t := t) hb h.loaded.untouched (Finset.empty_subset _) (hf.headers i hi) old
  have hnext : ∀ k', loadHeader t tempFileId dir (fileHeader file).phoff (fileHeader file).phentsize
      i old k = some (.inr (some bytes), k') → HeadersLoaded n dir s₀ file t k₀ (i + 1) k' :=
    fun k' hrun => h.loaded.round hb hf hi (Finset.empty_subset _) (Finset.empty_subset _) hrun
  have hpages : segmentPages file (i + 1) = segmentPages file i +
    if (programHeader file i).Loadable then pageCount (programHeader file i).memsz else 0 := rfl
  by_cases hload : (programHeader file i).Loadable
  · obtain ⟨img, hp, -⟩ := h.loaded.shown
    obtain ⟨ho, hend, hend'⟩ := hf.segments i hi hload
    have hmore := segmentPages_mono file (show i + 1 ≤ (fileHeader file).phnum by omega)
    rw [if_pos hload] at hpages
    have hcard := h.room
    obtain ⟨fs, hphdr, hloss⟩ := loadPhdr_total ⟨k.vm, pos⟩ hb hp h.loaded.untouched hload.2
      (he.aligned i hi hload) hend hend' ho (h.free i le_rfl hi hload) (by
        show _ ≤ k.vm.alloc.clearPages.card
        omega)
    obtain ⟨img', hseg⟩ : ∃ img', SegmentLoaded n dir s₀ file (programHeader file i) img
        (⟨k.vm, pos⟩ : FileState).vm img' fs.vm :=
      loadPhdr_loaded hb hp h.loaded.untouched (Finset.empty_subset _) hload.2 hend hend' ho hphdr
        (lt_irrefl _)
    have hskip : ¬ ((programHeader file i).type ≠ ptLoad ∨
        (programHeader file i).vaddr < memoryTaskBase) := by
      rw [not_or, not_not, not_lt]
      exact hload
    have hloaded : onFile (loadPhdr tempFileId (programHeader file i) dir)
        (k.withFile ⟨k.vm, pos⟩) = some (0, (k.withFile ⟨k.vm, pos⟩).withFile fs) :=
      onFile_of_eq hphdr
    obtain ⟨k', hrun, hvm⟩ : ∃ k', loadHeader t tempFileId dir (fileHeader file).phoff
        (fileHeader file).phentsize i old k = some (.inr (some bytes), k') ∧ k'.vm = fs.vm := by
      rw [hread, loadSegment, if_neg hskip, Prog.bind_of_eq hloaded, if_neg (lt_irrefl _)]
      exact ⟨_, rfl, rfl⟩
    refine ⟨_, k', hrun, hnext k' hrun, fun j hj hj' hload' l hl => ?_, fun w hw => ?_, ?_⟩
    · have hbase := hload'.2
      have hlast := (hf.segments j hj' hload').2.2
      rw [hvm, hseg.others _ ⟨by omega, by omega⟩ fun o ho' =>
        he.apart j hj' i hi (by omega) hload' hload l hl o ho']
      exact h.free j (by omega) hj' hload' l hl
    · rw [hvm, hseg.others w hw.user fun l hl => he.stack_apart i hi hload l hl w hw]
      exact h.stack w hw
    · rw [hvm, hpages]
      have hloss' : k.vm.alloc.clearPages.card ≤ _ := hloss
      omega
  · rw [if_neg hload] at hpages
    have hskip : (programHeader file i).type ≠ ptLoad ∨
        (programHeader file i).vaddr < memoryTaskBase := by
      by_contra hno
      rw [not_or, not_not, not_lt] at hno
      exact hload hno
    have hrun : loadHeader t tempFileId dir (fileHeader file).phoff (fileHeader file).phentsize i old
        k = some (.inr (some bytes), k.withFile ⟨k.vm, pos⟩) := by
      rw [hread, loadSegment, if_pos hskip]
      rfl
    refine ⟨_, _, hrun, hnext _ hrun, fun j hj hj' hload' l hl => h.free j (by omega) hj' hload' l hl,
      h.stack, ?_⟩
    rw [hpages]
    exact h.room

theorem loadElfOpen_total (hb : LoadBase file dir s₀ ∅) (hf : FitsBuffer file)
    (he : ElfProgram file) (hp : Populated n dir s₀ img k.vm) (hu : Untouched dir s₀ k.vm)
    (hcr : k.vm.cr3 = s₀.cr3) (hpos : k.tempPos = tempAddr)
    (hfree : ∀ w, UserAddr w → k.vm.mem.walk dir w = none)
    (hcard : k.vm.alloc.clearPages = s₀.alloc.clearPages)
    (hroom : 2 * segmentPages file (fileHeader file).phnum ≤ s₀.alloc.clearPages.card) :
    ∃ k', loadElfOpen t tempFileId dir k = some ((fileHeader file).entry, k') ∧
      HeadersPending n dir s₀ file t k (fileHeader file).phnum k' := by
  have hread := onFile_sysReadLocal (hb.holds hu (Finset.empty_subset _))
    (show k.tempPos = tempAddr + 0 from hpos) (show 0 + ehdrSize ≤ tempSize by decide) (by decide) none
  have hfull : ¬ toU32 (ehdrSize : ℤ) < ehdrSize := by decide
  have hhdr : Elf32Ehdr.ofBytes (fileBytes file 0 ehdrSize) = fileHeader file := rfl
  have hinit : HeadersPending n dir s₀ file t k 0
      (k.withFile ⟨k.vm, tempAddr + (0 + ehdrSize)⟩) := by
    refine ⟨⟨keeps_withFile t k _, hcr, hu, img, hp, nofun⟩, fun j _ hj hload l hl => ?_,
      fun w hw => hfree w hw.user, ?_⟩
    · have hbase := hload.2
      have hend := (hf.segments j hj hload).2.2
      exact hfree _ ⟨by omega, by omega⟩
    · rw [withFile_vm, hcard]
      exact Nat.le_add_right _ _
  have hround : ∀ j old k₁, 0 ≤ j → j < 0 + (fileHeader file).phnum →
      HeadersPending n dir s₀ file t k j k₁ → ∃ next k₂, loadHeader t tempFileId dir
        (fileHeader file).phoff (fileHeader file).phentsize j old k₁ = some (.inr next, k₂) ∧
        HeadersPending n dir s₀ file t k (j + 1) k₂ := fun j old k₁ _ hj hk₁ =>
    hk₁.round_total hb hf he (by omega) hroom old
  obtain ⟨last, k', hloop, hpending⟩ := Prog.loopWith_total none hround hinit
  rw [Nat.zero_add] at hpending
  refine ⟨k', ?_, hpending⟩
  rw [loadElfOpen, Prog.bind_of_eq hread]
  dsimp only
  rw [if_neg hfull]
  simp only [hhdr]
  rw [if_neg (not_not.mpr he.ident), if_neg (by
      rw [he.type, he.machine]
      simpa using he.entry),
    if_neg (by simpa using ⟨he.phentsize, he.phoff⟩), Prog.bind_of_eq hloop]
  rfl

end Kernel

/-! ## Names -/

theorem StringAt.fileNameStart_total {a len l fuel : ℕ} (h : StringAt s a len)
    (hslash : load8 a s = some (slash, s)) (hl : l ≤ len) (hfuel : l < fuel) :
    ∃ j < len, fileNameStart a fuel (a + l) s = some (a + j + 1, s) := by
  have hend := h.end_le
  induction fuel generalizing l with
  | zero => omega
  | succ fuel ih =>
      obtain ⟨b, hb, hlast⟩ : ∃ b, load8 (a + l) s = some (b, s) ∧ (l = len → b = 0) := by
        by_cases he : l = len
        · exact ⟨0, he ▸ h.stop, fun _ => rfl⟩
        · obtain ⟨b, hb, -⟩ := h.char l (by omega)
          exact ⟨b, hb, fun he' => absurd he' he⟩
      rw [fileNameStart, Prog.bind_of_eq hb]
      by_cases hstop : b = backslash ∨ b = slash ∨ a + l < a
      · have hne : l ≠ len := by
          intro he
          rw [hlast he] at hstop
          rcases hstop with hc | hc | hc
          · exact absurd hc (by decide)
          · exact absurd hc (by decide)
          · omega
        rw [if_pos hstop, u32_of_lt (by omega)]
        exact ⟨l, by omega, rfl⟩
      · have hne : l ≠ 0 := by
          rintro rfl
          rw [Nat.add_zero, hslash] at hb
          exact hstop (.inr (.inl (Prod.mk.inj (Option.some.inj hb)).1.symm))
        rw [if_neg hstop, u32Sub_of_le (by omega) (by omega), Nat.add_sub_assoc (by omega)]
        exact ih (by omega) (by omega)

theorem StringAt.getFileName_total {a len : ℕ} (h : StringAt s a len)
    (hslash : load8 a s = some (slash, s)) :
    ∃ j < len, getFileName a s = some (a + j + 1, s) := by
  have hend := h.end_le
  have hstop : strEnd (2 ^ 32) (a + 0) s = some (a + len, s) :=
    h.strEnd_eq (Nat.zero_le _) (by omega)
  rw [Nat.add_zero] at hstop
  obtain ⟨j, hj, hstart⟩ := h.fileNameStart_total hslash le_rfl (show len < 2 ^ 32 by omega)
  rw [getFileName, Prog.bind_of_eq hstop]
  exact ⟨j, hj, hstart⟩

theorem strncpyBytes_total {S : Type} {src : ℕ → Prog S (BitVec 8)} {st : S} {i e : ℕ} (size : ℕ)
    (h : ∀ j < e, ∃ b, src j st = some (b, st)) (hend : src e st = some (0, st)) (hi : i ≤ e) :
    ∃ bytes, strncpyBytes src size i st = some (bytes, st) := by
  induction size generalizing i with
  | zero => exact ⟨[], rfl⟩
  | succ size ih =>
      rw [strncpyBytes]
      by_cases he : i = e
      · rw [he, Prog.bind_of_eq hend]
        exact ⟨[], rfl⟩
      · obtain ⟨b, hb⟩ := h i (by omega)
        obtain ⟨bytes, hbytes⟩ := ih (show i + 1 ≤ e by omega)
        rw [Prog.bind_of_eq hb]
        by_cases hz : b = 0
        · rw [if_pos hz]
          exact ⟨[], rfl⟩
        · rw [if_neg hz, Prog.bind_of_eq hbytes]
          exact ⟨b :: bytes, rfl⟩

theorem Kernel.copyTaskName_total {a len j : ℕ} (h : StringAt k.vm a len) (hj : j < len) :
    ∃ k', copyTaskName t (a + j + 1) k = some ((), k') := by
  have hend := h.end_le
  have hload : ∀ i < len - (j + 1), ∃ b, onVm (load8 (u32 (a + j + 1 + i))) k = some (b, k) := by
    intro i hi
    obtain ⟨b, hb, -⟩ := h.char (j + 1 + i) (by omega)
    refine ⟨b, onVm_eq_some.mpr ⟨k.vm, ?_, rfl⟩⟩
    rwa [u32_of_lt (by omega), show a + j + 1 + i = a + (j + 1 + i) by omega]
  have hstop : onVm (load8 (u32 (a + j + 1 + (len - (j + 1))))) k = some (0, k) := by
    refine onVm_eq_some.mpr ⟨k.vm, ?_, rfl⟩
    rw [u32_of_lt (by omega), show a + j + 1 + (len - (j + 1)) = a + len by omega]
    exact h.stop
  obtain ⟨bytes, hbytes⟩ := strncpyBytes_total taskNameSize hload hstop (Nat.zero_le _)
  rw [copyTaskName, if_neg (by omega), Prog.bind_of_eq hbytes]
  by_cases hpast : endsPastName bytes = true
  · simp only [if_pos hpast]
    exact ⟨_, rfl⟩
  · simp only [if_neg hpast]
    exact ⟨_, rfl⟩

/-! ## The stacks -/

/-- A few bytes of the kernel stack are copied to the start of a mapped page. -/
theorem memoryCopyUvmData_total {a c v : ℕ} (h : Populated n dir s₀ img s)
    (hstack : StackPage dir s₀ stack) (ha : stack ≤ a) (ha' : a + c ≤ stack + memPageSize)
    (hc : 0 < c) (hv : UserAddr v) (hal : v % memPageSize = 0)
    (hmapped : (s.mem.walk dir v).isSome) :
    ∃ s', memoryCopyUvmData v dir a c s = some (0, s') := by
  obtain ⟨x, hx⟩ := Option.isSome_iff_exists.mp hmapped
  obtain ⟨p, hp, hpx, hpage, -⟩ := h.frame_apart hv hx
  have hne : x ≠ 0 := by
    have hp0 := hpage.ne_zero
    unfold InPage at hpx
    omega
  have hx0 : x % memPageSize = 0 := by
    obtain ⟨e, -, rfl⟩ := walk_eq_some.mp hx
    rw [hal, Nat.add_zero]
    exact entryPaddr_mod e
  have hxp : x = p := InPage.unique hx0 hpage.aligned ⟨le_rfl, by unfold memPageSize; omega⟩ hpx
  have hsmall : c ≤ memPageSize := by omega
  have hstackId : ∀ i < c, Identity (a + i) := fun i hi => by
    have hadd := hstack.page.identity.add hstack.page.aligned
      (show a + i - stack < memPageSize by omega)
    rwa [show stack + (a + i - stack) = a + i by omega] at hadd
  have hapart : a + c ≤ x ∨ x + c ≤ a := by
    have hst := hstack.page.aligned
    have hne' : stack ≠ x := fun he => hstack.clear_apart (he ▸ hxp ▸ hp)
    unfold memPageSize at *
    omega
  have hcopy : kernelMemcpy x a c s = some ((), { s with mem := s.mem.copy x a c }) := by
    have ha0 : a ≠ 0 := by
      have := hstack.page.ne_zero
      omega
    have hlast := (hstackId (c - 1) (by omega)).lt
    rw [kernelMemcpy, if_neg (by omega)]
    exact memcpyLoop_of_identity
      (fun i hi => hxp ▸ hpage.identity.add hpage.aligned (by omega)) (by omega)
      (fun m _ i hi => phys_of_identity (hstackId i hi)) hapart
  obtain ⟨c, rfl⟩ : ∃ c', c = c' + 1 := ⟨c - 1, by omega⟩
  refine ⟨{ s with mem := s.mem.copy x a (c + 1) }, ?_⟩
  rw [memoryCopyUvmData, memoryCopyUvmDataLoop, if_neg (by omega), Prog.bind_of_eq (h.getPaddr hv hx),
    if_neg hne, hx0, Nat.sub_zero, min_eq_left hsmall, Prog.bind_of_eq hcopy, Nat.sub_self]
  cases c <;> rfl

/-- `copy_args` without arguments. -/
theorem copyArgs_none {argsAt : ℕ} (argv : ℕ) (h : Populated n dir s₀ img s)
    (hmapped : ∀ w, StackAddr w → (s.mem.walk dir w).isSome) (hstack : StackPage dir s₀ stack)
    (ha : stack ≤ argsAt) (ha' : argsAt + taskArgsSize ≤ stack + memPageSize) :
    ∃ s', copyArgs argsAt Kernel.execStackTop dir 0 argv s = some (0, s') := by
  unfold taskArgsSize at ha'
  obtain ⟨s₁, hs₁, hw₁⟩ := StackWritten.of_stackWord (a := argsAt + 4) (v := 0) h hstack (by omega)
    (by omega)
  obtain ⟨s₂, hs₂, hw₂⟩ := StackWritten.of_stackWord (a := argsAt + 8)
    (v := u32 (Kernel.execStackTop + taskArgsSize)) hw₁.populated hstack (by omega) (by omega)
  have htop : StackAddr (u32 (Kernel.execStackTop + taskArgsSize)) := by decide
  have hbase : StackAddr Kernel.execStackTop := by decide
  have hwalk : ∀ w, StackAddr w → (s₂.mem.walk dir w).isSome := fun w hw => by
    rw [hw₂.walk w hw.user, hw₁.walk w hw.user]
    exact hmapped w hw
  obtain ⟨table, htable⟩ := Option.isSome_iff_exists.mp (hwalk _ htop)
  obtain ⟨p, -, hpx, hpage, -⟩ := hw₂.populated.frame_apart htop.user htable
  have hne : table ≠ 0 := by
    have hp0 := hpage.ne_zero
    unfold InPage at hpx
    omega
  obtain ⟨s₃, hs₃⟩ := memoryCopyUvmData_total (a := argsAt) (c := taskArgsSize) hw₂.populated hstack ha
    (by unfold taskArgsSize; omega) (by decide) hbase.user (by decide) (hwalk _ hbase)
  have hloop : ∀ i dest, copyArgsLoop dir argv table 0 i dest s₂ = some ((), s₂) := fun _ _ => rfl
  refine ⟨s₃, ?_⟩
  rw [copyArgs, Prog.bind_of_eq hs₁, Prog.bind_of_eq hs₂,
    Prog.bind_of_eq (hw₂.populated.getPaddr htop.user htable), Prog.bind_of_eq (Prog.require_of hne),
    Prog.bind_of_eq (hloop _ _), hs₃]

theorem Ready.load_total {v : Vm} {w : ℕ} (h : Ready n dir s₀ file s) (hmem : v.mem = s.mem)
    (hcr : entryPaddr v.cr3 = dir) (hw : StackAddr w) : ∃ b, load8 w v = some (b, v) := by
  obtain ⟨x, hx⟩ := Option.isSome_iff_exists.mp (h.stack w hw)
  refine ⟨v.mem x, ?_⟩
  rw [load8, Vm.phys, if_neg (not_lt.mpr hw.user.1), hmem, hcr, hx]
  rfl

theorem Ready.store_total {v : Vm} {w b : ℕ} (h : Ready n dir s₀ file s) (hmem : v.mem = s.mem)
    (hcr : entryPaddr v.cr3 = dir) (hw : StackAddr w) : ∃ v', store32 w b v = some ((), v') := by
  obtain ⟨x, hx⟩ := Option.isSome_iff_exists.mp (h.stack w hw)
  refine ⟨{ v with mem := v.mem.write32 x b }, ?_⟩
  rw [store32, Vm.phys, if_neg (not_lt.mpr hw.user.1), hmem, hcr, hx]
  rfl

theorem Ready.load32_total {v : Vm} {w : ℕ} (h : Ready n dir s₀ file s) (hmem : v.mem = s.mem)
    (hcr : entryPaddr v.cr3 = dir) (hw : ∀ i < 4, StackAddr (w + i)) :
    ∃ b, load32 w v = some (b, v) := by
  have hlt : ∀ i < 4, u32 (w + i) = w + i := fun i hi => u32_of_lt (hw i hi).user.2
  obtain ⟨b0, h0⟩ := h.load_total hmem hcr (hw 0 (by decide))
  obtain ⟨b1, h1⟩ := h.load_total hmem hcr (hw 1 (by decide))
  obtain ⟨b2, h2⟩ := h.load_total hmem hcr (hw 2 (by decide))
  obtain ⟨b3, h3⟩ := h.load_total hmem hcr (hw 3 (by decide))
  rw [Nat.add_zero] at h0
  rw [load32, Prog.bind_of_eq h0, hlt 1 (by decide), Prog.bind_of_eq h1, hlt 2 (by decide),
    Prog.bind_of_eq h2, hlt 3 (by decide), Prog.bind_of_eq h3]
  exact ⟨_, rfl⟩

theorem cstart_total {v : Vm} (ret : ℕ) (h : Ready n dir s₀ file s) (hf : FitsBuffer file)
    (hmem : v.mem = s.mem) (hcr : entryPaddr v.cr3 = dir) :
    ∃ sp v', Kernel.cstart ret Kernel.execStackTop v = some (sp, v') := by
  have hpush : ∀ i, 0 < i → i ≤ 3 → StackAddr (u32Sub Kernel.execStackTop (4 * i)) ∧
      u32Sub Kernel.execStackTop (4 * i) % 4 = 0 := fun i hi hi' => stackAddr_push hi hi'
  obtain ⟨argc, h₁⟩ := h.load32_total (w := u32 (Kernel.execStackTop + 4)) hmem hcr (by decide)
  obtain ⟨argv, h₂⟩ := h.load32_total (w := u32 (Kernel.execStackTop + 8)) hmem hcr (by decide)
  obtain ⟨v₃, hs₃⟩ := h.store_total (b := argv) hmem hcr (hpush 1 (by decide) (by decide)).1
  obtain ⟨g₃, hg₃, hmem₃, hcr₃, -⟩ := h.store hf hmem hcr (hpush 1 (by decide) (by decide)) hs₃
  rw [← hcr₃] at hcr
  obtain ⟨v₄, hs₄⟩ := hg₃.store_total (b := argc) hmem₃ hcr (hpush 2 (by decide) (by decide)).1
  obtain ⟨g₄, hg₄, hmem₄, hcr₄, -⟩ := hg₃.store hf hmem₃ hcr (hpush 2 (by decide) (by decide)) hs₄
  rw [← hcr₄] at hcr
  obtain ⟨v₅, hs₅⟩ := hg₄.store_total (b := ret) hmem₄ hcr (hpush 3 (by decide) (by decide)).1
  rw [Kernel.cstart, Prog.bind_of_eq h₁, Prog.bind_of_eq h₂, Prog.bind_of_eq hs₃,
    Prog.bind_of_eq hs₄, Prog.bind_of_eq hs₅]
  exact ⟨_, _, rfl⟩

/-! ## The system call -/

/-- The new directory maps nothing in the user half. -/
theorem NewDir.opened_free (h : NewDir n L d s s') (hb : BufferOwn L s stack ∅) {w : ℕ}
    (hw : UserAddr w) : (openedVm disk s').mem.walk d w = none := by
  have hpde : (openedVm disk s').mem.pde d (pdeIndex w) = s'.mem.pde d (pdeIndex w) :=
    Mem.read32_congr fun x hx hx' => openedMem_out fun hin =>
      hb.clear_apart x hin d h.clear (Finset.notMem_empty d) (inPage_word hw.indices.2 hx hx')
  have habsent : ¬ Present ((openedVm disk s').mem.pde d (pdeIndex w)) := fun hp => by
    rw [hpde] at hp
    exact absurd (h.kernel _ hw.indices.2 hp).1 (not_lt.mpr hw.indices.1)
  exact if_neg habsent

theorem sysOpen_total {name pos : ℕ} (h : load8 name s = some (slash, s)) :
    sysOpen disk name ⟨s, pos⟩ = some (tempFileId, ⟨openedVm disk s, tempAddr⟩) := by
  have hload : onVm (load8 name) (⟨s, pos⟩ : FileState) = some (slash, ⟨s, pos⟩) := by
    rw [onVm, Prog.zoom_of_eq h]
  have hdisk : readDisk disk 5000 80 tempAddr s = some ((), openedVm disk s) := by
    rw [readDisk_buffer, openedVm, openedMem]
    rfl
  have hread : onVm (readDisk disk 5000 80 tempAddr) (⟨s, pos⟩ : FileState) =
      some ((), ⟨openedVm disk s, pos⟩) :=
    Prog.zoom_eq_some.mpr ⟨openedVm disk s, hdisk, rfl⟩
  rw [sysOpen, Prog.bind_of_eq hload, if_pos rfl, Prog.bind_of_eq hread, Prog.modify_bind]
  rfl

namespace Kernel

variable {Q : ℕ → Prop} {argsAt old name entry ret len : ℕ} {src lens : ℕ → ℕ}

theorem storeFrame_then {i w : ℕ} {f : Prog Kernel Unit} (hp : KernelPage stack) (hi : i < frameWords)
    (h : ∀ k, ∃ k', f k = some ((), k')) (k : Kernel) :
    ∃ k', (storeFrame (stack + memPageSize) i w >>= fun _ => f) k = some ((), k') := by
  rw [Prog.bind_of_eq (storeFrame_eq hp hi w)]
  exact h _

theorem execFrame_total (entry : ℕ) (hp : KernelPage stack) :
    ∃ k', execFrame (stack + memPageSize) entry k = some ((), k') := by
  have hlast : ∀ k, ∃ k', storeFrame (stack + memPageSize) 20
      (execStackTop - 4 * syscallParamCount) k = some ((), k') :=
    fun k => ⟨_, storeFrame_eq hp (by decide) _⟩
  exact storeFrame_then hp (by decide) (storeFrame_then hp (by decide) (storeFrame_then hp (by decide)
    (storeFrame_then hp (by decide) (storeFrame_then hp (by decide) (storeFrame_then hp (by decide)
    (storeFrame_then hp (by decide) (storeFrame_then hp (by decide)
    (storeFrame_then hp (by decide) hlast)))))))) k

/-- `memory_destroy_uvm` can tear the space down: the word behind each table is among the bytes with `Q`
and can be read, and no page that is freed has a negative index. -/
structure Destroyable (Q : ℕ → Prop) (m : Mem) (dir : ℕ) : Prop where
  past : PastMapped m dir
  past_own : ∀ i, userPdeStart ≤ i → i < pdeCnt → Present (m.pde dir i) →
    ∀ x, m.table dir i + memPageSize ≤ x → x < m.table dir i + memPageSize + 4 → Q x
  freeable : ∀ p ∈ freedPages m dir (pdeCnt - userPdeStart), u32Sub p memExtStart < 2 ^ 31

theorem Caller.destroyable {s v : Vm} (h : Caller Q s old argv argc src lens)
    (hd : Destroyable Q s.mem old) (hs : ∀ x, Q x → v.mem x = s.mem x) :
    Destroyable Q v.mem old := by
  have hdir := h.user.dir
  have htable := h.user.table
  rw [h.cr3] at hdir htable
  have hpde : ∀ i < pdeCnt, v.mem.pde old i = s.mem.pde old i := fun i hi =>
    Mem.read32_congr fun x hx hx' => hs x (hdir x (inPage_word hi hx hx'))
  have hpages : freedPages v.mem old (pdeCnt - userPdeStart) =
      freedPages s.mem old (pdeCnt - userPdeStart) := by
    refine List.flatMap_congr fun i hi => ?_
    obtain ⟨hlow, hi'⟩ := mem_userPdes.mp hi
    exact freedTable_congr (hpde i hi') (fun hp x hx => hs x (htable i hlow hi' hp x hx))
      fun hp => Mem.read32_congr fun x hx hx' => hs x (hd.past_own i hlow hi' hp x hx hx')
  refine ⟨fun i hi hi' hp => ?_, fun i hi hi' hp => ?_, fun p hp => hd.freeable p (hpages ▸ hp)⟩
  · rw [hpde i hi'] at hp
    rw [Mem.table, hpde i hi']
    exact hd.past i hi hi' hp
  · rw [hpde i hi'] at hp
    rw [Mem.table, hpde i hi']
    exact hd.past_own i hi hi' hp

theorem Caller.destroyed {s v : Vm} (h : Caller Q s old argv argc src lens)
    (hd : Destroyable Q s.mem old) (hs : ∀ x, Q x → v.mem x = s.mem x)
    (hstart : v.alloc.start = memExtStart) :
    ∃ v', memoryDestroyUvm old v = some ((), v') ∧ v'.mem = v.mem := by
  have hd' := h.destroyable hd hs
  have hfreed : Freed v (freedPages v.mem old (pdeCnt - userPdeStart)) _ :=
    ⟨fun p hp => AddrAlloc.freeable_iff.mpr (hstart ▸ hd'.freeable p hp), rfl⟩
  exact ⟨_, (memoryDestroyUvm_eq_some (h.reached_agrees hs)).mpr ⟨hd'.past, hfreed⟩, hfreed.mem⟩

theorem execStart_total {s : Vm} (entry : ℕ) (hready : Ready n d s₀ file k.vm)
    (hstack : StackPage d s₀ stack) (hQ : ArgsApart Q s₀ stack) (hcaller : Caller Q s old 0 0 src lens)
    (hs : Agrees Q s k.vm) (hold : Destroyable Q s.mem old)
    (hstart : k.vm.alloc.start = memExtStart) (hfit : ArgsFit 0 lens)
    (ha : stack ≤ argsAt) (ha' : argsAt + taskArgsSize ≤ stack + memPageSize)
    (hesp : (k.task t).tss.esp0 = stack + memPageSize) :
    ∃ k', execStart argsAt t old d entry 0 k = some (0, k') := by
  obtain ⟨img, hp, -⟩ := hready.shown
  obtain ⟨v₁, hargs⟩ := copyArgs_none 0 hp hready.stack hstack ha ha'
  obtain ⟨img₁, hw₁⟩ := copyArgs_written hp (fun w hw => hready.stack w hw.onStack) hstack hQ
    hcaller.user hs hcaller.args hfit ha ha' hargs
  have hcount : onVm (stringsCount 0) k = some (0, k) := onVm_eq_some.mpr ⟨k.vm, rfl, rfl⟩
  have hcopy : onVm (copyArgs argsAt execStackTop d 0 0) k = some (0, { k with vm := v₁ }) :=
    onVm_eq_some.mpr ⟨v₁, hargs, rfl⟩
  obtain ⟨k₂, hframe⟩ := execFrame_total (k := { k with vm := v₁ }) entry hstack.page
  obtain ⟨hstep, -⟩ := execFrame_step hstack.page hframe
  have hs₂ : Agrees Q s k₂.vm :=
    (hs.trans (hw₁.agrees hQ)).trans ((hstep.written hw₁.populated hstack).agrees hQ)
  have hstart₁ : v₁.alloc.start = memExtStart :=
    (congrArg AddrAlloc.start (sameAlloc_copyArgs _ _ _ _ _ _ _ _ hargs)).trans hstart
  obtain ⟨m, rfl, -⟩ := hstep
  obtain ⟨k₃, hset⟩ : ∃ k₃, setPageDir t d { k with vm := { v₁ with mem := m } } = some ((), k₃) ∧
      k₃.vm.mem = m ∧ k₃.vm.alloc = v₁.alloc := ⟨_, rfl, rfl, rfl⟩
  obtain ⟨v₄, hdestroy, -⟩ := hcaller.destroyed (v := k₃.vm) hold (hset.2.1 ▸ hs₂.same)
    (hset.2.2 ▸ hstart₁)
  have hdone : onVm (memoryDestroyUvm old) k₃ = some ((), { k₃ with vm := v₄ }) :=
    onVm_eq_some.mpr ⟨v₄, hdestroy, rfl⟩
  refine ⟨{ k₃ with vm := v₄ }, ?_⟩
  rw [execStart, Prog.bind_of_eq hcount, Prog.bind_of_eq hcopy, if_neg (lt_irrefl _), Prog.gets_bind]
  have hesp' : (({ k with vm := v₁ } : Kernel).task t).tss.esp0 = stack + memPageSize := hesp
  rw [hesp', Prog.bind_of_eq hframe, Prog.bind_of_eq hset.1, Prog.bind_of_eq hdone]
  rfl

theorem execLoad_total {j : ℕ} {s : Vm} (hdir : NewDir n L d s k.vm) (hb : BufferOwn L s stack ∅)
    (hf : FitsBuffer (diskFile disk)) (he : ElfProgram (diskFile disk)) (hfit : ArgsFit 0 lens)
    (hown : OwnStack L s stack) (hcaller : Caller (TaskByte L stack s) s old 0 0 src lens)
    (hold : Destroyable (TaskByte L stack s) s.mem old) (htaken : Taken n j k.vm)
    (hname : load8 name k.vm = some (slash, k.vm))
    (hroom : 2 * (segmentPages (diskFile disk) (fileHeader (diskFile disk)).phnum + 500) ≤
      k.vm.alloc.clearPages.card)
    (ha : stack ≤ argsAt) (ha' : argsAt + taskArgsSize ≤ stack + memPageSize)
    (hesp : (k.task t).tss.esp0 = stack + memPageSize) :
    ∃ k', execLoad disk argsAt t old d name 0 k = some (0, k') := by
  obtain ⟨hbase, hempty, -⟩ := hdir.opened disk hb (Finset.empty_subset _)
  have hopen : onFile (sysOpen disk name) k =
      some (tempFileId, k.withFile ⟨openedVm disk k.vm, tempAddr⟩) := onFile_of_eq (sysOpen_total hname)
  obtain ⟨k₁, hload, hpending⟩ := loadElfOpen_total (t := t)
    (k := k.withFile ⟨openedVm disk k.vm, tempAddr⟩) hbase hf he hempty (fun _ _ _ _ => rfl) rfl rfl
    (fun w hw => hdir.opened_free hb hw) rfl (by
      show _ ≤ k.vm.alloc.clearPages.card
      omega)
  have hcard : k.vm.alloc.clearPages.card ≤ _ := hpending.room
  have hloaded := hpending.loaded
  obtain ⟨img, hp, -⟩ := hloaded.shown
  have hpages : pageCount memTaskStackSize = 500 := by decide
  obtain ⟨v₂, hcall, -⟩ := hp.rangeAlloc_total (memTaskStackTop - memTaskStackSize)
    memTaskStackSize (pteP ||| pteU ||| pteW) (by decide) (by decide) (by decide)
    (fun l hl => hpending.stack _ ⟨by omega, by
      have : memTaskStackSize ≤ memTaskStackTop := by decide
      omega⟩) (by omega)
  have hfile : loadElfFile disk t name d k = some ((fileHeader (diskFile disk)).entry, k₁) := by
    rw [loadElfFile, Prog.bind_of_eq hopen, if_neg (by decide), hload]
  obtain ⟨hready, hagree, hkeeps, -⟩ := loadElfFile_ready hdir hb hf htaken hfile he.entry hcall
    (lt_irrefl _) (Finset.empty_subset _)
  have hstart₁ : k₁.vm.alloc.start = memExtStart :=
    ((keepsPage_loadSteps disk t).loadElfFile name d k _ k₁ hfile htaken).start
  have hstart₂ : v₂.alloc.start = memExtStart :=
    (keepsTaken_allocForPageDir _ (by decide) (by decide) _ _ _ hcall
      ((keepsPage_loadSteps disk t).loadElfFile name d k _ k₁ hfile htaken)).start
  obtain ⟨k', hstart⟩ := execStart_total (k := { k₁ with vm := v₂ }) (t := t)
    (fileHeader (diskFile disk)).entry hready (hdir.stackPage hb (Finset.empty_subset _) hown)
    hdir.argsApart hcaller hagree hold hstart₂ hfit ha ha' ((congrArg Tss.esp0 hkeeps.tss).trans hesp)
  have halloc : onVm (memoryAllocForPageDir d (memTaskStackTop - memTaskStackSize) memTaskStackSize
      (pteP ||| pteU ||| pteW)) k₁ = some (0, { k₁ with vm := v₂ }) := onVm_eq_some.mpr ⟨v₂, hcall, rfl⟩
  refine ⟨k', ?_⟩
  rw [execLoad, Prog.bind_of_eq hfile, if_neg he.entry, Prog.bind_of_eq halloc,
    if_neg (lt_irrefl _), hstart]

/-- A program that can be loaded, called by a path without arguments, with pages enough. -/
structure Acceptable (L : Layout) (disk : Disk) (argsAt n : ℕ) (t : TaskId) (stack : ℕ)
    (src lens : ℕ → ℕ) (name len : ℕ) (s : Kernel) : Prop where
  input : ExecInput L argsAt 0 n t stack 0 src lens s
  buffer : BufferOwn L s.vm stack ∅
  file : FitsBuffer (diskFile disk)
  args : ArgsFit 0 lens
  program : ElfProgram (diskFile disk)
  path : StringAt s.vm name len
  root : load8 name s.vm = some (slash, s.vm)
  old : Destroyable (TaskByte L stack s.vm) s.vm.mem (s.task t).tss.cr3
  room : 2 * (segmentPages (diskFile disk) (fileHeader (diskFile disk)).phnum + 500) <
    s.vm.alloc.clearPages.card

theorem Acceptable.fits (h : Acceptable L disk argsAt n t stack src lens name len k) :
    ExecFits L disk name stack 0 lens k := ⟨fun _ _ => h.buffer.of_empty, h.file, h.args⟩

theorem sysExecve_total (h : Acceptable L disk argsAt n t stack src lens name len k) :
    ∃ k', sysExecve L disk argsAt name 0 k = some (0, k') := by
  have hcurrent : taskCurrent k = some (t, k) := taskCurrent_eq h.input.current
  obtain ⟨j, hj, hfile⟩ := h.path.getFileName_total h.root
  have hfile' : onVm (getFileName name) k = some (name + j + 1, k) :=
    onVm_eq_some.mpr ⟨k.vm, hfile, rfl⟩
  obtain ⟨k₁, hcopy⟩ := copyTaskName_total (t := t) h.path hj
  obtain ⟨hkeeps, hvm⟩ := copyTaskName_keeps hcopy
  obtain ⟨d, hd, v, hcreate, howned, hclear, hcr, hout, -⟩ :=
    memoryCreateUvm_spec h.input.managed h.input.usable h.input.kernelDir.directory.dirPage
      h.input.kernelDir.dir_taken (Finset.card_pos.mp (by have := h.room; omega))
  have hcreate' : onVm (memoryCreateUvm L) k₁ = some (d, { k₁ with vm := v }) :=
    onVm_eq_some.mpr ⟨v, hvm ▸ hcreate, rfl⟩
  have hd0 := (h.input.usable d hd).ne_zero
  have hdir := memoryCreateUvm_newDir h.input.managed h.input.usable h.input.kernelDir hcreate hd0
  have hcard := Finset.card_erase_add_one hd
  rw [← hclear] at hcard
  have hagree : Agrees (TaskByte L stack k.vm) k.vm v := by
    refine ⟨hcr, fun x hx => hout x fun hin => hx (.inr (.inr (.inl ⟨d, hd, hin⟩)))⟩
  have hname : load8 name v = some (slash, v) :=
    h.input.caller.user.load8_eq hagree ⟨h.path.user, by have := h.path.end_le; omega⟩ h.root
  have htss : (k₁.task t).tss = (k.task t).tss := hkeeps.tss
  obtain ⟨j, htaken⟩ := memoryCreateUvm_taken h.input.managed h.input.start hcreate hd0
  obtain ⟨k', hload⟩ := execLoad_total (k := { k₁ with vm := v }) (t := t) hdir
    h.buffer h.file h.program h.args h.input.ownStack h.input.caller h.old htaken hname
    (by show _ ≤ v.alloc.clearPages.card; have := h.room; omega) h.input.args_ge h.input.args_le
    (by show (k₁.task t).tss.esp0 = _; rw [htss]; exact h.input.esp0)
  refine ⟨k', ?_⟩
  rw [sysExecve, Prog.bind_of_eq hcurrent, Prog.bind_of_eq hfile', Prog.bind_of_eq hcopy,
    Prog.gets_bind, htss, Prog.bind_of_eq hcreate', if_neg hd0, hload]

/-- Such a program is entered. -/
theorem enterMain_accepts (h : Acceptable L disk argsAt n t stack src lens name len k) :
    ∃ sp k', enterMain L disk argsAt name 0 ret k = some (some sp, k') := by
  have hcurrent : taskCurrent k = some (t, k) := taskCurrent_eq h.input.current
  have hpage := h.input.ownStack.page
  obtain ⟨k₁, hexec⟩ := sysExecve_total h
  obtain ⟨d, v, left, hdir, hb, hleft, g, hg, -⟩ :=
    sysExecve_returns h.input h.fits hexec (lt_irrefl _)
  have hstack : StackPage d (openedVm disk v) stack := hdir.stackPage hb hleft h.input.ownStack
  obtain ⟨m, hstore, hword, hout⟩ := storeFrame_result hpage hg.esp (toU32 0)
  rw [hg.mem] at hout
  have hready : Ready n d (openedVm disk v) (diskFile disk) { g with mem := m } :=
    hg.ready.written h.file fun img hp => ⟨img, .of_stack hp hstack hout⟩
  have hcr : entryPaddr k₁.vm.cr3 = d := by
    rw [hg.cr3]
    exact entryPaddr_add (x := 0) hdir.growable.directory.dirPage.aligned (by decide)
  obtain ⟨sp, v', hstart⟩ := cstart_total (v := { k₁.vm with mem := m }) ret hready h.file rfl hcr
  have hmain : onVm (cstart ret execStackTop) { k₁ with vm := { k₁.vm with mem := m } } =
      some (sp, { k₁ with vm := v' }) := onVm_eq_some.mpr ⟨v', hstart, rfl⟩
  refine ⟨sp, { k₁ with vm := v' }, ?_⟩
  rw [enterMain, Prog.bind_of_eq hcurrent, Prog.bind_of_eq hexec, Prog.gets_bind, hg.esp0,
    Prog.bind_of_eq hstore, if_neg (lt_irrefl _), Prog.bind_of_eq hword, callGate_esp, crt0Start,
    Prog.bind_of_eq hmain]
  rfl

end Kernel

end X86Os
