import X86Os.ElfImage
import X86Os.ExecAccept
import X86Os.MutexProtocol

/-!
# What `main` finds in memory

The bytes of a segment behind those of the file are what the pages held before the system call. They are
zero, as the boot loader leaves them, for every content of the free pages only when a segment has no such
bytes.
-/

namespace X86Os

variable {n stack argsAt argv argc name ret sp : ℕ} {L : Layout} {disk : Disk} {t : TaskId}
  {src lens : ℕ → ℕ} {k k' : Kernel} {m : Mem} {s : Vm}

/-! ## The content of the free pages -/

/-- The memory `m` is the one of `s` except for what the free pages hold. -/
def Vm.SameButClear (s : Vm) (m : Mem) : Prop :=
  ∀ x, (∀ p ∈ s.alloc.clearPages, ¬ InPage p x) → m x = s.mem x

def Vm.withMem (s : Vm) (m : Mem) : Vm := { s with mem := m }

def Kernel.withMem (k : Kernel) (m : Mem) : Kernel := { k with vm := k.vm.withMem m }

/-- Such a memory in which the free pages hold no zero. -/
structure Vm.Stale (s : Vm) (m : Mem) : Prop where
  same : s.SameButClear m
  ne_zero : ∀ p ∈ s.alloc.clearPages, ∀ x, InPage p x → m x ≠ 0

/-- Free pages that hold the byte `b` only. -/
def Vm.clearFilled (s : Vm) (b : BitVec 8) : Mem := fun x =>
  if ∃ p ∈ s.alloc.clearPages, InPage p x then b else s.mem x

theorem Vm.clearFilled_same (s : Vm) (b : BitVec 8) : s.SameButClear (s.clearFilled b) :=
  fun _ hx => if_neg fun ⟨p, hp, hin⟩ => hx p hp hin

theorem Vm.clearFilled_stale (s : Vm) : s.Stale (s.clearFilled 1) := by
  refine ⟨s.clearFilled_same 1, fun p hp x hx => ?_⟩
  rw [Vm.clearFilled, if_pos ⟨p, hp, hx⟩]
  decide

theorem KernelDir.pde_eq (h : KernelDir L s) (hclear : ∀ p ∈ s.alloc.clearPages, KernelPage p)
    (hm : s.SameButClear m) {i : ℕ} (hi : i < pdeCnt) :
    m.pde L.kernelPageDir i = s.mem.pde L.kernelPageDir i := by
  refine Mem.read32_congr fun x hx hx' => hm x fun p hp hin => h.dir_taken ?_
  rwa [InPage.unique h.directory.dirPage.aligned (hclear p hp).aligned (inPage_word hi hx hx') hin]

theorem KernelDir.withMem (h : KernelDir L s) (hclear : ∀ p ∈ s.alloc.clearPages, KernelPage p)
    (hm : s.SameButClear m) : KernelDir L (s.withMem m) := by
  have hpde : ∀ i < pdeCnt, m.pde L.kernelPageDir i = s.mem.pde L.kernelPageDir i := fun i hi =>
    h.pde_eq hclear hm hi
  refine ⟨⟨h.directory.dirPage, fun i hi hp => ?_, fun i hi j hj hp hp' he => ?_⟩, h.dir_taken,
    fun i hi hp => ?_⟩
  · simp only [Vm.withMem, Mem.table, hpde i hi] at hp ⊢
    exact h.directory.tablePage i hi hp
  · simp only [Vm.withMem, Mem.table, hpde i hi, hpde j hj] at hp hp' he
    exact h.directory.apart i hi j hj hp hp' he
  · simp only [Vm.withMem, Mem.table, hpde i hi] at hp ⊢
    exact h.table_taken i hi hp

theorem KernelDir.taskByte_eq (h : KernelDir L s) (hclear : ∀ p ∈ s.alloc.clearPages, KernelPage p)
    (hm : s.SameButClear m) : TaskByte L stack (s.withMem m) = TaskByte L stack s := by
  have htables : ∀ x, (∃ i < pdeCnt, Present (m.pde L.kernelPageDir i) ∧
      InPage (m.table L.kernelPageDir i) x) ↔
      ∃ i < pdeCnt, Present (s.mem.pde L.kernelPageDir i) ∧
        InPage (s.mem.table L.kernelPageDir i) x := by
    intro x
    refine exists_congr fun i => and_congr_right fun hi => ?_
    rw [Mem.table, Mem.table, h.pde_eq hclear hm hi]
  funext x
  exact congrArg Not (propext (or_congr_right (or_congr_right (or_congr_right (htables x)))))

namespace Kernel

/-- What the free pages hold is not part of the input. -/
theorem ExecInput.withMem (h : ExecInput L argsAt argv n t stack argc src lens k)
    (hm : k.vm.SameButClear m) : ExecInput L argsAt argv n t stack argc src lens (k.withMem m) := by
  have hpde : ∀ i < pdeCnt, m.pde L.kernelPageDir i = k.vm.mem.pde L.kernelPageDir i := fun i hi =>
    h.kernelDir.pde_eq h.usable hm hi
  have hagree : Agrees (TaskByte L stack k.vm) k.vm (k.vm.withMem m) :=
    ⟨rfl, fun x hx => hm x fun p hp hin => hx (.inr (.inr (.inl ⟨p, hp, hin⟩)))⟩
  refine ⟨h.current, h.managed, h.start, h.usable, h.kernelDir.withMem h.usable hm, h.esp0,
    ⟨h.ownStack.page, h.ownStack.taken, fun i hi hp => ?_⟩, h.args_ge, h.args_le, ?_⟩
  · simp only [Kernel.withMem, Vm.withMem, Mem.table, hpde i hi] at hp ⊢
    exact h.ownStack.table_apart i hi hp
  · show Caller (TaskByte L stack (k.vm.withMem m)) (k.vm.withMem m) _ _ _ _ _
    rw [h.kernelDir.taskByte_eq h.usable hm]
    exact h.caller.agrees hagree

/-! ## What is shown -/

/-- Every byte of a segment is one of the file or what the page held before the system call. -/
theorem enterMain_shown (h : ExecInput L argsAt argv n t stack argc src lens k)
    (hfit : ExecFits L disk name stack argc lens k)
    (hrun : enterMain L disk argsAt name argv ret k = some (some sp, k')) {i : ℕ}
    (hseg : UserSegment (diskFile disk) i) {ph : Elf32Phdr}
    (hph : ph = programHeader (diskFile disk) i) {j : ℕ} (hj : j < ph.memsz) :
    ∃ p ∈ k.vm.alloc.clearPages, ∃ x, InPage p x ∧ load8 (ph.vaddr + j) k'.vm =
      some (if j < ph.filesz then diskFile disk (ph.offset + j) else k.vm.mem x, k'.vm) := by
  obtain ⟨d, v, left, hdir, hb, hcr, g, hready, hmem, hleft⟩ := enterMain_ready h hfit hrun
  obtain ⟨img, hp, hshown⟩ := hready.shown
  obtain ⟨hmapped, himg⟩ := (hshown i hseg).1 j (hph ▸ hj)
  have hbase := hseg.loadable.2
  have hend := (hfit.file.segments i hseg.lt hseg.loadable).2.2
  rw [← hph] at hmapped himg hbase hend
  have huser : UserAddr (ph.vaddr + j) := ⟨by omega, by omega⟩
  obtain ⟨x, hx⟩ := Option.isSome_iff_exists.mp hmapped
  obtain ⟨p, hpin, hxp, hpage, -, htaken, -⟩ := hp.frame_apart huser hx
  have hclear : p ∈ k.vm.alloc.clearPages := by
    have hp' : p ∈ k.vm.alloc.clearPages.erase d := hdir.clearPages ▸ hpin
    exact Finset.mem_of_mem_erase hp'
  have hphys : k'.vm.phys (ph.vaddr + j) = some x := by
    have hd : entryPaddr d = d :=
      entryPaddr_add (x := 0) hdir.growable.directory.dirPage.aligned (by decide)
    rw [Vm.phys, if_neg (not_lt.mpr huser.1), hcr, hmem, hd]
    exact hx
  have hbyte := hp.content _ x huser hx
  rw [himg, ← hmem] at hbyte
  refine ⟨p, hclear, x, hxp, ?_⟩
  rw [load8, hphys, Option.map_some, hbyte]
  split_ifs with hin
  · rfl
  · show some ((openedVm disk v).mem x, k'.vm) = _
    rw [← hdir.frame_eq hb hpin (fun hin => htaken (hleft hin)) hxp hpage]
    rfl

/-- `main` reads the bytes of the file and then zeros in the whole segment, as the boot loader leaves them at
its load address. -/
structure SameImage (file : ℕ → BitVec 8) (i : ℕ) (s : Vm) : Prop where
  bytes : ∀ ph, ph = programHeader file i → ∀ j < ph.filesz,
    load8 (ph.vaddr + j) s = some (file (ph.offset + j), s)
  zeros : ∀ ph, ph = programHeader file i → ∀ j, ph.filesz ≤ j → j < ph.memsz →
    load8 (ph.vaddr + j) s = some (0, s)
  reloaded : ∀ ph, ph = segmentAt file phdrSize i → ph = programHeader file i →
    ∀ len fileBuffer m, ReloadInput file len fileBuffer m →
    (∀ l < (fileHeader file).phnum, l ≠ i → ∀ q, q = segmentAt file phdrSize l → q.type = ptLoad →
      LoadApart ph q) → ∀ j < ph.memsz,
    load8 (ph.vaddr + j) s = some ((reloadElfFile fileBuffer m).2 (ph.paddr + j), s)

/-- Bytes behind the file are not zero when the free pages have no zeros. -/
theorem not_sameImage_of_stale {i : ℕ} (h : ExecInput L argsAt argv n t stack argc src lens k)
    (hm : k.vm.Stale m) (hfit : ExecFits L disk name stack argc lens (k.withMem m))
    (hseg : UserSegment (diskFile disk) i)
    (hlt : (programHeader (diskFile disk) i).filesz < (programHeader (diskFile disk) i).memsz)
    (hrun : enterMain L disk argsAt name argv ret (k.withMem m) = some (some sp, k')) :
    ¬ SameImage (diskFile disk) i k'.vm := by
  intro hsame
  obtain ⟨p, hp, x, hx, hload⟩ := enterMain_shown (h.withMem hm.same) hfit hrun hseg rfl hlt
  rw [if_neg (lt_irrefl _), hsame.zeros _ rfl _ le_rfl hlt] at hload
  exact hm.ne_zero p hp x hx (Prod.mk.inj (Option.some.inj hload)).1.symm

/-- A segment without uninitialised bytes is always right; with such bytes it is wrong for some content of
the free pages, if the program is entered with no zero in them. -/
theorem user_image {i : ℕ} (h : ExecInput L argsAt argv n t stack argc src lens k)
    (hfit : ∀ m, k.vm.SameButClear m → ExecFits L disk name stack argc lens (k.withMem m))
    (haccept : ∃ m, k.vm.Stale m ∧
      ∃ sp k', enterMain L disk argsAt name argv ret (k.withMem m) = some (some sp, k'))
    (hseg : UserSegment (diskFile disk) i) :
    (∀ m, k.vm.SameButClear m → ∀ sp k',
      enterMain L disk argsAt name argv ret (k.withMem m) = some (some sp, k') →
        SameImage (diskFile disk) i k'.vm) ↔
      (programHeader (diskFile disk) i).filesz = (programHeader (diskFile disk) i).memsz := by
  constructor
  · intro hall
    by_contra hne
    have hlt := lt_of_le_of_ne hseg.filesz_le hne
    obtain ⟨m, hm, sp, k', hrun⟩ := haccept
    exact not_sameImage_of_stale h hm (hfit m hm.same) hseg hlt hrun (hall m hm.same sp k' hrun)
  · intro hfull m hm sp k' hrun
    have hbytes : ∀ ph, ph = programHeader (diskFile disk) i → ∀ j < ph.filesz,
        load8 (ph.vaddr + j) k'.vm = some (diskFile disk (ph.offset + j), k'.vm) := by
      rintro ph rfl j hj
      obtain ⟨p, -, x, -, hload⟩ :=
        enterMain_shown (h.withMem hm) (hfit m hm) hrun hseg rfl (hfull ▸ hj)
      rwa [if_pos hj] at hload
    refine ⟨hbytes, ?_, ?_⟩
    · rintro ph rfl j hj hj'
      omega
    · intro ph hat hph len fileBuffer m₀ hin hapart j hj
      have hj' : j < ph.filesz := by
        rw [hph] at hj ⊢
        rwa [hfull]
      rw [reloadElfFile_fills hin hseg.lt hat (hph ▸ hseg.loadable.1) hapart hj, segmentByte,
        if_pos hj']
      exact hbytes ph hph j hj'

/-! ## A program with uninitialised data -/

theorem Acceptable.withMem {len : ℕ} (h : Acceptable L disk argsAt n t stack src lens name len k)
    (hm : k.vm.SameButClear m) :
    Acceptable L disk argsAt n t stack src lens name len (k.withMem m) := by
  have hagree : Agrees (TaskByte L stack k.vm) k.vm (k.vm.withMem m) :=
    ⟨rfl, fun x hx => hm x fun p hp hin => hx (.inr (.inr (.inl ⟨p, hp, hin⟩)))⟩
  have hname : load8 name (k.vm.withMem m) = some (slash, k.vm.withMem m) :=
    h.input.caller.user.load8_eq hagree ⟨h.path.user, by have := h.path.end_le; omega⟩ h.root
  have hbuffer : BufferOwn L (k.withMem m).vm stack ∅ := by
    refine ⟨h.buffer.stack_apart, h.buffer.clear_apart, fun x hx i hi hp => ?_⟩
    have hpde := h.input.kernelDir.pde_eq h.input.usable hm hi
    simp only [Kernel.withMem, Vm.withMem, Mem.table, hpde] at hp ⊢
    exact h.buffer.table_apart x hx i hi hp
  refine ⟨h.input.withMem hm, hbuffer, h.file, h.args, h.program,
    h.path.agrees h.input.caller.user hagree, hname, ?_, h.room⟩
  show Destroyable (TaskByte L stack (k.vm.withMem m)) m _
  rw [h.input.kernelDir.taskByte_eq h.input.usable hm]
  exact h.input.caller.destroyable h.old hagree.same

/-- A program with a page from the file and one word behind it. -/
def bssFile : List (BitVec 8) :=
  [0x7F, 0x45, 0x4C, 0x46, 1, 1, 1, 0, 0, 0, 0, 0, 0, 0, 0, 0, 2, 0, 3, 0, 1, 0, 0, 0,
   0, 0, 0, 0x81, 52, 0, 0, 0, 0, 0, 0, 0, 0, 0, 0, 0, 52, 0, 32, 0, 1, 0, 0, 0, 0, 0, 0, 0,
   1, 0, 0, 0, 84, 0, 0, 0, 0, 0, 0, 0x81, 0, 0, 0, 0x81, 0, 0x10, 0, 0, 4, 0x10, 0, 0,
   7, 0, 0, 0, 0, 0x10, 0, 0]

def bssDisk : Disk := fun x =>
  if x < 5000 * sectorSize then 0 else bssFile.getD (x - 5000 * sectorSize) 0

/-- The tables of the kernel lie at the start of the managed memory, then the space of a task with its path
`"/a"` in its only page. The page behind the table of the task starts with the address of a page. -/
def execWord (i : ℕ) : ℕ :=
  if 0x8000 ≤ i ∧ i < 0x8020 then 0x100007 + (i - 0x8000) * 0x1000
  else if 0x40000 ≤ i ∧ i < 0x48000 then
    if Identity ((i - 0x40000) * 0x1000) then (i - 0x40000) * 0x1000 + 3 else 0
  else if 0x48000 ≤ i ∧ i < 0x48020 then 0x100007 + (i - 0x48000) * 0x1000
  else if i = 0x48200 then 0x121007
  else if i = 0x48400 then 0x122007
  else if i = 0x48800 then 0x200000
  else if i = 0x48802 then 0x612F
  else 0

def execBits (i : ℤ) : BitVec 8 := if i < 256 then 0xFF else 0

/-- Sixteen megabytes of managed memory; the lower half, with the file buffer, is in use. -/
def execAlloc : AddrAlloc where
  bitmap := { bitCount := 4096, bits := execBits }
  pageSize := memPageSize
  start := memExtStart
  size := 0x1000000

def execKernel : Kernel where
  vm := { mem := Mem.ofWords execWord, alloc := execAlloc, cr3 := 0x120000, frees := [] }
  tempPos := 0
  gdt i := if i < 5 then { SegmentDesc.zero with attr := segPPresent } else .zero
  gdtFrees := []
  task
    | .first =>
      { Task.zero with
        name := fun _ => 0x61
        tss := { Tss.zero with esp0 := 0x123000 + memPageSize, cr3 := 0x120000 } }
    | _ => .zero
  sched := { Sched.zeroed with currTask := some .first }
  appCodeSel := 0x20
  appDataSel := 0x18

theorem execWord_lt (i : ℕ) : execWord i < 2 ^ 32 := by
  unfold execWord
  split_ifs <;> omega

theorem execWord_dir {b i j : ℕ} (hi : i < 1024) (hb : b = 0x8000 ∨ b = 0x48000) (hj : j = b + i) :
    execWord j = if i < 32 then 0x100007 + i * 0x1000
      else if b = 0x48000 ∧ i = 512 then 0x121007 else 0 := by
  unfold execWord
  by_cases hlow : i < 32
  · rw [if_pos hlow]
    rcases hb with rfl | rfl
    · rw [if_pos (by omega), hj, Nat.add_sub_cancel_left]
    · rw [if_neg (by omega), if_neg (by omega), if_pos (by omega), hj, Nat.add_sub_cancel_left]
  · rw [if_neg hlow, if_neg (by omega), if_neg (by omega), if_neg (by omega)]
    by_cases huser : b = 0x48000 ∧ i = 512
    · rw [if_pos huser, if_pos (by omega)]
    · rw [if_neg huser, if_neg (by omega), if_neg (by omega), if_neg (by omega), if_neg (by omega)]

theorem execKernel_read32 (i : ℕ) : execKernel.vm.mem.read32 (4 * i) = execWord i :=
  Mem.read32_ofWords (execWord_lt i)

theorem execKernel_pde {dir b i : ℕ} (hi : i < pdeCnt) (hb : b = 0x8000 ∨ b = 0x48000)
    (hdir : dir = 4 * b) : execKernel.vm.mem.pde dir i = if i < 32 then 0x100007 + i * 0x1000
      else if b = 0x48000 ∧ i = 512 then 0x121007 else 0 := by
  rw [Mem.pde, hdir, ← Nat.mul_add, execKernel_read32]
  exact execWord_dir hi hb rfl

/-- The tables of the kernel are in both directories, and the task has one more. -/
theorem execKernel_table {dir b i : ℕ} (hi : i < pdeCnt) (hb : b = 0x8000 ∨ b = 0x48000)
    (hdir : dir = 4 * b) (hp : Present (execKernel.vm.mem.pde dir i)) :
    (i < 32 ∧ execKernel.vm.mem.table dir i = 0x100000 + i * 0x1000) ∨
      (b = 0x48000 ∧ i = 512 ∧ execKernel.vm.mem.table dir i = 0x121000) := by
  rw [Mem.table, execKernel_pde hi hb hdir]
  rw [execKernel_pde hi hb hdir] at hp
  by_cases hlow : i < 32
  · rw [if_pos hlow]
    refine .inl ⟨hlow, ?_⟩
    unfold entryPaddr
    omega
  · rw [if_neg hlow] at hp ⊢
    by_cases huser : b = 0x48000 ∧ i = 512
    · rw [if_pos huser]
      exact .inr ⟨huser.1, huser.2, by decide⟩
    · rw [if_neg huser] at hp
      exact absurd hp (by decide)

/-- The only user page of the task. -/
theorem execKernel_walk {v x : ℕ} (hv : UserAddr v) (hx : execKernel.vm.mem.walk 0x120000 v = some x) :
    x = 0x122000 + v % memPageSize := by
  obtain ⟨e, he, rfl⟩ := walk_eq_some.mp hx
  obtain ⟨hp, he', hpe⟩ := userEntry_eq_some.mp he
  obtain ⟨hi, hi'⟩ := hv.indices
  have hstart : userPdeStart = 512 := by decide
  rcases execKernel_table (b := 0x48000) hi' (.inr rfl) rfl hp with ⟨hlow, -⟩ | ⟨-, -, ht⟩
  · omega
  · have hj := pteIndex_lt v
    have hword : e = execWord (0x48400 + pteIndex v) := by
      rw [← he', ← execKernel_read32, Nat.mul_add]
      exact congrArg (fun t => execKernel.vm.mem.read32 (t + 4 * pteIndex v)) ht
    by_cases hz : pteIndex v = 0
    · rw [hz] at hword
      have he0 : e = 0x122007 := hword.trans (by decide)
      rw [he0]
      rfl
    · have he0 : e = 0 := by
        rw [hword]
        have hj' : pteIndex v < 1024 := hj
        unfold execWord
        rw [if_neg (by omega), if_neg (by omega), if_neg (by omega), if_neg (by omega),
          if_neg (by omega), if_neg (by omega), if_neg (by omega)]
      rw [he0] at hpe
      exact absurd hpe (by decide)

theorem execAlloc_managed : execAlloc.Managed 4096 := ⟨rfl, by decide, rfl, by decide⟩

theorem execAlloc_bit {l : ℕ} (hl : l < 4096) :
    execAlloc.bitmap.bitAt l = false ↔ 2048 ≤ l := by
  have hbits : execAlloc.bitmap.bits = execBits := rfl
  rw [Bitmap.bitAt, hbits]
  have hmod : l % 8 < 8 := Nat.mod_lt _ (by decide)
  unfold execBits
  by_cases hlow : l < 2048
  · rw [if_pos (by omega)]
    have hset : (0xFF : BitVec 8).getLsbD (l % 8) = true := by
      interval_cases l % 8 <;> rfl
    rw [hset]
    simp only [reduceCtorEq, false_iff]
    omega
  · rw [if_neg (by omega)]
    have hclear : (0 : BitVec 8).getLsbD (l % 8) = false := BitVec.getLsbD_zero
    rw [hclear]
    simp only [true_iff]
    omega

theorem execAlloc_clear {p : ℕ} : p ∈ execAlloc.clearPages ↔
    ∃ l, 2048 ≤ l ∧ l < 4096 ∧ 0x100000 + l * 0x1000 = p := by
  have haddr : ∀ l < 4096, execAlloc.pageAddr l = 0x100000 + l * 0x1000 := fun l hl => by
    show u32 (0x100000 + l * 0x1000) = _
    rw [u32_of_lt (by omega)]
  rw [AddrAlloc.mem_clearPages execAlloc_managed]
  constructor
  · rintro ⟨l, hl, hbit, rfl⟩
    exact ⟨l, (execAlloc_bit hl).mp hbit, hl, (haddr l hl).symm⟩
  · rintro ⟨l, hl, hl', rfl⟩
    exact ⟨l, hl', (execAlloc_bit hl').mpr hl, haddr l hl'⟩

theorem execAlloc_card : execAlloc.clearPages.card = 2048 := by
  have hset : execAlloc.clearPages = (Finset.Ico 2048 4096).image fun l => 0x100000 + l * 0x1000 := by
    ext p
    rw [execAlloc_clear, Finset.mem_image]
    simp only [Finset.mem_Ico, and_assoc]
  rw [hset, Finset.card_image_of_injective _ fun a b h => by
    have heq : 0x100000 + a * 0x1000 = 0x100000 + b * 0x1000 := h
    omega, Nat.card_Ico]

theorem execKernel_load8 {a x : ℕ} {c : BitVec 8} (hx : execKernel.vm.phys a = some x)
    (hc : execKernel.vm.mem x = c) : load8 a execKernel.vm = some (c, execKernel.vm) := by
  rw [load8, hx, Option.map_some, hc]

theorem execKernel_path : StringAt execKernel.vm 0x80000008 2 ∧
    load8 0x80000008 execKernel.vm = some (slash, execKernel.vm) := by
  have h0 := execKernel_load8 (a := 0x80000008) (x := 0x122008) (c := slash) (by decide) (by decide)
  have h1 := execKernel_load8 (a := 0x80000009) (x := 0x122009) (c := 0x61) (by decide) (by decide)
  have h2 := execKernel_load8 (a := 0x8000000A) (x := 0x12200A) (c := 0) (by decide) (by decide)
  refine ⟨⟨by decide, by decide, fun l hl => ?_, h2⟩, h0⟩
  interval_cases l
  · exact ⟨slash, h0, by decide⟩
  · exact ⟨0x61, h1, by decide⟩

/-- The pages of the task are nobody else's. -/
theorem execKernel_taskByte {x : ℕ} (h : 0x120000 ≤ x) (h' : x < 0x123000) :
    TaskByte sampleLayout 0x123000 execKernel.vm x := by
  rintro (hbuf | hstack | ⟨p, hp, hin⟩ | ⟨i, hi, hp, hin⟩)
  · unfold InBuffer tempAddr at hbuf
    omega
  · unfold InPage at hstack
    omega
  · obtain ⟨l, hl, -, rfl⟩ := execAlloc_clear.mp hp
    unfold InPage at hin
    omega
  · rcases execKernel_table (b := 0x8000) hi (.inl rfl) rfl hp with ⟨hlow, ht⟩ | ⟨hb, -⟩
    · have hin' : InPage (execKernel.vm.mem.table 0x20000 i) x := hin
      rw [ht] at hin'
      unfold InPage memPageSize at hin'
      omega
    · cases hb

/-- The tables of the kernel are the first managed pages. -/
theorem execKernel_kernelTable {i : ℕ} (hi : i < pdeCnt)
    (hp : Present (execKernel.vm.mem.pde sampleLayout.kernelPageDir i)) :
    i < 32 ∧ execKernel.vm.mem.table sampleLayout.kernelPageDir i = 0x100000 + i * 0x1000 := by
  rcases execKernel_table (b := 0x8000) hi (.inl rfl) rfl hp with h | ⟨hb, -⟩
  · exact h
  · cases hb

theorem execKernel_page {p : ℕ} (hp : 0x100000 ≤ p) (hp' : p < 0x8000000) (hal : p % 0x1000 = 0) :
    KernelPage p := by
  refine ⟨hal, .inr ⟨hp, ?_⟩, by omega⟩
  unfold memExtLimit
  omega

theorem execKernel_clear {p : ℕ} (hp : p ∈ execKernel.vm.alloc.clearPages) :
    0x900000 ≤ p ∧ p < 0x1100000 ∧ p % 0x1000 = 0 := by
  obtain ⟨l, hl, hl', rfl⟩ := execAlloc_clear.mp hp
  omega

theorem execKernel_kernelDir : KernelDir sampleLayout execKernel.vm where
  directory := by
    refine ⟨⟨by decide, by decide, by decide⟩, fun i hi hp => ?_, fun i hi j hj hp hp' he => ?_⟩
    · obtain ⟨hlow, ht⟩ := execKernel_kernelTable hi hp
      rw [ht]
      refine ⟨execKernel_page (by omega) (by omega) (by omega), ?_⟩
      show _ ≠ 0x20000
      omega
    · rw [(execKernel_kernelTable hi hp).2, (execKernel_kernelTable hj hp').2] at he
      omega
  dir_taken h := by
    have hge : 0x900000 ≤ 0x20000 := (execKernel_clear h).1
    omega
  table_taken i hi hp h := by
    obtain ⟨hlow, ht⟩ := execKernel_kernelTable hi hp
    have hge := (execKernel_clear h).1
    omega

theorem execKernel_ownStack : OwnStack sampleLayout execKernel.vm 0x123000 where
  page := ⟨by decide, by decide, by decide⟩
  taken h := by
    have hge := (execKernel_clear h).1
    omega
  table_apart i hi hp he := by
    obtain ⟨hlow, ht⟩ := execKernel_kernelTable hi hp
    omega

/-- The space of the task: a table and a page. -/
theorem execKernel_caller : Caller (TaskByte sampleLayout 0x123000 execKernel.vm) execKernel.vm
    0x120000 0 0 (fun _ => 0) (fun _ => 0) where
  cr3 := by decide
  user := by
    have hcr : entryPaddr execKernel.vm.cr3 = 0x120000 := by decide
    have hstart : userPdeStart = 512 := by decide
    refine ⟨fun x hx => ?_, fun i hi hi' hp x hx => ?_, fun v x hv hx => ?_⟩
    · rw [hcr] at hx
      unfold InPage memPageSize at hx
      exact execKernel_taskByte hx.1 (by omega)
    · rw [hcr] at hp hx
      rcases execKernel_table (b := 0x48000) hi' (.inr rfl) rfl hp with ⟨hlow, -⟩ | ⟨-, -, ht⟩
      · omega
      · rw [ht] at hx
        unfold InPage memPageSize at hx
        exact execKernel_taskByte (by omega) (by omega)
    · rw [hcr] at hx
      rw [execKernel_walk hv hx]
      have hmod : v % memPageSize < memPageSize := Nat.mod_lt _ (by decide)
      unfold memPageSize at hmod ⊢
      exact execKernel_taskByte (by omega) (by omega)
  reached := by
    refine ⟨⟨by decide, by decide, by decide⟩, fun i hi hi' hp => ?_⟩
    have hstart : userPdeStart = 512 := by decide
    rcases execKernel_table (b := 0x48000) hi' (.inr rfl) rfl hp with ⟨hlow, -⟩ | ⟨-, -, ht⟩
    · omega
    · rw [ht]
      exact ⟨by decide, by decide, by decide⟩
  args := ⟨fun _ => rfl, fun h => absurd rfl h, fun h => absurd rfl h, nofun, nofun⟩

theorem execKernel_input : ExecInput sampleLayout 0x123800 0 4096 .first 0x123000 0 (fun _ => 0)
    (fun _ => 0) execKernel where
  current := rfl
  managed := execAlloc_managed
  start := rfl
  usable p hp := by
    obtain ⟨hge, hlt, hal⟩ := execKernel_clear hp
    exact execKernel_page (by omega) (by omega) hal
  kernelDir := execKernel_kernelDir
  esp0 := rfl
  ownStack := execKernel_ownStack
  args_ge := by decide
  args_le := by decide
  caller := execKernel_caller

/-! ### The file -/

theorem diskFile_bssDisk (i : ℕ) : diskFile bssDisk i = bssFile.getD i 0 := by
  rw [diskFile, bssDisk, if_neg (by omega), Nat.add_sub_cancel_left]

theorem bssHeader : fileHeader (diskFile bssDisk) =
    ⟨elfMagic, etExec, et386, 0x81000000, 52, 32, 1⟩ := by
  rw [show diskFile bssDisk = fun i => bssFile.getD i 0 from funext diskFile_bssDisk]
  rfl

theorem bssSegment : programHeader (diskFile bssDisk) 0 =
    ⟨ptLoad, 84, 0x81000000, 0x81000000, 0x1000, 0x1004⟩ := by
  rw [programHeader, bssHeader, segmentAt, bssHeader,
    show diskFile bssDisk = fun i => bssFile.getD i 0 from funext diskFile_bssDisk]
  rfl

theorem bssPhnum {i : ℕ} (hi : i < (fileHeader (diskFile bssDisk)).phnum) : i = 0 := by
  rw [bssHeader] at hi
  exact Nat.lt_one_iff.mp hi

theorem bssLoadable : (programHeader (diskFile bssDisk) 0).Loadable := by
  rw [bssSegment]
  exact ⟨rfl, by decide⟩

theorem bssFits : FitsBuffer (diskFile bssDisk) where
  headers i hi := by
    obtain rfl := bssPhnum hi
    rw [bssHeader]
    decide
  segments i hi _ := by
    obtain rfl := bssPhnum hi
    rw [bssSegment]
    decide

theorem bssProgram : ElfProgram (diskFile bssDisk) := by
  have hnone : ∀ i < (fileHeader (diskFile bssDisk)).phnum,
      ∀ j < (fileHeader (diskFile bssDisk)).phnum, ¬ i ≠ j := fun i hi j hj hne =>
    hne ((bssPhnum hi).trans (bssPhnum hj).symm)
  refine ⟨by rw [bssHeader], by rw [bssHeader], by rw [bssHeader], by rw [bssHeader]; decide,
    by rw [bssHeader]; decide, by rw [bssHeader]; decide, fun i hi _ => ?_,
    fun i hi j hj hne => absurd hne (hnone i hi j hj), fun i hi _ l hl w hw => ?_⟩
  · obtain rfl := bssPhnum hi
    rw [bssSegment]
    rfl
  · obtain rfl := bssPhnum hi
    rw [bssSegment] at hl ⊢
    have hbase : 0xDFE0C000 ≤ w := hw.1
    have hl' : l < 0x1004 := hl
    show w / 4096 ≠ (0x81000000 + l) / 4096
    omega

theorem bssUserSegment : UserSegment (diskFile bssDisk) 0 where
  lt := by
    rw [bssHeader]
    decide
  loadable := bssLoadable
  aligned := by
    rw [bssSegment]
    rfl
  filesz_le := by
    rw [bssSegment]
    decide
  apart j hj hne := absurd (bssPhnum hj) hne

theorem execKernel_buffer : BufferOwn sampleLayout execKernel.vm 0x123000 ∅ where
  stack_apart x hx hin := by
    unfold InBuffer tempAddr at hx
    unfold InPage memPageSize at hin
    omega
  clear_apart x hx p hp _ hin := by
    have hge := (execKernel_clear hp).1
    unfold InBuffer tempAddr tempSize sectorSize at hx
    unfold InPage at hin
    omega
  table_apart x hx i hi hp hin := by
    obtain ⟨hlow, ht⟩ := execKernel_kernelTable hi hp
    rw [ht] at hin
    unfold InBuffer tempAddr at hx
    unfold InPage memPageSize at hin
    omega

/-- The space of the task has one table. -/
theorem execKernel_userTable {i : ℕ} (hi : userPdeStart ≤ i) (hi' : i < pdeCnt)
    (hp : Present (execKernel.vm.mem.pde 0x120000 i)) :
    execKernel.vm.mem.table 0x120000 i = 0x121000 := by
  have hstart : userPdeStart = 512 := by decide
  rcases execKernel_table (b := 0x48000) hi' (.inr rfl) rfl hp with ⟨hlow, -⟩ | ⟨-, -, ht⟩
  · omega
  · exact ht

theorem execKernel_destroyable :
    Destroyable (TaskByte sampleLayout 0x123000 execKernel.vm) execKernel.vm.mem 0x120000 where
  past i hi hi' hp := by
    rw [execKernel_userTable hi hi' hp]
    decide
  past_own i hi hi' hp x hx hx' := by
    rw [execKernel_userTable hi hi' hp] at hx hx'
    unfold memPageSize at hx hx'
    exact execKernel_taskByte (by omega) (by omega)
  freeable p hp := by
    obtain ⟨i, hi, hi', hpres, hcases⟩ := mem_freedPages hp
    rw [execKernel_userTable hi hi' hpres, pastWord] at hcases
    rcases hcases with ⟨j, hj, hpte, rfl⟩ | rfl | rfl
    · have hj' : j < 1024 := hj
      rw [show 0x121000 + 4 * j = 4 * (0x48400 + j) by omega, execKernel_read32] at hpte ⊢
      by_cases hz : j = 0
      · subst j
        decide
      · rw [execWord, if_neg (by omega), if_neg (by omega), if_neg (by omega), if_neg (by omega),
          if_neg (by omega), if_neg (by omega), if_neg (by omega)] at hpte
        exact absurd hpte (by decide)
    · have hword : execKernel.vm.mem.read32 (0x121000 + memPageSize) = 0x200000 :=
        (execKernel_read32 0x48800).trans (by decide)
      rw [hword]
      decide
    · decide

theorem execKernel_acceptable : Acceptable sampleLayout bssDisk 0x123800 4096 .first 0x123000
    (fun _ => 0) (fun _ => 0) 0x80000008 2 execKernel where
  input := execKernel_input
  buffer := execKernel_buffer
  file := bssFits
  args := ⟨by decide, by decide⟩
  program := bssProgram
  path := execKernel_path.1
  root := execKernel_path.2
  old := execKernel_destroyable
  room := by
    have hcard : execKernel.vm.alloc.clearPages.card = 2048 := execAlloc_card
    have hpages : segmentPages (diskFile bssDisk) (fileHeader (diskFile bssDisk)).phnum = 2 := by
      have hone : (fileHeader (diskFile bssDisk)).phnum = 1 := by rw [bssHeader]
      rw [hone, segmentPages, segmentPages, if_pos bssLoadable, bssSegment]
      rfl
    rw [hcard, hpages]
    decide

theorem execKernel_accepts {m : Mem} (hm : execKernel.vm.SameButClear m) :
    ∃ sp k', enterMain sampleLayout bssDisk 0x123800 0x80000008 0 0 (execKernel.withMem m) =
      some (some sp, k') :=
  enterMain_accepts (execKernel_acceptable.withMem hm)

theorem execKernel_fits {m : Mem} (hm : execKernel.vm.SameButClear m) :
    ExecFits sampleLayout bssDisk 0x80000008 0x123000 0 (fun _ => 0) (execKernel.withMem m) :=
  (execKernel_acceptable.withMem hm).fits

theorem bss_filesz_lt : (programHeader (diskFile bssDisk) 0).filesz <
    (programHeader (diskFile bssDisk) 0).memsz := by
  rw [bssSegment]
  decide

/-- The segment has a word behind the bytes of the file, and the image is not always right. -/
theorem user_image_bss :
    (programHeader (diskFile bssDisk) 0).filesz ≠ (programHeader (diskFile bssDisk) 0).memsz ∧
    ¬ ∀ m, execKernel.vm.SameButClear m → ∀ sp k',
      enterMain sampleLayout bssDisk 0x123800 0x80000008 0 0 (execKernel.withMem m) =
        some (some sp, k') → SameImage (diskFile bssDisk) 0 k'.vm := by
  have hstale := execKernel.vm.clearFilled_stale
  exact ⟨bss_filesz_lt.ne, fun hall => bss_filesz_lt.ne ((user_image execKernel_input
    (fun _ hm => execKernel_fits hm) ⟨_, hstale, execKernel_accepts hstale.same⟩ bssUserSegment).mp
      hall)⟩

/-- With ones in the free pages the first byte behind the file is not zero. -/
theorem user_image_stale : ¬ ∀ m, execKernel.vm.SameButClear m → ∀ sp k',
    enterMain sampleLayout bssDisk 0x123800 0x80000008 0 0 (execKernel.withMem m) =
      some (some sp, k') → SameImage (diskFile bssDisk) 0 k'.vm := by
  intro hall
  have hstale := execKernel.vm.clearFilled_stale
  obtain ⟨sp, k', hrun⟩ := execKernel_accepts hstale.same
  exact not_sameImage_of_stale execKernel_input hstale (execKernel_fits hstale.same) bssUserSegment
    bss_filesz_lt hrun (hall _ hstale.same sp k' hrun)

end Kernel

end X86Os
