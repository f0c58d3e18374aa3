import X86Os.ExecArgs
import X86Os.ExecLoad
import X86Os.UvmDestroy

/-!
# The space of a new program

The directory that `sys_execve` makes, the bytes that stay as they are while it is filled, and the space
with all segments and the new stack.
-/

namespace X86Os

variable {n dir stack d : ℕ} {L : Layout} {file : ℕ → BitVec 8} {s₀ s s' : Vm}
  {img : ℕ → Option (BitVec 8)} {left : Finset ℕ}

/-! ## The new directory -/

/-- The directory of the kernel and its tables are in use. -/
structure KernelDir (L : Layout) (s : Vm) : Prop where
  directory : Directory s.mem L.kernelPageDir
  dir_taken : L.kernelPageDir ∉ s.alloc.clearPages
  table_taken : ∀ i < pdeCnt, Present (s.mem.pde L.kernelPageDir i) →
    s.mem.table L.kernelPageDir i ∉ s.alloc.clearPages

/-- A directory as `memory_create_uvm` makes it, with the tables of the kernel and none for users. -/
structure NewDir (n : ℕ) (L : Layout) (d : ℕ) (s s' : Vm) : Prop where
  growable : Growable n d s'
  clear : d ∈ s.alloc.clearPages
  clearPages : s'.alloc.clearPages = s.alloc.clearPages.erase d
  cr3 : s'.cr3 = s.cr3
  out : ∀ x, ¬ InPage d x → s'.mem x = s.mem x
  kernel : ∀ i < pdeCnt, Present (s'.mem.pde d i) → i < userPdeStart ∧
    Present (s.mem.pde L.kernelPageDir i) ∧ s'.mem.table d i = s.mem.table L.kernelPageDir i

theorem memoryCreateUvm_newDir (hm : s.alloc.Managed n) (hclear : ∀ p ∈ s.alloc.clearPages, KernelPage p)
    (hk : KernelDir L s) (hrun : memoryCreateUvm L s = some (d, s')) (hd : d ≠ 0) :
    NewDir n L d s s' := by
  have hroom : s.alloc.clearPages.Nonempty := by
    by_contra hempty
    have halloc : allocPage s = some (0, s) := by
      rw [allocPage, AddrAlloc.allocPage_empty hm (Finset.not_nonempty_iff_eq_empty.mp hempty)]
    rw [memoryCreateUvm, Prog.bind_of_eq halloc, if_pos rfl] at hrun
    exact hd (Prog.pure_eq_some.mp hrun).1
  obtain ⟨p, hp, s₁, hs₁, howned, hpages, hcr, hout, hkernel⟩ :=
    memoryCreateUvm_spec hm hclear hk.directory.dirPage hk.dir_taken hroom
  obtain ⟨rfl, rfl⟩ := Prog.result_unique hs₁ hrun
  have htables : ∀ i < pdeCnt, Present (s₁.mem.pde p i) → i < userPdeStart ∧
      Present (s.mem.pde L.kernelPageDir i) ∧ s₁.mem.table p i = s.mem.table L.kernelPageDir i := by
    intro i hi hpi
    have hlow : i < userPdeStart := by
      by_contra hge
      have hzero : s₁.mem.pde p i = 0 := howned.shape.pde i (by omega) hi
      rw [hzero] at hpi
      exact absurd hpi (by decide)
    have hsame : s₁.mem.pde p i = s.mem.pde L.kernelPageDir i := hkernel i hlow
    rw [hsame] at hpi
    exact ⟨hlow, hpi, by rw [Mem.table, hsame]⟩
  refine ⟨⟨⟨howned.dirPage, fun i hi hpi => ?_, fun i hi k hk' hpi hpk he => ?_⟩, howned.managed,
    howned.clear, ?_, fun i hi hpi => ?_⟩, hp, hpages, hcr, hout, htables⟩
  · obtain ⟨-, hpi', he⟩ := htables i hi hpi
    rw [he]
    exact ⟨(hk.directory.tablePage i hi hpi').1, fun h => hk.table_taken i hi hpi' (h ▸ hp)⟩
  · obtain ⟨-, hpi', hei⟩ := htables i hi hpi
    obtain ⟨-, hpk', hek⟩ := htables k hk' hpk
    exact hk.directory.apart i hi k hk' hpi' hpk' (hei.symm.trans (he.trans hek))
  · rw [hpages]
    exact Finset.notMem_erase _ _
  · obtain ⟨-, hpi', he⟩ := htables i hi hpi
    rw [he, hpages]
    exact fun hin => hk.table_taken i hi hpi' (Finset.mem_of_mem_erase hin)

/-! ## What the kernel keeps for itself -/

/-- The file buffer, the kernel stack, the free pages and the tables of the kernel. -/
def KernelByte (L : Layout) (stack : ℕ) (s : Vm) (x : ℕ) : Prop :=
  InBuffer x ∨ InPage stack x ∨ (∃ p ∈ s.alloc.clearPages, InPage p x) ∨
    ∃ i < pdeCnt, Present (s.mem.pde L.kernelPageDir i) ∧ InPage (s.mem.table L.kernelPageDir i) x

/-- The kernel stack is a page of its own. -/
structure OwnStack (L : Layout) (s : Vm) (stack : ℕ) : Prop where
  page : KernelPage stack
  taken : stack ∉ s.alloc.clearPages
  table_apart : ∀ i < pdeCnt, Present (s.mem.pde L.kernelPageDir i) →
    s.mem.table L.kernelPageDir i ≠ stack

/-- No free page besides those in `left`, no table of the kernel and no byte of the kernel stack lies in
the file buffer. -/
structure BufferOwn (L : Layout) (s : Vm) (stack : ℕ) (left : Finset ℕ) : Prop where
  stack_apart : ∀ x, InBuffer x → ¬ InPage stack x
  clear_apart : ∀ x, InBuffer x → ∀ p ∈ s.alloc.clearPages, p ∉ left → ¬ InPage p x
  table_apart : ∀ x, InBuffer x → ∀ i < pdeCnt, Present (s.mem.pde L.kernelPageDir i) →
    ¬ InPage (s.mem.table L.kernelPageDir i) x

theorem BufferOwn.of_empty (h : BufferOwn L s stack ∅) : BufferOwn L s stack left :=
  ⟨h.stack_apart, fun x hx p hp _ => h.clear_apart x hx p hp (Finset.notMem_empty p), h.table_apart⟩

/-- The file that `sys_open` reads. -/
def diskFile (disk : Disk) : ℕ → BitVec 8 := fun i => disk (5000 * sectorSize + i)

/-- The memory with the file in the buffer. -/
def openedMem (disk : Disk) (m : Mem) : Mem := m.place tempAddr tempSize (diskFile disk)

def openedVm (disk : Disk) (s : Vm) : Vm := { s with mem := openedMem disk s.mem }

variable {disk : Disk} {x : ℕ}

theorem openedMem_out {m : Mem} (hx : ¬ InBuffer x) : openedMem disk m x = m x := if_neg hx

theorem openedMem_holds (m : Mem) : (openedMem disk m).Holds (diskFile disk) tempSize tempAddr := by
  intro k hk
  rw [openedMem, Mem.place, if_pos (by omega), Nat.add_sub_cancel_left]

theorem sysOpen_opened {name : ℕ} {fs fs' : FileState} {c : ℤ}
    (h : sysOpen disk name fs = some (c, fs')) :
    c = -1 ∨ (c = tempFileId ∧ fs' = ⟨openedVm disk fs.vm, tempAddr⟩) := by
  rcases sysOpen_eq_some h with ⟨rfl, -⟩ | ⟨rfl, rfl⟩
  · exact .inl rfl
  · exact .inr ⟨rfl, rfl⟩

/-- The new directory is ready for the segments of the file. -/
theorem NewDir.opened (disk : Disk) (h : NewDir n L d s s') (hb : BufferOwn L s stack left)
    (hleft : left ⊆ s'.alloc.clearPages) : LoadBase (diskFile disk) d (openedVm disk s') left ∧
      Populated n d (openedVm disk s') (fun _ => none) (openedVm disk s') ∧
      ∀ i < pdeCnt, Present ((openedVm disk s').mem.pde d i) →
        Present (s.mem.pde L.kernelPageDir i) ∧
          (openedVm disk s').mem.table d i = s.mem.table L.kernelPageDir i := by
  have hd : d ∉ left := fun hin => h.growable.dir_taken (hleft hin)
  have hdir : ∀ x, InPage d x → openedMem disk s'.mem x = s'.mem x := fun x hx =>
    openedMem_out fun hin => hb.clear_apart x hin d h.clear hd hx
  have hcongr : Growable n d (openedVm disk s') ∧
      ∀ i < pdeCnt, (openedVm disk s').mem.pde d i = s'.mem.pde d i := h.growable.congr hdir
  obtain ⟨hg, hpde⟩ := hcongr
  have hkernel : ∀ i < pdeCnt, Present ((openedVm disk s').mem.pde d i) →
      i < userPdeStart ∧ Present (s.mem.pde L.kernelPageDir i) ∧
        (openedVm disk s').mem.table d i = s.mem.table L.kernelPageDir i := by
    intro i hi hp
    rw [hpde i hi] at hp
    rw [Mem.table, hpde i hi]
    exact h.kernel i hi hp
  refine ⟨⟨openedMem_holds s'.mem, fun x hx => hb.clear_apart x hx d h.clear hd,
    fun i hi hp x hx hin => ?_, fun p hp hout x hx => ?_⟩, .start hg fun i hi hi' hp => ?_,
    fun i hi hp => (hkernel i hi hp).2⟩
  · obtain ⟨-, hp', he⟩ := hkernel i hi hp
    exact hb.table_apart x hx i hi hp' (he ▸ hin)
  · have hp' : p ∈ s.alloc.clearPages.erase d := h.clearPages ▸ hp
    exact hb.clear_apart x hx p (Finset.mem_of_mem_erase hp') hout
  · exact absurd (hkernel i hi' hp).1 (not_lt.mpr hi)

/-! ## Bytes that stay -/

/-- What the user half of the current task consists of. -/
def TaskByte (L : Layout) (stack : ℕ) (s : Vm) (x : ℕ) : Prop := ¬ KernelByte L stack s x

theorem NewDir.agrees (h : NewDir n L d s s') (hb : BufferOwn L s stack left)
    (hleft : left ⊆ s'.alloc.clearPages) {v : Vm} (hu : Untouched d (openedVm disk s') v)
    (hcr : v.cr3 = s'.cr3) : Agrees (TaskByte L stack s) s v := by
  refine ⟨hcr.trans h.cr3, fun x hx => ?_⟩
  have hdir : ¬ InPage d x := fun hin => hx (.inr (.inr (.inl ⟨d, h.clear, hin⟩)))
  have hbuf : ¬ InBuffer x := fun hin => hx (.inl hin)
  refine (hu x hdir (fun i hi hp hin => ?_) fun p hp _ hin => ?_).trans
    ((openedMem_out hbuf).trans (h.out x hdir))
  · obtain ⟨hp', he⟩ := (h.opened disk hb hleft).2.2 i hi hp
    rw [he] at hin
    exact hx (.inr (.inr (.inr ⟨i, hi, hp', hin⟩)))
  · have hp' : p ∈ s.alloc.clearPages.erase d := h.clearPages ▸ hp
    exact hx (.inr (.inr (.inl ⟨p, Finset.mem_of_mem_erase hp', hin⟩)))

theorem NewDir.stackPage (h : NewDir n L d s s') (hb : BufferOwn L s stack left)
    (hleft : left ⊆ s'.alloc.clearPages) (hs : OwnStack L s stack) :
    StackPage d (openedVm disk s') stack where
  page := hs.page
  dir_apart he := hs.taken (he ▸ h.clear)
  clear_apart hin := hs.taken (Finset.mem_of_mem_erase (h.clearPages ▸ hin))
  table_apart i hi hp he := by
    obtain ⟨hp', ht⟩ := (h.opened disk hb hleft).2.2 i hi hp
    exact hs.table_apart i hi hp' (ht.symm.trans he)

theorem NewDir.argsApart (h : NewDir n L d s s') :
    ArgsApart (TaskByte L stack s) (openedVm disk s') stack where
  stack _ hx hin := hx (.inr (.inl hin))
  clear _ hx p hp hin := hx (.inr (.inr (.inl
    ⟨p, Finset.mem_of_mem_erase (show p ∈ s.alloc.clearPages.erase d from h.clearPages ▸ hp), hin⟩)))

/-- A frame of the new space holds what it held before the call, if it has not been written to. -/
theorem NewDir.frame_eq (h : NewDir n L d s s') (hb : BufferOwn L s stack left) {p : ℕ}
    (hp : p ∈ s'.alloc.clearPages) (hout : p ∉ left) (hx : InPage p x) (hpage : KernelPage p) :
    openedMem disk s'.mem x = s.mem x := by
  rw [h.clearPages, Finset.mem_erase] at hp
  have hdir : ¬ InPage d x := fun hin =>
    hp.1 (InPage.unique hpage.aligned h.growable.directory.dirPage.aligned hx hin)
  rw [openedMem_out fun hin => hb.clear_apart x hin p hp.2 hout hx, h.out x hdir]

/-! ## Segments and stack -/

/-- The segments of the file are in the space, and so is the new stack. -/
structure Ready (n dir : ℕ) (s₀ : Vm) (file : ℕ → BitVec 8) (s : Vm) : Prop where
  shown : ∃ img, Populated n dir s₀ img s ∧ ∀ j, UserSegment file j →
    SegmentShown file dir s.mem img (programHeader file j) ∧
      ∀ k < (programHeader file j).memsz, ¬ StackAddr ((programHeader file j).vaddr + k)
  stack : ∀ w, StackAddr w → (s.mem.walk dir w).isSome

/-- Writing to the stacks does not change the segments. -/
theorem Ready.written (h : Ready n dir s₀ file s) (hf : FitsBuffer file)
    (hw : ∀ img, Populated n dir s₀ img s → ∃ img', StackWritten n dir s₀ stack img s img' s') :
    Ready n dir s₀ file s' := by
  obtain ⟨img, hp, hshown⟩ := h.shown
  obtain ⟨img', hw'⟩ := hw img hp
  refine ⟨⟨img', hw'.populated, fun j hj => ⟨fun k hk => ?_, (hshown j hj).2⟩⟩, fun w hw => ?_⟩
  · obtain ⟨hseg, hout⟩ := hshown j hj
    obtain ⟨hmapped, himg⟩ := hseg k hk
    have hbase := hj.loadable.2
    have hend := (hf.segments j hj.lt hj.loadable).2.2
    rw [hw'.walk _ ⟨by omega, by omega⟩, hw'.rest _ (hout k hk)]
    exact ⟨hmapped, himg⟩
  · rw [hw'.walk w hw.user]
    exact h.stack w hw

theorem Kernel.HeadersLoaded.ready {t : TaskId} {k₀ k : Kernel} {r : ℤ} {v : Vm}
    (h : Kernel.HeadersLoaded n dir s₀ file t k₀ (fileHeader file).phnum k) (hf : FitsBuffer file)
    (hrun : memoryAllocForPageDir dir (memTaskStackTop - memTaskStackSize) memTaskStackSize
      (pteP ||| pteU ||| pteW) k.vm = some (r, v)) (hr : ¬ r < 0) :
    Ready n dir s₀ file v ∧ Untouched dir s₀ v ∧ v.cr3 = k.vm.cr3 := by
  obtain ⟨img, hp, hshown⟩ := h.shown
  have hadd := hp.addRange h.untouched (by decide) (by decide) (by decide) (by decide) hrun hr
  have harea : ∀ w, StackAddr w → ∃ i < memTaskStackSize,
      w = memTaskStackTop - memTaskStackSize + i := fun w hw =>
    ⟨w - (memTaskStackTop - memTaskStackSize), by have := hw.1; have := hw.2; omega,
      by have := hw.1; omega⟩
  refine ⟨⟨⟨img, hadd.populated, fun j hj => ⟨fun k hk => ?_, fun k hk hin => ?_⟩⟩, fun w hw => ?_⟩,
    hadd.untouched, hadd.cr3⟩
  · obtain ⟨hmapped, himg⟩ := hshown j hj.lt hj k hk
    have hbase := hj.loadable.2
    have hend := (hf.segments j hj.lt hj.loadable).2.2
    obtain ⟨x, hx⟩ := Option.isSome_iff_exists.mp hmapped
    exact ⟨by rw [hadd.keeps _ x ⟨by omega, by omega⟩ hx]; rfl, himg⟩
  · obtain ⟨i, hi, he⟩ := harea _ hin
    have hmapped := (hshown j hj.lt hj k hk).1
    rw [he, hadd.fresh i hi] at hmapped
    cases hmapped
  · obtain ⟨i, hi, rfl⟩ := harea w hw
    exact hadd.mapped i hi

/-! ## Words on the new stack -/

/-- A word on the new stack, when the processor uses the new directory. -/
theorem Ready.store {g v v' : Vm} {w b : ℕ} {u : Unit} (h : Ready n dir s₀ file g)
    (hf : FitsBuffer file) (hmem : v.mem = g.mem) (hcr : entryPaddr v.cr3 = dir)
    (hw : StackAddr w ∧ w % 4 = 0) (hrun : store32 w b v = some (u, v')) :
    ∃ g', Ready n dir s₀ file g' ∧ v'.mem = g'.mem ∧ v'.cr3 = v.cr3 ∧ g'.alloc = g.alloc := by
  obtain ⟨hw, hal⟩ := hw
  rw [store32, Option.map_eq_some_iff] at hrun
  obtain ⟨a, ha, hv⟩ := hrun
  obtain rfl := (Prod.mk.inj hv).2
  have hphys : g.mem.walk dir w = some a := by
    rw [Vm.phys, if_neg (not_lt.mpr hw.user.1), hmem, hcr] at ha
    exact ha
  have hwritten : ∀ img, Populated n dir s₀ img g →
      ∃ img', StackWritten n dir s₀ 0 img g img' { g with mem := g.mem.write32 a b } := by
    intro img hp
    refine StackWritten.of_frames hp 0 fun x hx => Mem.write32_apply_of_out x ?_
    by_contra hno
    have hpage : w % memPageSize + (x - a) < memPageSize := by
      unfold memPageSize
      omega
    have hstack : StackAddr (w + (x - a)) := by
      obtain ⟨h1, h2⟩ := hw
      unfold memTaskStackTop at h1 h2
      exact ⟨by unfold memTaskStackTop; omega, by unfold memTaskStackTop; omega⟩
    refine hx (w + (x - a)) hstack ?_
    rw [walk_add hpage hphys]
    congr 1
    omega
  refine ⟨{ g with mem := g.mem.write32 a b }, h.written hf hwritten, ?_, rfl, rfl⟩
  show v.mem.write32 a b = g.mem.write32 a b
  rw [hmem]

/-- The words that `cstart` pushes. -/
theorem stackAddr_push {i : ℕ} (hi : 0 < i) (hi' : i ≤ 3) :
    StackAddr (u32Sub Kernel.execStackTop (4 * i)) ∧ u32Sub Kernel.execStackTop (4 * i) % 4 = 0 := by
  interval_cases i <;> decide

theorem cstart_ready {g v v' : Vm} {ret sp : ℕ} (h : Ready n dir s₀ file g) (hf : FitsBuffer file)
    (hmem : v.mem = g.mem) (hcr : entryPaddr v.cr3 = dir)
    (hrun : Kernel.cstart ret Kernel.execStackTop v = some (sp, v')) :
    ∃ g', Ready n dir s₀ file g' ∧ v'.mem = g'.mem ∧ v'.cr3 = v.cr3 ∧ g'.alloc = g.alloc := by
  have hpush : ∀ i, 0 < i → i ≤ 3 → StackAddr (u32Sub Kernel.execStackTop (4 * i)) ∧
      u32Sub Kernel.execStackTop (4 * i) % 4 = 0 := fun i hi hi' => stackAddr_push hi hi'
  obtain ⟨a, v₁, hload₁, hrun₁⟩ := Prog.bind_eq_some.mp hrun
  obtain rfl := load32_along _ _ _ _ hload₁
  obtain ⟨b, v₂, hload₂, hrun₂⟩ := Prog.bind_eq_some.mp hrun₁
  obtain rfl := load32_along _ _ _ _ hload₂
  obtain ⟨_, v₃, hstore₃, hrun₃⟩ := Prog.bind_eq_some.mp hrun₂
  obtain ⟨g₃, h₃, hmem₃, hcr₃, hall₃⟩ := h.store hf hmem hcr (hpush 1 (by decide) (by decide)) hstore₃
  obtain ⟨_, v₄, hstore₄, hrun₄⟩ := Prog.bind_eq_some.mp hrun₃
  obtain ⟨g₄, h₄, hmem₄, hcr₄, hall₄⟩ :=
    h₃.store hf hmem₃ (by rw [hcr₃]; exact hcr) (hpush 2 (by decide) (by decide)) hstore₄
  obtain ⟨_, v₅, hstore₅, hret⟩ := Prog.bind_eq_some.mp hrun₄
  obtain ⟨g₅, h₅, hmem₅, hcr₅, hall₅⟩ :=
    h₄.store hf hmem₄ (by rw [hcr₄, hcr₃]; exact hcr) (hpush 3 (by decide) (by decide)) hstore₅
  obtain ⟨-, rfl⟩ := Prog.pure_eq_some.mp hret
  exact ⟨g₅, h₅, hmem₅, hcr₅.trans (hcr₄.trans hcr₃), hall₅.trans (hall₄.trans hall₃)⟩

end X86Os
