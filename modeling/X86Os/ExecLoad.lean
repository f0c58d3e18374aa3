import X86Os.TakenPages

/-!
# Loading a file

`load_elf_file` on a new directory: if it returns an entry, then every segment in user space is mapped,
with the bytes of the file in it and the rest as it was in the pages that it got.
-/

namespace X86Os

namespace Kernel

variable {n dir o j : ℕ} {file : ℕ → BitVec 8} {s₀ : Vm} {t : TaskId} {k₀ k k' : Kernel} {A : Type}
  {left : Finset ℕ}

/-- The current task and the registers of the task `t` are the same. -/
structure Keeps (t : TaskId) (k k' : Kernel) : Prop where
  currTask : k'.sched.currTask = k.sched.currTask
  tss : (k'.task t).tss = (k.task t).tss

theorem Keeps.refl (t : TaskId) (k : Kernel) : k.Keeps t k := ⟨rfl, rfl⟩

theorem Keeps.trans {k'' : Kernel} (h : k.Keeps t k') (h' : k'.Keeps t k'') : k.Keeps t k'' :=
  ⟨h'.currTask.trans h.currTask, h'.tss.trans h.tss⟩

/-- The state with other memory and file position. -/
def withFile (k : Kernel) (fs : FileState) : Kernel :=
  { k with vm := fs.vm, tempPos := fs.tempPos }

@[simp] theorem withFile_vm (k : Kernel) (fs : FileState) : (k.withFile fs).vm = fs.vm := rfl

theorem keeps_withFile (t : TaskId) (k : Kernel) (fs : FileState) : k.Keeps t (k.withFile fs) :=
  ⟨rfl, rfl⟩

theorem onFile_of_eq {f : Prog FileState A} {a : A} {fs : FileState}
    (h : f ⟨k.vm, k.tempPos⟩ = some (a, fs)) : onFile f k = some (a, k.withFile fs) :=
  Prog.zoom_of_eq h

theorem onFile_eq_some {f : Prog FileState A} {a : A} (h : onFile f k = some (a, k')) :
    ∃ fs, f ⟨k.vm, k.tempPos⟩ = some (a, fs) ∧ k' = k.withFile fs :=
  Prog.zoom_eq_some.mp h

theorem onFile_sysLseek (h : o ≤ tempSize) :
    onFile (sysLseek tempFileId o) k = some (0, k.withFile ⟨k.vm, tempAddr + o⟩) := by
  have hpos : u32 (o + tempAddr) = tempAddr + o := by
    rw [u32_of_lt (by unfold tempAddr tempSize sectorSize at *; omega), Nat.add_comm]
  have hseek : sysLseek tempFileId o ⟨k.vm, k.tempPos⟩ = some (0, ⟨k.vm, tempAddr + o⟩) := by
    rw [sysLseek, if_pos rfl, Prog.modify_bind, hpos]
    rfl
  exact onFile_of_eq hseek

theorem onFile_sysReadLocal {c : ℕ} (h : k.vm.mem.Holds file tempSize tempAddr)
    (hpos : k.tempPos = tempAddr + o) (ho : o + c ≤ tempSize) (hc : c ≠ 0)
    (old : Option (List (BitVec 8))) : onFile (sysReadLocal tempFileId c old) k =
      some (((c : ℤ), fileBytes file o c), k.withFile ⟨k.vm, tempAddr + (o + c)⟩) := by
  have hread : sysReadLocal tempFileId c old ⟨k.vm, k.tempPos⟩ =
      some (((c : ℤ), fileBytes file o c), ⟨k.vm, tempAddr + (o + c)⟩) :=
    sysReadLocal_eq h hpos ho hc old
  exact onFile_of_eq hread

/-- After some rounds of the loop over the headers. -/
structure HeadersLoaded (n dir : ℕ) (s₀ : Vm) (file : ℕ → BitVec 8) (t : TaskId) (k₀ : Kernel)
    (i : ℕ) (k : Kernel) : Prop where
  keeps : k₀.Keeps t k
  cr3 : k.vm.cr3 = s₀.cr3
  untouched : Untouched dir s₀ k.vm
  shown : ∃ img, Populated n dir s₀ img k.vm ∧ ∀ j < i, UserSegment file j →
    SegmentShown file dir k.vm.mem img (programHeader file j)

/-- What a round does with the header that it has read from `bytes`. -/
def loadSegment (t : TaskId) (dir : ℕ) (ph : Elf32Phdr) (bytes : List (BitVec 8)) :
    Prog Kernel (Unit ⊕ Option (List (BitVec 8))) :=
  if ph.type ≠ ptLoad ∨ ph.vaddr < memoryTaskBase then pure (.inr (some bytes))
  else do
    let err ← onFile (loadPhdr tempFileId ph dir)
    if err < 0 then pure (.inl ())
    else
      setTask t fun task =>
        { task with heapStart := u32 (ph.vaddr + ph.memsz), heapEnd := u32 (ph.vaddr + ph.memsz) }
      pure (.inr (some bytes))

theorem keeps_setTask {f : Task → Task} {u : Unit} (hrun : setTask t f k = some (u, k'))
    (hf : ∀ task, (f task).tss = task.tss) : k.Keeps t k' ∧ k'.vm = k.vm := by
  obtain rfl := setTask_eq_some.mp hrun
  refine ⟨⟨rfl, ?_⟩, rfl⟩
  show (Function.update k.task t (f (k.task t)) t).tss = _
  rw [Function.update_self, hf]

/-- A round starts by reading the header from the buffer. -/
theorem loadHeader_read {i : ℕ} (hb : LoadBase file dir s₀ left) (hu : Untouched dir s₀ k.vm)
    (hleft : left ⊆ k.vm.alloc.clearPages)
    (hin : (fileHeader file).phoff + i * (fileHeader file).phentsize + phdrSize ≤ tempSize)
    (old : Option (List (BitVec 8))) : ∃ pos bytes,
    loadHeader t tempFileId dir (fileHeader file).phoff (fileHeader file).phentsize i old k =
      loadSegment t dir (programHeader file i) bytes (k.withFile ⟨k.vm, pos⟩) := by
  generalize ho : (fileHeader file).phoff + i * (fileHeader file).phentsize = o at hin
  have hwrap : u32 o = o := u32_of_lt (by unfold tempSize sectorSize at *; omega)
  have hseek : onFile (sysLseek tempFileId o) k = some (0, k.withFile ⟨k.vm, tempAddr + o⟩) :=
    onFile_sysLseek (by omega)
  have hread : onFile (sysReadLocal tempFileId phdrSize old) (k.withFile ⟨k.vm, tempAddr + o⟩) =
      some (((phdrSize : ℤ), fileBytes file o phdrSize),
        (k.withFile ⟨k.vm, tempAddr + o⟩).withFile ⟨k.vm, tempAddr + (o + phdrSize)⟩) :=
    onFile_sysReadLocal (k := k.withFile ⟨k.vm, tempAddr + o⟩) (hb.holds hu hleft) rfl hin (by decide) old
  have hfull : ¬ toU32 (phdrSize : ℤ) < phdrSize := by decide
  have hph : Elf32Phdr.ofBytes (fileBytes file o phdrSize) = programHeader file i := by
    rw [← ho]
    rfl
  refine ⟨tempAddr + (o + phdrSize), fileBytes file o phdrSize, ?_⟩
  rw [loadHeader, ho, hwrap, Prog.bind_of_eq hseek, if_neg (lt_irrefl _), Prog.bind_of_eq hread]
  dsimp only
  rw [if_neg hfull, hph]
  rfl

theorem HeadersLoaded.round {i : ℕ} {old : Option (List (BitVec 8))}
    {r : Unit ⊕ Option (List (BitVec 8))} (hb : LoadBase file dir s₀ left)
    (hf : FitsBuffer file) (hi : i < (fileHeader file).phnum)
    (hleft : left ⊆ k.vm.alloc.clearPages) (hleft' : left ⊆ k'.vm.alloc.clearPages)
    (h : HeadersLoaded n dir s₀ file t k₀ i k)
    (hrun : loadHeader t tempFileId dir (fileHeader file).phoff (fileHeader file).phentsize i old k =
      some (r, k')) :
    r.elim (fun _ => True) fun _ => HeadersLoaded n dir s₀ file t k₀ (i + 1) k' := by
  obtain ⟨pos, bytes, hread⟩ := loadHeader_read (t := t) hb h.untouched hleft (hf.headers i hi) old
  rw [hread, loadSegment] at hrun
  obtain ⟨img, hp, hshown⟩ := h.shown
  by_cases hskip : (programHeader file i).type ≠ ptLoad ∨
      (programHeader file i).vaddr < memoryTaskBase
  · rw [if_pos hskip] at hrun
    obtain ⟨rfl, rfl⟩ := Prog.pure_eq_some.mp hrun
    refine ⟨h.keeps.trans (keeps_withFile t k _), h.cr3, h.untouched, img, hp, fun j hj hseg => ?_⟩
    rcases Nat.lt_succ_iff_lt_or_eq.mp hj with hlt | rfl
    · exact hshown j hlt hseg
    · rcases hskip with htype | hlow
      · exact absurd hseg.loadable.1 htype
      · exact absurd hseg.loadable.2 (not_le.mpr hlow)
  · rw [if_neg hskip] at hrun
    obtain ⟨err, k₁, hload, hrest⟩ := Prog.bind_eq_some.mp hrun
    obtain ⟨fs, hphdr, rfl⟩ := onFile_eq_some hload
    rw [not_or, not_not, not_lt] at hskip
    obtain ⟨ho, hend, hend'⟩ := hf.segments i hi hskip
    by_cases herr : err < 0
    · rw [if_pos herr] at hrest
      obtain ⟨rfl, -⟩ := Prog.pure_eq_some.mp hrest
      trivial
    · rw [if_neg herr] at hrest
      obtain ⟨u, k₂, hset, hret⟩ := Prog.bind_eq_some.mp hrest
      obtain ⟨hkeeps, hvm⟩ := keeps_setTask hset fun _ => rfl
      obtain ⟨rfl, rfl⟩ := Prog.pure_eq_some.mp hret
      rw [withFile_vm] at hvm
      rw [hvm] at hleft'
      obtain ⟨img', hloaded⟩ : ∃ img', SegmentLoaded n dir s₀ file (programHeader file i) img
          (⟨k.vm, pos⟩ : FileState).vm img' fs.vm :=
        loadPhdr_loaded hb hp h.untouched hleft' hskip.2 hend hend' ho hphdr herr
      refine ⟨((h.keeps.trans (keeps_withFile t k _)).trans (keeps_withFile t _ fs)).trans hkeeps,
        hvm ▸ hloaded.cr3.trans h.cr3, hvm ▸ hloaded.untouched, img', hvm ▸ hloaded.populated,
        fun j hj hseg => ?_⟩
      rw [hvm]
      rcases Nat.lt_succ_iff_lt_or_eq.mp hj with hlt | rfl
      · exact hloaded.shows hseg hi (by omega) hskip
          (hf.segments j hseg.lt hseg.loadable).2.2 (hshown j hlt hseg)
      · exact hloaded.shown hp hseg hend'

/-- An open file: all its segments are loaded if an entry is returned. -/
theorem loadElfOpen_loaded {entry : ℕ} {img : ℕ → Option (BitVec 8)} (hb : LoadBase file dir s₀ left)
    (hf : FitsBuffer file) (hp : Populated n dir s₀ img k.vm) (hu : Untouched dir s₀ k.vm)
    (htaken : Taken n j k.vm) (hleft : left ⊆ k'.vm.alloc.clearPages) (hcr : k.vm.cr3 = s₀.cr3)
    (hpos : k.tempPos = tempAddr) (hrun : loadElfOpen t tempFileId dir k = some (entry, k'))
    (hentry : entry ≠ 0) : HeadersLoaded n dir s₀ file t k (fileHeader file).phnum k' := by
  have hkeep : ∀ disk i, LoadSteps (KeepsPage n i) disk t := fun disk i => keepsPage_loadSteps disk t
  have hsub : k'.vm.alloc.clearPages ⊆ k.vm.alloc.clearPages :=
    htaken.clear_subset fun i => (hkeep (fun _ => 0) i).loadElfOpen tempFileId dir k _ k' hrun
  have hread := onFile_sysReadLocal (hb.holds hu (hleft.trans hsub))
    (show k.tempPos = tempAddr + 0 from hpos) (show 0 + ehdrSize ≤ tempSize by decide) (by decide) none
  have hfull : ¬ toU32 (ehdrSize : ℤ) < ehdrSize := by decide
  have hhdr : Elf32Ehdr.ofBytes (fileBytes file 0 ehdrSize) = fileHeader file := rfl
  rw [loadElfOpen, Prog.bind_of_eq hread] at hrun
  dsimp only at hrun
  rw [if_neg hfull] at hrun
  simp only [hhdr] at hrun
  split_ifs at hrun with h1 h2 h3
  · exact absurd (Prog.pure_eq_some.mp hrun).1 hentry
  · exact absurd (Prog.pure_eq_some.mp hrun).1 hentry
  · exact absurd (Prog.pure_eq_some.mp hrun).1 hentry
  · obtain ⟨r, k₁, hloop, hret⟩ := Prog.bind_eq_some.mp hrun
    have hinit : Taken n j k.vm ∧ (left ⊆ k.vm.alloc.clearPages →
        HeadersLoaded n dir s₀ file t k 0 (k.withFile ⟨k.vm, tempAddr + (0 + ehdrSize)⟩)) :=
      ⟨htaken, fun _ => ⟨keeps_withFile t k _, hcr, hu, img, hp, nofun⟩⟩
    have hround : ∀ i old k₂ r k₃, 0 ≤ i → i < 0 + (fileHeader file).phnum →
        Taken n j k₂.vm ∧ (left ⊆ k₂.vm.alloc.clearPages → HeadersLoaded n dir s₀ file t k i k₂) →
        loadHeader t tempFileId dir (fileHeader file).phoff (fileHeader file).phentsize i old k₂ =
          some (r, k₃) → r.elim (fun _ => True) fun _ => Taken n j k₃.vm ∧
            (left ⊆ k₃.vm.alloc.clearPages → HeadersLoaded n dir s₀ file t k (i + 1) k₃) := by
      intro i old k₂ r k₃ _ hi ⟨htaken₂, hk₂⟩ hrun
      have hkeep₂ : ∀ l, KeepsTaken n l k₂.vm k₃.vm := fun l =>
        (hkeep (fun _ => 0) l).loadHeader _ _ _ _ _ _ k₂ r k₃ hrun
      have hsub₂ := htaken₂.clear_subset hkeep₂
      cases r with
      | inl u => trivial
      | inr next =>
          exact ⟨hkeep₂ j htaken₂, fun hleft₃ =>
            (hk₂ (hleft₃.trans hsub₂)).round hb hf (by omega) (hleft₃.trans hsub₂) hleft₃ hrun⟩
    have hcases := Prog.loopWith_cases (Q := fun _ _ => True) hround hinit hloop
    cases r with
    | inl u => exact absurd (Prog.pure_eq_some.mp hret).1 hentry
    | inr old =>
        obtain ⟨-, rfl⟩ := Prog.pure_eq_some.mp hret
        rw [Nat.zero_add] at hcases
        exact hcases.2 hleft

end Kernel

end X86Os
