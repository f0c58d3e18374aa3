import X86Os.RoleSteps

/-!
# Writing to frames keeps the roles

The bytes of a file, the arguments of a program and the frame of a system call are written to pages that
an address space maps, to the kernel stack of the task, or, where an entry is empty, to the first page of
memory. None of them is a table.
-/

namespace X86Os

open Kernel (PageUsed)

variable {L : Layout} {n c d i j p q t w e a perm size dest src : ℕ} {m₀ m : Mem} {role role' : RoleMap}
  {o : TaskId} {v v' : Vm} {u : Unit}

/-! ## What a copy changes -/

theorem store8_places {b : BitVec 8} (ha : a < memoryTaskBase) (hrun : store8 a b v = some (u, v')) :
    v'.alloc = v.alloc ∧ v'.cr3 = v.cr3 ∧ ∀ x, x ≠ a → v'.mem x = v.mem x := by
  have hid := store8_identity hrun ha
  obtain ⟨-, rfl⟩ := Prog.result_unique hrun (store8_of_identity hid b)
  exact ⟨rfl, rfl, fun x hx => Function.update_of_ne hx _ _⟩

theorem store32_places (ha : a < memoryTaskBase) (hrun : store32 a w v = some (u, v')) :
    v'.alloc = v.alloc ∧ v'.cr3 = v.cr3 ∧ ∀ x, ¬ (a ≤ x ∧ x < a + 4) → v'.mem x = v.mem x := by
  obtain ⟨y, hy, hv⟩ := Option.map_eq_some_iff.mp hrun
  rw [Vm.phys, if_pos ha] at hy
  split_ifs at hy
  obtain rfl := Option.some.inj hy
  obtain ⟨-, rfl⟩ := Prod.mk.inj hv
  exact ⟨rfl, rfl, fun x hx => Mem.write32_apply_of_out x (by omega)⟩

theorem memcpyLoop_places (hend : dest + size ≤ memoryTaskBase)
    (hrun : memcpyLoop size dest src v = some (u, v')) :
    v'.alloc = v.alloc ∧ v'.cr3 = v.cr3 ∧ ∀ x, ¬ (dest ≤ x ∧ x < dest + size) → v'.mem x = v.mem x := by
  induction size generalizing dest src v with
  | zero =>
      obtain ⟨-, rfl⟩ := Prog.pure_eq_some.mp hrun
      exact ⟨rfl, rfl, fun _ _ => rfl⟩
  | succ size ih =>
      obtain ⟨b, v₁, hload, hrun⟩ := Prog.bind_eq_some.mp hrun
      obtain rfl : v = v₁ := load8_along _ _ _ _ hload
      obtain ⟨_, v₂, hstore, hrun⟩ := Prog.bind_eq_some.mp hrun
      obtain ⟨halloc, hcr3, hout⟩ := store8_places (by omega) hstore
      rw [u32_of_lt (show dest + 1 < 2 ^ 32 by unfold memoryTaskBase at hend; omega)] at hrun
      obtain ⟨halloc', hcr3', hout'⟩ := ih (by omega) hrun
      refine ⟨halloc'.trans halloc, hcr3'.trans hcr3, fun x hx => ?_⟩
      rw [hout' x (by omega), hout x (by omega)]

theorem kernelMemcpy_places (hend : dest + size ≤ memoryTaskBase)
    (hrun : kernelMemcpy dest src size v = some (u, v')) :
    v'.alloc = v.alloc ∧ v'.cr3 = v.cr3 ∧ ∀ x, ¬ (dest ≤ x ∧ x < dest + size) → v'.mem x = v.mem x := by
  rw [kernelMemcpy] at hrun
  split_ifs at hrun
  · obtain ⟨-, rfl⟩ := Prog.pure_eq_some.mp hrun
    exact ⟨rfl, rfl, fun _ _ => rfl⟩
  · exact memcpyLoop_places hend hrun

/-! ## Writing inside a page -/

/-- A page that is none of the tables, with its place in the kernel half. -/
structure ScratchPage (role : RoleMap) (q : ℕ) : Prop where
  scratch : Roles.Scratch role q
  aligned : q % memPageSize = 0
  end_le : q + memPageSize ≤ memoryTaskBase

theorem ScratchPage.mono (h : ScratchPage role q) (hr : role ≤ role') : ScratchPage role' q :=
  ⟨h.scratch.imp_right fun ⟨k, hq, hk⟩ => ⟨k, hr _ _ hq, hk⟩, h.aligned, h.end_le⟩

theorem Roles.scratchPage {k : PageRole} (h : Roles L n m₀ c role v) (hp : role p = some k) (hk : k.Plain) :
    ScratchPage role p := ⟨.inr ⟨k, hp, hk⟩, (h.bounds hp).1, (h.bounds hp).2.2⟩

theorem keepsRoles_memcpy (hq : ScratchPage role q) (hd : q ≤ dest) (hd' : dest + size ≤ q + memPageSize) :
    KeepsRoles L n m₀ c role (kernelMemcpy dest src size) fun _ _ => True := by
  intro role' hle v u v' hr hrun
  have hend := hq.end_le
  obtain ⟨halloc, hcr3, hout⟩ := kernelMemcpy_places (by omega) hrun
  refine ⟨role', le_rfl, hr.write (hq.mono hle).scratch halloc hcr3 fun x hx => hout x ?_, trivial⟩
  unfold InPage at hx
  omega

theorem keepsRoles_store32 (hq : ScratchPage role q) (ha : q ≤ a) (ha' : a + 4 ≤ q + memPageSize) (x : ℕ) :
    KeepsRoles L n m₀ c role (store32 a x) fun _ _ => True := by
  intro role' hle v u v' hr hrun
  have hend := hq.end_le
  obtain ⟨halloc, hcr3, hout⟩ := store32_places (by omega) hrun
  refine ⟨role', le_rfl, hr.write (hq.mono hle).scratch halloc hcr3 fun x hx => hout x ?_, trivial⟩
  unfold InPage at hx
  omega

/-- A lookup finds nothing or a place in a page that is none of the tables. -/
theorem keepsRoles_getPaddr (hd : role d = some (.dir o)) (hw : UserAddr w) :
    KeepsRoles L n m₀ c role (memoryGetPaddr d w) fun role' a =>
      a = 0 ∨ ∃ q, ScratchPage role' q ∧ a = q + w % memPageSize :=
  Prog.ensures_of_eq (memoryGetPaddr_along d w) fun role' hle v a v' hr hrun => by
    rcases hr.getPaddr_user (hle _ _ hd) hw hrun with h0 | ⟨q, hq, hal, hend, ha⟩
    · exact .inl h0
    · exact .inr ⟨q, ⟨hq, hal, hend⟩, ha⟩

/-! ## Copying to an address space -/

/-- Where a copy has come to: an address of the user half, or the end of the address space. -/
def CopyPlace (w : ℕ) : Prop := UserAddr w ∨ w = 0

theorem CopyPlace.next {s : ℕ} (h : UserAddr w) (hs : w + s ≤ 2 ^ 32) : CopyPlace (u32 (w + s)) := by
  by_cases he : w + s = 2 ^ 32
  · exact .inr (by rw [he]; rfl)
  · have hlt : w + s < 2 ^ 32 := by omega
    rw [u32_of_lt hlt]
    exact .inl ⟨h.1.trans (Nat.le_add_right _ _), hlt⟩

/-- A copy that comes to the end of the address space gives up: there the kernel's first page is mapped. -/
theorem keepsRoles_copyUvmDataLoop {fuel : ℕ} (hd : role d = some (.dir o)) (hdest : CopyPlace dest)
    (hfuel : size ≤ fuel) :
    KeepsRoles L n m₀ c role (memoryCopyUvmDataLoop d fuel dest src size) fun _ r =>
      0 ≤ r → size = 0 ∨ (UserAddr dest ∧ dest + size ≤ 2 ^ 32) := by
  induction fuel generalizing role dest src size with
  | zero => exact Prog.ensures_pure fun _ _ _ => .inl (by omega)
  | succ fuel ih =>
      refine Prog.Ensures.ite (fun h0 => Prog.ensures_pure fun _ _ _ => .inl h0) fun h0 => ?_
      rcases hdest with hw | rfl
      · refine (keepsRoles_getPaddr hd hw).bind fun role₁ hle a ha => ?_
        refine Prog.Ensures.ite (fun _ => Prog.ensures_pure fun _ _ hr => by omega) fun ha0 => ?_
        obtain ⟨q, hq, rfl⟩ := ha.resolve_left ha0
        have hqal := hq.aligned
        have hoff : (q + dest % memPageSize) % memPageSize = dest % memPageSize := by
          unfold memPageSize at *
          omega
        have hlt : dest % memPageSize < memPageSize := Nat.mod_lt _ (by decide)
        have hend : dest + (memPageSize - dest % memPageSize) ≤ 2 ^ 32 := by
          have := hw.2
          unfold memPageSize
          omega
        rw [hoff]
        generalize hs : min size (memPageSize - dest % memPageSize) = s
        refine (keepsRoles_memcpy hq (Nat.le_add_right _ _) (by omega)).bind fun role₂ hle₂ _ _ => ?_
        refine (ih (hle₂ _ _ (hle _ _ hd)) (.next hw (by omega)) (by omega)).weaken
          fun _ _ r hpost hr => .inr ⟨hw, ?_⟩
        rcases hpost hr with hz | ⟨huser, hle'⟩
        · omega
        · have hne : dest + s ≠ 2 ^ 32 := fun he => by
            have hge := huser.1
            rw [he] at hge
            exact absurd hge (by decide)
          rw [u32_of_lt (by omega)] at hle'
          omega
      · have hzero : KeepsRoles L n m₀ c role (memoryGetPaddr d 0) fun _ a => a = 0 :=
          Prog.ensures_of_eq (memoryGetPaddr_along d 0) fun role' hle v a v' hr hrun =>
            hr.getPaddr_zero (hle _ _ hd) hrun
        refine hzero.bind fun role₁ hle a ha => ?_
        rw [if_pos ha]
        exact Prog.ensures_pure fun _ _ hr => by omega

theorem keepsRoles_copyUvmData (hd : role d = some (.dir o)) (hdest : CopyPlace dest) :
    KeepsRoles L n m₀ c role (memoryCopyUvmData dest d src size) fun _ r =>
      0 ≤ r → size = 0 ∨ (UserAddr dest ∧ dest + size ≤ 2 ^ 32) :=
  keepsRoles_copyUvmDataLoop hd hdest le_rfl

/-! ## Arguments -/

/-- One argument and its place in the table. -/
theorem keepsRoles_copyArg {argv : ℕ} (hd : role d = some (.dir o)) (hdest : CopyPlace dest)
    (hq : ScratchPage role q) (ht : q ≤ t) (ht' : t + 4 * i + 4 ≤ q + memPageSize) :
    KeepsRoles L n m₀ c role (copyArg d argv t i dest) fun _ next => CopyPlace next := by
  refine (Prog.keeps_of_eq (load32_along _)).bind fun s =>
    (Prog.keeps_of_eq (kernelStrlen_along s)).bind fun len => ?_
  refine (keepsRoles_copyUvmData hd hdest).bind fun role₁ hle err herr => ?_
  refine (Prog.keeps_require (0 ≤ err)).bind fun role₂ hle₂ _ hnonneg => ?_
  have hend := hq.end_le
  have hwrap : u32 (t + 4 * i) = t + 4 * i := u32_of_lt (by unfold memoryTaskBase at hend; omega)
  rw [hwrap]
  refine (keepsRoles_store32 ((hq.mono hle).mono hle₂) (by omega) ht' dest).bind fun _ _ _ _ => ?_
  refine Prog.ensures_pure fun _ _ => ?_
  obtain ⟨huser, hle'⟩ := (herr hnonneg).resolve_left (Nat.succ_ne_zero len)
  exact .next huser hle'

theorem keepsRoles_copyArgsLoop {argv k : ℕ} (hd : role d = some (.dir o)) (hdest : CopyPlace dest)
    (hq : ScratchPage role q) (ht : q ≤ t) (ht' : t + 4 * (i + k) ≤ q + memPageSize) :
    KeepsRoles L n m₀ c role (copyArgsLoop d argv t k i dest) fun _ _ => True := by
  induction k generalizing role i dest with
  | zero => exact Prog.keeps_pure ()
  | succ k ih =>
      refine (keepsRoles_copyArg hd hdest hq ht (by omega)).bind fun role₁ hle next hnext => ?_
      exact ih (hle _ _ hd) hnext (hq.mono hle) (by omega)

/-- The table of the arguments fits the page it starts in. -/
def ArgTableFits (argc : ℕ) : Prop := taskArgsSize + 4 * argc ≤ memPageSize

theorem keepsRoles_copyArgs {argc argv argsAt stack : ℕ} (hd : role d = some (.dir o))
    (hs : ScratchPage role stack) (ha : stack ≤ argsAt) (ha' : argsAt + taskArgsSize ≤ stack + memPageSize)
    (hfit : ArgTableFits argc) :
    KeepsRoles L n m₀ c role (copyArgs argsAt Kernel.execStackTop d argc argv) fun _ _ => True := by
  have htop : Kernel.execStackTop = 0xDFFFC000 := rfl
  have hargs : taskArgsSize = 12 := rfl
  have hw : UserAddr (Kernel.execStackTop + taskArgsSize) := ⟨by decide, by decide⟩
  have hmod : (Kernel.execStackTop + taskArgsSize) % memPageSize = taskArgsSize := by decide
  have hwrap : u32 (Kernel.execStackTop + taskArgsSize) = Kernel.execStackTop + taskArgsSize :=
    u32_of_lt hw.2
  unfold ArgTableFits at hfit
  refine (keepsRoles_store32 hs (by omega) (by omega) _).keeps.bind fun _ => ?_
  refine (keepsRoles_store32 hs (by omega) (by omega) _).keeps.bind fun _ => ?_
  rw [hwrap]
  refine (keepsRoles_getPaddr hd hw).bind fun role₁ hle table htable => ?_
  refine (Prog.keeps_require (table ≠ 0)).bind fun role₂ hle₂ _ hne => ?_
  obtain ⟨q, hq, rfl⟩ := htable.resolve_left hne
  rw [hmod]
  have hd₂ := hle₂ _ _ (hle _ _ hd)
  have hdest : CopyPlace (u32 (Kernel.execStackTop + taskArgsSize + 4 * argc)) := by
    refine .next hw ?_
    rw [htop]
    unfold memPageSize at hfit
    omega
  have hloop : KeepsRoles L n m₀ c role₂ (copyArgsLoop d argv (q + taskArgsSize) argc 0
      (u32 (Kernel.execStackTop + taskArgsSize + 4 * argc))) fun _ _ => True :=
    keepsRoles_copyArgsLoop hd₂ hdest (hq.mono hle₂) (Nat.le_add_right q taskArgsSize) (by omega)
  refine Prog.Keeps.bind hloop fun _ => ?_
  exact (keepsRoles_copyUvmData hd₂ (.inl ⟨by decide, by decide⟩)).keeps

/-! ## Segments -/

/-- The roles of the pages of a state with a file. -/
abbrev FileRoles (L : Layout) (n : ℕ) (m₀ : Mem) (c : ℕ) (role : RoleMap) (fs : FileState) : Prop :=
  Roles L n m₀ c role fs.vm

theorem fileRoles_onVm {A : Type} {f : Prog Vm A} {post : RoleMap → A → Prop}
    (h : KeepsRoles L n m₀ c role f post) : Prog.Ensures (FileRoles L n m₀ c) role (onVm f) post :=
  h.zoom (fun _ _ ht => ht) fun _ _ _ _ _ _ hr => hr

theorem fileRoles_modify {g : FileState → FileState} (hg : ∀ fs, (g fs).vm = fs.vm) :
    Prog.Keeps (FileRoles L n m₀ c) role (Prog.modify g) := by
  intro role' _ fs u fs' hr hrun
  obtain rfl := Prog.modify_eq_some.mp hrun
  refine ⟨role', le_rfl, ?_, trivial⟩
  show Roles L n m₀ c role' (g fs).vm
  rw [hg]
  exact hr

theorem fileRoles_gets {A : Type} (g : FileState → A) :
    Prog.Keeps (FileRoles L n m₀ c) role (Prog.gets g) :=
  Prog.keeps_of_eq (Prog.along_gets g)

/-- Reading to a place that a lookup of a page has found. -/
theorem fileRoles_sysRead {file : ℤ} (hp : p = 0 ∨ ScratchPage role p) (hs : size ≤ memPageSize) :
    Prog.Keeps (FileRoles L n m₀ c) role (sysRead file p size) := by
  have hcopy : ∀ src, Prog.Keeps (FileRoles L n m₀ c) role (onVm (kernelMemcpy p src size)) := by
    intro src
    refine fileRoles_onVm ?_
    rcases hp with rfl | hq
    · rw [kernelMemcpy, if_pos (.inl rfl)]
      exact Prog.keeps_pure ()
    · exact keepsRoles_memcpy hq le_rfl (by omega)
  exact Prog.Ensures.ite (fun _ => (fileRoles_gets _).bind fun src => (hcopy src).bind fun _ =>
    (fileRoles_modify (g := fun fs => { fs with tempPos := u32 (fs.tempPos + size) })
      fun _ => rfl).bind fun _ => Prog.keeps_pure _)
    fun _ => Prog.keeps_pure _

/-- The bytes of a segment that ends in the user half. -/
theorem fileRoles_loadPhdrLoop {file : ℤ} {fuel : ℕ} (hd : role d = some (.dir o))
    (hw : size = 0 ∨ (UserAddr w ∧ w % memPageSize = 0)) (hend : w + size ≤ 2 ^ 32) :
    Prog.Keeps (FileRoles L n m₀ c) role (loadPhdrLoop file d fuel w size) := by
  induction fuel generalizing role w size with
  | zero => exact Prog.keeps_pure 0
  | succ fuel ih =>
      refine Prog.Ensures.ite (fun _ => Prog.keeps_pure 0) fun h0 => ?_
      obtain ⟨huser, hal⟩ := hw.resolve_left h0
      refine (fileRoles_onVm (keepsRoles_getPaddr hd huser)).bind fun role₁ hle p hp => ?_
      have hp' : p = 0 ∨ ScratchPage role₁ p := by
        refine hp.imp_right ?_
        rintro ⟨q, hq, rfl⟩
        rwa [hal]
      refine (fileRoles_sysRead hp' (min_le_right _ _)).bind fun cnt => ?_
      refine Prog.Ensures.ite (fun _ => Prog.keeps_pure _) fun _ => ih (hle _ _ hd) ?_ ?_
      all_goals generalize hs : min size memPageSize = s
      · by_cases hlast : s = size
        · exact .inl (by omega)
        · have hpage : s = memPageSize := by omega
          have hlt : w + s < 2 ^ 32 := by omega
          rw [u32_of_lt hlt]
          refine .inr ⟨⟨huser.1.trans (Nat.le_add_right _ _), hlt⟩, ?_⟩
          rw [hpage, Nat.add_mod_right]
          exact hal
      · have hle := Nat.mod_le (w + s) (2 ^ 32)
        unfold u32
        omega

/-- A segment whose bytes end in the user half. -/
theorem fileRoles_loadPhdr {file : ℤ} {ph : Elf32Phdr} (hd : role d = some (.dir o)) (hw : UserAddr ph.vaddr)
    (hend : ph.vaddr + ph.filesz ≤ 2 ^ 32) :
    Prog.Keeps (FileRoles L n m₀ c) role (loadPhdr file ph d) := by
  refine (Prog.keeps_require _).bind fun role₁ hle _ hal => ?_
  have hd₁ := hle _ _ hd
  refine (fileRoles_onVm (keepsRoles_allocForPageDir hd₁ hw hal (by decide))).keeps.bind fun err => ?_
  refine Prog.Ensures.ite (fun _ => Prog.keeps_pure _) fun _ => ?_
  have hseek : Prog.Keeps (FileRoles L n m₀ c) role₁ (sysLseek file ph.offset) :=
    Prog.Ensures.ite (fun _ => (fileRoles_modify
      (g := fun fs => { fs with tempPos := u32 (ph.offset + tempAddr) }) fun _ => rfl).bind
        fun _ => Prog.keeps_pure _) fun _ => Prog.keeps_pure _
  exact hseek.bind fun pos => Prog.Ensures.ite (fun _ => Prog.keeps_pure _) fun _ =>
    fileRoles_loadPhdrLoop hd₁ (.inr ⟨hw, hal⟩) hend

end X86Os
