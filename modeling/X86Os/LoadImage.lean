import X86Os.ElfImage
import X86Os.Populated

/-!
# Loading a segment

What `load_phdr` does to an address space that is being filled, when the file lies in the buffer of
`sys_open`: the pages of the segment are mapped, the bytes of the file come into the pages that are, and
nothing is written to the rest of the segment.
-/

namespace X86Os

variable {n dir v o c size perm : ℕ} {file : ℕ → BitVec 8} {s₀ s s' : Vm} {fs fs' : FileState}
  {img : ℕ → Option (BitVec 8)} {ph : Elf32Phdr} {r : ℤ} {left : Finset ℕ}

/-! ## Mapping a range -/

/-- The pages of a range were added to the space. -/
structure PagesAdded (n dir : ℕ) (s₀ : Vm) (img : ℕ → Option (BitVec 8)) (v size : ℕ)
    (s s' : Vm) : Prop where
  populated : Populated n dir s₀ img s'
  untouched : Untouched dir s₀ s'
  cr3 : s'.cr3 = s.cr3
  fresh : ∀ k < size, s.mem.walk dir (v + k) = none
  mapped : ∀ k < size, (s'.mem.walk dir (v + k)).isSome
  keeps : ∀ w x, UserAddr w → s.mem.walk dir w = some x → s'.mem.walk dir w = some x
  others : ∀ w, UserAddr w → (∀ k < size, w / memPageSize ≠ (v + k) / memPageSize) →
    s'.mem.walk dir w = s.mem.walk dir w

theorem Populated.addRange (h : Populated n dir s₀ img s) (hu : Untouched dir s₀ s)
    (hv : memoryTaskBase ≤ v) (hend : v + size ≤ 2 ^ 32) (hal : v % memPageSize = 0)
    (hperm : perm < memPageSize)
    (hrun : memoryAllocForPageDir dir v size perm s = some (r, s')) (hr : ¬ r < 0) :
    PagesAdded n dir s₀ img v size s s' := by
  have hperm' : perm < 2 ^ 32 := hperm.trans (by decide)
  obtain rfl : r = 0 :=
    (memoryAllocForPageDir_result h.growable hperm' hrun).resolve_right fun he => hr (by omega)
  obtain ⟨f, hall, hgrown⟩ := rangeAllocated_of_call h.growable hperm' hrun
  have hsmall : size ≤ 2 ^ 32 - memPageSize := by
    unfold memoryTaskBase memPageSize at *
    omega
  have hcovered := (range_allocation_covers h.growable hal (by omega) hperm hrun).mpr hsmall
  have hcount := (pageCount_eq (show size < 2 ^ 32 by omega)).trans (if_pos hsmall)
  have hwrap : ∀ k < size, u32 (v + k) = v + k := fun k hk => u32_of_lt (by omega)
  refine ⟨h.alloc hall hgrown hperm, h.alloc_untouched hall hgrown hu, hall.extended.cr3, fun k hk => ?_,
    fun k hk => ?_, fun w x hw hx => Populated.alloc_walk hall hgrown hw hx, fun w hw hne => ?_⟩
  · have hnone := hgrown.unmapped (k / memPageSize) (by rw [hcount]; unfold memPageSize; omega)
    obtain ⟨hi, hj⟩ := rangeAddr_index (k := k) hal
    rw [← hi, ← hj, hwrap k hk] at hnone
    exact walk_eq_none.mpr hnone
  · obtain ⟨e, he, -⟩ := hcovered.mapped k hk
    rw [hwrap k hk] at he
    exact walk_isSome_iff.mpr ⟨e, he⟩
  · have hout : rangeEntries v (fun k => f k ||| perm ||| pteP) (up2 size memPageSize / memPageSize)
        (pdeIndex w) (pteIndex w) = none := by
      refine rangeEntries_eq_none.mpr fun k hk hidx => hne (k * memPageSize) ?_ ?_
      · rw [hcount] at hk
        unfold memPageSize
        omega
      · rw [hcount] at hk
        rw [hwrap _ (by unfold memPageSize; omega)] at hidx
        exact page_of_indices hidx.1 hidx.2
    rw [walk_eq, walk_eq, hall.userEntry_eq hw.indices.2 (pteIndex_lt w), hout, Option.none_or]

/-! ## The buffer -/

/-- The file lies in the buffer, and no byte of it in a page that loading writes to; the pages `left`
are not taken. -/
structure LoadBase (file : ℕ → BitVec 8) (dir : ℕ) (s₀ : Vm) (left : Finset ℕ) : Prop where
  stored : s₀.mem.Holds file tempSize tempAddr
  dir_apart : ∀ x, InBuffer x → ¬ InPage dir x
  table_apart : ∀ i < pdeCnt, Present (s₀.mem.pde dir i) → ∀ x, InBuffer x →
    ¬ InPage (s₀.mem.table dir i) x
  clear_apart : ∀ p ∈ s₀.alloc.clearPages, p ∉ left → ∀ x, InBuffer x → ¬ InPage p x

theorem LoadBase.holds (h : LoadBase file dir s₀ left) (hu : Untouched dir s₀ s)
    (hleft : left ⊆ s.alloc.clearPages) : s.mem.Holds file tempSize tempAddr := by
  intro k hk
  have hx : InBuffer (tempAddr + k) := ⟨by omega, by omega⟩
  rw [hu _ (h.dir_apart _ hx) (fun i hi hp => h.table_apart i hi hp _ hx)
    fun p hp hout => h.clear_apart p hp (fun hin => hout (hleft hin)) _ hx]
  exact h.stored k hk

theorem loadBytes_of_identity {a : ℕ} (h : ∀ k < c, Identity (a + k)) :
    loadBytes c a s = some (fileBytes s.mem a c, s) := by
  induction c generalizing a with
  | zero => rfl
  | succ c ih =>
      have h0 : Identity a := h 0 (by omega)
      have hwrap : u32 (a + 1) = a + 1 := u32_of_lt (by have := h0.lt; omega)
      rw [loadBytes, Prog.bind_of_eq (load8_of_identity h0), hwrap,
        Prog.bind_of_eq (ih fun k hk => by rw [Nat.add_right_comm]; exact h (k + 1) (by omega)),
        fileBytes_succ]
      rfl

/-- Reading a header that lies in the buffer. -/
theorem sysReadLocal_eq (h : fs.vm.mem.Holds file tempSize tempAddr)
    (hpos : fs.tempPos = tempAddr + o) (ho : o + c ≤ tempSize) (hc : c ≠ 0)
    (old : Option (List (BitVec 8))) : sysReadLocal tempFileId c old fs =
      some (((c : ℤ), fileBytes file o c), { fs with tempPos := tempAddr + (o + c) }) := by
  have hid : ∀ k < c, Identity (tempAddr + o + k) := fun k hk => by
    rw [Nat.add_assoc]
    exact (buffer_identity (show o + k < tempSize by omega)).2
  have hbytes : fileBytes fs.vm.mem (tempAddr + o) c = fileBytes file o c :=
    List.map_congr_left fun k hk => by
      rw [List.mem_range] at hk
      rw [Nat.add_assoc]
      exact h (o + k) (by omega)
  have hne : ¬ (tempAddr + o = 0 ∨ c = 0) := by
    unfold tempAddr
    omega
  have hload : onVm (memcpyLocal (tempAddr + o) c old) fs = some (fileBytes file o c, fs) := by
    rw [onVm, memcpyLocal, if_neg hne, Prog.zoom_of_eq (loadBytes_of_identity hid), hbytes]
  have hwrap : u32 (tempAddr + o + c) = tempAddr + (o + c) := by
    rw [u32_of_lt (by unfold tempAddr tempSize sectorSize at *; omega), Nat.add_assoc]
  rw [sysReadLocal, if_pos rfl, Prog.gets_bind, hpos, Prog.bind_of_eq hload, Prog.modify_bind, hpos,
    hwrap]
  rfl

/-! ## The bytes of the file -/

/-- `c` bytes of the file from `o` on are read to the user addresses from `v` on, where mapped. -/
structure BytesRead (n dir : ℕ) (s₀ : Vm) (file : ℕ → BitVec 8) (img : ℕ → Option (BitVec 8))
    (v o c : ℕ) (s : Vm) (img' : ℕ → Option (BitVec 8)) (m' : Mem) : Prop where
  populated : Populated n dir s₀ img' { s with mem := m' }
  untouched : Untouched dir s₀ { s with mem := m' }
  walk : ∀ w, UserAddr w → m'.walk dir w = s.mem.walk dir w
  rest : ∀ w, ¬ (v ≤ w ∧ w < v + c) → img' w = img w
  bytes : ∀ k < c, (s.mem.walk dir (v + k)).isSome → img' (v + k) = some (file (o + k))

theorem BytesRead.refl (hp : Populated n dir s₀ img s) (hu : Untouched dir s₀ s) (v o : ℕ) :
    BytesRead n dir s₀ file img v o 0 s img s.mem where
  populated := hp
  untouched := hu
  walk _ _ := rfl
  rest _ _ := rfl
  bytes := nofun

theorem BytesRead.trans {d : ℕ} {img₁ img₂ : ℕ → Option (BitVec 8)} {m₁ m₂ : Mem}
    (hv : memoryTaskBase ≤ v) (hend : v + (c + d) ≤ 2 ^ 32)
    (h : BytesRead n dir s₀ file img v o c s img₁ m₁)
    (h' : BytesRead n dir s₀ file img₁ (v + c) (o + c) d { s with mem := m₁ } img₂ m₂) :
    BytesRead n dir s₀ file img v o (c + d) s img₂ m₂ where
  populated := h'.populated
  untouched := h'.untouched
  walk w hw := (h'.walk w hw).trans (h.walk w hw)
  rest w hw := (h'.rest w (by omega)).trans (h.rest w (by omega))
  bytes k hk hmapped := by
    by_cases hlt : k < c
    · rw [h'.rest _ (by omega)]
      exact h.bytes k hlt hmapped
    · have hlater := h'.bytes (k - c) (by omega)
      rw [show v + c + (k - c) = v + k by omega, show o + c + (k - c) = o + k by omega,
        h.walk _ ⟨by omega, by omega⟩] at hlater
      exact hlater hmapped

/-- What `load_phdr` reads a chunk to: the frame of a mapped page, or a null pointer. -/
theorem Populated.chunkPaddr (hp : Populated n dir s₀ img s) (hv : UserAddr v)
    (hal : v % memPageSize = 0) : memoryGetPaddr dir v s =
      some (((s.mem.entryAt dir v).map entryPaddr).getD 0, s) := by
  cases he : s.mem.entryAt dir v with
  | some e =>
      have hwalk : s.mem.walk dir v = some (entryPaddr e) := by
        rw [walk_eq_some]
        exact ⟨e, he, by rw [hal, Nat.add_zero]⟩
      exact hp.getPaddr hv hwalk
  | none =>
      rw [hp.growable.directory.memoryGetPaddr hv.2, Mem.lookup]
      cases hx : s.mem.pteWord dir (pdeIndex v) (pteIndex v) with
      | none => rfl
      | some x =>
          obtain rfl := hp.zero v x hv hx (word_of_not_mapped (walk_eq_none.mpr he) hx)
          show some (u32 (entryPaddr 0 + v % memPageSize), s) = _
          rw [hal]
          rfl

/-- Bytes of the buffer are copied to a page apart from it. -/
theorem kernelMemcpy_buffer {p : ℕ} (hp : KernelPage p) (hc : c ≤ memPageSize) (ho : o + c ≤ tempSize)
    (hapart : tempAddr + o + c ≤ p ∨ p + c ≤ tempAddr + o) (s : Vm) :
    kernelMemcpy p (tempAddr + o) c s =
      some ((), { s with mem := s.mem.copy p (tempAddr + o) c }) := by
  rw [kernelMemcpy]
  split_ifs with hz
  · have hzero : c = 0 := by
      have hne := hp.ne_zero
      have hpos : tempAddr + o ≠ 0 := by
        unfold tempAddr
        omega
      omega
    have hsame : s.mem.copy p (tempAddr + o) c = s.mem := by
      funext x
      exact Mem.copy_apply_of_out x (by omega)
    rw [hsame]
    rfl
  · refine memcpyLoop_of_identity (fun k hk => hp.identity.add hp.aligned (by omega)) ?_
      (fun m _ k hk => phys_of_identity ?_) hapart
    · unfold tempAddr tempSize sectorSize at *
      omega
    · rw [Nat.add_assoc]
      exact (buffer_identity (show o + k < tempSize by omega)).2

/-- A mapped page gets its bytes from the buffer. -/
theorem Populated.copyChunk {e : ℕ} (hb : LoadBase file dir s₀ left) (hp : Populated n dir s₀ img s)
    (hu : Untouched dir s₀ s) (hleft : left ⊆ s.alloc.clearPages) (hv : UserAddr v)
    (hal : v % memPageSize = 0) (hc : c ≤ memPageSize) (ho : o + c ≤ tempSize)
    (he : s.mem.entryAt dir v = some e) :
    ∃ img', kernelMemcpy (entryPaddr e) (tempAddr + o) c s =
        some ((), { s with mem := s.mem.copy (entryPaddr e) (tempAddr + o) c }) ∧
      BytesRead n dir s₀ file img v o c s img' (s.mem.copy (entryPaddr e) (tempAddr + o) c) := by
  obtain ⟨hclear, htaken, -⟩ := hp.frame v e hv he
  have hkp := hp.usable _ hclear
  have huser : ∀ k < c, UserAddr (v + k) := fun k hk => by
    obtain ⟨h1, h2⟩ := hv
    refine ⟨by omega, ?_⟩
    unfold memPageSize at *
    omega
  have hfirst : s.mem.walk dir v = some (entryPaddr e) := by
    rw [walk_eq_some]
    exact ⟨e, he, by rw [hal, Nat.add_zero]⟩
  have hwalk : ∀ k < c, s.mem.walk dir (v + k) = some (entryPaddr e + k) := fun k hk =>
    walk_add (by omega) hfirst
  have hapart : tempAddr + o + c ≤ entryPaddr e ∨ entryPaddr e + c ≤ tempAddr + o := by
    by_contra hno
    refine hb.clear_apart _ hclear (fun hin => htaken (hleft hin))
      (max (entryPaddr e) (tempAddr + o)) ⟨by omega, by omega⟩ ?_
    unfold InPage
    omega
  have hbytes : ∀ k < c, s.mem.copy (entryPaddr e) (tempAddr + o) c (entryPaddr e + k) =
      file (o + k) := fun k hk => by
    rw [Mem.copy_apply hk, Nat.add_assoc]
    exact hb.holds hu hleft (o + k) (by omega)
  let img' : ℕ → Option (BitVec 8) := fun w =>
    if v ≤ w ∧ w < v + c then some (file (o + (w - v))) else img w
  have hout : ∀ x, (∀ w ∈ {w | v ≤ w ∧ w < v + c}, UserAddr w → s.mem.walk dir w ≠ some x) →
      s.mem.copy (entryPaddr e) (tempAddr + o) c x = s.mem x := by
    intro x hx
    refine Mem.copy_apply_of_out x ?_
    by_contra hno
    refine hx (v + (x - entryPaddr e)) ⟨by omega, by omega⟩ (huser _ (by omega)) ?_
    rw [hwalk _ (by omega)]
    exact congrArg some (by omega)
  have hwrite : Populated n dir s₀ img'
      { s with mem := s.mem.copy (entryPaddr e) (tempAddr + o) c } ∧
      ∀ w, UserAddr w →
        (s.mem.copy (entryPaddr e) (tempAddr + o) c).walk dir w = s.mem.walk dir w :=
    hp.write hout (fun w hw _ => by
      have hw' := hwalk (w - v) (by have := hw.1; have := hw.2; omega)
      have hwv : v + (w - v) = w := by have := hw.1; omega
      rw [hwv] at hw'
      rw [hw', Option.map_some, hbytes _ (by have := hw.1; have := hw.2; omega)]
      exact if_pos hw) fun w hw _ => if_neg hw
  obtain ⟨hp', hwalk'⟩ := hwrite
  refine ⟨img', kernelMemcpy_buffer hkp hc ho hapart s, hp', fun x hd ht hcl => ?_, hwalk',
    fun w hw => if_neg hw, fun k hk _ => ?_⟩
  · rw [← hu x hd ht hcl]
    refine hout x fun w hw hw' hwx => ?_
    obtain ⟨p, hpc, hpx, -, -, hout, -⟩ := hp.frame_apart hw' hwx
    exact hcl p hpc hout hpx
  · show (if v ≤ v + k ∧ v + k < v + c then some (file (o + (v + k - v))) else img (v + k)) = _
    rw [if_pos ⟨by omega, by omega⟩, Nat.add_sub_cancel_left]

/-- One round of the loop reads its chunk. -/
theorem Populated.readChunk (hb : LoadBase file dir s₀ left) (hp : Populated n dir s₀ img fs.vm)
    (hu : Untouched dir s₀ fs.vm) (hleft : left ⊆ fs.vm.alloc.clearPages) (hv : UserAddr v)
    (hal : v % memPageSize = 0) (hc : c ≤ memPageSize) (hpos : fs.tempPos = tempAddr + o)
    (ho : o + c ≤ tempSize) :
    ∃ p m' img', onVm (memoryGetPaddr dir v) fs = some (p, fs) ∧
      sysRead tempFileId p c fs =
        some ((c : ℤ), ⟨{ fs.vm with mem := m' }, tempAddr + (o + c)⟩) ∧
      BytesRead n dir s₀ file img v o c fs.vm img' m' := by
  have hget : onVm (memoryGetPaddr dir v) fs =
      some (((fs.vm.mem.entryAt dir v).map entryPaddr).getD 0, fs) := by
    rw [onVm, Prog.zoom_of_eq (hp.chunkPaddr hv hal)]
  have hwrap : u32 (tempAddr + o + c) = tempAddr + (o + c) := by
    rw [u32_of_lt (by unfold tempAddr tempSize sectorSize at *; omega), Nat.add_assoc]
  have hread : ∀ p m', kernelMemcpy p (tempAddr + o) c fs.vm = some ((), { fs.vm with mem := m' }) →
      sysRead tempFileId p c fs =
        some ((c : ℤ), ⟨{ fs.vm with mem := m' }, tempAddr + (o + c)⟩) := by
    intro p m' hcopy
    have hcopy' : onVm (kernelMemcpy p (tempAddr + o) c) fs =
        some ((), { fs with vm := { fs.vm with mem := m' } }) := by
      rw [onVm, Prog.zoom_of_eq hcopy]
    rw [sysRead, if_pos rfl, Prog.gets_bind, hpos, Prog.bind_of_eq hcopy', Prog.modify_bind, hpos,
      hwrap]
    rfl
  cases he : fs.vm.mem.entryAt dir v with
  | some e =>
      obtain ⟨img', hcopy, hbytes⟩ := hp.copyChunk hb hu hleft hv hal hc ho he
      rw [he] at hget
      exact ⟨_, _, img', hget, hread _ _ hcopy, hbytes⟩
  | none =>
      rw [he] at hget
      refine ⟨0, fs.vm.mem, img, hget, hread 0 _ ?_, hp, hu, fun _ _ => rfl, fun _ _ => rfl,
        fun k hk hmapped => ?_⟩
      · rw [kernelMemcpy, if_pos (.inl rfl)]
        rfl
      · have hpage : (v + k) / memPageSize = v / memPageSize := by
          unfold memPageSize at *
          omega
        obtain ⟨e, he'⟩ := walk_isSome_iff.mp hmapped
        rw [(same_page hpage).2, he] at he'
        cases he'

/-- The whole loop, from the start of a page on. -/
theorem loadPhdrLoop_reads {fuel : ℕ} (hb : LoadBase file dir s₀ left)
    (hp : Populated n dir s₀ img fs.vm) (hu : Untouched dir s₀ fs.vm)
    (hleft : left ⊆ fs.vm.alloc.clearPages)
    (hstart : size = 0 ∨ (memoryTaskBase ≤ v ∧ v % memPageSize = 0)) (hend : v + size ≤ 2 ^ 32)
    (hfuel : size ≤ fuel) (hpos : fs.tempPos = tempAddr + o) (ho : o + size ≤ tempSize) :
    ∃ m' img' pos, loadPhdrLoop tempFileId dir fuel v size fs =
        some (0, ⟨{ fs.vm with mem := m' }, pos⟩) ∧
      BytesRead n dir s₀ file img v o size fs.vm img' m' := by
  induction fuel generalizing v o size fs img with
  | zero =>
      obtain rfl : size = 0 := by omega
      exact ⟨_, img, fs.tempPos, rfl, .refl hp hu v o⟩
  | succ fuel ih =>
      by_cases hz : size = 0
      · subst size
        exact ⟨_, img, fs.tempPos, rfl, .refl hp hu v o⟩
      · obtain ⟨hbase, hal⟩ := hstart.resolve_left hz
        generalize hc : min size memPageSize = c
        have hcpos : 0 < memPageSize := by decide
        obtain ⟨p, m₁, img₁, hget, hread, hbytes⟩ := hp.readChunk hb hu hleft (v := v) (c := c)
          ⟨hbase, by omega⟩ hal (by omega) hpos (by omega)
        by_cases hlast : size - c = 0
        · obtain rfl : c = size := by omega
          refine ⟨m₁, img₁, tempAddr + (o + c), ?_, hbytes⟩
          rw [loadPhdrLoop, if_neg hz, hc, Prog.bind_of_eq hget, Prog.bind_of_eq hread,
            if_neg (lt_irrefl _), Nat.sub_self]
          cases fuel <;> rfl
        · have hwrap : u32 (v + c) = v + c := u32_of_lt (by omega)
          have hrest : size - c = 0 ∨ (memoryTaskBase ≤ v + c ∧ (v + c) % memPageSize = 0) := by
            refine .inr ⟨by omega, ?_⟩
            unfold memPageSize at *
            omega
          have hnext : ∃ m' img' pos, loadPhdrLoop tempFileId dir fuel (v + c) (size - c)
              ⟨{ fs.vm with mem := m₁ }, tempAddr + (o + c)⟩ =
                some (0, ⟨{ fs.vm with mem := m' }, pos⟩) ∧
              BytesRead n dir s₀ file img₁ (v + c) (o + c) (size - c) { fs.vm with mem := m₁ } img' m' :=
            ih hbytes.populated hbytes.untouched hleft hrest (by omega) (by omega) rfl (by omega)
          obtain ⟨m₂, img₂, pos, hloop, hbytes'⟩ := hnext
          have hall : c + (size - c) = size := by omega
          have htrans := BytesRead.trans hbase (by omega) hbytes hbytes'
          rw [hall] at htrans
          refine ⟨m₂, img₂, pos, ?_, htrans⟩
          rw [loadPhdrLoop, if_neg hz, hc, Prog.bind_of_eq hget, Prog.bind_of_eq hread,
            if_neg (lt_irrefl _), hwrap]
          exact hloop

/-! ## What reading keeps -/

/-- Only memory has changed: no page was taken or freed. -/
def SameAlloc (s s' : Vm) : Prop := s'.alloc = s.alloc

instance : IsPreorder Vm SameAlloc where
  refl _ := rfl
  trans _ _ _ h h' := h'.trans h

instance : IsPreorder FileState (InvImage SameAlloc FileState.vm) where
  refl _ := rfl
  trans _ _ _ h h' := Eq.trans h' h

theorem sameAlloc_of_eq {A : Type} {g : Prog Vm A} (h : Prog.Along Eq g) : Prog.Along SameAlloc g :=
  fun s b s' hs => congrArg Vm.alloc (h s b s' hs).symm

theorem sameAlloc_onVm {A : Type} {g : Prog Vm A} (h : Prog.Along SameAlloc g) :
    Prog.Along (InvImage SameAlloc FileState.vm) (onVm g) := by
  intro fs b fs' hs
  obtain ⟨s', hs', rfl⟩ := Prog.zoom_eq_some.mp hs
  exact h fs.vm b s' hs'

theorem sameAlloc_memcpyLoop (c p w : ℕ) : Prog.Along SameAlloc (memcpyLoop c p w) := by
  induction c generalizing p w with
  | zero => exact Prog.along_pure ()
  | succ c ih =>
      refine (sameAlloc_of_eq (load8_along w)).bind fun b => Prog.Along.bind (fun s u s' hs => ?_)
        fun _ => ih _ _
      obtain ⟨x, -, hx⟩ := Option.map_eq_some_iff.mp hs
      exact (congrArg Vm.alloc (Prod.mk.inj hx).2).symm

theorem memoryGetPaddr_along (dir v : ℕ) : Prog.Along Eq (memoryGetPaddr dir v) := by
  have hfind : Prog.Along Eq (findPte dir v false) :=
    (load32_along _).bind fun _ => (Prog.along_pure _).ite (Prog.along_pure _)
  exact hfind.bind fun _ => (Prog.along_pure _).ite ((load32_along _).bind fun _ => Prog.along_pure _)

theorem sameAlloc_loadPhdrLoop (fd : ℤ) (dir fuel v size : ℕ) :
    Prog.Along (InvImage SameAlloc FileState.vm) (loadPhdrLoop fd dir fuel v size) := by
  have hpos : ∀ c, Prog.Along (InvImage SameAlloc FileState.vm)
      (Prog.modify fun fs => { fs with tempPos := u32 (fs.tempPos + c) }) := fun c =>
    Prog.along_modify fun fs => refl (r := SameAlloc) fs.vm
  have hread : ∀ p c, Prog.Along (InvImage SameAlloc FileState.vm) (sysRead fd p c) := fun p c =>
    ((Prog.along_gets _).bind fun w => (sameAlloc_onVm ((Prog.along_pure ()).ite
      (sameAlloc_memcpyLoop c p w))).bind fun _ => (hpos c).bind fun _ => Prog.along_pure _).ite
        (Prog.along_pure _)
  induction fuel generalizing v size with
  | zero => exact Prog.along_pure 0
  | succ fuel ih =>
      exact (Prog.along_pure 0).ite ((sameAlloc_onVm (sameAlloc_of_eq (memoryGetPaddr_along dir v))).bind
        fun p => (hread p _).bind fun _ => (Prog.along_pure (-1)).ite (ih _ _))

/-! ## One segment -/

/-- The pages of the segment are new, and those bytes of the file that fall into them are there. -/
structure SegmentLoaded (n dir : ℕ) (s₀ : Vm) (file : ℕ → BitVec 8) (ph : Elf32Phdr)
    (img : ℕ → Option (BitVec 8)) (s : Vm) (img' : ℕ → Option (BitVec 8)) (s' : Vm) : Prop where
  populated : Populated n dir s₀ img' s'
  untouched : Untouched dir s₀ s'
  cr3 : s'.cr3 = s.cr3
  fresh : ∀ k < ph.memsz, s.mem.walk dir (ph.vaddr + k) = none
  mapped : ∀ k < ph.memsz, (s'.mem.walk dir (ph.vaddr + k)).isSome
  keeps : ∀ w x, UserAddr w → s.mem.walk dir w = some x → s'.mem.walk dir w = some x
  others : ∀ w, UserAddr w → (∀ k < ph.memsz, w / memPageSize ≠ (ph.vaddr + k) / memPageSize) →
    s'.mem.walk dir w = s.mem.walk dir w
  rest : ∀ w, ¬ (ph.vaddr ≤ w ∧ w < ph.vaddr + ph.filesz) → img' w = img w
  bytes : ∀ k < ph.filesz, k < ph.memsz → img' (ph.vaddr + k) = some (file (ph.offset + k))

/-- Once the pages are mapped, `load_phdr` is its loop. -/
theorem loadPhdr_of_alloc {s₁ : Vm} (hal : ph.vaddr % memPageSize = 0)
    (halloc : memoryAllocForPageDir dir ph.vaddr ph.memsz (pteP ||| pteU ||| pteW) fs.vm =
      some (0, s₁)) : loadPhdr tempFileId ph dir fs =
    loadPhdrLoop tempFileId dir ph.filesz ph.vaddr ph.filesz ⟨s₁, u32 (ph.offset + tempAddr)⟩ := by
  have hvm : onVm (memoryAllocForPageDir dir ph.vaddr ph.memsz (pteP ||| pteU ||| pteW)) fs =
      some (0, ⟨s₁, fs.tempPos⟩) := by
    rw [onVm, Prog.zoom_of_eq halloc]
  have hseek : sysLseek tempFileId ph.offset ⟨s₁, fs.tempPos⟩ =
      some (0, ⟨s₁, u32 (ph.offset + tempAddr)⟩) := by
    rw [sysLseek, if_pos rfl, Prog.modify_bind]
    rfl
  rw [loadPhdr, Prog.bind_of_eq (Prog.require_of hal), Prog.bind_of_eq hvm, if_neg (lt_irrefl _),
    Prog.bind_of_eq hseek, if_neg (lt_irrefl _)]

/-- A call of `load_phdr` that does not fail has mapped the segment and gone through its loop. -/
theorem loadPhdr_not_neg {fd : ℤ} (h : Growable n dir fs.vm)
    (hrun : loadPhdr fd ph dir fs = some (r, fs')) (hr : ¬ r < 0) :
    fd = tempFileId ∧ ph.vaddr % memPageSize = 0 ∧ ∃ s₁,
      memoryAllocForPageDir dir ph.vaddr ph.memsz (pteP ||| pteU ||| pteW) fs.vm = some (0, s₁) ∧
      loadPhdrLoop tempFileId dir ph.filesz ph.vaddr ph.filesz ⟨s₁, u32 (ph.offset + tempAddr)⟩ =
        some (r, fs') := by
  obtain ⟨u, fs₁, hreq, hrun₁⟩ := Prog.bind_eq_some.mp hrun
  obtain ⟨hal, rfl⟩ := Prog.require_eq_some.mp hreq
  obtain ⟨err, fs₂, halloc, hrun₂⟩ := Prog.bind_eq_some.mp hrun₁
  obtain ⟨s₁, hcall, rfl⟩ := Prog.zoom_eq_some.mp halloc
  rcases memoryAllocForPageDir_result h (by decide) hcall with rfl | rfl
  · by_cases hfd : fd = tempFileId
    · subst fd
      exact ⟨rfl, hal, s₁, hcall, (loadPhdr_of_alloc hal hcall).symm.trans hrun⟩
    · have hseek : sysLseek fd ph.offset ⟨s₁, fs₁.tempPos⟩ = some (-1, ⟨s₁, fs₁.tempPos⟩) := by
        rw [sysLseek, if_neg hfd]
        rfl
      rw [if_neg (lt_irrefl _), Prog.bind_of_eq hseek, if_pos (by norm_num)] at hrun₂
      obtain ⟨rfl, -⟩ := Prog.pure_eq_some.mp hrun₂
      exact absurd (by norm_num) hr
  · rw [if_pos (by norm_num)] at hrun₂
    obtain ⟨rfl, -⟩ := Prog.pure_eq_some.mp hrun₂
    exact absurd (by norm_num) hr

theorem loadPhdr_loaded (hb : LoadBase file dir s₀ left) (hp : Populated n dir s₀ img fs.vm)
    (hu : Untouched dir s₀ fs.vm) (hleft : left ⊆ fs'.vm.alloc.clearPages)
    (hv : memoryTaskBase ≤ ph.vaddr) (hend : ph.vaddr + ph.filesz ≤ 2 ^ 32)
    (hend' : ph.vaddr + ph.memsz ≤ 2 ^ 32) (ho : ph.offset + ph.filesz ≤ tempSize)
    (hrun : loadPhdr tempFileId ph dir fs = some (r, fs')) (hr : ¬ r < 0) :
    ∃ img', SegmentLoaded n dir s₀ file ph img fs.vm img' fs'.vm := by
  obtain ⟨-, hal, s₂, hcall, hloop'⟩ := loadPhdr_not_neg hp.growable hrun hr
  have hadd := hp.addRange hu hv hend' hal (by decide) hcall (lt_irrefl _)
  have hpos : u32 (ph.offset + tempAddr) = tempAddr + ph.offset := by
    rw [u32_of_lt (by unfold tempAddr tempSize sectorSize at *; omega), Nat.add_comm]
  have hsame : fs'.vm.alloc = s₂.alloc := sameAlloc_loadPhdrLoop _ _ _ _ _ _ _ _ hloop'
  have hreads : ∃ m' img' pos, loadPhdrLoop tempFileId dir ph.filesz ph.vaddr ph.filesz
      ⟨s₂, tempAddr + ph.offset⟩ = some (0, ⟨{ s₂ with mem := m' }, pos⟩) ∧
      BytesRead n dir s₀ file img ph.vaddr ph.offset ph.filesz s₂ img' m' :=
    loadPhdrLoop_reads hb hadd.populated hadd.untouched (hsame ▸ hleft) (.inr ⟨hv, hal⟩) hend le_rfl
      rfl ho
  obtain ⟨m', img', pos, hloop, hbytes⟩ := hreads
  rw [hpos, hloop] at hloop'
  obtain ⟨rfl, rfl⟩ := Prod.mk.inj (Option.some.inj hloop')
  have huser : ∀ k < ph.memsz, UserAddr (ph.vaddr + k) := fun k hk => ⟨by omega, by omega⟩
  refine ⟨img', hbytes.populated, hbytes.untouched, hadd.cr3, hadd.fresh, fun k hk => ?_,
    fun w x hw hx => ?_, fun w hw hne => ?_, hbytes.rest,
    fun k hk hk' => hbytes.bytes k hk (hadd.mapped k hk')⟩
  · exact (congrArg Option.isSome (hbytes.walk _ (huser k hk))).trans (hadd.mapped k hk)
  · exact (hbytes.walk w hw).trans (hadd.keeps w x hw hx)
  · exact (hbytes.walk w hw).trans (hadd.others w hw hne)

/-! ## All segments -/

def programHeader (file : ℕ → BitVec 8) (i : ℕ) : Elf32Phdr :=
  segmentAt file (fileHeader file).phentsize i

/-- What `load_elf_file` does not pass over. -/
def Elf32Phdr.Loadable (ph : Elf32Phdr) : Prop := ph.type = ptLoad ∧ memoryTaskBase ≤ ph.vaddr

/-- The headers and the segments of the file lie in the part of it that `sys_open` reads, and no
segment goes past the end of the address space. -/
structure FitsBuffer (file : ℕ → BitVec 8) : Prop where
  headers : ∀ i < (fileHeader file).phnum,
    (fileHeader file).phoff + i * (fileHeader file).phentsize + phdrSize ≤ tempSize
  segments : ∀ i < (fileHeader file).phnum, (programHeader file i).Loadable →
    (programHeader file i).offset + (programHeader file i).filesz ≤ tempSize ∧
      (programHeader file i).vaddr + (programHeader file i).filesz ≤ 2 ^ 32 ∧
      (programHeader file i).vaddr + (programHeader file i).memsz ≤ 2 ^ 32

/-- A segment in user space that starts at a page and shares no page with another one. -/
structure UserSegment (file : ℕ → BitVec 8) (i : ℕ) : Prop where
  lt : i < (fileHeader file).phnum
  loadable : (programHeader file i).Loadable
  aligned : (programHeader file i).vaddr % memPageSize = 0
  filesz_le : (programHeader file i).filesz ≤ (programHeader file i).memsz
  apart : ∀ j < (fileHeader file).phnum, j ≠ i → (programHeader file j).Loadable →
    ∀ k < (programHeader file i).memsz,
    ∀ l < max (programHeader file j).filesz (programHeader file j).memsz,
      ((programHeader file i).vaddr + k) / memPageSize ≠
        ((programHeader file j).vaddr + l) / memPageSize

/-- A segment is mapped; the bytes of the file are there, and the rest was not written. -/
def SegmentShown (file : ℕ → BitVec 8) (dir : ℕ) (m : Mem) (img : ℕ → Option (BitVec 8))
    (ph : Elf32Phdr) : Prop :=
  ∀ k < ph.memsz, (m.walk dir (ph.vaddr + k)).isSome ∧
    img (ph.vaddr + k) = if k < ph.filesz then some (file (ph.offset + k)) else none

theorem SegmentLoaded.shown {i : ℕ} {img' : ℕ → Option (BitVec 8)} {s s' : Vm}
    (h : SegmentLoaded n dir s₀ file (programHeader file i) img s img' s')
    (hp : Populated n dir s₀ img s) (hseg : UserSegment file i)
    (hend : (programHeader file i).vaddr + (programHeader file i).memsz ≤ 2 ^ 32) :
    SegmentShown file dir s'.mem img' (programHeader file i) := by
  intro k hk
  refine ⟨h.mapped k hk, ?_⟩
  split_ifs with hin
  · exact h.bytes k hin hk
  · have hbase := hseg.loadable.2
    rw [h.rest _ (by omega)]
    exact hp.unmapped _ ⟨by omega, by omega⟩ (h.fresh k hk)

/-- Loading another segment does not change what is shown. -/
theorem SegmentLoaded.shows {i j : ℕ} {img' : ℕ → Option (BitVec 8)} {s s' : Vm}
    (h : SegmentLoaded n dir s₀ file (programHeader file j) img s img' s')
    (hseg : UserSegment file i) (hj : j < (fileHeader file).phnum) (hne : j ≠ i)
    (hload : (programHeader file j).Loadable)
    (hend : (programHeader file i).vaddr + (programHeader file i).memsz ≤ 2 ^ 32)
    (hshown : SegmentShown file dir s.mem img (programHeader file i)) :
    SegmentShown file dir s'.mem img' (programHeader file i) := by
  intro k hk
  obtain ⟨hmapped, himg⟩ := hshown k hk
  have hbase := hseg.loadable.2
  obtain ⟨x, hx⟩ := Option.isSome_iff_exists.mp hmapped
  refine ⟨by rw [h.keeps _ x ⟨by omega, by omega⟩ hx]; rfl, ?_⟩
  rw [← himg]
  refine h.rest _ fun hin => ?_
  have hpage := hseg.apart j hj hne hload k hk
    ((programHeader file i).vaddr + k - (programHeader file j).vaddr) (by omega)
  exact hpage (congrArg (fun w => w / memPageSize) (by omega))

end X86Os
