import X86Os.Exec
import X86Os.PageDirectory
import X86Os.Populated

/-!
# Reading arguments

The arguments of a system call are strings in the user half. What the kernel reads there stays the same
while nothing is written to the tables and pages of the current task, whatever else it writes.
-/

namespace X86Os

variable {s s' : Vm} {Q : ℕ → Prop} {a c argv argc v len : ℕ} {src lens : ℕ → ℕ} {b : BitVec 8}

/-! ## Stable memory -/

/-- The bytes with `Q` and the current directory are the same. -/
structure Agrees (Q : ℕ → Prop) (s s' : Vm) : Prop where
  cr3 : s'.cr3 = s.cr3
  same : ∀ x, Q x → s'.mem x = s.mem x

theorem Agrees.trans {s'' : Vm} (h : Agrees Q s s') (h' : Agrees Q s' s'') : Agrees Q s s'' :=
  ⟨h'.cr3.trans h.cr3, fun x hx => (h'.same x hx).trans (h.same x hx)⟩

/-- The user half of the current address space consists of bytes with `Q`. -/
structure UserHalf (Q : ℕ → Prop) (s : Vm) : Prop where
  dir : ∀ x, InPage (entryPaddr s.cr3) x → Q x
  table : ∀ i, userPdeStart ≤ i → i < pdeCnt → Present (s.mem.pde (entryPaddr s.cr3) i) →
    ∀ x, InPage (s.mem.table (entryPaddr s.cr3) i) x → Q x
  frame : ∀ v x, UserAddr v → s.mem.walk (entryPaddr s.cr3) v = some x → Q x

theorem UserHalf.phys_eq (h : UserHalf Q s) (hs : Agrees Q s s') (hv : UserAddr v) :
    s'.phys v = s.phys v := by
  obtain ⟨hi, hi'⟩ := hv.indices
  have hword : s'.mem.pteWord (entryPaddr s.cr3) (pdeIndex v) (pteIndex v) =
      s.mem.pteWord (entryPaddr s.cr3) (pdeIndex v) (pteIndex v) :=
    Mem.pteWord_congr hi' (pteIndex_lt v) (fun x hx => hs.same x (h.dir x hx)) fun hp x hx =>
      hs.same x (h.table _ hi hi' hp x hx)
  have hlow : ¬ v < memoryTaskBase := not_lt.mpr hv.1
  rw [Vm.phys, Vm.phys, if_neg hlow, if_neg hlow, hs.cr3, walk_eq, walk_eq, Mem.userEntry_eq_filter,
    Mem.userEntry_eq_filter, hword]

theorem UserHalf.agrees (h : UserHalf Q s) (hs : Agrees Q s s') : UserHalf Q s' where
  dir x hx := h.dir x (by rwa [hs.cr3] at hx)
  table i hi hi' hp x hx := by
    have hpde : s'.mem.pde (entryPaddr s.cr3) i = s.mem.pde (entryPaddr s.cr3) i :=
      Mem.read32_congr fun y hy hy' => hs.same y (h.dir y (inPage_word hi' hy hy'))
    rw [hs.cr3, hpde] at hp
    rw [hs.cr3, Mem.table, hpde] at hx
    exact h.table i hi hi' hp x hx
  frame v x hv hx := by
    have hlow : ¬ v < memoryTaskBase := not_lt.mpr hv.1
    have hphys := h.phys_eq hs hv
    rw [Vm.phys, Vm.phys, if_neg hlow, if_neg hlow, hx] at hphys
    exact h.frame v x hv hphys.symm

theorem UserHalf.load8_eq (h : UserHalf Q s) (hs : Agrees Q s s') (hv : UserAddr v)
    (hload : load8 v s = some (b, s)) : load8 v s' = some (b, s') := by
  rw [load8, Option.map_eq_some_iff] at hload ⊢
  obtain ⟨x, hx, hb⟩ := hload
  have hphys := h.phys_eq hs hv
  have hwalk : s.mem.walk (entryPaddr s.cr3) v = some x := by
    rw [Vm.phys, if_neg (not_lt.mpr hv.1)] at hx
    exact hx
  refine ⟨x, hphys.trans hx, ?_⟩
  rw [hs.same x (h.frame v x hv hwalk), (Prod.mk.inj hb).1]

/-! ## Reading changes nothing -/

theorem load8_state (h : load8 v s = some (b, s')) : s' = s := (load8_along v _ _ _ h).symm

theorem strEnd_along (fuel c : ℕ) : Prog.Along Eq (strEnd fuel c) := by
  induction fuel generalizing c with
  | zero => exact Prog.along_halt
  | succ fuel ih => exact (load8_along c).bind fun b => (Prog.along_pure c).ite (ih _)

theorem kernelStrlen_along (str : ℕ) : Prog.Along Eq (kernelStrlen str) :=
  (Prog.along_pure 0).ite ((strEnd_along _ str).bind fun _ => Prog.along_pure _)

theorem logOpenFailed_along (name : ℕ) : Prog.Along Eq (logOpenFailed name) :=
  (kernelStrlen_along name).bind fun _ => Prog.along_require _

theorem fileNameStart_along (name fuel c : ℕ) : Prog.Along Eq (fileNameStart name fuel c) := by
  induction fuel generalizing c with
  | zero => exact Prog.along_halt
  | succ fuel ih => exact (load8_along c).bind fun b => (Prog.along_pure _).ite (ih _)

theorem getFileName_along (name : ℕ) : Prog.Along Eq (getFileName name) :=
  (strEnd_along _ _).bind fun _ => fileNameStart_along _ _ _

theorem strncpyBytes_along {S : Type} {src : ℕ → Prog S (BitVec 8)}
    (h : ∀ i, Prog.Along Eq (src i)) (size i : ℕ) : Prog.Along Eq (strncpyBytes src size i) := by
  induction size generalizing i with
  | zero => exact Prog.along_pure _
  | succ size ih =>
      exact (h i).bind fun c => (Prog.along_pure _).ite ((ih _).bind fun _ => Prog.along_pure _)

/-! ## Words of the user half -/

theorem UserHalf.load32_eq {w : ℕ} (h : UserHalf Q s) (hs : Agrees Q s s') (hv : memoryTaskBase ≤ v)
    (hend : v + 4 ≤ 2 ^ 32) (hload : load32 v s = some (w, s)) : load32 v s' = some (w, s') := by
  have huser : ∀ k < 4, UserAddr (v + k) := fun k hk => ⟨by omega, by omega⟩
  have h0 : UserAddr v := huser 0 (by omega)
  rw [load32, u32_of_lt (huser 1 (by omega)).2, u32_of_lt (huser 2 (by omega)).2,
    u32_of_lt (huser 3 (by omega)).2] at hload ⊢
  obtain ⟨b0, s₁, h0', hload⟩ := Prog.bind_eq_some.mp hload
  obtain rfl := load8_state h0'
  obtain ⟨b1, s₂, h1', hload⟩ := Prog.bind_eq_some.mp hload
  obtain rfl := load8_state h1'
  obtain ⟨b2, s₃, h2', hload⟩ := Prog.bind_eq_some.mp hload
  obtain rfl := load8_state h2'
  obtain ⟨b3, s₄, h3', hload⟩ := Prog.bind_eq_some.mp hload
  obtain rfl := load8_state h3'
  rw [Prog.bind_of_eq (h.load8_eq hs h0 h0'),
    Prog.bind_of_eq (h.load8_eq hs (huser 1 (by omega)) h1'),
    Prog.bind_of_eq (h.load8_eq hs (huser 2 (by omega)) h2'),
    Prog.bind_of_eq (h.load8_eq hs (huser 3 (by omega)) h3')]
  obtain ⟨rfl, -⟩ := Prog.pure_eq_some.mp hload
  rfl

/-! ## Strings -/

/-- A string of `len` characters at the user address `a`. -/
structure StringAt (s : Vm) (a len : ℕ) : Prop where
  user : memoryTaskBase ≤ a
  end_le : a + len < 2 ^ 32
  char : ∀ k < len, ∃ b, load8 (a + k) s = some (b, s) ∧ b ≠ 0
  stop : load8 (a + len) s = some (0, s)

theorem StringAt.agrees (h : StringAt s a len) (hu : UserHalf Q s) (hs : Agrees Q s s') :
    StringAt s' a len where
  user := h.user
  end_le := h.end_le
  char k hk := by
    have huser := h.user
    have hend := h.end_le
    obtain ⟨b, hb, hne⟩ := h.char k hk
    exact ⟨b, hu.load8_eq hs ⟨by omega, by omega⟩ hb, hne⟩
  stop := by
    have huser := h.user
    exact hu.load8_eq hs ⟨by omega, h.end_le⟩ h.stop

theorem StringAt.strEnd_eq {fuel k : ℕ} (h : StringAt s a len) (hk : k ≤ len)
    (hfuel : len - k < fuel) : strEnd fuel (a + k) s = some (a + len, s) := by
  have hend := h.end_le
  induction fuel generalizing k with
  | zero => omega
  | succ fuel ih =>
      rw [strEnd]
      by_cases he : k = len
      · subst k
        rw [Prog.bind_of_eq h.stop, if_pos rfl]
        rfl
      · obtain ⟨b, hb, hne⟩ := h.char k (by omega)
        rw [Prog.bind_of_eq hb, if_neg hne, Nat.add_assoc, u32_of_lt (by omega)]
        exact ih (by omega) (by omega)

theorem StringAt.kernelStrlen_eq (h : StringAt s a len) : kernelStrlen a s = some (len, s) := by
  have hbase := h.user
  have hend := h.end_le
  have hne : a ≠ 0 := by
    unfold memoryTaskBase at hbase
    omega
  have hstop : strEnd (2 ^ 32) (a + 0) s = some (a + len, s) :=
    h.strEnd_eq (Nat.zero_le _) (by omega)
  rw [Nat.add_zero] at hstop
  rw [kernelStrlen, if_neg hne, Prog.bind_of_eq hstop, u32Sub_of_le (by omega) (by omega),
    Nat.add_sub_cancel_left]
  rfl

/-! ## Argument vectors -/

/-- The vector `argv` has `argc` strings in the user half, or it is null. -/
structure ArgBlock (s : Vm) (argv argc : ℕ) (src lens : ℕ → ℕ) : Prop where
  null : argv = 0 → argc = 0
  user : argv ≠ 0 → memoryTaskBase ≤ argv ∧ argv + 4 * argc + 4 ≤ 2 ^ 32
  stop : argv ≠ 0 → load32 (argv + 4 * argc) s = some (0, s)
  word : ∀ i < argc, load32 (argv + 4 * i) s = some (src i, s) ∧ src i ≠ 0
  string : ∀ i < argc, StringAt s (src i) (lens i)

theorem ArgBlock.agrees (h : ArgBlock s argv argc src lens) (hu : UserHalf Q s)
    (hs : Agrees Q s s') : ArgBlock s' argv argc src lens where
  null := h.null
  user := h.user
  stop hne := by
    obtain ⟨hbase, hend⟩ := h.user hne
    exact hu.load32_eq hs (by omega) (by omega) (h.stop hne)
  word i hi := by
    have hne : argv ≠ 0 := fun he => by
      have := h.null he
      omega
    obtain ⟨hbase, hend⟩ := h.user hne
    obtain ⟨hw, hsrc⟩ := h.word i hi
    exact ⟨hu.load32_eq hs (by omega) (by omega) hw, hsrc⟩
  string i hi := (h.string i hi).agrees hu hs

theorem ArgBlock.stringsCountLoop_eq {fuel i : ℕ} (h : ArgBlock s argv argc src lens)
    (hne : argv ≠ 0) (hi : i ≤ argc) (hfuel : argc - i < fuel) :
    stringsCountLoop fuel (argv + 4 * i) i s = some (argc, s) := by
  obtain ⟨hbase, hend⟩ := h.user hne
  induction fuel generalizing i with
  | zero => omega
  | succ fuel ih =>
      rw [stringsCountLoop]
      by_cases he : i = argc
      · subst i
        rw [Prog.bind_of_eq (h.stop hne), if_pos rfl]
        rfl
      · obtain ⟨hw, hsrc⟩ := h.word i (by omega)
        have hnext : argv + 4 * i + 4 = argv + 4 * (i + 1) := by omega
        rw [Prog.bind_of_eq hw, if_neg hsrc, u32_of_lt (by omega), hnext]
        exact ih (by omega) (by omega)

theorem ArgBlock.stringsCount_eq (h : ArgBlock s argv argc src lens) :
    stringsCount argv s = some (argc, s) := by
  rw [stringsCount]
  by_cases hne : argv = 0
  · rw [if_pos hne, h.null hne]
    rfl
  · obtain ⟨hbase, hend⟩ := h.user hne
    have hloop : stringsCountLoop (2 ^ 32) (argv + 4 * 0) 0 s = some (argc, s) :=
      h.stringsCountLoop_eq hne (Nat.zero_le _) (by omega)
    rw [if_neg hne]
    exact hloop

end X86Os
