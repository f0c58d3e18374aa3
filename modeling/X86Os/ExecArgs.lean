import X86Os.ArgStrings
import X86Os.LoadImage

/-!
# Writing arguments

`copy_args` writes to the argument area at the top of the new stack and to the kernel stack, if the
argument table fits into the first page of the area and the strings into the rest of it.
-/

namespace X86Os

variable {n dir stack a b c dest size : ℕ} {s₀ s s' s₁ : Vm} {img : ℕ → Option (BitVec 8)} {m' : Mem}
  {Q : ℕ → Prop} {argv argc argsAt : ℕ} {src lens : ℕ → ℕ} {r : ℤ}

def StackAddr (w : ℕ) : Prop := memTaskStackTop - memTaskStackSize ≤ w ∧ w < memTaskStackTop

def ArgAddr (w : ℕ) : Prop := Kernel.execStackTop ≤ w ∧ w < memTaskStackTop

instance (w : ℕ) : Decidable (StackAddr w) :=
  inferInstanceAs (Decidable (memTaskStackTop - memTaskStackSize ≤ w ∧ w < memTaskStackTop))

instance (w : ℕ) : Decidable (ArgAddr w) :=
  inferInstanceAs (Decidable (Kernel.execStackTop ≤ w ∧ w < memTaskStackTop))

theorem StackAddr.user {w : ℕ} (h : StackAddr w) : UserAddr w := by
  obtain ⟨h1, h2⟩ := h
  unfold memTaskStackTop memTaskStackSize memPageSize at *
  unfold UserAddr memoryTaskBase
  omega

theorem ArgAddr.onStack {w : ℕ} (h : ArgAddr w) : StackAddr w := by
  obtain ⟨h1, h2⟩ := h
  refine ⟨?_, h2⟩
  unfold Kernel.execStackTop memTaskStackTop memTaskArgSize memPageSize at h1
  unfold memTaskStackTop memTaskStackSize memPageSize
  omega

theorem ArgAddr.user {w : ℕ} (h : ArgAddr w) : UserAddr w := h.onStack.user

/-- A page of the kernel that is apart from a space that is being filled. -/
structure StackPage (dir : ℕ) (s₀ : Vm) (stack : ℕ) : Prop where
  page : KernelPage stack
  dir_apart : stack ≠ dir
  clear_apart : stack ∉ s₀.alloc.clearPages
  table_apart : ∀ i < pdeCnt, Present (s₀.mem.pde dir i) → s₀.mem.table dir i ≠ stack

/-- Bytes of the new stack and of the kernel stack have changed, and nothing else. -/
structure StackWritten (n dir : ℕ) (s₀ : Vm) (stack : ℕ) (img : ℕ → Option (BitVec 8)) (s : Vm)
    (img' : ℕ → Option (BitVec 8)) (s' : Vm) : Prop where
  populated : Populated n dir s₀ img' s'
  alloc : s'.alloc = s.alloc
  cr3 : s'.cr3 = s.cr3
  rest : ∀ w, ¬ StackAddr w → img' w = img w
  walk : ∀ w, UserAddr w → s'.mem.walk dir w = s.mem.walk dir w
  out : ∀ x, ¬ InPage stack x → (∀ p ∈ s₀.alloc.clearPages, ¬ InPage p x) → s'.mem x = s.mem x

namespace StackWritten

variable {img' img₁ : ℕ → Option (BitVec 8)}

theorem refl (h : Populated n dir s₀ img s) (stack : ℕ) :
    StackWritten n dir s₀ stack img s img s where
  populated := h
  alloc := rfl
  cr3 := rfl
  rest _ _ := rfl
  walk _ _ := rfl
  out _ _ _ := rfl

theorem trans (h : StackWritten n dir s₀ stack img s img₁ s₁)
    (h' : StackWritten n dir s₀ stack img₁ s₁ img' s') :
    StackWritten n dir s₀ stack img s img' s' where
  populated := h'.populated
  alloc := h'.alloc.trans h.alloc
  cr3 := h'.cr3.trans h.cr3
  rest w hw := (h'.rest w hw).trans (h.rest w hw)
  walk w hw := (h'.walk w hw).trans (h.walk w hw)
  out x hx hx' := (h'.out x hx hx').trans (h.out x hx hx')

/-- Writing to frames of the new stack. -/
theorem of_frames (h : Populated n dir s₀ img s) (stack : ℕ)
    (hout : ∀ x, (∀ w, StackAddr w → s.mem.walk dir w ≠ some x) → m' x = s.mem x) :
    ∃ img', StackWritten n dir s₀ stack img s img' { s with mem := m' } := by
  let img' : ℕ → Option (BitVec 8) := fun w =>
    if StackAddr w then (s.mem.walk dir w).map m' else img w
  have hwrite : Populated n dir s₀ img' { s with mem := m' } ∧
      ∀ w, UserAddr w → m'.walk dir w = s.mem.walk dir w :=
    h.write (W := {w | StackAddr w}) (fun x hx => hout x fun w hw => hx w hw hw.user)
      (fun w hw _ => if_pos hw) fun w hw _ => if_neg hw
  refine ⟨img', hwrite.1, rfl, rfl, fun w hw => if_neg hw, hwrite.2, fun x _ hx => ?_⟩
  refine hout x fun w hw hwx => ?_
  obtain ⟨p, hp, hpx, -⟩ := h.frame_apart hw.user hwx
  exact hx p hp hpx

/-- Writing to the kernel stack. -/
theorem of_stack (h : Populated n dir s₀ img s) (hstack : StackPage dir s₀ stack)
    (hout : ∀ x, ¬ InPage stack x → m' x = s.mem x) :
    StackWritten n dir s₀ stack img s img { s with mem := m' } := by
  have hal := hstack.page.aligned
  have hcongr : Populated n dir s₀ img { s with mem := m' } ∧
      ∀ w, UserAddr w → m'.walk dir w = s.mem.walk dir w := by
    refine h.congr (fun x hx => hout x fun hin => ?_)
      (fun i hi hp x hx => hout x fun hin => ?_) fun p hp x hx => hout x fun hin => ?_
    · exact hstack.dir_apart (InPage.unique hal h.growable.directory.dirPage.aligned hin hx)
    · have heq := InPage.unique hal (entryPaddr_mod _) hin hx
      rcases h.tables i hi hp with ⟨hp', ht⟩ | hc
      · exact hstack.table_apart i hi hp' (ht.symm.trans heq.symm)
      · exact hstack.clear_apart (heq ▸ hc)
    · exact hstack.clear_apart (InPage.unique hal (h.usable p hp).aligned hin hx ▸ hp)
  exact ⟨hcongr.1, rfl, rfl, fun _ _ => rfl, hcongr.2, fun x hx _ => hout x hx⟩

/-- A word on the kernel stack. -/
theorem of_stackWord {v : ℕ} (h : Populated n dir s₀ img s) (hstack : StackPage dir s₀ stack)
    (ha : stack ≤ a) (ha' : a + 4 ≤ stack + memPageSize) :
    ∃ s', store32 a v s = some ((), s') ∧ StackWritten n dir s₀ stack img s img s' := by
  have hid : Identity a := by
    have hadd := hstack.page.identity.add hstack.page.aligned (show a - stack < memPageSize by omega)
    rwa [show stack + (a - stack) = a by omega] at hadd
  refine ⟨_, store32_of_identity hid v, of_stack h hstack fun x hx => ?_⟩
  refine Mem.write32_apply_of_out x ?_
  unfold InPage at hx
  omega

end StackWritten

/-! ## Copying -/

/-- A copy that ends has written to nothing but its target. -/
theorem memcpyLoop_confined (h : ∀ k < c, Identity (a + k))
    (hrun : memcpyLoop c a b s = some ((), s')) :
    ∃ m', s' = { s with mem := m' } ∧ ∀ x, (x < a ∨ a + c ≤ x) → m' x = s.mem x := by
  induction c generalizing a b s with
  | zero =>
      obtain ⟨-, rfl⟩ := Prog.pure_eq_some.mp hrun
      exact ⟨_, rfl, fun _ _ => rfl⟩
  | succ c ih =>
      obtain ⟨w, s₁, hload, hrest⟩ := Prog.bind_eq_some.mp hrun
      obtain rfl := load8_state hload
      have h0 : Identity a := h 0 (by omega)
      rw [Prog.bind_of_eq (store8_of_identity h0 w), u32_of_lt (by have := h0.lt; omega)] at hrest
      obtain ⟨m', rfl, hout⟩ := ih
        (fun k hk => by rw [Nat.add_right_comm]; exact h (k + 1) (by omega)) hrest
      refine ⟨m', rfl, fun x hx => (hout x (by omega)).trans ?_⟩
      exact Function.update_of_ne (by omega) _ _

theorem kernelMemcpy_confined (h : ∀ k < c, Identity (a + k))
    (hrun : kernelMemcpy a b c s = some ((), s')) :
    ∃ m', s' = { s with mem := m' } ∧ ∀ x, (x < a ∨ a + c ≤ x) → m' x = s.mem x := by
  rw [kernelMemcpy] at hrun
  split_ifs at hrun
  · obtain ⟨-, rfl⟩ := Prog.pure_eq_some.mp hrun
    exact ⟨_, rfl, fun _ _ => rfl⟩
  · exact memcpyLoop_confined h hrun

/-- The argument area is mapped in the new space. -/
def ArgsMapped (dir : ℕ) (m : Mem) : Prop := ∀ w, ArgAddr w → (m.walk dir w).isSome

theorem StackWritten.argsMapped {img' : ℕ → Option (BitVec 8)}
    (h : StackWritten n dir s₀ stack img s img' s') (hm : ArgsMapped dir s.mem) :
    ArgsMapped dir s'.mem := fun w hw => by
  rw [h.walk w hw.user]
  exact hm w hw

theorem memoryCopyUvmData_written {fuel : ℕ} (h : Populated n dir s₀ img s)
    (hm : ArgsMapped dir s.mem) (hin : ∀ k < size, ArgAddr (dest + k))
    (hrun : memoryCopyUvmDataLoop dir fuel dest a size s = some (r, s')) :
    ∃ img', StackWritten n dir s₀ stack img s img' s' := by
  induction fuel generalizing dest a size s img with
  | zero =>
      obtain ⟨-, rfl⟩ := Prog.pure_eq_some.mp hrun
      exact ⟨img, .refl h stack⟩
  | succ fuel ih =>
      rw [memoryCopyUvmDataLoop] at hrun
      by_cases hz : size = 0
      · rw [if_pos hz] at hrun
        obtain ⟨-, rfl⟩ := Prog.pure_eq_some.mp hrun
        exact ⟨img, .refl h stack⟩
      · have hfirst : ArgAddr dest := hin 0 (by omega)
        obtain ⟨x, hx⟩ := Option.isSome_iff_exists.mp (hm dest hfirst)
        rw [if_neg hz, Prog.bind_of_eq (h.getPaddr hfirst.user hx)] at hrun
        by_cases hx0 : x = 0
        · rw [if_pos hx0] at hrun
          obtain ⟨-, rfl⟩ := Prog.pure_eq_some.mp hrun
          exact ⟨img, .refl h stack⟩
        · rw [if_neg hx0] at hrun
          have hoff : x % memPageSize = dest % memPageSize := by
            obtain ⟨e, -, rfl⟩ := walk_eq_some.mp hx
            have := entryPaddr_mod e
            unfold memPageSize at *
            omega
          rw [hoff] at hrun
          generalize hc : min size (memPageSize - dest % memPageSize) = c at hrun
          have hpage : dest % memPageSize < memPageSize := Nat.mod_lt _ (by decide)
          have hwalk : ∀ k < c, s.mem.walk dir (dest + k) = some (x + k) := fun k hk =>
            walk_add (by omega) hx
          obtain ⟨u, s₁, hcopy, hrest⟩ := Prog.bind_eq_some.mp hrun
          obtain ⟨m₁, rfl, hout⟩ := kernelMemcpy_confined
            (fun k hk => h.walk_identity (hin k (by omega)).user (hwalk k hk)) hcopy
          have hframes : ∀ y, (∀ w, StackAddr w → s.mem.walk dir w ≠ some y) → m₁ y = s.mem y := by
            intro y hy
            refine hout y ?_
            by_contra hno
            refine hy (dest + (y - x)) (hin _ (by omega)).onStack ?_
            rw [hwalk _ (by omega)]
            congr 1
            omega
          obtain ⟨img₁, hw₁⟩ := StackWritten.of_frames h stack hframes
          have htop := (hin (c - 1) (by omega)).2
          have hwrap : u32 (dest + c) = dest + c := u32_of_lt (by
            unfold memTaskStackTop at htop
            omega)
          rw [hwrap] at hrest
          obtain ⟨img₂, hw₂⟩ := ih hw₁.populated (hw₁.argsMapped hm) (fun k hk => by
            rw [Nat.add_assoc]
            exact hin (c + k) (by omega)) hrest
          exact ⟨img₂, hw₁.trans hw₂⟩

/-! ## The arguments -/

/-- The table of the arguments is in the first page of the area, and the strings in the rest. -/
structure ArgsFit (argc : ℕ) (lens : ℕ → ℕ) : Prop where
  table : taskArgsSize + 4 * argc ≤ memPageSize
  strings : taskArgsSize + 4 * argc + ∑ i ∈ Finset.range argc, (lens i + 1) ≤ memTaskArgSize

/-- What `copy_args` reads and where it writes stay apart. -/
structure ArgsApart (Q : ℕ → Prop) (s₀ : Vm) (stack : ℕ) : Prop where
  stack : ∀ x, Q x → ¬ InPage stack x
  clear : ∀ x, Q x → ∀ p ∈ s₀.alloc.clearPages, ¬ InPage p x

theorem StackWritten.agrees {img' : ℕ → Option (BitVec 8)}
    (h : StackWritten n dir s₀ stack img s img' s') (hQ : ArgsApart Q s₀ stack) : Agrees Q s s' :=
  ⟨h.cr3, fun x hx => h.out x (hQ.stack x hx) (hQ.clear x hx)⟩

/-- A word of the argument table. -/
theorem tableWord_written {i table w : ℕ} (h : Populated n dir s₀ img s) (stack : ℕ)
    (ht : s.mem.walk dir (Kernel.execStackTop + taskArgsSize) = some table) (hi : i < argc)
    (hfit : taskArgsSize + 4 * argc ≤ memPageSize)
    (hrun : store32 (u32 (table + 4 * i)) w s = some ((), s')) :
    ∃ img', StackWritten n dir s₀ stack img s img' s' := by
  have hoff : (Kernel.execStackTop + taskArgsSize) % memPageSize = taskArgsSize := by decide
  have harg : ∀ k < 4, ArgAddr (Kernel.execStackTop + taskArgsSize + (4 * i + k)) := fun k hk => by
    refine ⟨by omega, ?_⟩
    unfold Kernel.execStackTop memTaskArgSize memTaskStackTop memPageSize at *
    omega
  have hwalk : ∀ k < 4, s.mem.walk dir (Kernel.execStackTop + taskArgsSize + (4 * i + k)) =
      some (table + (4 * i + k)) := fun k hk => walk_add (by rw [hoff]; omega) ht
  have hid : Identity (table + 4 * i) :=
    h.walk_identity (harg 0 (by omega)).user (hwalk 0 (by omega))
  rw [u32_of_lt (by have := hid.lt; omega), store32_of_identity hid] at hrun
  obtain ⟨-, rfl⟩ := Prod.mk.inj (Option.some.inj hrun)
  refine StackWritten.of_frames h stack fun x hx => Mem.write32_apply_of_out x ?_
  by_contra hno
  refine hx _ (harg (x - (table + 4 * i)) (by omega)).onStack ?_
  rw [hwalk _ (by omega)]
  congr 1
  omega

theorem copyArg_written {i table d : ℕ} (h : Populated n dir s₀ img s)
    (hm : ArgsMapped dir s.mem) (hargs : ArgBlock s argv argc src lens) (hi : i < argc)
    (hfit : taskArgsSize + 4 * argc ≤ memPageSize)
    (ht : s.mem.walk dir (Kernel.execStackTop + taskArgsSize) = some table)
    (hin : ∀ k < lens i + 1, ArgAddr (dest + k))
    (hrun : copyArg dir argv table i dest s = some (d, s')) :
    d = dest + (lens i + 1) ∧ ∃ img', StackWritten n dir s₀ stack img s img' s' := by
  have hne : argv ≠ 0 := fun he => by
    have := hargs.null he
    omega
  obtain ⟨hbase, hend⟩ := hargs.user hne
  obtain ⟨hword, -⟩ := hargs.word i hi
  rw [copyArg, u32_of_lt (show argv + 4 * i < 2 ^ 32 by omega), Prog.bind_of_eq hword,
    Prog.bind_of_eq (hargs.string i hi).kernelStrlen_eq] at hrun
  obtain ⟨err, s₁, hcopy, hrest⟩ := Prog.bind_eq_some.mp hrun
  obtain ⟨img₁, hw₁⟩ := memoryCopyUvmData_written h hm hin hcopy
  obtain ⟨u, s₂, hreq, hrest₁⟩ := Prog.bind_eq_some.mp hrest
  obtain ⟨-, rfl⟩ := Prog.require_eq_some.mp hreq
  obtain ⟨u', s₃, hstore, hret⟩ := Prog.bind_eq_some.mp hrest₁
  obtain ⟨rfl, rfl⟩ := Prog.pure_eq_some.mp hret
  have htable : ArgAddr (Kernel.execStackTop + taskArgsSize) := by decide
  obtain ⟨img₂, hw₂⟩ := tableWord_written hw₁.populated stack
    ((hw₁.walk _ htable.user).trans ht) hi hfit hstore
  refine ⟨u32_of_lt ?_, img₂, hw₁.trans hw₂⟩
  have htop := (hin (lens i) (by omega)).2
  unfold memTaskStackTop at htop
  omega

/-- The loop over the arguments, with `m` of them left. -/
theorem copyArgsLoop_written {m i table : ℕ} {u : Unit} (h : Populated n dir s₀ img s)
    (hm : ArgsMapped dir s.mem) (hQ : ArgsApart Q s₀ stack) (hu : UserHalf Q s₁)
    (hs : Agrees Q s₁ s) (hargs : ArgBlock s₁ argv argc src lens) (hcount : i + m = argc)
    (hfit : taskArgsSize + 4 * argc ≤ memPageSize)
    (ht : s.mem.walk dir (Kernel.execStackTop + taskArgsSize) = some table)
    (hdest : Kernel.execStackTop ≤ dest)
    (hend : dest + ∑ k ∈ Finset.range m, (lens (i + k) + 1) ≤ memTaskStackTop)
    (hrun : copyArgsLoop dir argv table m i dest s = some (u, s')) :
    ∃ img', StackWritten n dir s₀ stack img s img' s' := by
  induction m generalizing i dest s img with
  | zero =>
      obtain ⟨-, rfl⟩ := Prog.pure_eq_some.mp hrun
      exact ⟨img, .refl h stack⟩
  | succ m ih =>
      obtain ⟨d, s₂, harg, hrest⟩ := Prog.bind_eq_some.mp hrun
      rw [Finset.sum_range_succ', Nat.add_zero i] at hend
      obtain ⟨rfl, img₁, hw₁⟩ := copyArg_written h hm (hargs.agrees hu hs) (by omega) hfit ht
        (fun k hk => ⟨by omega, by omega⟩) harg
      have htable : ArgAddr (Kernel.execStackTop + taskArgsSize) := by decide
      have hsum : ∑ k ∈ Finset.range m, (lens (i + 1 + k) + 1) =
          ∑ k ∈ Finset.range m, (lens (i + (k + 1)) + 1) :=
        Finset.sum_congr rfl fun k _ => by rw [Nat.add_right_comm, Nat.add_assoc]
      obtain ⟨img₂, hw₂⟩ := ih hw₁.populated (hw₁.argsMapped hm) (hs.trans (hw₁.agrees hQ)) (by omega)
        ((hw₁.walk _ htable.user).trans ht) (by omega) (by rw [hsum]; omega) hrest
      exact ⟨img₂, hw₁.trans hw₂⟩

/-- The whole call. -/
theorem copyArgs_written (h : Populated n dir s₀ img s) (hm : ArgsMapped dir s.mem)
    (hstack : StackPage dir s₀ stack) (hQ : ArgsApart Q s₀ stack) (hu : UserHalf Q s₁)
    (hs : Agrees Q s₁ s) (hargs : ArgBlock s₁ argv argc src lens) (hfit : ArgsFit argc lens)
    (ha : stack ≤ argsAt) (ha' : argsAt + taskArgsSize ≤ stack + memPageSize)
    (hrun : copyArgs argsAt Kernel.execStackTop dir argc argv s = some (r, s')) :
    ∃ img', StackWritten n dir s₀ stack img s img' s' := by
  have harea : Kernel.execStackTop + memTaskArgSize = memTaskStackTop := by decide
  have htable := hfit.table
  have hstrings := hfit.strings
  unfold taskArgsSize at ha' htable hstrings
  obtain ⟨s₂, hstore₂, hw₂⟩ := StackWritten.of_stackWord (a := argsAt + 4) (v := argc) h hstack
    (by omega) (by omega)
  obtain ⟨s₃, hstore₃, hw₃⟩ := StackWritten.of_stackWord (a := argsAt + 8)
    (v := u32 (Kernel.execStackTop + taskArgsSize)) hw₂.populated hstack (by omega) (by omega)
  have hw := hw₂.trans hw₃
  have htableAt : ArgAddr (Kernel.execStackTop + taskArgsSize) := by decide
  obtain ⟨table, ht⟩ := Option.isSome_iff_exists.mp (hw.argsMapped hm _ htableAt)
  rw [copyArgs, Prog.bind_of_eq hstore₂, Prog.bind_of_eq hstore₃,
    u32_of_lt (show Kernel.execStackTop + taskArgsSize < 2 ^ 32 by decide),
    Prog.bind_of_eq (hw.populated.getPaddr htableAt.user ht)] at hrun
  obtain ⟨u, s₄, hreq, hrun₁⟩ := Prog.bind_eq_some.mp hrun
  obtain ⟨-, rfl⟩ := Prog.require_eq_some.mp hreq
  obtain ⟨u', s₅, hloop, hrun₂⟩ := Prog.bind_eq_some.mp hrun₁
  have hstart : u32 (Kernel.execStackTop + taskArgsSize + 4 * argc) =
      Kernel.execStackTop + taskArgsSize + 4 * argc := u32_of_lt (by
    unfold Kernel.execStackTop memTaskStackTop memTaskArgSize taskArgsSize memPageSize at *
    omega)
  rw [hstart] at hloop
  obtain ⟨img₅, hw₅⟩ := copyArgsLoop_written hw.populated (hw.argsMapped hm) hQ hu
    (hs.trans (hw.agrees hQ)) hargs (Nat.zero_add argc) hfit.table ht (by omega) (by
      simp only [Nat.zero_add]
      unfold taskArgsSize
      omega) hloop
  obtain ⟨img₆, hw₆⟩ := memoryCopyUvmData_written hw₅.populated
    (hw₅.argsMapped (hw.argsMapped hm)) (fun k hk => by
      unfold taskArgsSize at hk
      refine ⟨by omega, ?_⟩
      unfold Kernel.execStackTop memTaskStackTop memTaskArgSize memPageSize
      omega) hrun₂
  exact ⟨img₆, (hw.trans hw₅).trans hw₆⟩

end X86Os
