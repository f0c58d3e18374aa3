import X86Os.ExecAccept
import X86Os.SchedRun

/-!
# Passing arguments

What a new program finds at its stack pointer. `copy_args` puts the argument table behind the structure
`task_args_t` and the strings directly behind the last entry, so there is no room for the null pointer
at the end of the table, and none is written.
-/

namespace X86Os

variable {d stack argsAt argv argc a dest size : ℕ} {src lens : ℕ → ℕ} {Q : ℕ → Prop} {s s' : Vm}
  {m' : Mem}

/-! ## The argument area -/

/-- The new directory with its tables, and the bytes with `Q`. -/
def Guarded (d : ℕ) (Q : ℕ → Prop) (m : Mem) (x : ℕ) : Prop :=
  InPage d x ∨ (∃ i < pdeCnt, Present (m.pde d i) ∧ InPage (m.table d i) x) ∨ Q x

/-- The argument area of a new directory, in whatever frames; the kernel stack is another page. -/
structure ArgArea (d stack : ℕ) (Q : ℕ → Prop) (s : Vm) : Prop where
  directory : Directory s.mem d
  stackPage : KernelPage stack
  stack_apart : ∀ x, InPage stack x → ¬ Guarded d Q s.mem x
  frame : ∀ w, ArgAddr w → ∃ p, s.mem.walk d w = some (p + w % memPageSize) ∧ KernelPage p ∧
    p ≠ stack ∧ ∀ x, InPage p x → ¬ Guarded d Q s.mem x
  distinct : ∀ w w' x, ArgAddr w → ArgAddr w' → s.mem.walk d w = some x →
    s.mem.walk d w' = some x → w = w'

/-- The guarded bytes stay guarded, and lead where they did. -/
theorem guarded_congr {m : Mem} (h : ∀ x, Guarded d Q m x → m' x = m x) :
    Guarded d Q m' = Guarded d Q m ∧ ∀ w < 2 ^ 32, m'.walk d w = m.walk d w := by
  have hdir : ∀ x, InPage d x → m' x = m x := fun x hx => h x (.inl hx)
  have hpde : ∀ i < pdeCnt, m'.pde d i = m.pde d i := fun i hi =>
    Mem.read32_congr fun x hx hx' => hdir x (inPage_word hi hx hx')
  refine ⟨funext fun x => propext (or_congr_right (or_congr_left (exists_congr fun i =>
    and_congr_right fun hi => ?_))), fun w hw => ?_⟩
  · rw [Mem.table, hpde i hi]
  · have hword : m'.pteWord d (pdeIndex w) (pteIndex w) = m.pteWord d (pdeIndex w) (pteIndex w) :=
      Mem.pteWord_congr (pdeIndex_lt hw) (pteIndex_lt w) hdir fun hp x hx =>
        h x (.inr (.inl ⟨_, pdeIndex_lt hw, hp, hx⟩))
    rw [walk_eq, walk_eq, Mem.userEntry_eq_filter, Mem.userEntry_eq_filter, hword]

theorem Agrees.guarded (h : Agrees (Guarded d Q s.mem) s s') :
    Guarded d Q s'.mem = Guarded d Q s.mem ∧
      ∀ w < 2 ^ 32, s'.mem.walk d w = s.mem.walk d w := guarded_congr h.same

theorem Agrees.unguarded (h : Agrees (Guarded d Q s.mem) s s') : Agrees Q s s' :=
  ⟨h.cr3, fun x hx => h.same x (.inr (.inr hx))⟩

theorem ArgArea.agrees (h : ArgArea d stack Q s) (hs : Agrees (Guarded d Q s.mem) s s') :
    ArgArea d stack Q s' := by
  obtain ⟨hguard, hwalk⟩ := hs.guarded
  have hpde : ∀ i < pdeCnt, s'.mem.pde d i = s.mem.pde d i := fun i hi =>
    Mem.read32_congr fun x hx hx' => hs.same x (.inl (inPage_word hi hx hx'))
  refine ⟨⟨h.directory.dirPage, fun i hi hp => ?_, fun i hi j hj hp hp' he => ?_⟩, h.stackPage,
    fun x hx => hguard ▸ h.stack_apart x hx, fun w hw => ?_, fun w w' x hw hw' hx hx' => ?_⟩
  · rw [hpde i hi] at hp
    rw [Mem.table, hpde i hi]
    exact h.directory.tablePage i hi hp
  · rw [hpde i hi] at hp
    rw [hpde j hj] at hp'
    rw [Mem.table, Mem.table, hpde i hi, hpde j hj] at he
    exact h.directory.apart i hi j hj hp hp' he
  · obtain ⟨p, hx, hpage, hne, hout⟩ := h.frame w hw
    exact ⟨p, (hwalk w hw.user.2).trans hx, hpage, hne, fun x hx => hguard ▸ hout x hx⟩
  · rw [hwalk w hw.user.2] at hx
    rw [hwalk w' hw'.user.2] at hx'
    exact h.distinct w w' x hw hw' hx hx'

/-- A space that `sys_execve` has filled has such an area. -/
theorem Populated.argArea {n : ℕ} {s₀ : Vm} {img : ℕ → Option (BitVec 8)}
    (h : Populated n d s₀ img s) (hm : ArgsMapped d s.mem) (hs : StackPage d s₀ stack)
    (hQ : ArgsApart Q s₀ stack) : ArgArea d stack Q s := by
  have hal := h.growable.directory.dirPage.aligned
  refine ⟨h.growable.directory, hs.page, fun x hx hg => ?_, fun w hw => ?_, fun w w' x hw hw' hx hx' =>
    h.walk_injective hw.user hw'.user hx hx'⟩
  · rcases hg with hdir | ⟨i, hi, hp, ht⟩ | hq
    · exact hs.dir_apart (InPage.unique hs.page.aligned hal hx hdir)
    · have heq := InPage.unique hs.page.aligned (entryPaddr_mod _) hx ht
      rcases h.tables i hi hp with ⟨hp', ht'⟩ | hc
      · exact hs.table_apart i hi hp' (ht'.symm.trans heq.symm)
      · exact hs.clear_apart (heq ▸ hc)
    · exact hQ.stack x hq hx
  · obtain ⟨x, hx⟩ := Option.isSome_iff_exists.mp (hm w hw)
    obtain ⟨e, he, rfl⟩ := walk_eq_some.mp hx
    obtain ⟨hmem, -, htables⟩ := h.frame w e hw.user he
    refine ⟨entryPaddr e, hx, h.usable _ hmem, fun heq => hs.clear_apart (heq ▸ hmem), fun x hx hg => ?_⟩
    rcases hg with hdir | ⟨i, hi, hp, ht⟩ | hq
    · exact h.dir_out (InPage.unique (entryPaddr_mod e) hal hx hdir ▸ hmem)
    · exact htables i hi hp (InPage.unique (entryPaddr_mod e) (entryPaddr_mod _) hx ht).symm
    · exact hQ.clear x hq _ hmem hx

/-! ## Copying into the area -/

theorem ArgArea.targetFrame {p : ℕ} (h : ArgArea d stack Q s) (hdest : ∀ k < size, ArgAddr (dest + k))
    (hp : TargetFrame s.mem d dest size p) :
    KernelPage p ∧ p ≠ stack ∧ ∀ x, InPage p x → ¬ Guarded d Q s.mem x := by
  obtain ⟨k, hk, e, he, rfl⟩ := hp
  obtain ⟨q, hq, hpage, hne, hout⟩ := h.frame _ (hdest k hk)
  have hwalk := walk_eq_some.mpr ⟨e, he, rfl⟩
  have hsame : q = entryPaddr e := by
    have hq' := Option.some.inj (hq.symm.trans hwalk)
    omega
  exact hsame ▸ ⟨hpage, hne, hout⟩

/-- Two addresses of the area in one frame are in one page. -/
theorem ArgArea.samePage {w w' e e' : ℕ} (h : ArgArea d stack Q s) (hw : ArgAddr w) (hw' : ArgAddr w')
    (he : s.mem.entryAt d w = some e) (he' : s.mem.entryAt d w' = some e')
    (heq : entryPaddr e = entryPaddr e') : w / memPageSize = w' / memPageSize := by
  let u := w' / memPageSize * memPageSize + w % memPageSize
  have hmod : w % memPageSize < memPageSize := Nat.mod_lt _ (by decide)
  have hpage : u / memPageSize = w' / memPageSize := by
    unfold u memPageSize at *
    omega
  have hoff : u % memPageSize = w % memPageSize := by
    unfold u memPageSize at *
    omega
  have hu : ArgAddr u := by
    obtain ⟨h1, h2⟩ := hw'
    unfold ArgAddr Kernel.execStackTop memTaskStackTop memTaskArgSize at *
    unfold u memPageSize at *
    omega
  have hwalk : s.mem.walk d u = some (entryPaddr e + w % memPageSize) := by
    rw [walk_eq_some]
    exact ⟨e', by rw [(same_page hpage).2, he'], by rw [hoff, heq]⟩
  rw [h.distinct w u _ hw hu (walk_eq_some.mpr ⟨e, he, rfl⟩) hwalk, hpage]

/-- Bytes of the caller and of the kernel stack can be copied to the area. -/
theorem ArgArea.copyInput (h : ArgArea d stack Q s) (hdest : ∀ k < size, ArgAddr (dest + k))
    (hend : dest + size ≤ 2 ^ 32) (hsrc : a + size ≤ 2 ^ 32) (ha : a ≠ 0)
    (hread : ∀ k < size, ∃ q, s.phys (a + k) = some q ∧ (Q q ∨ InPage stack q))
    (hcur : ∀ k < size, memoryTaskBase ≤ a + k → ∀ p, p = entryPaddr s.cr3 ∨
      p = s.mem.table (entryPaddr s.cr3) (pdeIndex (a + k)) →
      KernelPage p ∧ ∀ x, InPage p x → Q x) : CopyInput d dest a size s where
  directory := h.directory
  dest_end := hend
  src_end := hsrc
  src_ne := ha
  frame p hp := by
    obtain ⟨hpage, -, hout⟩ := h.targetFrame hdest hp
    have hself : InPage p p := ⟨le_rfl, by unfold memPageSize; omega⟩
    exact ⟨hpage, fun he => hout p hself (.inl (he ▸ hself)),
      fun i hi hpi he => hout p hself (.inr (.inl ⟨i, hi, hpi, he ▸ hself⟩))⟩
  distinct k hk l hl e e' he he' heq := h.samePage (hdest k hk) (hdest l hl) he he' heq
  source k hk := by
    obtain ⟨q, hq, hcase⟩ := hread k hk
    refine ⟨q, hq, fun p hp hin => ?_⟩
    obtain ⟨hpage, hne, hout⟩ := h.targetFrame hdest hp
    rcases hcase with hQ | hstack
    · exact hout q hin (.inr (.inr hQ))
    · exact hne (InPage.unique hpage.aligned h.stackPage.aligned hin hstack)
  current k hk hbase p hp := by
    obtain ⟨hpage, hin⟩ := hcur k hk hbase p hp
    have hself : InPage p p := ⟨le_rfl, by unfold memPageSize; omega⟩
    exact ⟨hpage, fun ht => (h.targetFrame hdest ht).2.2 p hself (.inr (.inr (hin p hself)))⟩

/-- What `memory_copy_uvm_data` does in the area. -/
structure AreaCopied (d dest a size : ℕ) (s : Vm) (m' : Mem) : Prop where
  bytes : ∀ k < size, ∀ p q, s.mem.walk d (dest + k) = some p → s.phys (a + k) = some q → m' p = s.mem q
  out : ∀ x, (∀ k < size, s.mem.walk d (dest + k) ≠ some x) → m' x = s.mem x

theorem ArgArea.copy (h : ArgArea d stack Q s) (hdest : ∀ k < size, ArgAddr (dest + k))
    (hin : CopyInput d dest a size s) : ∃ m',
      memoryCopyUvmData dest d a size s = some (0, { s with mem := m' }) ∧
        AreaCopied d dest a size s m' := by
  have hmapped : ∀ k < size, ∃ e, s.mem.entryAt d (dest + k) = some e := fun k hk => by
    obtain ⟨p, hp, -⟩ := h.frame _ (hdest k hk)
    exact walk_isSome_iff.mp (by rw [hp]; rfl)
  obtain ⟨m', hrun, hbytes, hout⟩ := hin.copied le_rfl hmapped (.inl rfl)
  rw [if_pos rfl] at hrun
  exact ⟨m', hrun, hbytes, hout⟩

/-! ## The table and the strings -/

variable {old i table lo hi dest' : ℕ} {s₁ : Vm}

/-- The addresses from `lo` up to `hi` and the frames of the area from `dest` on may have changed. -/
structure ArgsWritten (d dest lo hi : ℕ) (s s' : Vm) : Prop where
  cr3 : s'.cr3 = s.cr3
  out : ∀ x, ¬ (lo ≤ x ∧ x < hi) → (∀ w, dest ≤ w → ArgAddr w → s.mem.walk d w ≠ some x) →
    s'.mem x = s.mem x

/-- The words of the table disturb neither guarded bytes nor the kernel stack. -/
def TableApart (d stack : ℕ) (Q : ℕ → Prop) (lo hi : ℕ) (m : Mem) : Prop :=
  ∀ x, lo ≤ x → x < hi → ¬ Guarded d Q m x ∧ ¬ InPage stack x

theorem ArgArea.frame_apart (h : ArgArea d stack Q s) {w x : ℕ} (hw : ArgAddr w)
    (hx : s.mem.walk d w = some x) : ¬ Guarded d Q s.mem x ∧ ¬ InPage stack x := by
  obtain ⟨p, hp, hpage, hne, hout⟩ := h.frame w hw
  obtain rfl := Option.some.inj (hp.symm.trans hx)
  have hin : InPage p (p + w % memPageSize) := by
    unfold InPage memPageSize
    omega
  exact ⟨hout _ hin, fun hs => hne (InPage.unique hpage.aligned h.stackPage.aligned hin hs)⟩

theorem ArgsWritten.agrees (hw : ArgsWritten d dest lo hi s s') (h : ArgArea d stack Q s)
    (ht : TableApart d stack Q lo hi s.mem) :
    Agrees (Guarded d Q s.mem) s s' ∧ ∀ x, InPage stack x → s'.mem x = s.mem x :=
  ⟨⟨hw.cr3, fun x hx => hw.out x (fun hin => (ht x hin.1 hin.2).1 hx)
      fun _ _ ha hwx => (h.frame_apart ha hwx).1 hx⟩,
    fun x hx => hw.out x (fun hin => (ht x hin.1 hin.2).2 hx)
      fun _ _ ha hwx => (h.frame_apart ha hwx).2 hx⟩

theorem AreaCopied.written (hc : AreaCopied d dest a size s m')
    (hdest : ∀ k < size, ArgAddr (dest + k)) (lo hi : ℕ) :
    ArgsWritten d dest lo hi s { s with mem := m' } :=
  ⟨rfl, fun x _ hout => hc.out x fun k hk => hout _ (by omega) (hdest k hk)⟩

theorem ArgsWritten.refl (d dest lo hi : ℕ) (s : Vm) : ArgsWritten d dest lo hi s s :=
  ⟨rfl, fun _ _ _ => rfl⟩

theorem ArgsWritten.trans {mid : ℕ} (hw : ArgsWritten d dest lo mid s s₁)
    (hw' : ArgsWritten d dest' mid hi s₁ s') (h : ArgArea d stack Q s)
    (ht : TableApart d stack Q lo mid s.mem) (hle : dest ≤ dest') (hlo : lo ≤ mid) (hhi : mid ≤ hi) :
    ArgsWritten d dest lo hi s s' := by
  have hwalk := (hw.agrees h ht).1.guarded.2
  refine ⟨hw'.cr3.trans hw.cr3, fun x hx hout => ?_⟩
  rw [hw'.out x (by omega) fun w hge ha => ?_, hw.out x (by omega) hout]
  rw [hwalk w ha.user.2]
  exact hout w (hle.trans hge) ha

/-- What the kernel reads of the caller. -/
theorem Kernel.Caller.source {v : ℕ} {b : BitVec 8} (h : Kernel.Caller Q s old argv argc src lens)
    (hv : UserAddr v) (hload : load8 v s = some (b, s)) : (∃ q, s.phys v = some q ∧ Q q) ∧
    ∀ p, p = entryPaddr s.cr3 ∨ p = s.mem.table (entryPaddr s.cr3) (pdeIndex v) →
      KernelPage p ∧ ∀ x, InPage p x → Q x := by
  rw [load8, Option.map_eq_some_iff] at hload
  obtain ⟨q, hq, -⟩ := hload
  have hwalk : s.mem.walk (entryPaddr s.cr3) v = some q := by
    rw [Vm.phys, if_neg (not_lt.mpr hv.1)] at hq
    exact hq
  obtain ⟨e, he, -⟩ := walk_eq_some.mp hwalk
  obtain ⟨hpres, -, -⟩ := userEntry_eq_some.mp he
  obtain ⟨hi, hi'⟩ := hv.indices
  have hreached := h.reached
  rw [← h.cr3] at hreached
  refine ⟨⟨q, hq, h.user.frame v q hv hwalk⟩, fun p hp => ?_⟩
  rcases hp with rfl | rfl
  · exact ⟨hreached.dirPage, h.user.dir⟩
  · exact ⟨hreached.table _ hi hi' hpres, h.user.table _ hi hi' hpres⟩

/-- A round is a copy of a string and a store. -/
theorem copyArg_eq (table : ℕ) (h : ArgArea d stack Q s) (hc : Kernel.Caller Q s old argv argc src lens)
    (hi : i < argc) (hin : ∀ k < lens i + 1, ArgAddr (dest + k)) :
    ∃ m', AreaCopied d dest (src i) (lens i + 1) s m' ∧ copyArg d argv table i dest s = (do
      store32 (u32 (table + 4 * i)) dest
      pure (dest + (lens i + 1))) { s with mem := m' } := by
  have hargs := hc.args
  have hne : argv ≠ 0 := fun he => by
    have := hargs.null he
    omega
  obtain ⟨hbase, hend⟩ := hargs.user hne
  obtain ⟨hword, -⟩ := hargs.word i hi
  have hstr := hargs.string i hi
  have huser := hstr.user
  have hstop := hstr.end_le
  have htop := (hin (lens i) (by omega)).2
  unfold memTaskStackTop at htop
  have hchar : ∀ k < lens i + 1, ∃ b, load8 (src i + k) s = some (b, s) := fun k hk => by
    rcases Nat.lt_succ_iff_lt_or_eq.mp hk with hk | rfl
    · obtain ⟨b, hb, -⟩ := hstr.char k hk
      exact ⟨b, hb⟩
    · exact ⟨0, hstr.stop⟩
  have hsource : ∀ k < lens i + 1, _ := fun k hk =>
    hc.source (show UserAddr (src i + k) from ⟨by omega, by omega⟩) (hchar k hk).choose_spec
  have hinput : CopyInput d dest (src i) (lens i + 1) s :=
    h.copyInput hin (by omega) (by omega) (by unfold memoryTaskBase at huser; omega)
      (fun k hk => (hsource k hk).1.imp fun q hq => ⟨hq.1, .inl hq.2⟩)
      fun k hk _ => (hsource k hk).2
  obtain ⟨m', hcopy, hcopied⟩ := h.copy hin hinput
  refine ⟨m', hcopied, ?_⟩
  rw [copyArg, u32_of_lt (show argv + 4 * i < 2 ^ 32 by omega), Prog.bind_of_eq hword,
    Prog.bind_of_eq hstr.kernelStrlen_eq, Prog.bind_of_eq hcopy,
    Prog.bind_of_eq (Prog.require_of le_rfl), u32_of_lt (show dest + (lens i + 1) < 2 ^ 32 by omega)]

/-- A string is copied, and its place is stored in the table. -/
theorem copyArg_step {r : ℕ} (h : ArgArea d stack Q s) (hc : Kernel.Caller Q s old argv argc src lens)
    (hi : i < argc) (hsmall : table + 4 * argc < memoryTaskBase)
    (hin : ∀ k < lens i + 1, ArgAddr (dest + k))
    (hrun : copyArg d argv table i dest s = some (r, s')) :
    r = dest + (lens i + 1) ∧ ArgsWritten d dest (table + 4 * i) (table + 4 * (i + 1)) s s' ∧
      s'.mem.read32 (table + 4 * i) = dest := by
  unfold memoryTaskBase at hsmall
  have hdest := (hin 0 (by omega)).2
  obtain ⟨m', hcopied, heq⟩ := copyArg_eq table h hc hi hin
  rw [heq, u32_of_lt (show table + 4 * i < 2 ^ 32 by omega)] at hrun
  obtain ⟨u, s₂, hstore, hret⟩ := Prog.bind_eq_some.mp hrun
  obtain ⟨rfl, rfl⟩ := Prog.pure_eq_some.mp hret
  rw [store32, Option.map_eq_some_iff] at hstore
  obtain ⟨x, hx, hs'⟩ := hstore
  obtain rfl := (Prod.mk.inj hs').2
  rw [Vm.phys, if_pos (show table + 4 * i < memoryTaskBase by unfold memoryTaskBase; omega)] at hx
  have hxt : table + 4 * i = x := by
    split_ifs at hx
    exact Option.some.inj hx
  subst x
  unfold memTaskStackTop at hdest
  exact ⟨rfl, ⟨rfl, fun x hx hout => (Mem.write32_apply_of_out x (by omega)).trans
    ((hcopied.written hin 0 0).out x (by omega) hout)⟩, Mem.read32_write32_self (by omega)⟩

theorem copyArg_total (h : ArgArea d stack Q s) (hc : Kernel.Caller Q s old argv argc src lens)
    (hi : i < argc) (hid : Identity (table + 4 * i)) (hin : ∀ k < lens i + 1, ArgAddr (dest + k)) :
    ∃ s', copyArg d argv table i dest s = some (dest + (lens i + 1), s') := by
  obtain ⟨m', -, heq⟩ := copyArg_eq table h hc hi hin
  have hlt := hid.lt
  rw [heq, u32_of_lt (show table + 4 * i < 2 ^ 32 by omega), Prog.bind_of_eq (store32_of_identity hid _)]
  exact ⟨_, rfl⟩

theorem TableApart.mono {lo' hi' : ℕ} {m : Mem} (h : TableApart d stack Q lo hi m) (hlo : lo ≤ lo')
    (hhi : hi' ≤ hi) : TableApart d stack Q lo' hi' m := fun x hx hx' => h x (by omega) (by omega)

theorem TableApart.agrees (h : TableApart d stack Q lo hi s.mem)
    (hs : Agrees (Guarded d Q s.mem) s s') : TableApart d stack Q lo hi s'.mem := by
  rw [TableApart, hs.guarded.1]
  exact h

/-- The loop over the arguments, with `m` of them left. -/
theorem copyArgsLoop_step {m : ℕ} {u : Unit} (h : ArgArea d stack Q s)
    (hc : Kernel.Caller Q s old argv argc src lens) (hcount : i + m = argc)
    (hsmall : table + 4 * argc < memoryTaskBase)
    (ht : TableApart d stack Q (table + 4 * i) (table + 4 * argc) s.mem)
    (hdest : Kernel.execStackTop ≤ dest)
    (hend : dest + ∑ k ∈ Finset.range m, (lens (i + k) + 1) ≤ memTaskStackTop)
    (hrun : copyArgsLoop d argv table m i dest s = some (u, s')) :
    ArgsWritten d dest (table + 4 * i) (table + 4 * argc) s s' := by
  induction m generalizing i dest s with
  | zero =>
      obtain ⟨-, rfl⟩ := Prog.pure_eq_some.mp hrun
      exact .refl d dest _ _ _
  | succ m ih =>
      obtain ⟨r, s₁, harg, hrest⟩ := Prog.bind_eq_some.mp hrun
      rw [Finset.sum_range_succ', Nat.add_zero i] at hend
      have hsum : ∑ k ∈ Finset.range m, (lens (i + 1 + k) + 1) =
          ∑ k ∈ Finset.range m, (lens (i + (k + 1)) + 1) :=
        Finset.sum_congr rfl fun k _ => by rw [Nat.add_right_comm, Nat.add_assoc]
      obtain ⟨rfl, hw, -⟩ := copyArg_step h hc (by omega) hsmall
        (fun k hk => ⟨by omega, by omega⟩) harg
      have hfirst : TableApart d stack Q (table + 4 * i) (table + 4 * (i + 1)) s.mem :=
        ht.mono le_rfl (by omega)
      obtain ⟨hs, -⟩ := hw.agrees h hfirst
      have hnext := ih (h.agrees hs) (hc.agrees hs.unguarded) (by omega)
        ((ht.agrees hs).mono (by omega) le_rfl) (by omega) (by rw [hsum]; omega) hrest
      exact hw.trans hnext h hfirst (by omega) (by omega) (by omega)

theorem copyArgsLoop_total {m : ℕ} (h : ArgArea d stack Q s)
    (hc : Kernel.Caller Q s old argv argc src lens) (hcount : i + m = argc)
    (hid : ∀ j < argc, Identity (table + 4 * j))
    (hsmall : table + 4 * argc < memoryTaskBase)
    (ht : TableApart d stack Q (table + 4 * i) (table + 4 * argc) s.mem)
    (hdest : Kernel.execStackTop ≤ dest)
    (hend : dest + ∑ k ∈ Finset.range m, (lens (i + k) + 1) ≤ memTaskStackTop) :
    ∃ s', copyArgsLoop d argv table m i dest s = some ((), s') := by
  induction m generalizing i dest s with
  | zero => exact ⟨s, rfl⟩
  | succ m ih =>
      rw [Finset.sum_range_succ', Nat.add_zero i] at hend
      have hsum : ∑ k ∈ Finset.range m, (lens (i + 1 + k) + 1) =
          ∑ k ∈ Finset.range m, (lens (i + (k + 1)) + 1) :=
        Finset.sum_congr rfl fun k _ => by rw [Nat.add_right_comm, Nat.add_assoc]
      have hin : ∀ k < lens i + 1, ArgAddr (dest + k) := fun k hk => ⟨by omega, by omega⟩
      obtain ⟨s₁, harg⟩ := copyArg_total h hc (by omega) (hid i (by omega)) hin
      obtain ⟨-, hw, -⟩ := copyArg_step h hc (by omega) hsmall hin harg
      obtain ⟨hs, -⟩ := hw.agrees h (ht.mono le_rfl (by omega))
      rw [copyArgsLoop, Prog.bind_of_eq harg]
      exact ih (h.agrees hs) (hc.agrees hs.unguarded) (by omega)
        ((ht.agrees hs).mono (by omega) le_rfl) (by omega) (by rw [hsum]; omega)

/-- The first word of the table is the place of the first string, directly behind the last word. -/
theorem copyArgsLoop_first {u : Unit} (h : ArgArea d stack Q s)
    (hc : Kernel.Caller Q s old argv argc src lens) (hpos : 0 < argc)
    (hsmall : table + 4 * argc < memoryTaskBase)
    (ht : TableApart d stack Q table (table + 4 * argc) s.mem)
    (hat : ∀ j < 4, s.mem.walk d (Kernel.execStackTop + taskArgsSize + j) = some (table + j))
    (hdest : dest = Kernel.execStackTop + taskArgsSize + 4 * argc)
    (hend : dest + ∑ k ∈ Finset.range argc, (lens k + 1) ≤ memTaskStackTop)
    (hrun : copyArgsLoop d argv table argc 0 dest s = some (u, s')) :
    s'.mem.read32 table = dest := by
  obtain ⟨m, rfl⟩ : ∃ m, argc = m + 1 := ⟨argc - 1, by omega⟩
  obtain ⟨r, s₁, harg, hrest⟩ := Prog.bind_eq_some.mp hrun
  rw [Finset.sum_range_succ'] at hend
  obtain ⟨rfl, hw, hword⟩ := copyArg_step h hc hpos hsmall (fun k hk => ⟨by omega, by omega⟩) harg
  rw [Nat.mul_zero, Nat.add_zero, Nat.zero_add, Nat.mul_one] at hw
  rw [Nat.mul_zero, Nat.add_zero] at hword
  obtain ⟨hs, -⟩ := hw.agrees h (ht.mono le_rfl (by omega))
  have hsum : ∑ k ∈ Finset.range m, (lens (0 + 1 + k) + 1) = ∑ k ∈ Finset.range m, (lens (k + 1) + 1) :=
    Finset.sum_congr rfl fun k _ => by rw [Nat.zero_add, Nat.add_comm 1]
  have hnext := copyArgsLoop_step (i := 0 + 1) (h.agrees hs) (hc.agrees hs.unguarded) (by omega) hsmall
    ((ht.agrees hs).mono (by omega) le_rfl) (by omega) (by rw [hsum]; omega) hrest
  rw [← hword]
  refine Mem.read32_congr fun x hx hx' => hnext.out x (by omega) fun w hle hwa hwx => ?_
  have harg : ArgAddr (Kernel.execStackTop + taskArgsSize + (x - table)) := by
    refine ⟨by omega, ?_⟩
    omega
  have hwx' := hat (x - table) (by omega)
  rw [hs.guarded.2 w hwa.user.2] at hwx
  rw [show table + (x - table) = x by omega] at hwx'
  have heq := h.distinct w _ x hwa harg hwx hwx'
  omega

/-! ## The whole block -/

variable {f : ℕ} {r : ℤ}

/-- The structure, the table with its terminator and the strings fit into the argument area. -/
def BlockFits (argc : ℕ) (lens : ℕ → ℕ) : Prop :=
  taskArgsSize + 4 * (argc + 1) + ∑ i ∈ Finset.range argc, (lens i + 1) ≤ memTaskArgSize

/-- The frame of the first page of the area. -/
def FirstFrame (d f : ℕ) (m : Mem) : Prop :=
  ∀ j < memPageSize, m.walk d (Kernel.execStackTop + j) = some (f + j)

theorem ArgArea.firstFrame (h : ArgArea d stack Q s) :
    ∃ f, KernelPage f ∧ f ≠ stack ∧ (∀ x, InPage f x → ¬ Guarded d Q s.mem x) ∧
      FirstFrame d f s.mem := by
  obtain ⟨f, hf, hpage, hne, hout⟩ := h.frame Kernel.execStackTop (by decide)
  have hoff : Kernel.execStackTop % memPageSize = 0 := by decide
  rw [hoff, Nat.add_zero] at hf
  exact ⟨f, hpage, hne, hout, fun j hj => walk_add (by omega) hf⟩

/-- Words of the kernel stack are stored. -/
theorem ArgArea.storeStack {v w : ℕ} (h : ArgArea d stack Q s) (ha : stack ≤ v)
    (ha' : v + 4 ≤ stack + memPageSize) :
    store32 v w s = some ((), { s with mem := s.mem.write32 v w }) ∧
      Agrees (Guarded d Q s.mem) s { s with mem := s.mem.write32 v w } := by
  have hid : Identity v := by
    have hadd := h.stackPage.identity.add h.stackPage.aligned (show v - stack < memPageSize by omega)
    rwa [show stack + (v - stack) = v by omega] at hadd
  refine ⟨store32_of_identity hid w, rfl, fun x hx => Mem.write32_apply_of_out x ?_⟩
  by_contra hno
  exact h.stack_apart x (by unfold InPage; omega) hx

theorem Mem.read32_eq {m : Mem} {b : ℕ} (h : ∀ k < 4, m' (a + k) = m (b + k)) :
    m'.read32 a = m.read32 b := by
  have h0 := h 0 (by norm_num)
  rw [Nat.add_zero, Nat.add_zero] at h0
  rw [Mem.read32, Mem.read32, h0, h 1 (by norm_num), h 2 (by norm_num), h 3 (by norm_num)]

/-- What `copy_args` leaves in the first page of the area. -/
structure ArgsStored (d : ℕ) (Q : ℕ → Prop) (argc f : ℕ) (s s' : Vm) : Prop where
  agrees : Agrees (Guarded d Q s.mem) s s'
  count : s'.mem.read32 (f + 4) = argc
  vector : s'.mem.read32 (f + 8) = Kernel.execStackTop + taskArgsSize
  first : 0 < argc →
    s'.mem.read32 (f + taskArgsSize) = Kernel.execStackTop + taskArgsSize + 4 * argc
  stale : argc = 0 → ∀ j < 4, s'.mem (f + taskArgsSize + j) = s.mem (f + taskArgsSize + j)

theorem ArgArea.getPaddr {w p : ℕ} (h : ArgArea d stack Q s) (hw : ArgAddr w)
    (hp : s.mem.walk d w = some p) : memoryGetPaddr d w s = some (p, s) := by
  obtain ⟨q, hq, hpage, -, -⟩ := h.frame w hw
  have hmod : w % memPageSize < memPageSize := Nat.mod_lt w (by decide)
  have hlt := (hpage.identity.add hpage.aligned hmod).lt
  obtain rfl := Option.some.inj (hq.symm.trans hp)
  obtain ⟨e, he, hpe⟩ := walk_eq_some.mp hp
  rw [h.directory.memoryGetPaddr hw.user.2, Mem.lookup, pteWord_of_entryAt he]
  show some (u32 (entryPaddr e + w % memPageSize), s) = _
  rw [← hpe, u32_of_lt (by omega)]

/-- The structure is filled in on the kernel stack. -/
theorem ArgArea.storeArgs {v : ℕ} (h : ArgArea d stack Q s) (hargc : argc < 2 ^ 32) (hv : v < 2 ^ 32)
    (ha : stack ≤ argsAt) (ha' : argsAt + taskArgsSize ≤ stack + memPageSize) :
    ∃ m, (do
        store32 (argsAt + 4) argc
        store32 (argsAt + 8) v) s = some ((), { s with mem := m }) ∧
      Agrees (Guarded d Q s.mem) s { s with mem := m } ∧ (∀ x, ¬ InPage stack x → m x = s.mem x) ∧
      m.read32 (argsAt + 4) = argc ∧ m.read32 (argsAt + 8) = v := by
  have hsize : taskArgsSize = 12 := rfl
  obtain ⟨hstore₁, hs₁⟩ := h.storeStack (v := argsAt + 4) (w := argc) (by omega) (by omega)
  obtain ⟨hstore₂, hs₂⟩ := (h.agrees hs₁).storeStack (v := argsAt + 8) (w := v) (by omega) (by omega)
  rw [hs₁.guarded.1] at hs₂
  refine ⟨(s.mem.write32 (argsAt + 4) argc).write32 (argsAt + 8) v, ?_, hs₁.trans hs₂, fun x hx => ?_,
    ?_, Mem.read32_write32_self hv⟩
  · rw [Prog.bind_of_eq hstore₁]
    exact hstore₂
  · unfold InPage at hx
    rw [Mem.write32_apply_of_out x (by omega), Mem.write32_apply_of_out x (by omega)]
  · rw [Mem.read32_write32_of_apart (.inl (by omega))]
    exact Mem.read32_write32_self hargc

/-- The structure is copied to the beginning of the area. -/
theorem ArgArea.copyStruct (h : ArgArea d stack Q s) (ha : stack ≤ argsAt)
    (ha' : argsAt + taskArgsSize ≤ stack + memPageSize) (hf : FirstFrame d f s.mem) :
    ∃ s', memoryCopyUvmData Kernel.execStackTop d argsAt taskArgsSize s = some (0, s') ∧
      Agrees (Guarded d Q s.mem) s s' ∧
      (∀ j < taskArgsSize, s'.mem (f + j) = s.mem (argsAt + j)) ∧
      ∀ j < memPageSize, taskArgsSize ≤ j → s'.mem (f + j) = s.mem (f + j) := by
  have hsize : taskArgsSize = 12 := rfl
  have hlt := h.stackPage.identity.lt
  have hid : ∀ k < taskArgsSize, Identity (argsAt + k) := fun k hk => by
    have hadd := h.stackPage.identity.add h.stackPage.aligned
      (show argsAt + k - stack < memPageSize by omega)
    rwa [show stack + (argsAt + k - stack) = argsAt + k by omega] at hadd
  have hdest : ∀ k < taskArgsSize, ArgAddr (Kernel.execStackTop + k) := fun k hk => by
    refine ⟨by omega, ?_⟩
    unfold Kernel.execStackTop memTaskArgSize memTaskStackTop memPageSize
    omega
  have hne : argsAt ≠ 0 := fun he => by
    have := h.stackPage.ne_zero
    omega
  have hinput := h.copyInput hdest (by decide) (show argsAt + taskArgsSize ≤ 2 ^ 32 by
      unfold memPageSize at ha'
      omega) hne
    (fun k hk => ⟨argsAt + k, phys_of_identity (hid k hk), .inr (by unfold InPage; omega)⟩)
    fun k hk hbase => absurd (hid k hk).lt (by unfold memoryTaskBase at hbase; omega)
  obtain ⟨m', hcopy, hc⟩ := h.copy hdest hinput
  refine ⟨_, hcopy, ((hc.written hdest 0 0).agrees h fun x hx hx' => absurd hx' (by omega)).1,
    fun j hj => ?_, fun j hj hle => ?_⟩
  · exact hc.bytes j hj _ _ (hf j (by unfold memPageSize; omega)) (phys_of_identity (hid j hj))
  · refine hc.out _ fun k hk hx => ?_
    have harg : ArgAddr (Kernel.execStackTop + j) := by
      refine ⟨by omega, ?_⟩
      unfold memPageSize at hj
      unfold Kernel.execStackTop memTaskArgSize memTaskStackTop memPageSize
      omega
    have heq := h.distinct _ _ _ (hdest k hk) harg hx (hf j hj)
    omega

theorem FirstFrame.agrees (h : FirstFrame d f s.mem) (hs : Agrees (Guarded d Q s.mem) s s') :
    FirstFrame d f s'.mem := fun j hj => by
  refine (hs.guarded.2 _ ?_).trans (h j hj)
  unfold memPageSize at hj
  unfold Kernel.execStackTop memTaskArgSize memTaskStackTop memPageSize
  omega

/-- The call is a loop and a copy of the structure, which is complete by then. -/
theorem copyArgs_eq (argv : ℕ) (h : ArgArea d stack Q s) (ha : stack ≤ argsAt)
    (ha' : argsAt + taskArgsSize ≤ stack + memPageSize) (hfit : BlockFits argc lens)
    (hpage : KernelPage f) (hf : FirstFrame d f s.mem) :
    ∃ m, Agrees (Guarded d Q s.mem) s { s with mem := m } ∧ (∀ x, ¬ InPage stack x → m x = s.mem x) ∧
      m.read32 (argsAt + 4) = argc ∧ m.read32 (argsAt + 8) = Kernel.execStackTop + taskArgsSize ∧
      copyArgs argsAt Kernel.execStackTop d argc argv s = (do
        copyArgsLoop d argv (f + taskArgsSize) argc 0
          (Kernel.execStackTop + taskArgsSize + 4 * argc)
        memoryCopyUvmData Kernel.execStackTop d argsAt taskArgsSize) { s with mem := m } := by
  have harea : Kernel.execStackTop + memTaskArgSize = memTaskStackTop := by decide
  have hlt := hpage.identity.lt
  unfold BlockFits at hfit
  have hsize : taskArgsSize = 12 := rfl
  have hargSize : memTaskArgSize = 0x4000 := rfl
  have htop : u32 (Kernel.execStackTop + taskArgsSize) = Kernel.execStackTop + taskArgsSize := by decide
  have hstart : u32 (Kernel.execStackTop + taskArgsSize + 4 * argc) =
      Kernel.execStackTop + taskArgsSize + 4 * argc := u32_of_lt (by
    unfold memTaskStackTop at harea
    omega)
  obtain ⟨m, hstore, hs, hout, hcount, hvector⟩ := h.storeArgs (show argc < 2 ^ 32 by omega)
    (show Kernel.execStackTop + taskArgsSize < 2 ^ 32 by decide) ha ha'
  obtain ⟨_, s₁, hstore₁, hstore₂⟩ := Prog.bind_eq_some.mp hstore
  refine ⟨m, hs, hout, hcount, hvector, ?_⟩
  rw [copyArgs, Prog.bind_of_eq hstore₁, htop, Prog.bind_of_eq hstore₂, Prog.bind_of_eq
    ((h.agrees hs).getPaddr (by decide) (hf.agrees hs taskArgsSize (by decide))),
    Prog.bind_of_eq (Prog.require_of (by omega)), hstart]

theorem copyArgs_stored (h : ArgArea d stack Q s) (hc : Kernel.Caller Q s old argv argc src lens)
    (ha : stack ≤ argsAt) (ha' : argsAt + taskArgsSize ≤ stack + memPageSize)
    (hfit : BlockFits argc lens) (hpage : KernelPage f) (hf : FirstFrame d f s.mem)
    (hstack : f ≠ stack)
    (ht : TableApart d stack Q (f + taskArgsSize) (f + taskArgsSize + 4 * argc) s.mem)
    (hrun : copyArgs argsAt Kernel.execStackTop d argc argv s = some (r, s')) :
    r = 0 ∧ ArgsStored d Q argc f s s' := by
  obtain ⟨m, hs₂, hout, hcount, hvector, heq⟩ := copyArgs_eq argv h ha ha' hfit hpage hf
  have harea : Kernel.execStackTop + memTaskArgSize = memTaskStackTop := by decide
  have hlt := hpage.identity.lt
  unfold BlockFits at hfit
  have hsize : taskArgsSize = 12 := rfl
  have hargSize : memTaskArgSize = 0x4000 := rfl
  have hpageSize : memPageSize = 4096 := rfl
  have h₂ := h.agrees hs₂
  have hf₂ := hf.agrees hs₂
  rw [heq] at hrun
  obtain ⟨_, s₅, hloop, hcopy⟩ := Prog.bind_eq_some.mp hrun
  have hsmall : f + taskArgsSize + 4 * argc < memoryTaskBase := by
    unfold memoryTaskBase
    omega
  have hc₂ := hc.agrees hs₂.unguarded
  have hend : Kernel.execStackTop + taskArgsSize + 4 * argc +
      ∑ k ∈ Finset.range argc, (lens k + 1) ≤ memTaskStackTop := by omega
  have hw := copyArgsLoop_step h₂ hc₂ (Nat.zero_add argc) hsmall (ht.agrees hs₂) (by omega)
    (by simpa only [Nat.zero_add] using hend) hloop
  obtain ⟨hs₅, hstack₅⟩ := hw.agrees h₂ (ht.agrees hs₂)
  obtain ⟨s₆, hcopy', hs', hstruct, hrest⟩ := (h₂.agrees hs₅).copyStruct ha ha' (hf₂.agrees hs₅)
  obtain ⟨rfl, rfl⟩ := Prog.result_unique hcopy hcopy'
  rw [hs₅.guarded.1, hs₂.guarded.1] at hs'
  rw [hs₂.guarded.1] at hs₅
  have hword : ∀ j, j + 4 ≤ taskArgsSize → s'.mem.read32 (f + j) = m.read32 (argsAt + j) :=
    fun j hj => (Mem.read32_eq fun k hk => by
      rw [Nat.add_assoc, Nat.add_assoc]
      exact hstruct _ (by omega)).trans
        (Mem.read32_congr fun x hx hx' => hstack₅ x (by unfold InPage; omega))
  refine ⟨rfl, (hs₂.trans hs₅).trans hs', (hword 4 (by decide)).trans hcount,
    (hword 8 (by decide)).trans hvector, fun hpos => ?_, fun hzero j hj => ?_⟩
  · have hfirst := copyArgsLoop_first h₂ hc₂ hpos hsmall (ht.agrees hs₂)
      (fun j hj => by
        rw [Nat.add_assoc, Nat.add_assoc]
        exact hf₂ _ (by omega)) rfl hend hloop
    refine (Mem.read32_eq fun k hk => ?_).trans hfirst
    rw [Nat.add_assoc]
    exact hrest _ (by omega) (by omega)
  · subst hzero
    obtain ⟨-, rfl⟩ := Prog.pure_eq_some.mp hloop
    rw [Nat.add_assoc, hrest _ (by omega) (by omega)]
    exact hout _ fun hin => hstack (InPage.unique hpage.aligned h.stackPage.aligned
      (by unfold InPage; omega) hin)

theorem ArgArea.page_tableApart (h : ArgArea d stack Q s) (hpage : KernelPage f) (hstack : f ≠ stack)
    (hout : ∀ x, InPage f x → ¬ Guarded d Q s.mem x) (hfit : taskArgsSize + 4 * argc ≤ memPageSize) :
    TableApart d stack Q (f + taskArgsSize) (f + taskArgsSize + 4 * argc) s.mem := by
  intro x hx hx'
  have hin : InPage f x := by
    unfold InPage
    omega
  exact ⟨hout x hin, fun hs => hstack (InPage.unique hpage.aligned h.stackPage.aligned hin hs)⟩

/-- The call succeeds if the table fits into the first page. -/
theorem copyArgs_total (h : ArgArea d stack Q s) (hc : Kernel.Caller Q s old argv argc src lens)
    (ha : stack ≤ argsAt) (ha' : argsAt + taskArgsSize ≤ stack + memPageSize)
    (hfit : BlockFits argc lens) (htable : taskArgsSize + 4 * argc ≤ memPageSize) :
    ∃ s', copyArgs argsAt Kernel.execStackTop d argc argv s = some (0, s') := by
  obtain ⟨f, hpage, hstack, hout, hf⟩ := h.firstFrame
  have ht := h.page_tableApart hpage hstack hout htable
  obtain ⟨m, hs, -, -, -, heq⟩ := copyArgs_eq argv h ha ha' hfit hpage hf
  have harea : Kernel.execStackTop + memTaskArgSize = memTaskStackTop := by decide
  have hlt := hpage.identity.lt
  unfold BlockFits at hfit
  have hargSize : memTaskArgSize = 0x4000 := rfl
  have hpageSize : memPageSize = 4096 := rfl
  have hsmall : f + taskArgsSize + 4 * argc < memoryTaskBase := by
    unfold memoryTaskBase
    omega
  have hid : ∀ j < argc, Identity (f + taskArgsSize + 4 * j) := fun j hj => by
    rw [Nat.add_assoc]
    exact hpage.identity.add hpage.aligned (by omega)
  obtain ⟨s₁, hloop⟩ := copyArgsLoop_total (h.agrees hs) (hc.agrees hs.unguarded) (Nat.zero_add argc)
    hid hsmall (ht.agrees hs)
    (show Kernel.execStackTop ≤ Kernel.execStackTop + taskArgsSize + 4 * argc by omega)
    (by simp only [Nat.zero_add]; omega)
  obtain ⟨hs₁, -⟩ := (copyArgsLoop_step (h.agrees hs) (hc.agrees hs.unguarded) (Nat.zero_add argc)
    hsmall (ht.agrees hs) (by omega)
    (by simp only [Nat.zero_add]; omega) hloop).agrees (h.agrees hs) (ht.agrees hs)
  obtain ⟨s₂, hcopy, -⟩ := ((h.agrees hs).agrees hs₁).copyStruct ha ha' ((hf.agrees hs).agrees hs₁)
  rw [heq, Prog.bind_of_eq hloop]
  exact ⟨s₂, hcopy⟩

/-! ## The new program -/

/-- Ranges that do not overlap. -/
def RangeApart (a c b e : ℕ) : Prop := a + c ≤ b ∨ b + e ≤ a

/-- What a program reads at its stack pointer if it has the arguments of the caller: `vec` is its vector
and `ptr` has the entries of it. -/
structure ArgsRead (s s' : Vm) (argc : ℕ) (src lens : ℕ → ℕ) (sp vec : ℕ) (ptr : ℕ → ℕ) : Prop where
  count : load32 (u32 (sp + 4)) s' = some (argc, s')
  vector : load32 (u32 (sp + 8)) s' = some (vec, s')
  entry : ∀ i < argc, load32 (u32 (vec + 4 * i)) s' = some (ptr i, s')
  null : load32 (u32 (vec + 4 * argc)) s' = some (0, s')
  copied : ∀ i < argc, ∀ k < lens i + 1, ∃ b, load8 (src i + k) s = some (b, s) ∧
    load8 (u32 (ptr i + k)) s' = some (b, s')
  vector_apart : RangeApart sp taskArgsSize vec (4 * (argc + 1))
  string_apart : ∀ i < argc, RangeApart sp taskArgsSize (ptr i) (lens i + 1) ∧
    RangeApart vec (4 * (argc + 1)) (ptr i) (lens i + 1)
  strings_apart : ∀ i < argc, ∀ j < argc, i ≠ j →
    RangeApart (ptr i) (lens i + 1) (ptr j) (lens j + 1)

def ArgsPassed (s s' : Vm) (argc : ℕ) (src lens : ℕ → ℕ) (sp : ℕ) : Prop :=
  ∃ vec ptr, ArgsRead s s' argc src lens sp vec ptr

/-- The word behind the structure, which `copy_args` does not write without arguments, is zero. -/
def ZeroBehind (d : ℕ) (m : Mem) : Prop :=
  ∃ x, m.walk d (Kernel.execStackTop + taskArgsSize) = some x ∧ m.read32 x = 0

/-- The words of the table disturb nothing, wherever they leave the first page. -/
def WordsApart (d stack : ℕ) (Q : ℕ → Prop) (argc : ℕ) (m : Mem) : Prop :=
  ∀ x, m.walk d (Kernel.execStackTop + taskArgsSize) = some x →
    TableApart d stack Q x (x + 4 * argc) m

theorem load32_of_walk {v x : ℕ} (hv : ∀ j < 4, UserAddr (v + j))
    (hx : ∀ j < 4, s.mem.walk (entryPaddr s.cr3) (v + j) = some (x + j)) :
    load32 v s = some (s.mem.read32 x, s) := by
  have hload : ∀ j < 4, load8 (v + j) s = some (s.mem (x + j), s) := fun j hj => by
    rw [load8, Vm.phys, if_neg (not_lt.mpr (hv j hj).1), hx j hj]
    rfl
  have h0 := hload 0 (by norm_num)
  rw [Nat.add_zero, Nat.add_zero] at h0
  rw [load32, u32_of_lt (hv 1 (by norm_num)).2, u32_of_lt (hv 2 (by norm_num)).2,
    u32_of_lt (hv 3 (by norm_num)).2, Prog.bind_of_eq h0, Prog.bind_of_eq (hload 1 (by norm_num)),
    Prog.bind_of_eq (hload 2 (by norm_num)), Prog.bind_of_eq (hload 3 (by norm_num))]
  rfl

/-- The new program runs in the first page of its arguments as `copy_args` left it. -/
structure FirstPage (d f : ℕ) (m : Mem) (s' : Vm) : Prop where
  cr3 : s'.cr3 = d
  aligned : d % memPageSize = 0
  frame : FirstFrame d f s'.mem
  same : ∀ j < memPageSize, s'.mem (f + j) = m (f + j)

theorem FirstPage.load {m : Mem} {j : ℕ} (h : FirstPage d f m s') (hj : j + 4 ≤ memPageSize) :
    load32 (u32 (Kernel.execStackTop + j)) s' = some (m.read32 (f + j), s') := by
  have hpageSize : memPageSize = 4096 := rfl
  have hlow : memoryTaskBase ≤ Kernel.execStackTop := by decide
  have hhigh : Kernel.execStackTop + memPageSize ≤ 2 ^ 32 := by decide
  have hd : entryPaddr s'.cr3 = d := by
    rw [h.cr3]
    exact entryPaddr_add (x := 0) h.aligned (by decide)
  have hread : s'.mem.read32 (f + j) = m.read32 (f + j) := Mem.read32_congr fun x hx hx' => by
    have hsame := h.same (x - f) (by omega)
    rwa [show f + (x - f) = x by omega] at hsame
  rw [u32_of_lt (by omega), load32_of_walk (x := f + j) (fun l hl => ⟨by omega, by omega⟩)
    fun l hl => by
      rw [hd, Nat.add_assoc, Nat.add_assoc]
      exact h.frame _ (by omega), hread]

theorem ArgsStored.vector_eq {s₀ : Vm} {sp vec : ℕ} {ptr : ℕ → ℕ} (h : ArgsStored d Q argc f s s')
    (hp : FirstPage d f s'.mem s₁) (hr : ArgsRead s₀ s₁ argc src lens sp vec ptr)
    (hsp : sp = Kernel.execStackTop) : vec = Kernel.execStackTop + taskArgsSize := by
  have hvec := hr.vector
  rw [hsp, hp.load (by decide), h.vector] at hvec
  exact (Prod.mk.inj (Option.some.inj hvec)).1.symm

/-- The first string is at the place of the null pointer. -/
theorem ArgsStored.not_passed {s₀ : Vm} {sp : ℕ} (h : ArgsStored d Q argc f s s')
    (hp : FirstPage d f s'.mem s₁) (hsp : sp = Kernel.execStackTop) (hpos : 0 < argc) :
    ¬ ArgsPassed s₀ s₁ argc src lens sp := by
  rintro ⟨vec, ptr, hr⟩
  obtain rfl := h.vector_eq hp hr hsp
  have hentry := hr.entry 0 hpos
  rw [Nat.mul_zero, Nat.add_zero, hp.load (by decide), h.first hpos] at hentry
  have hptr := (Prod.mk.inj (Option.some.inj hentry)).1
  have hapart := (hr.string_apart 0 hpos).2
  rw [← hptr] at hapart
  unfold RangeApart at hapart
  omega

/-- Without arguments the vector ends with what was in the page before. -/
theorem ArgsStored.passed_iff {s₀ : Vm} {sp : ℕ} (h : ArgsStored d Q 0 f s s')
    (hf : FirstFrame d f s.mem) (hp : FirstPage d f s'.mem s₁) (hsp : sp = Kernel.execStackTop) :
    ArgsPassed s₀ s₁ 0 src lens sp ↔ ZeroBehind d s.mem := by
  have hword : s'.mem.read32 (f + taskArgsSize) = s.mem.read32 (f + taskArgsSize) :=
    Mem.read32_eq (h.stale rfl)
  have hload := hp.load (show taskArgsSize + 4 ≤ memPageSize by decide)
  have hwalk := hf taskArgsSize (by decide)
  constructor
  · rintro ⟨vec, ptr, hr⟩
    obtain rfl := h.vector_eq hp hr hsp
    have hnull := hr.null
    rw [Nat.mul_zero, Nat.add_zero, hload, hword] at hnull
    exact ⟨_, hwalk, (Prod.mk.inj (Option.some.inj hnull)).1⟩
  · rintro ⟨x, hx, hzero⟩
    obtain rfl := Option.some.inj (hwalk.symm.trans hx)
    refine ⟨Kernel.execStackTop + taskArgsSize, fun _ => 0, ?_, ?_, nofun, ?_, nofun, ?_, nofun, nofun⟩
    · rw [hsp, hp.load (by decide), h.count]
    · rw [hsp, hp.load (by decide), h.vector]
    · rw [Nat.mul_zero, Nat.add_zero, hload, hword, hzero]
    · rw [hsp]
      exact .inl le_rfl

/-! ## The end of the system call -/

namespace Kernel

variable {t : TaskId} {entry sp : ℕ} {k k' : Kernel}

/-- `do_handler_syscall` stores the result of `sys_execve` in the frame, and the call gate drops the
parameters from the stack of the new program. -/
def callGateReturn (t : TaskId) (r : ℤ) : Prog Kernel (Option ℕ) := do
  let esp0 ← Prog.gets fun s => (s.task t).tss.esp0
  storeFrame esp0 12 (toU32 r)
  if r < 0 then pure none
  else
    let esp ← frameWord esp0 20
    pure (some (u32 (esp + 4 * syscallParamCount)))

/-- The system call once the new stack is mapped. -/
def execReturn (argsAt : ℕ) (t : TaskId) (oldPageDir newPageDir entry argv : ℕ) :
    Prog Kernel (Option ℕ) := do
  let r ← execStart argsAt t oldPageDir newPageDir entry argv
  callGateReturn t r

/-- The new stack is mapped in whatever frames, and the arguments of the caller fit. -/
structure PassInput (argsAt d stack : ℕ) (Q : ℕ → Prop) (t : TaskId) (old argv argc : ℕ)
    (src lens : ℕ → ℕ) (k : Kernel) : Prop where
  area : ArgArea d stack Q k.vm
  caller : Caller Q k.vm old argv argc src lens
  fits : BlockFits argc lens
  esp0 : (k.task t).tss.esp0 = stack + memPageSize
  args_ge : stack ≤ argsAt
  args_le : argsAt + taskArgsSize ≤ stack + memPageSize

/-- `sys_execve` passes arguments from such a state. -/
theorem Ready.passInput {n : ℕ} {s₀ s : Vm} {file : ℕ → BitVec 8} (h : Ready n d s₀ file k.vm)
    (hs : StackPage d s₀ stack) (hQ : ArgsApart Q s₀ stack)
    (hc : Caller Q s old argv argc src lens) (hagree : Agrees Q s k.vm) (hfit : BlockFits argc lens)
    (ha : stack ≤ argsAt) (ha' : argsAt + taskArgsSize ≤ stack + memPageSize)
    (hesp : (k.task t).tss.esp0 = stack + memPageSize) :
    PassInput argsAt d stack Q t old argv argc src lens k := by
  obtain ⟨img, hp, -⟩ := h.shown
  exact ⟨hp.argArea (fun w hw => h.stack w hw.onStack) hs hQ, hc.agrees hagree, hfit, hesp, ha, ha'⟩

theorem sysExecve_passInput {n name : ℕ} {L : Layout} {disk : Disk}
    (h : ExecInput L argsAt argv n t stack argc src lens k)
    (hb : ∀ s, execSpace L disk name k = some ((), s) → BufferOwn L k.vm stack s.vm.alloc.clearPages)
    (hf : FitsBuffer (diskFile disk)) (hfit : BlockFits argc lens)
    (hrun : sysExecve L disk argsAt name argv k = some (r, k')) (hr : ¬ r < 0) :
    ∃ d entry k₁, PassInput argsAt d stack (TaskByte L stack k.vm) t (k.task t).tss.cr3 argv argc src
        lens k₁ ∧ execStart argsAt t (k.task t).tss.cr3 d entry argv k₁ = some (r, k') := by
  obtain ⟨d, k₁, hdir, ⟨j, htaken⟩, hkeeps, hexec, hspace⟩ := sysExecve_steps h hrun hr
  obtain ⟨entry, k₂, err, v, hload, hentry, hcall, herr, hstart⟩ := execLoad_steps hexec hr
  have hb : BufferOwn L k.vm stack v.alloc.clearPages :=
    hb { k₂ with vm := v } (hspace entry k₂ err v hload hcall)
  obtain ⟨hready, hagree, hkeeps₂, hleft⟩ :=
    loadElfFile_ready hdir hb hf htaken hload hentry hcall herr (Finset.Subset.refl _)
  have hesp : (k₂.task t).tss.esp0 = stack + memPageSize :=
    (congrArg Tss.esp0 (hkeeps.trans hkeeps₂).tss).trans h.esp0
  exact ⟨d, entry, { k₂ with vm := v }, Ready.passInput (k := { k₂ with vm := v }) hready
    (hdir.stackPage hb hleft h.ownStack) hdir.argsApart h.caller hagree hfit h.args_ge h.args_le hesp,
    hstart⟩

theorem callGateReturn_sp (hpage : KernelPage stack) (hesp0 : (k.task t).tss.esp0 = stack + memPageSize)
    (hesp : k.vm.mem.read32 (stack + 4 * (1002 + 20)) = execStackTop - 4 * syscallParamCount)
    (hr : ¬ r < 0) : ∃ k', callGateReturn t r k = some (some execStackTop, k') ∧
      k'.vm.cr3 = k.vm.cr3 ∧ ∀ x, ¬ InPage stack x → k'.vm.mem x = k.vm.mem x := by
  obtain ⟨m, hstore, hword, hout⟩ := storeFrame_result hpage hesp (toU32 r)
  refine ⟨{ k with vm := { k.vm with mem := m } }, ?_, rfl, hout⟩
  rw [callGateReturn, Prog.gets_bind, hesp0, Prog.bind_of_eq hstore, if_neg hr, Prog.bind_of_eq hword,
    callGate_esp]
  rfl

theorem PassInput.wordsApart (h : PassInput argsAt d stack Q t old argv argc src lens k)
    (hfit : taskArgsSize + 4 * argc ≤ memPageSize) : WordsApart d stack Q argc k.vm.mem := by
  obtain ⟨f, hpage, hstack, hout, hf⟩ := h.area.firstFrame
  intro x hx
  obtain rfl := Option.some.inj ((hf taskArgsSize (by decide)).symm.trans hx)
  exact h.area.page_tableApart hpage hstack hout hfit

theorem PassInput.passed (h : PassInput argsAt d stack Q t old argv argc src lens k)
    (hw : WordsApart d stack Q argc k.vm.mem)
    (hrun : execReturn argsAt t old d entry argv k = some (some sp, k')) :
    sp = execStackTop ∧ ∃ f s, FirstFrame d f k.vm.mem ∧ ArgsStored d Q argc f k.vm s ∧
      FirstPage d f s.mem k'.vm := by
  obtain ⟨f, hpage, hstack, hout, hf⟩ := h.area.firstFrame
  have hkp := h.area.stackPage
  obtain ⟨r, k₁, hstart, hgate⟩ := Prog.bind_eq_some.mp hrun
  by_cases hr : r < 0
  · rw [callGateReturn, Prog.gets_bind] at hgate
    obtain ⟨_, k₂, -, hret⟩ := Prog.bind_eq_some.mp hgate
    rw [if_pos hr] at hret
    cases (Prog.pure_eq_some.mp hret).1
  obtain ⟨err, s, k₂, v, hargs, hframe, hdestroy, hvm, -, hesp₁⟩ :=
    execStart_steps h.caller.args hstart hr
  obtain ⟨-, hs⟩ := copyArgs_stored h.area h.caller h.args_ge h.args_le h.fits hpage hf hstack
    (hw _ (hf _ (by decide))) hargs
  rw [h.esp0] at hframe
  obtain ⟨⟨m, rfl, hm⟩, hword⟩ := execFrame_step hkp hframe
  have hguard : ∀ x, Guarded d Q k.vm.mem x → m x = k.vm.mem x := fun x hx =>
    (hm x fun hin => h.area.stack_apart x hin hx).trans (hs.agrees.same x hx)
  have hreached := h.caller.reached_agrees (v := { s with mem := m }) fun x hx =>
    hguard x (.inr (.inr hx))
  have hreached' : Reached ({ s with mem := m, cr3 := d } : Vm).mem old := hreached
  have hmem₁ : k₁.vm.mem = m :=
    (congrArg Vm.mem hvm).trans ((memoryDestroyUvm_eq_some hreached').mp hdestroy).2.mem
  obtain ⟨k₃, hgate', hcr, hmem⟩ := callGateReturn_sp (k := k₁) hkp (hesp₁.trans h.esp0)
    (hmem₁ ▸ hword) hr
  obtain ⟨hsp, rfl⟩ := Prog.result_unique hgate hgate'
  have hmem' : ∀ x, ¬ InPage stack x → k'.vm.mem x = m x := fun x hx =>
    (hmem x hx).trans (congrFun hmem₁ x)
  have hwalk := (guarded_congr fun x hx =>
    (hmem' x fun hin => h.area.stack_apart x hin hx).trans (hguard x hx)).2
  refine ⟨Option.some.inj hsp, f, s, hf, hs, ⟨?_, h.area.directory.dirPage.aligned,
    fun j hj => ?_, fun j hj => ?_⟩⟩
  · rw [hcr, hvm]
    exact memoryDestroyUvm_cr3 old _ _ _ hdestroy
  · refine (hwalk _ ?_).trans (hf j hj)
    unfold memPageSize at hj
    unfold execStackTop memTaskStackTop memTaskArgSize memPageSize
    omega
  · have hno : ¬ InPage stack (f + j) := fun hin =>
      hstack (InPage.unique hpage.aligned hkp.aligned (by unfold InPage; omega) hin)
    exact (hmem' _ hno).trans (hm _ hno)

/-- The new program is entered if the table fits into the first page. -/
theorem execReturn_total (entry : ℕ) (h : PassInput argsAt d stack Q t old argv argc src lens k)
    (hold : Destroyable Q k.vm.mem old) (hstart : k.vm.alloc.start = memExtStart)
    (hfit : taskArgsSize + 4 * argc ≤ memPageSize) :
    ∃ sp k', execReturn argsAt t old d entry argv k = some (some sp, k') := by
  obtain ⟨f, hpage, hstack, hout, hf⟩ := h.area.firstFrame
  obtain ⟨s, hargs⟩ := copyArgs_total h.area h.caller h.args_ge h.args_le h.fits hfit
  obtain ⟨-, hs⟩ := copyArgs_stored h.area h.caller h.args_ge h.args_le h.fits hpage hf hstack
    (h.area.page_tableApart hpage hstack hout hfit) hargs
  obtain ⟨k₁, hframe⟩ := execFrame_total (k := { k with vm := s }) entry h.area.stackPage
  obtain ⟨⟨m, rfl, hm⟩, hword⟩ := execFrame_step h.area.stackPage hframe
  have hsame : ∀ x, Q x → m x = k.vm.mem x := fun x hx =>
    (hm x fun hin => h.area.stack_apart x hin (.inr (.inr hx))).trans
      (hs.agrees.same x (.inr (.inr hx)))
  have hstart' : ({ s with mem := m, cr3 := d } : Vm).alloc.start = memExtStart :=
    (congrArg AddrAlloc.start (sameAlloc_copyArgs _ _ _ _ _ _ _ _ hargs)).trans hstart
  obtain ⟨v, hdestroy, hsame'⟩ :=
    h.caller.destroyed (v := { s with mem := m, cr3 := d }) hold hsame hstart'
  let task := Function.update k.task t ((k.task t).withTss ((k.task t).tss.withCr3 d))
  have hset : setPageDir t d { k with vm := { s with mem := m } } =
      some ((), { k with vm := { s with mem := m, cr3 := d }, task := task }) := rfl
  have hdone : onVm (memoryDestroyUvm old)
      { k with vm := { s with mem := m, cr3 := d }, task := task } =
        some ((), { k with vm := v, task := task }) := onVm_eq_some.mpr ⟨v, hdestroy, rfl⟩
  have hesp0 : (task t).tss.esp0 = stack + memPageSize := by
    unfold task
    rw [Function.update_self]
    exact h.esp0
  have hmem : v.mem.read32 (stack + 4 * (1002 + 20)) = execStackTop - 4 * syscallParamCount :=
    (congrArg (fun m : Mem => m.read32 _) hsame').trans hword
  obtain ⟨k', hgate, -⟩ := callGateReturn_sp (r := 0) (k := { k with vm := v, task := task })
    h.area.stackPage hesp0 hmem (lt_irrefl _)
  have hcount : onVm (stringsCount argv) k = some (argc, k) :=
    onVm_eq_some.mpr ⟨k.vm, h.caller.args.stringsCount_eq, rfl⟩
  have hcopy : onVm (copyArgs argsAt execStackTop d argc argv) k = some (0, { k with vm := s }) :=
    onVm_eq_some.mpr ⟨s, hargs, rfl⟩
  have hrun : execStart argsAt t old d entry argv k = some (0, { k with vm := v, task := task }) := by
    have hframe' : execFrame (({ k with vm := s } : Kernel).task t).tss.esp0 entry { k with vm := s } =
        some ((), { k with vm := { s with mem := m } }) := by
      rw [← hframe]
      exact congrArg (fun e => execFrame e entry _) h.esp0
    rw [execStart, Prog.bind_of_eq hcount, Prog.bind_of_eq hcopy, if_neg (lt_irrefl _),
      Prog.gets_bind, Prog.bind_of_eq hframe', Prog.bind_of_eq hset, Prog.bind_of_eq hdone]
    rfl
  exact ⟨execStackTop, k', (Prog.bind_of_eq hrun).trans hgate⟩

/-! ### A call with one argument -/

/-- The task has a directory, a table and a page with its vector and the string `a`. The new directory
has a table and the four pages of the argument area. -/
def argWord (i : ℕ) : ℕ :=
  if i = 0x48200 then 0x121007
  else if i = 0x48400 then 0x122007
  else if i = 0x48800 then 0x80000008
  else if i = 0x48802 then 0x61
  else if i = 0x4C37F then 0x131007
  else if 0x4C7FC ≤ i ∧ i < 0x4C800 then 0x132007 + (i - 0x4C7FC) * 0x1000
  else 0

/-- Every managed page is in use. -/
def argAlloc : AddrAlloc where
  bitmap := { bitCount := 4096, bits := fun _ => 0xFF }
  pageSize := memPageSize
  start := memExtStart
  size := 0x1000000

def argKernel : Kernel where
  vm := { mem := Mem.ofWords argWord, alloc := argAlloc, cr3 := 0x120000, frees := [] }
  tempPos := 0
  gdt _ := .zero
  gdtFrees := []
  task
    | .first =>
      { Task.zero with tss := { Tss.zero with esp0 := 0x123000 + memPageSize, cr3 := 0x120000 } }
    | _ => .zero
  sched := { Sched.zeroed with currTask := some .first }
  appCodeSel := 0x20
  appDataSel := 0x18

/-- The pages of the task. -/
def argOwn (x : ℕ) : Prop := 0x120000 ≤ x ∧ x < 0x123000

theorem argWord_lt (i : ℕ) : argWord i < 2 ^ 32 := by
  unfold argWord
  split_ifs <;> omega

theorem argKernel_read32 (i : ℕ) : argKernel.vm.mem.read32 (4 * i) = argWord i :=
  Mem.read32_ofWords (argWord_lt i)

/-- Each directory has one table. -/
theorem argKernel_pde {dir b i j : ℕ} (hb : b = 0x48000 ∧ j = 0x200 ∨ b = 0x4C000 ∧ j = 0x37F)
    (hdir : dir = 4 * b) (hi : i < pdeCnt) (hp : Present (argKernel.vm.mem.pde dir i)) :
    i = j ∧ argKernel.vm.mem.table dir i = dir + 0x1000 := by
  have hi' : i < 1024 := hi
  have hword : argKernel.vm.mem.pde dir i = argWord (b + i) := by
    rw [Mem.pde, hdir, ← Nat.mul_add, argKernel_read32]
  have hij : i = j := by
    by_contra hne
    rw [hword, argWord, if_neg (by omega), if_neg (by omega), if_neg (by omega), if_neg (by omega),
      if_neg (by omega), if_neg (by omega)] at hp
    exact absurd hp (by decide)
  rw [Mem.table, hword, hij, hdir]
  rcases hb with ⟨rfl, rfl⟩ | ⟨rfl, rfl⟩ <;> exact ⟨rfl, by decide⟩

theorem argKernel_page {p : ℕ} (hp : 0x120000 ≤ p) (hp' : p < 0x140000) (hal : p % 0x1000 = 0) :
    KernelPage p := by
  refine ⟨hal, .inr ⟨?_, ?_⟩, by omega⟩
  · unfold memExtStart
    omega
  · unfold memExtLimit
    omega

theorem argKernel_walk {w : ℕ} (hw : ArgAddr w) : argKernel.vm.mem.walk 0x130000 w =
    some (0x132000 + (w - execStackTop) / 0x1000 * 0x1000 + w % memPageSize) := by
  have hlow : 0xDFFFC000 ≤ w := hw.1
  have hhigh : w < 0xE0000000 := hw.2
  have htop : execStackTop = 0xDFFFC000 := by decide
  have hi : pdeIndex w = 0x37F := by
    unfold pdeIndex
    omega
  have hj : pteIndex w = 0x3FC + (w - 0xDFFFC000) / 0x1000 := by
    unfold pteIndex
    omega
  have hpde : argKernel.vm.mem.read32 (0x130000 + 4 * 0x37F) = 0x131007 :=
    (argKernel_read32 0x4C37F).trans (by decide)
  have hpte : argKernel.vm.mem.read32 (0x131000 + 4 * pteIndex w) =
      0x132007 + (w - 0xDFFFC000) / 0x1000 * 0x1000 := by
    rw [show 0x131000 + 4 * pteIndex w = 4 * (0x4C400 + pteIndex w) by omega, argKernel_read32, hj,
      argWord, if_neg (by omega), if_neg (by omega), if_neg (by omega), if_neg (by omega),
      if_neg (by omega), if_pos (by omega)]
    omega
  refine walk_eq_some.mpr ⟨0x132007 + (w - 0xDFFFC000) / 0x1000 * 0x1000,
    userEntry_eq_some.mpr ⟨?_, ?_, ?_⟩, ?_⟩
  · rw [hi, hpde]
    decide
  · rw [hi, hpde]
    exact hpte
  · unfold Present
    omega
  · rw [htop]
    unfold entryPaddr
    omega

theorem argKernel_area : ArgArea 0x130000 0x123000 argOwn argKernel.vm := by
  have hout : ∀ p, (0x123000 ≤ p ∧ p < 0x130000 ∨ 0x132000 ≤ p ∧ p < 0x140000) → p % 0x1000 = 0 →
      ∀ x, InPage p x → ¬ Guarded 0x130000 argOwn argKernel.vm.mem x := by
    rintro p hp hal x ⟨hx, hx'⟩ hg
    unfold memPageSize at hx'
    rcases hg with ⟨h, h'⟩ | ⟨i, hi, hpi, hin⟩ | ⟨h, h'⟩
    · unfold memPageSize at h'
      omega
    · rw [(argKernel_pde (.inr ⟨rfl, rfl⟩) rfl hi hpi).2] at hin
      obtain ⟨h, h'⟩ := hin
      unfold memPageSize at h'
      omega
    · omega
  refine ⟨⟨argKernel_page (by omega) (by omega) (by omega), fun i hi hp => ?_,
    fun i hi j hj hp hp' _ => ?_⟩, argKernel_page (by omega) (by omega) (by omega),
    hout _ (.inl (by omega)) (by omega), fun w hw => ?_, fun w w' x hw hw' hx hx' => ?_⟩
  · rw [(argKernel_pde (.inr ⟨rfl, rfl⟩) rfl hi hp).2]
    exact ⟨argKernel_page (by omega) (by omega) (by omega), by decide⟩
  · exact (argKernel_pde (.inr ⟨rfl, rfl⟩) rfl hi hp).1.trans
      (argKernel_pde (.inr ⟨rfl, rfl⟩) rfl hj hp').1.symm
  · have hlow : 0xDFFFC000 ≤ w := hw.1
    have hhigh : w < 0xE0000000 := hw.2
    have htop : execStackTop = 0xDFFFC000 := by decide
    refine ⟨_, argKernel_walk hw, argKernel_page (by omega) (by omega) (by omega), by omega, ?_⟩
    exact hout _ (.inr (by omega)) (by omega)
  · have hlow : 0xDFFFC000 ≤ w := hw.1
    have hlow' : 0xDFFFC000 ≤ w' := hw'.1
    have htop : execStackTop = 0xDFFFC000 := by decide
    rw [argKernel_walk hw] at hx
    rw [argKernel_walk hw', ← hx, htop] at hx'
    have heq := Option.some.inj hx'
    unfold memPageSize at heq
    omega

theorem argKernel_userWalk {v x : ℕ} (hv : UserAddr v)
    (hx : argKernel.vm.mem.walk 0x120000 v = some x) : 0x122000 ≤ x ∧ x < 0x123000 := by
  obtain ⟨e, he, rfl⟩ := walk_eq_some.mp hx
  obtain ⟨hp, he', hpe⟩ := userEntry_eq_some.mp he
  obtain ⟨-, ht⟩ := argKernel_pde (.inl ⟨rfl, rfl⟩) rfl hv.indices.2 hp
  have hj := pteIndex_lt v
  have hword : e = argWord (0x48400 + pteIndex v) := by
    rw [← he', ← argKernel_read32, Nat.mul_add]
    exact congrArg (fun t => argKernel.vm.mem.read32 (t + 4 * pteIndex v)) ht
  have hz : pteIndex v = 0 := by
    by_contra hne
    rw [hword, argWord, if_neg (by omega), if_neg (by omega), if_neg (by omega), if_neg (by omega),
      if_neg (by omega), if_neg (by omega)] at hpe
    exact absurd hpe (by decide)
  rw [hz] at hword
  have hframe : entryPaddr e = 0x122000 := by
    rw [hword]
    decide
  have hmod : v % memPageSize < memPageSize := Nat.mod_lt _ (by decide)
  unfold memPageSize at hmod
  unfold memPageSize
  omega

theorem argKernel_user {j : ℕ} (hj : j < 16) : UserAddr (0x80000000 + j) ∧
    argKernel.vm.mem.walk 0x120000 (0x80000000 + j) = some (0x122000 + j) := by
  refine ⟨⟨?_, by omega⟩, ?_⟩
  · unfold memoryTaskBase
    omega
  · refine walk_add (v := 0x80000000) ?_ (by decide)
    unfold memPageSize
    omega

theorem argKernel_char {j : ℕ} (hj : j < 16) : load8 (0x80000000 + j) argKernel.vm =
    some (argKernel.vm.mem (0x122000 + j), argKernel.vm) := by
  obtain ⟨huser, hwalk⟩ := argKernel_user hj
  have hphys : argKernel.vm.phys (0x80000000 + j) = some (0x122000 + j) := by
    rw [Vm.phys, if_neg (not_lt.mpr huser.1)]
    exact hwalk
  rw [load8, hphys]
  rfl

theorem argKernel_word {i : ℕ} (hi : i < 4) : load32 (0x80000000 + 4 * i) argKernel.vm =
    some (argWord (0x48800 + i), argKernel.vm) := by
  rw [← argKernel_read32]
  have hnext : ∀ j < 4, 4 * i + j < 16 := fun j hj => by omega
  refine load32_of_walk (fun j hj => ?_) fun j hj => ?_
  · rw [Nat.add_assoc]
    exact (argKernel_user (hnext j hj)).1
  · rw [Nat.add_assoc, Nat.mul_add, Nat.add_assoc]
    exact (argKernel_user (hnext j hj)).2

theorem argKernel_args : ArgBlock argKernel.vm 0x80000000 1 (fun _ => 0x80000008) fun _ => 1 := by
  refine ⟨fun h => absurd h (by decide), fun _ => ⟨by decide, by decide⟩, fun _ => ?_, fun i hi => ?_,
    fun i hi => ⟨by decide, by decide, fun l hl => ?_, ?_⟩⟩
  · exact argKernel_word (i := 1) (by norm_num)
  · obtain rfl : i = 0 := by omega
    exact ⟨argKernel_word (i := 0) (by norm_num), by decide⟩
  · obtain rfl : l = 0 := by omega
    exact ⟨_, argKernel_char (j := 8) (by norm_num), by decide⟩
  · have hstop : argKernel.vm.mem (0x122000 + 9) = 0 := by decide
    rw [← hstop]
    exact argKernel_char (j := 9) (by norm_num)

theorem argKernel_caller {argv argc : ℕ} {src lens : ℕ → ℕ}
    (h : ArgBlock argKernel.vm argv argc src lens) :
    Caller argOwn argKernel.vm 0x120000 argv argc src lens where
  cr3 := by decide
  user := by
    have hcr : entryPaddr argKernel.vm.cr3 = 0x120000 := by decide
    refine ⟨fun x hx => ?_, fun i hi hi' hp x hx => ?_, fun v x hv hx => ?_⟩
    · rw [hcr] at hx
      unfold InPage memPageSize at hx
      unfold argOwn
      omega
    · rw [hcr] at hp hx
      rw [(argKernel_pde (.inl ⟨rfl, rfl⟩) rfl hi' hp).2] at hx
      unfold InPage memPageSize at hx
      unfold argOwn
      omega
    · rw [hcr] at hx
      have hframe := argKernel_userWalk hv hx
      unfold argOwn
      omega
  reached := ⟨argKernel_page (by omega) (by omega) (by omega), fun i hi hi' hp => by
    rw [(argKernel_pde (.inl ⟨rfl, rfl⟩) rfl hi' hp).2]
    exact argKernel_page (by omega) (by omega) (by omega)⟩
  args := h

theorem argKernel_input : PassInput 0x123800 0x130000 0x123000 argOwn .first 0x120000 0x80000000 1
    (fun _ => 0x80000008) (fun _ => 1) argKernel where
  area := argKernel_area
  caller := argKernel_caller argKernel_args
  fits := by
    unfold BlockFits
    decide
  esp0 := rfl
  args_ge := by decide
  args_le := by decide

/-- The same task without arguments. -/
theorem argKernel_noArgs : PassInput 0x123800 0x130000 0x123000 argOwn .first 0x120000 0 0
    (fun _ => 0) (fun _ => 0) argKernel where
  area := argKernel_area
  caller := argKernel_caller ⟨fun _ => rfl, fun h => absurd rfl h, fun h => absurd rfl h, nofun, nofun⟩
  fits := by
    unfold BlockFits
    decide
  esp0 := rfl
  args_ge := by decide
  args_le := by decide

/-- Nothing that is freed has a negative index, not even the page that the word behind the table names. -/
theorem argKernel_destroyable : Destroyable argOwn argKernel.vm.mem 0x120000 where
  past i hi hi' hp := by
    rw [(argKernel_pde (.inl ⟨rfl, rfl⟩) rfl hi' hp).2]
    exact (argKernel_page (p := 0x122000) (by omega) (by omega) (by omega)).identity
  past_own i hi hi' hp x hx hx' := by
    rw [(argKernel_pde (.inl ⟨rfl, rfl⟩) rfl hi' hp).2] at hx hx'
    unfold memPageSize at hx hx'
    unfold argOwn
    omega
  freeable p hp := by
    obtain ⟨i, hi, hi', hpres, hcases⟩ := mem_freedPages hp
    rw [(argKernel_pde (.inl ⟨rfl, rfl⟩) rfl hi' hpres).2, pastWord] at hcases
    rcases hcases with ⟨j, hj, hpte, rfl⟩ | rfl | rfl
    · have hj' : j < 1024 := hj
      rw [show 0x120000 + 0x1000 + 4 * j = 4 * (0x48400 + j) by omega, argKernel_read32] at hpte ⊢
      by_cases hz : j = 0
      · subst j
        decide
      · rw [argWord, if_neg (by omega), if_neg (by omega), if_neg (by omega), if_neg (by omega),
          if_neg (by omega), if_neg (by omega)] at hpte
        exact absurd hpte (by decide)
    · have hword : argKernel.vm.mem.read32 (0x120000 + 0x1000 + memPageSize) = 0x80000008 :=
        (argKernel_read32 0x48800).trans (by decide)
      rw [hword]
      decide
    · decide

theorem argKernel_run {argv argc : ℕ} {src lens : ℕ → ℕ}
    (h : PassInput 0x123800 0x130000 0x123000 argOwn .first 0x120000 argv argc src lens argKernel)
    (hfit : taskArgsSize + 4 * argc ≤ memPageSize) :
    ∃ sp k', execReturn 0x123800 .first 0x120000 0x130000 0x81000000 argv argKernel =
      some (some sp, k') := execReturn_total 0x81000000 h argKernel_destroyable rfl hfit

/-- The word behind the structure in the argument area is zero. -/
theorem argKernel_zeroBehind : ZeroBehind 0x130000 argKernel.vm.mem :=
  ⟨_, argKernel_walk (w := execStackTop + taskArgsSize) (by decide),
    (argKernel_read32 0x4C803).trans (by decide)⟩

/-- The arguments are passed exactly if there are none and the word behind the structure happens to be
zero; a table that leaves the first page must not disturb the space itself. -/
theorem args_passed_iff (h : PassInput argsAt d stack Q t old argv argc src lens k)
    (hrun : execReturn argsAt t old d entry argv k = some (some sp, k')) :
    (argc = 0 ∧ ZeroBehind d k.vm.mem → ArgsPassed k.vm k'.vm argc src lens sp) ∧
      (WordsApart d stack Q argc k.vm.mem → ArgsPassed k.vm k'.vm argc src lens sp →
        argc = 0 ∧ ZeroBehind d k.vm.mem) := by
  refine ⟨?_, fun hw hpassed => ?_⟩
  · rintro ⟨rfl, hzero⟩
    obtain ⟨hsp, f, s, hf, hs, hp⟩ := h.passed (h.wordsApart (by decide)) hrun
    exact (hs.passed_iff hf hp hsp).mpr hzero
  · obtain ⟨hsp, f, s, hf, hs, hp⟩ := h.passed hw hrun
    rcases Nat.eq_zero_or_pos argc with rfl | hpos
    · exact ⟨rfl, (hs.passed_iff hf hp hsp).mp hpassed⟩
    · exact absurd hpassed (hs.not_passed hp hsp hpos)

/-- The argument `a` is not passed, and without arguments all is as it should be. -/
theorem args_passed_iff_one : (∃ sp k',
    execReturn 0x123800 .first 0x120000 0x130000 0x81000000 0x80000000 argKernel = some (some sp, k') ∧
      ¬ ArgsPassed argKernel.vm k'.vm 1 (fun _ => 0x80000008) (fun _ => 1) sp) ∧ ∃ sp k',
    execReturn 0x123800 .first 0x120000 0x130000 0x81000000 0 argKernel = some (some sp, k') ∧
      ArgsPassed argKernel.vm k'.vm 0 (fun _ => 0) (fun _ => 0) sp := by
  obtain ⟨sp, k', hrun⟩ := argKernel_run argKernel_input (by decide)
  obtain ⟨sp', k'', hrun'⟩ := argKernel_run argKernel_noArgs (by decide)
  refine ⟨⟨sp, k', hrun, fun h => ?_⟩, sp', k'', hrun', ?_⟩
  · exact absurd ((args_passed_iff argKernel_input hrun).2 (argKernel_input.wordsApart (by decide)) h).1
      (by decide)
  · exact (args_passed_iff argKernel_noArgs hrun').1 ⟨rfl, argKernel_zeroBehind⟩

/-- A program called with the argument `a` does not find it. -/
theorem args_not_passed_one : ∃ sp k', PassInput 0x123800 0x130000 0x123000 argOwn .first 0x120000
      0x80000000 1 (fun _ => 0x80000008) (fun _ => 1) argKernel ∧
    execReturn 0x123800 .first 0x120000 0x130000 0x81000000 0x80000000 argKernel =
      some (some sp, k') ∧
    ¬ ArgsPassed argKernel.vm k'.vm 1 (fun _ => 0x80000008) (fun _ => 1) sp := by
  obtain ⟨sp, k', hrun⟩ := argKernel_run argKernel_input (by decide)
  obtain ⟨hsp, f, s, -, hs, hp⟩ := argKernel_input.passed (argKernel_input.wordsApart (by decide)) hrun
  exact ⟨sp, k', argKernel_input, hrun, hs.not_passed hp hsp Nat.one_pos⟩

end Kernel

end X86Os
