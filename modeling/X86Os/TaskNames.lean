import X86Os.ExecFailure
import X86Os.ForkChild
import X86Os.KernelStrings

/-!
# Names of tasks

`task_init` and `sys_execve` copy a name with `kernel_strncpy`. A name of 31 characters loses the last
one although it fits, and a longer one is left without its end, which is put into `sleep_ticks` instead.
-/

namespace X86Os

variable {text : List (BitVec 8)} {own name : TaskName} {dest src size i : ℕ}

/-- The name begins with the string `text`, as far as it goes. -/
def TaskName.Shows (name : TaskName) (text : List (BitVec 8)) : Prop :=
  ∀ i : Fin taskNameSize, (i.val < text.length → name i = text.getD i 0) ∧
    (i.val = text.length → name i = 0)

instance (name : TaskName) (text : List (BitVec 8)) : Decidable (name.Shows text) :=
  inferInstanceAs (Decidable (∀ _ : Fin taskNameSize, _ ∧ _))

/-- The string, cut off where the name has no room for more and its end. -/
def fittingName (text : List (BitVec 8)) : List (BitVec 8) := text.take (taskNameSize - 1)

theorem getD_ne_zero (h : ∀ c ∈ text, c ≠ 0) (hi : i < text.length) : text.getD i 0 ≠ 0 := by
  rw [List.getD_eq_getElem?_getD, List.getElem?_eq_getElem hi]
  exact h _ (List.getElem_mem hi)

/-- A name is right after the copy exactly if one more character had room. -/
theorem TaskName.set_shows_iff (h : ∀ c ∈ text, c ≠ 0) :
    (own.set (text.take taskNameSize)).Shows (fittingName text) ↔ text.length + 1 < taskNameSize := by
  have hsize : taskNameSize = 32 := rfl
  constructor
  · intro hshows
    by_contra hge
    by_cases hfull : text.length + 1 = taskNameSize
    · -- the last character is overwritten by the end
      have hall : text.take taskNameSize = text := List.take_of_length_le (by omega)
      have hfit : fittingName text = text := List.take_of_length_le (by omega)
      rw [hall, hfit] at hshows
      have hlast := (hshows ⟨30, by decide⟩).1 (show 30 < text.length by omega)
      rw [TaskName.set, if_pos hfull, if_pos (show 30 + 1 = text.length by omega)] at hlast
      exact getD_ne_zero h (show 30 < text.length by omega) hlast.symm
    · -- every byte of the name is a character
      have hlen : (text.take taskNameSize).length = taskNameSize := by
        rw [List.length_take]
        omega
      have hfit : (fittingName text).length = 31 := by
        rw [fittingName, List.length_take, hsize]
        omega
      have hend := (hshows ⟨31, by decide⟩).2 hfit.symm
      rw [TaskName.set, hlen, if_neg (by decide), if_pos (by decide)] at hend
      refine getD_ne_zero (fun c hc => h c (List.mem_of_mem_take hc)) ?_ hend
      rw [hlen]
      decide
  · intro hlt
    have hall : text.take taskNameSize = text := List.take_of_length_le (by omega)
    have hfit : fittingName text = text := List.take_of_length_le (by omega)
    rw [hall, hfit]
    intro i
    rw [TaskName.set, if_neg (by omega)]
    refine ⟨fun hi => if_pos hi, fun hi => ?_⟩
    rw [if_neg (by omega), if_pos hi]

/-- The bytes of a string that is read up to `limit`. -/
theorem strncpyBytes_text {S : Type} {read : ℕ → Prog S (BitVec 8)} {st : S} (limit : ℕ)
    (hne : ∀ c ∈ text, c ≠ 0)
    (hchar : ∀ i < limit, ∀ h : i < text.length, read i st = some (text[i], st))
    (hstop : text.length < limit → read text.length st = some (0, st))
    (hi : i ≤ text.length) (hlimit : i + size ≤ limit) :
    strncpyBytes read size i st = some ((text.drop i).take size, st) := by
  induction size generalizing i with
  | zero => rfl
  | succ size ih =>
      rw [strncpyBytes]
      by_cases hend : i = text.length
      · rw [hend, Prog.bind_of_eq (hstop (by omega)), if_pos rfl, List.drop_length]
        rfl
      · have hlt : i < text.length := by omega
        rw [Prog.bind_of_eq (hchar i (by omega) hlt), if_neg (hne _ (List.getElem_mem hlt)),
          Prog.bind_of_eq (ih (show i + 1 ≤ text.length by omega) (by omega)),
          List.drop_eq_getElem_cons hlt, List.take_succ_cons]
        rfl

/-! ## The name in memory -/

/-- The record of a task changes as the bytes of the name and the byte behind them do. -/
theorem kernelStrncpy_set {s : Console} (h : Console.CopyInput s dest src taskNameSize text)
    (hown : ∀ i : Fin taskNameSize, s.mem (dest + i) = own i) :
    ∃ s', Console.kernelStrncpy dest src (taskNameSize : ℕ) s = some ((), s') ∧
      (∀ i : Fin taskNameSize, s'.mem (dest + i) = own.set (text.take taskNameSize) i) ∧
      s'.mem (dest + taskNameSize) =
        if endsPastName (text.take taskNameSize) then 0 else s.mem (dest + taskNameSize) := by
  have hsize : taskNameSize = 32 := rfl
  obtain ⟨s₁, hrun, hin, hbytes⟩ := Console.kernelStrncpy_total h
  have hlen : (text.take taskNameSize).length = min text.length taskNameSize := by
    rw [List.length_take, Nat.min_comm]
  have hcopied : ∀ j < min text.length taskNameSize,
      s₁.mem (dest + j) = (text.take taskNameSize).getD j 0 := by
    intro j hj
    rw [hbytes j (hlen ▸ hj), List.getD_eq_getElem?_getD, List.getElem?_eq_getElem (hlen ▸ hj)]
    rfl
  have hkept : ∀ j, min text.length taskNameSize ≤ j → s₁.mem (dest + j) = s.mem (dest + j) :=
    fun j hj => hin.mem _ (.inr (by omega))
  refine ⟨_, hrun, fun i => ?_, ?_⟩
  · have hi := i.isLt
    rw [TaskName.set, hlen, Console.strncpyStop]
    by_cases hfull : text.length + 1 = taskNameSize
    · rw [if_pos hfull, if_pos (by omega)]
      by_cases hlast : i + 1 = min text.length taskNameSize
      · rw [if_pos hlast, show dest + text.length - 1 = dest + i by omega]
        exact Console.put_self ..
      · rw [if_neg hlast, Console.put_of_ne (by omega)]
        split_ifs with hchar
        · exact hcopied i hchar
        · exact (hkept i (not_lt.mp hchar)).trans (hown i)
    · rw [if_neg hfull, if_neg (by omega)]
      split_ifs with hchar hend
      · rw [Console.put_of_ne (by omega)]
        exact hcopied i hchar
      · rw [← hend]
        exact Console.put_self ..
      · rw [Console.put_of_ne (by omega)]
        exact (hkept i (not_lt.mp hchar)).trans (hown i)
  · rw [endsPastName, hlen, Console.strncpyStop]
    by_cases hpast : taskNameSize ≤ text.length
    · rw [if_neg (by omega), Nat.min_eq_right hpast]
      exact Console.put_self ..
    · have hne : (min text.length taskNameSize == taskNameSize) = false := by
        rw [beq_eq_false_iff_ne]
        omega
      rw [hne, Console.put_of_ne (by split_ifs <;> omega)]
      exact hkept _ (by omega)

/-! ## `sys_execve` -/

namespace Kernel

variable {L : Layout} {disk : Disk} {argsAt path argv entry esp : ℕ} {t : TaskId} {k k' : Kernel}
  {r : ℤ}

/-- The string `text` can be read at `src`. -/
structure FileText (s : Vm) (src : ℕ) (text : List (BitVec 8)) : Prop where
  src_ne : src ≠ 0
  char : ∀ i (h : i < text.length), load8 (u32 (src + i)) s = some (text[i], s)
  stop : load8 (u32 (src + text.length)) s = some (0, s)
  nonzero : ∀ c ∈ text, c ≠ 0

/-- The task has the fitting name, and the fields around it are those of `sched`. -/
structure NamedOnly (t : TaskId) (text : List (BitVec 8)) (sched : TaskSched) (k : Kernel) :
    Prop where
  name : (k.task t).name.Shows (fittingName text)
  state : (k.sched.task t).state = sched.state
  sleepTicks : (k.sched.task t).sleepTicks = sched.sleepTicks

/-- Neither the name of the task nor the scheduler changes. -/
structure KeepsName (t : TaskId) (k k' : Kernel) : Prop where
  name : (k'.task t).name = (k.task t).name
  sched : k'.sched = k.sched

instance : IsPreorder Kernel (KeepsName t) where
  refl _ := ⟨rfl, rfl⟩
  trans _ _ _ h h' := ⟨h'.name.trans h.name, h'.sched.trans h.sched⟩

theorem keepsName_onVm {A : Type} (f : Prog Vm A) : Prog.Along (KeepsName t) (onVm f) := by
  intro k a k' h
  obtain ⟨v, -, rfl⟩ := onVm_eq_some.mp h
  exact ⟨rfl, rfl⟩

theorem keepsName_onFile {A : Type} (f : Prog FileState A) : Prog.Along (KeepsName t) (onFile f) := by
  intro k a k' h
  obtain ⟨fs, -, rfl⟩ := Prog.zoom_eq_some.mp h
  exact ⟨rfl, rfl⟩

theorem keepsName_setTask {f : Task → Task} (h : ∀ task, (f task).name = task.name) :
    Prog.Along (KeepsName t) (setTask t f) :=
  Prog.along_modify fun _ => ⟨(congrArg Task.name (Function.update_self ..)).trans (h _), rfl⟩

theorem keepsName_execSteps : ExecSteps (KeepsName t) disk argsAt t where
  sysOpen _ := keepsName_onFile _
  sysLseek _ _ := keepsName_onFile _
  openFailed _ := keepsName_onVm _
  sysRead _ _ _ := keepsName_onFile _
  loadPhdr _ _ _ _ _ := keepsName_onFile _
  heap _ := keepsName_setTask fun _ => rfl
  stack _ := keepsName_onVm _
  count _ := keepsName_onVm _
  args _ _ _ _ := keepsName_onVm _
  frame _ _ _ := keepsName_onVm _
  tss _ := keepsName_setTask fun _ => rfl
  cr3 _ := keepsName_onVm _
  destroy _ := keepsName_onVm _

/-- The string is the file name that `get_file_name` has found. -/
theorem sysExecve_renamed (hc : k.sched.currTask = some t)
    (hfile : onVm (getFileName path) k = some (src, k)) (htext : FileText k.vm src text)
    (hrun : sysExecve L disk argsAt path argv k = some (r, k')) :
    KeepsName t (k.renamed t (text.take taskNameSize)) k' := by
  rw [sysExecve, Prog.bind_of_eq (taskCurrent_eq hc), Prog.bind_of_eq hfile] at hrun
  obtain ⟨_, k₁, hcopy, hrest⟩ := Prog.bind_eq_some.mp hrun
  have hbytes : strncpyBytes (fun i => onVm (load8 (u32 (src + i)))) taskNameSize 0 k =
      some (text.take taskNameSize, k) :=
    strncpyBytes_text taskNameSize htext.nonzero
      (fun i _ h => onVm_eq_some.mpr ⟨k.vm, htext.char i h, rfl⟩)
      (fun _ => onVm_eq_some.mpr ⟨k.vm, htext.stop, rfl⟩) (Nat.zero_le _) (by omega)
  have hk₁ : k₁ = k.renamed t (text.take taskNameSize) := by
    rcases copyTaskName_result hcopy with ⟨hzero, -⟩ | ⟨-, bytes, hbytes', hk₁⟩
    · exact absurd hzero htext.src_ne
    · obtain rfl := (Prog.result_unique hbytes hbytes').1
      exact hk₁
  rw [Prog.gets_bind] at hrest
  rw [← hk₁]
  have hsteps : ExecSteps (KeepsName t) disk argsAt t := keepsName_execSteps
  have hafter : Prog.Along (KeepsName t) (onVm (memoryCreateUvm L) >>= fun dir =>
      if dir = 0 then execFailed t (k₁.task t).tss.cr3 dir
      else execLoad disk argsAt t (k₁.task t).tss.cr3 dir path argv) :=
    (keepsName_onVm _).bind fun _ => (hsteps.execFailed _ _).ite (hsteps.execLoad _ _ _ _)
  exact hafter _ _ _ hrest

/-- The name after `sys_execve`, whether or not it fails. -/
theorem sysExecve_named_iff (hc : k.sched.currTask = some t)
    (hfile : onVm (getFileName path) k = some (src, k)) (htext : FileText k.vm src text)
    (hrun : sysExecve L disk argsAt path argv k = some (r, k')) :
    NamedOnly t text (k.sched.task t) k' ↔ text.length + 1 < taskNameSize := by
  obtain ⟨hname, hsched⟩ := sysExecve_renamed hc hfile htext hrun
  rw [renamed_task] at hname
  rw [← TaskName.set_shows_iff htext.nonzero]
  constructor
  · intro h
    have hshows := h.name
    rwa [hname] at hshows
  · intro h
    have hshort : text.length + 1 < taskNameSize := (TaskName.set_shows_iff htext.nonzero).mp h
    have hends : endsPastName (text.take taskNameSize) = false := by
      rw [endsPastName, List.length_take, beq_eq_false_iff_ne]
      omega
    have hsame : k'.sched = k.sched := by
      rw [hsched, renamed, hends]
      rfl
    exact ⟨hname ▸ h, by rw [hsame], by rw [hsame]⟩

/-! ## The message about the path -/

/-- The path is a string, and nothing of the user half lies in a free page. -/
structure PathInput (L : Layout) (n : ℕ) (t : TaskId) (path len : ℕ) (k : Kernel) : Prop where
  current : k.sched.currTask = some t
  managed : k.vm.alloc.Managed n
  usable : ∀ p ∈ k.vm.alloc.clearPages, KernelPage p
  dirPage : KernelPage L.kernelPageDir
  dir_taken : L.kernelPageDir ∉ k.vm.alloc.clearPages
  user : UserHalf (fun x => ∀ p ∈ k.vm.alloc.clearPages, ¬ InPage p x) k.vm
  string : StringAt k.vm path len

/-- The file is not looked for, or it is found, or the message that it is not found fits into
`str_buf`. -/
def PathFits (path len : ℕ) (k : Kernel) : Prop :=
  k.vm.alloc.clearPages = ∅ ∨ load8 path k.vm = some (slash, k.vm) ∨
    openFailedText.length + len < Console.strBufSize

theorem loadElfFile_message {dir len entry : ℕ} (hstr : StringAt k.vm path len)
    (hslash : load8 path k.vm ≠ some (slash, k.vm))
    (hrun : loadElfFile disk t path dir k = some (entry, k')) :
    openFailedText.length + len < Console.strBufSize := by
  rw [loadElfFile] at hrun
  obtain ⟨file, k₁, hopen, hrun⟩ := Prog.bind_eq_some.mp hrun
  obtain ⟨fs, hfs, rfl⟩ := onFile_eq_some hopen
  rw [sysOpen] at hfs
  obtain ⟨c, fs₁, hc, hfs⟩ := Prog.bind_eq_some.mp hfs
  obtain ⟨v, hv, rfl⟩ := Prog.zoom_eq_some.mp hc
  obtain rfl : v = k.vm := load8_state hv
  have hne : c ≠ slash := by
    rintro rfl
    exact hslash hv
  rw [if_neg hne] at hfs
  obtain ⟨rfl, rfl⟩ := Prog.pure_eq_some.mp hfs
  rw [if_pos (by decide)] at hrun
  obtain ⟨_, k₂, hlog, -⟩ := Prog.bind_eq_some.mp hrun
  obtain ⟨v₂, hv₂, -⟩ := onVm_eq_some.mp hlog
  have hlen : kernelStrlen path (k.withFile ⟨k.vm, k.tempPos⟩).vm = some (len, k.vm) :=
    hstr.kernelStrlen_eq
  rw [logOpenFailed, Prog.bind_of_eq hlen] at hv₂
  exact (Prog.require_eq_some.mp hv₂).1

/-- A call with any other path does not come back: the message is written over the kernel stack. -/
theorem sysExecve_pathFits {n len : ℕ} (h : PathInput L n t path len k)
    (hrun : sysExecve L disk argsAt path argv k = some (r, k')) : PathFits path len k := by
  by_contra hfits
  rw [PathFits, not_or, not_or] at hfits
  obtain ⟨hroom, hslash, hlong⟩ := hfits
  rw [sysExecve, Prog.bind_of_eq (taskCurrent_eq h.current)] at hrun
  obtain ⟨src, k₁, hfile, hrun⟩ := Prog.bind_eq_some.mp hrun
  obtain ⟨v, hv, rfl⟩ := onVm_eq_some.mp hfile
  obtain rfl : k.vm = v := getFileName_along _ _ _ _ hv
  obtain ⟨_, k₂, hcopy, hrun⟩ := Prog.bind_eq_some.mp hrun
  have hvm : k₂.vm = k.vm := (copyTaskName_keeps hcopy).2
  rw [Prog.gets_bind] at hrun
  obtain ⟨d, k₃, hcreate, hrun⟩ := Prog.bind_eq_some.mp hrun
  obtain ⟨v₃, hv₃, rfl⟩ := onVm_eq_some.mp hcreate
  rw [hvm] at hv₃
  obtain ⟨d', hd', v', hv', -, -, hcr3, hmem, -⟩ :=
    memoryCreateUvm_spec h.managed h.usable h.dirPage h.dir_taken (Finset.nonempty_iff_ne_empty.mpr hroom)
  obtain ⟨rfl, rfl⟩ := Prog.result_unique hv₃ hv'
  -- the path reads as before, since only the page of the new directory was written
  have hs : Agrees (fun x => ∀ p ∈ k.vm.alloc.clearPages, ¬ InPage p x) k.vm v₃ :=
    ⟨hcr3, fun x hx => hmem x (hx d hd')⟩
  have hstr : StringAt v₃ path len := h.string.agrees h.user hs
  have hback : load8 path v₃ ≠ some (slash, v₃) := by
    intro hnew
    have huser : UserAddr path := ⟨h.string.user, lt_of_le_of_lt (Nat.le_add_right _ _) h.string.end_le⟩
    obtain ⟨c, hc⟩ : ∃ c, load8 path k.vm = some (c, k.vm) := by
      rcases Nat.eq_zero_or_pos len with rfl | hpos
      · exact ⟨0, h.string.stop⟩
      · obtain ⟨c, hc, -⟩ := h.string.char 0 hpos
        exact ⟨c, hc⟩
    have hc' := h.user.load8_eq hs huser hc
    rw [(Prog.result_unique hc' hnew).1] at hc
    exact hslash hc
  rw [if_neg (h.usable d hd').ne_zero, execLoad] at hrun
  obtain ⟨entry, k₄, hload, -⟩ := Prog.bind_eq_some.mp hrun
  exact hlong (loadElfFile_message hstr hback hload)

/-! ## `task_init` -/

theorem taskInit_renamed {own : TaskName} (hown : own.Shows text) (hne : ∀ c ∈ text, c ≠ 0)
    (hrun : taskInit L t own entry esp k = some (r, k')) (hr : ¬ r < 0) :
    (∃ before : TaskName, (k'.task t).name = before.set (text.take taskNameSize)) ∧
      k'.sched.task t = .created := by
  rw [taskInit] at hrun
  obtain ⟨err, k₁, -, hrun⟩ := Prog.bind_eq_some.mp hrun
  by_cases herr : err < 0
  · rw [if_pos herr] at hrun
    exact absurd ((Prog.pure_eq_some.mp hrun).1 ▸ herr) hr
  · rw [if_neg herr] at hrun
    have hbytes : strncpyBytes (fun i => (pure (if h : i < taskNameSize then own ⟨i, h⟩ else 0) :
        Prog Kernel (BitVec 8))) taskNameSize 0 k₁ = some (text.take taskNameSize, k₁) := by
      refine strncpyBytes_text taskNameSize hne (fun i hi h => ?_) (fun h => ?_)
        (Nat.zero_le _) (by omega)
      · rw [dif_pos hi, (hown ⟨i, hi⟩).1 h, List.getD_eq_getElem?_getD, List.getElem?_eq_getElem h]
        rfl
      · rw [dif_pos h, (hown ⟨text.length, h⟩).2 rfl]
        rfl
    rw [Prog.bind_of_eq hbytes] at hrun
    obtain ⟨_, k₂, hset, hrun⟩ := Prog.bind_eq_some.mp hrun
    obtain ⟨_, k₃, hsched, hrun⟩ := Prog.bind_eq_some.mp hrun
    obtain ⟨-, rfl⟩ := Prog.pure_eq_some.mp hrun
    rw [setSched_eq_some.mp hsched, setTask_eq_some.mp hset]
    refine ⟨⟨(k₁.task t).name, ?_⟩, Function.update_self ..⟩
    simp only [Function.update_self]

/-- The name after `task_init`; the fields around it get their first values there. -/
theorem taskInit_named_iff {own : TaskName} (hown : own.Shows text) (hne : ∀ c ∈ text, c ≠ 0)
    (hrun : taskInit L t own entry esp k = some (r, k')) (hr : ¬ r < 0) :
    NamedOnly t text .created k' ↔ text.length + 1 < taskNameSize := by
  obtain ⟨⟨before, hname⟩, hsched⟩ := taskInit_renamed hown hne hrun hr
  rw [← TaskName.set_shows_iff hne]
  constructor
  · intro h
    have hshows := h.name
    rwa [hname] at hshows
  · intro h
    exact ⟨hname ▸ h, by rw [hsched], by rw [hsched]⟩

/-! ## Copies of bounded length -/

/-- A string at the address 1 and a buffer of four bytes at the address 10. -/
theorem copyInput_ten (text : List (BitVec 8)) (hne : ∀ c ∈ text, c ≠ 0) (hlen : text.length < 8) :
    Console.CopyInput (Console.twoTexts text []) 10 1 4 text where
  dest_ne := by decide
  src_ne := by decide
  size_pos := by decide
  string := Console.twoTexts_left hne
  apart i hi j hj := by omega

theorem namedKernel_fileText (own : TaskName) : FileText (namedKernel own).vm 0x80000008 [0x61] where
  src_ne := by decide
  char i hi := by
    obtain rfl : i = 0 := Nat.lt_one_iff.mp hi
    exact argKernel_char (j := 8) (by norm_num)
  stop := argKernel_char (j := 9) (by norm_num)
  nonzero := by decide

theorem namedKernel_pathInput (own : TaskName) :
    PathInput sampleLayout 4096 .first 0x80000008 1 (namedKernel own) := by
  have hm : argAlloc.Managed 4096 := ⟨rfl, by decide, rfl, by decide⟩
  have hclear : (namedKernel own).vm.alloc.clearPages = ∅ :=
    AddrAlloc.clearPages_of_full hm fun j _ => argAlloc_bit j
  have hnone : ∀ p, p ∉ (namedKernel own).vm.alloc.clearPages :=
    fun p hp => Finset.notMem_empty p (hclear ▸ hp)
  have hfree : ∀ x, ∀ p ∈ (namedKernel own).vm.alloc.clearPages, ¬ InPage p x :=
    fun _ p hp => absurd hp (hnone p)
  exact
    { current := rfl
      managed := hm
      usable := fun p hp => absurd hp (hnone p)
      dirPage := ⟨by decide, by decide, by decide⟩
      dir_taken := hnone _
      user := ⟨fun x _ => hfree x, fun _ _ _ _ x _ => hfree x, fun _ x _ _ => hfree x⟩
      string := argKernel_args.string 0 (by decide) }

end Kernel

end X86Os
