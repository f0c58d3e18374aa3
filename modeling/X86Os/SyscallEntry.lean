import X86Os.Gdt
import X86Os.Processor

/-!
# System calls

A program puts five words on its stack and calls through the gate of the GDT. The entry code saves the
registers around the C function that serves the call. Together the words on the kernel stack are a
`syscall_frame_t`, from which the registers come back.
-/

namespace X86Os

/-- `syscall_frame_t` -/
structure SyscallFrame where
  eflags : BitVec 32
  gs : BitVec 32
  fs : BitVec 32
  es : BitVec 32
  ds : BitVec 32
  edi : BitVec 32
  esi : BitVec 32
  ebp : BitVec 32
  dummy : BitVec 32
  ebx : BitVec 32
  edx : BitVec 32
  ecx : BitVec 32
  eax : BitVec 32
  eip : BitVec 32
  cs : BitVec 32
  funcId : BitVec 32
  arg0 : BitVec 32
  arg1 : BitVec 32
  arg2 : BitVec 32
  arg3 : BitVec 32
  esp : BitVec 32
  ss : BitVec 32
deriving DecidableEq

namespace SyscallFrame

/-- The frame in memory. -/
def words (f : SyscallFrame) : List (BitVec 32) :=
  [f.eflags, f.gs, f.fs, f.es, f.ds, f.edi, f.esi, f.ebp, f.dummy, f.ebx, f.edx, f.ecx, f.eax, f.eip, f.cs,
    f.funcId, f.arg0, f.arg1, f.arg2, f.arg3, f.esp, f.ss]

end SyscallFrame

/-- `syscall_args_t` -/
structure SyscallArgs where
  id : BitVec 32
  arg0 : BitVec 32
  arg1 : BitVec 32
  arg2 : BitVec 32
  arg3 : BitVec 32

/-! ## The table -/

inductive Syscall
  | msleep
  | getpid
  | printMsg
  | fork
  | execve
  | yield
  | isatty
  | sbrk
  | fstat
  | write
  | close
  | lseek
deriving DecidableEq, Repr

/-- The largest index with an initializer is `SYS_printmsg`. -/
def sysTableSize : ℕ := 101

/-- There is no entry for `SYS_open` and `SYS_read`. -/
def sysTable : ℕ → Option Syscall
  | 0 => some .msleep
  | 1 => some .getpid
  | 2 => some .fork
  | 3 => some .execve
  | 4 => some .yield
  | 52 => some .write
  | 53 => some .close
  | 54 => some .lseek
  | 55 => some .isatty
  | 56 => some .sbrk
  | 57 => some .fstat
  | 100 => some .printMsg
  | _ => none

/-- The handler that `do_handler_syscall` finds; the comparison is unsigned. -/
def sysHandler (funcId : BitVec 32) : Option Syscall :=
  if funcId.toNat < sysTableSize then sysTable funcId.toNat else none

section Handler

/-- The functions of the table, and the message about an unknown call. -/
structure Services where
  serve : Syscall → BitVec 32 → BitVec 32 → BitVec 32 → BitVec 32 → Prog Cpu (BitVec 32)
  unknown : BitVec 32 → Prog Cpu Unit

variable (dpl : BitVec 16 → ℕ) (srv : Services)

/-- `frame` is the address of the frame. -/
def doHandlerSyscall (frame : BitVec 32) : Prog Cpu Unit := do
  let funcId ← Prog.gets fun c => c.word (frame + 60)
  match sysHandler funcId with
  | some call =>
    let arg0 ← Prog.gets fun c => c.word (frame + 64)
    let arg1 ← Prog.gets fun c => c.word (frame + 68)
    let arg2 ← Prog.gets fun c => c.word (frame + 72)
    let arg3 ← Prog.gets fun c => c.word (frame + 76)
    let ret ← srv.serve call arg0 arg1 arg2 arg3
    Prog.modify (Cpu.store (frame + 48) ret)
  | none => srv.unknown funcId

/-- The kernel's data segment in the segment registers. -/
def kernelSegments (c : Cpu) : Cpu :=
  let c := { c with eax := BitVec.ofNat 32 kernelSelectorDs }
  { c with
    ds := c.eax.setWidth 16
    es := c.eax.setWidth 16
    fs := c.eax.setWidth 16
    gs := c.eax.setWidth 16 }

/-- `exception_handler_syscall` up to the call. -/
def syscallSave (c : Cpu) : Cpu :=
  let c := c.pusha.pushReg fun c => c.ds.setWidth 32
  let c := c.pushReg fun c => c.es.setWidth 32
  let c := c.pushReg fun c => c.fs.setWidth 32
  let c := c.pushReg fun c => c.gs.setWidth 32
  let c := c.pushReg Cpu.eflags
  let c := kernelSegments c
  let c := { c with eax := c.esp }
  c.pushReg Cpu.eax

/-- `exception_handler_syscall` after the call. -/
def syscallRestore (c : Cpu) : Cpu :=
  let c := (c.drop 4).popReg Cpu.setEflags
  let c := c.popReg Cpu.setGs
  let c := c.popReg Cpu.setFs
  let c := c.popReg Cpu.setEs
  let c := c.popReg Cpu.setDs
  c.popa.retf dpl (5 * 4)

def exceptionHandlerSyscall : Prog Cpu Unit := do
  Prog.modify syscallSave
  let frame ← Prog.gets Cpu.top
  doHandlerSyscall srv frame
  Prog.modify (syscallRestore dpl)

end Handler

/-! ## The gate -/

/-- The privilege level of a segment in the GDT. -/
def gdtDpl (gdt : Gdt) (s : BitVec 16) : ℕ := (gdt (s.toNat / 8)).attr / 2 ^ 5 % 4

/-- The address in a gate. -/
def SegmentDesc.offset (desc : SegmentDesc) : ℕ :=
  desc.limit15_0 + 2 ^ 16 * (desc.attr / 2 ^ 8) + 2 ^ 24 * desc.base31_24

/-- A descriptor as a call gate, if it is one that a program at the level `level` may call through. -/
def SegmentDesc.callGate (desc : SegmentDesc) (level : ℕ) : Option Gate :=
  if desc.attr / 2 ^ 7 % 2 = 1 ∧ desc.attr % 2 ^ 5 = 0xC ∧ level ≤ desc.attr / 2 ^ 5 % 4 then
    some {
      selector := BitVec.ofNat 16 desc.base15_0
      offset := BitVec.ofNat 32 desc.offset
      params := desc.base23_16 % 2 ^ 5 }
  else none

/-- A far call to the selector of a gate; without such a gate there is an exception. -/
def farCall (gdt : Gdt) (sel : ℕ) (ss0 : BitVec 16) (esp0 : BitVec 32) : Prog Cpu Unit := fun c =>
  ((gdt (sel / 8)).callGate c.cpl).map fun gate => ((), c.lcall gate ss0 esp0)

/-- `sys_call` of the library: `ss0:esp0` is the kernel stack of the task. -/
def sysCall (gdt : Gdt) (srv : Services) (ss0 : BitVec 16) (esp0 : BitVec 32) (args : SyscallArgs) :
    Prog Cpu Unit := do
  Prog.modify fun c => c.pushAll [args.arg3, args.arg2, args.arg1, args.arg0, args.id]
  farCall gdt selectorSyscall ss0 esp0
  exceptionHandlerSyscall (gdtDpl gdt) srv

/-- The gate that `init_gdt` sets up. -/
def syscallGate (L : Layout) : Gate where
  selector := BitVec.ofNat 16 kernelSelectorCs
  offset := BitVec.ofNat 32 L.exceptionHandlerSyscall
  params := 5

/-- The attributes of a gate lie next to a byte of its offset. -/
theorem gateDesc_attr {offset attr : ℕ} (selector : ℕ) (hattr : attr < 2 ^ 16) :
    (Kernel.gateDesc selector offset attr).attr = attr / 2 ^ 8 + offset / 2 ^ 16 % 2 ^ 8 * 2 ^ 8 := by
  have hor : attr / 2 ^ 8 ||| offset / 2 ^ 16 % 2 ^ 8 * 2 ^ 8 =
      attr / 2 ^ 8 + offset / 2 ^ 16 % 2 ^ 8 * 2 ^ 8 := by
    rw [Nat.or_comm, Nat.mul_comm, ← Nat.two_pow_add_eq_or_of_lt (by omega), Nat.add_comm]
  exact hor

theorem gateDesc_offset {offset attr : ℕ} (selector : ℕ) (hoff : offset < 2 ^ 32) (hattr : attr < 2 ^ 16) :
    (Kernel.gateDesc selector offset attr).offset = offset := by
  rw [SegmentDesc.offset, gateDesc_attr selector hattr]
  show offset % 2 ^ 16 + 2 ^ 16 * ((attr / 2 ^ 8 + offset / 2 ^ 16 % 2 ^ 8 * 2 ^ 8) / 2 ^ 8) +
      2 ^ 24 * (offset / 2 ^ 24 % 2 ^ 8) = offset
  omega

theorem gateDesc_callGate {offset attr level : ℕ} (selector : ℕ) (hoff : offset < 2 ^ 32)
    (hattr : attr < 2 ^ 16) (hp : attr / 2 ^ 15 = 1) (htype : attr / 2 ^ 8 % 2 ^ 5 = 0xC)
    (hlevel : level ≤ attr / 2 ^ 13 % 4) : (Kernel.gateDesc selector offset attr).callGate level = some {
      selector := BitVec.ofNat 16 selector
      offset := BitVec.ofNat 32 offset
      params := attr % 2 ^ 5 } := by
  have hdesc : (Kernel.gateDesc selector offset attr).attr = _ := gateDesc_attr selector hattr
  have hoffset : (Kernel.gateDesc selector offset attr).offset = offset := gateDesc_offset selector hoff hattr
  have hparams : attr % 2 ^ 8 % 2 ^ 5 = attr % 2 ^ 5 := by omega
  rw [SegmentDesc.callGate, hdesc, if_pos (by omega), hoffset]
  simp only [Kernel.gateDesc, hparams]

theorem initialGdt_callGate {L : Layout} (hoff : L.exceptionHandlerSyscall < 2 ^ 32) {level : ℕ}
    (hlevel : level ≤ 3) :
    (Kernel.initialGdt L (selectorSyscall / 8)).callGate level = some (syscallGate L) := by
  rw [Kernel.initialGdt, Function.update_self]
  exact gateDesc_callGate kernelSelectorCs hoff (by decide) (by decide) (by decide) (by
    refine hlevel.trans (by decide))

/-! ## Saving and restoring -/

variable {dpl : BitVec 16 → ℕ} {srv : Services} {c c' : Cpu} {ws : List (BitVec 32)} {frame : SyscallFrame}
  {fp : BitVec 32} {r : ℕ}

/-- What the entry code puts onto the stack. -/
def savedWords (c : Cpu) : List (BitVec 32) :=
  [c.eax, c.ecx, c.edx, c.ebx, c.esp, c.ebp, c.esi, c.edi, c.ds.setWidth 32, c.es.setWidth 32,
    c.fs.setWidth 32, c.gs.setWidth 32, c.eflags]

theorem syscallSave_eq : syscallSave c =
    Cpu.push (c.pushAll (savedWords c)).esp
      { kernelSegments (c.pushAll (savedWords c)) with eax := (c.pushAll (savedWords c)).esp } := by
  have hsave : ((((c.pusha.pushReg fun c => c.ds.setWidth 32).pushReg fun c => c.es.setWidth 32).pushReg
      fun c => c.fs.setWidth 32).pushReg fun c => c.gs.setWidth 32).pushReg Cpu.eflags =
        c.pushAll (savedWords c) := by
    rw [Cpu.pusha, Cpu.pushReg_pushAll fun _ _ _ => rfl, Cpu.pushReg_pushAll fun _ _ _ => rfl,
      Cpu.pushReg_pushAll fun _ _ _ => rfl, Cpu.pushReg_pushAll fun _ _ _ => rfl,
      Cpu.pushReg_pushAll fun _ _ _ => rfl]
    rfl
  rw [syscallSave, hsave]
  rfl

/-- The entry code leaves a pointer to the saved registers, and these. -/
theorem syscallSave_stack (h : c.Stack (r + 14) ws) : (syscallSave c).Stack r
    ((c.pushAll (savedWords c)).esp :: (savedWords c).reverse ++ ws) := by
  have hall : (c.pushAll (savedWords c)).Stack (r + 1) ((savedWords c).reverse ++ ws) := h.pushAll
  rw [syscallSave_eq]
  refine Cpu.Stack.push ?_
  exact hall.retain rfl rfl

/-- Apart from the stack, the entry code changes data registers only. -/
theorem syscallSave_regs (h : 56 ≤ c.esp.toNat) : (syscallSave c).esp.toNat = c.esp.toNat - 56 ∧
    (c.pushAll (savedWords c)).esp = (syscallSave c).esp + 4#32 ∧ (syscallSave c).cs = c.cs ∧
    (syscallSave c).eflags = c.eflags := by
  have hesp : (c.pushAll (savedWords c)).esp.toNat = c.esp.toNat - 4 * 13 :=
    Cpu.esp_pushAll (by show 4 * 13 ≤ _; omega)
  have hcs : (c.pushAll (savedWords c)).cs = c.cs := by rw [Cpu.pushAll_eq]
  have hflags : (c.pushAll (savedWords c)).eflags = c.eflags := by rw [Cpu.pushAll_eq]
  rw [syscallSave_eq]
  refine ⟨?_, (BitVec.sub_add_cancel ..).symm, hcs, hflags⟩
  refine (Cpu.esp_push ?_).trans ?_
  · show 4 ≤ (c.pushAll (savedWords c)).esp.toNat
    omega
  · show (c.pushAll (savedWords c)).esp.toNat - 4 = _
    omega

theorem syscallSave_segments {s : BitVec 16}
    (h : s ∈ [(syscallSave c).ds, (syscallSave c).es, (syscallSave c).fs, (syscallSave c).gs]) :
    s.toNat = kernelSelectorDs := by
  rw [syscallSave_eq] at h
  have hall : ∀ d : Cpu, [(kernelSegments d).ds, (kernelSegments d).es, (kernelSegments d).fs,
      (kernelSegments d).gs] = List.replicate 4 (BitVec.ofNat 16 kernelSelectorDs) := fun d => rfl
  have hs : s ∈ List.replicate 4 (BitVec.ofNat 16 kernelSelectorDs) := hall _ ▸ h
  rw [List.eq_of_mem_replicate hs]
  rfl

theorem syscallSave_mem {x : ℕ} (h : 56 ≤ c.esp.toNat) (hx : x < c.esp.toNat - 56 ∨ c.esp.toNat ≤ x) :
    (syscallSave c).mem x = c.mem x := by
  have hlen : 4 * (savedWords c).length ≤ c.esp.toNat := by
    show 4 * 13 ≤ _
    omega
  have hesp : (c.pushAll (savedWords c)).esp.toNat = c.esp.toNat - 4 * 13 := Cpu.esp_pushAll hlen
  rw [syscallSave_eq]
  refine (Cpu.mem_push ?_ ?_).trans (Cpu.mem_pushAll hlen ?_)
  · show 4 ≤ (c.pushAll (savedWords c)).esp.toNat
    omega
  · show x < (c.pushAll (savedWords c)).esp.toNat - 4 ∨ (c.pushAll (savedWords c)).esp.toNat ≤ x
    omega
  · show x < c.esp.toNat - 4 * 13 ∨ _
    omega

/-- The registers after the return, from the words of the frame. -/
def SyscallFrame.restore (f : SyscallFrame) (mem : Mem) : Cpu where
  eax := f.eax
  ecx := f.ecx
  edx := f.edx
  ebx := f.ebx
  esp := f.esp + 5 * 4
  ebp := f.ebp
  esi := f.esi
  edi := f.edi
  eip := f.eip
  eflags := f.eflags
  cs := f.cs.setWidth 16
  ss := f.ss.setWidth 16
  ds := f.ds.setWidth 16
  es := f.es.setWidth 16
  fs := f.fs.setWidth 16
  gs := f.gs.setWidth 16
  mem := mem

theorem syscallRestore_eq (h : c.Stack r (fp :: frame.words)) (hcpl : c.cpl < frame.cs.toNat % 4)
    (hsegs : ∀ s ∈ [frame.ds, frame.es, frame.fs, frame.gs],
      Cpu.visible dpl (frame.cs.toNat % 4) (s.setWidth 16) = s.setWidth 16) :
    syscallRestore dpl c = frame.restore c.mem := by
  obtain ⟨c₁, r₁, e₁, h₁⟩ := h.drop.popReg Cpu.setEflags (fun _ _ => rfl) fun _ _ => rfl
  obtain ⟨c₂, r₂, e₂, h₂⟩ := h₁.popReg Cpu.setGs (fun _ _ => rfl) fun _ _ => rfl
  obtain ⟨c₃, r₃, e₃, h₃⟩ := h₂.popReg Cpu.setFs (fun _ _ => rfl) fun _ _ => rfl
  obtain ⟨c₄, r₄, e₄, h₄⟩ := h₃.popReg Cpu.setEs (fun _ _ => rfl) fun _ _ => rfl
  obtain ⟨c₅, r₅, e₅, h₅⟩ := h₄.popReg Cpu.setDs (fun _ _ => rfl) fun _ _ => rfl
  obtain ⟨c₆, r₆, e₆, h₆⟩ := h₅.popa
  have hregs : { c₆ with
      eip := frame.eip, cs := frame.cs.setWidth 16, esp := frame.esp + 5 * 4, ss := frame.ss.setWidth 16 } =
      frame.restore c.mem := by
    simp only [e₆, e₅, e₄, e₃, e₂, e₁, Cpu.drop, Cpu.setEflags, Cpu.setGs, Cpu.setFs, Cpu.setEs,
      Cpu.setDs, SyscallFrame.restore]
  have hlevel : c₆.cpl < frame.cs.toNat % 4 := by
    simp only [e₆, e₅, e₄, e₃, e₂, e₁, Cpu.cpl, Cpu.drop, Cpu.setEflags, Cpu.setGs, Cpu.setFs, Cpu.setEs,
      Cpu.setDs]
    exact hcpl
  have h₇ : c₆.Stack _ (frame.eip :: frame.cs :: [frame.funcId, frame.arg0, frame.arg1, frame.arg2,
      frame.arg3] ++ [frame.esp, frame.ss]) := h₆
  have hret : c₆.retf dpl (5 * 4) = _ := Cpu.retf_outer h₇ rfl hlevel
  have hmod : (frame.cs.setWidth 16).toNat % 4 = frame.cs.toNat % 4 := by
    rw [BitVec.toNat_setWidth]
    omega
  rw [syscallRestore, r₁, r₂, r₃, r₄, r₅, r₆, hret, hregs]
  refine Cpu.dropSegments_eq fun s hs => ?_
  have hmem : s ∈ [frame.ds, frame.es, frame.fs, frame.gs].map (BitVec.setWidth 16) := hs
  obtain ⟨w, hw, rfl⟩ := List.mem_map.mp hmem
  refine Eq.trans ?_ (hsegs w hw)
  exact congrArg (fun l => Cpu.visible dpl l (w.setWidth 16)) hmod

/-! ## The handler -/

/-- The C function comes back with the stack as it was, up to the address `top`, and in the same code and
stack segments. -/
def ReturnsTo {A : Type} (top : ℕ) (f : Prog Cpu A) : Prop := ∀ c a c', f c = some (a, c') →
  (c'.esp = c.esp ∧ c'.cs = c.cs ∧ c'.ss = c.ss) ∧ ∀ x, c.esp.toNat ≤ x → x < top → c'.mem x = c.mem x

/-- A word of the frame, seen from the pointer to it. -/
theorem frameWord_eq {w : BitVec 32} (h : c.Stack r (fp :: frame.words)) (hfp : fp = c.esp + 4#32) (i : ℕ)
    (hi : frame.words[i]? = some w) : c.word (fp + BitVec.ofNat 32 (4 * i)) = w := by
  have hat := h.wordAt (i + 1) (List.getElem?_cons_succ.trans hi)
  rwa [Nat.mul_succ, Nat.add_comm, BitVec.ofNat_add, ← BitVec.add_assoc, ← hfp] at hat

theorem doHandlerSyscall_some {call : Syscall} (h : c.Stack r (fp :: frame.words)) (hfp : fp = c.esp + 4#32)
    (hcall : sysHandler frame.funcId = some call) : doHandlerSyscall srv fp c =
      (srv.serve call frame.arg0 frame.arg1 frame.arg2 frame.arg3 c).map fun x =>
        ((), x.2.store (fp + 48) x.1) := by
  have hword := fun i w (hi : frame.words[i]? = some w) => frameWord_eq h hfp i hi
  rw [doHandlerSyscall, Prog.gets_bind, show c.word (fp + 60) = frame.funcId from hword 15 _ rfl, hcall]
  show (Prog.gets _ >>= _) c = _
  rw [Prog.gets_bind, Prog.gets_bind, Prog.gets_bind, Prog.gets_bind,
    show c.word (fp + 64) = frame.arg0 from hword 16 _ rfl,
    show c.word (fp + 68) = frame.arg1 from hword 17 _ rfl,
    show c.word (fp + 72) = frame.arg2 from hword 18 _ rfl,
    show c.word (fp + 76) = frame.arg3 from hword 19 _ rfl, Prog.bind_apply]
  exact Option.map_eq_bind.symm

theorem doHandlerSyscall_none (h : c.Stack r (fp :: frame.words)) (hfp : fp = c.esp + 4#32)
    (hcall : sysHandler frame.funcId = none) :
    doHandlerSyscall srv fp c = srv.unknown frame.funcId c := by
  rw [doHandlerSyscall, Prog.gets_bind,
    show c.word (fp + 60) = frame.funcId from frameWord_eq h hfp 15 rfl, hcall]

/-! ## The whole call -/

/-- The frame of a call by the program `c`. -/
def callFrame (c : Cpu) (args : SyscallArgs) (dummy : BitVec 32) : SyscallFrame where
  eflags := c.eflags
  gs := c.gs.setWidth 32
  fs := c.fs.setWidth 32
  es := c.es.setWidth 32
  ds := c.ds.setWidth 32
  edi := c.edi
  esi := c.esi
  ebp := c.ebp
  dummy := dummy
  ebx := c.ebx
  edx := c.edx
  ecx := c.ecx
  eax := c.eax
  eip := c.eip
  cs := c.cs.setWidth 32
  funcId := args.id
  arg0 := args.arg0
  arg1 := args.arg1
  arg2 := args.arg2
  arg3 := args.arg3
  esp := c.esp - 5 * 4
  ss := c.ss.setWidth 32

/-- A user program with its own segments, and room for the parameters. -/
structure UserProgram (gdt : Gdt) (c : Cpu) : Prop where
  level : c.cpl = 3
  segments : ∀ s ∈ [c.ds, c.es, c.fs, c.gs], Cpu.visible (gdtDpl gdt) 3 s = s
  room : 20 ≤ c.esp.toNat

/-- The bytes that a call overwrites before the handler runs. -/
def CallBytes (c : Cpu) (esp0 : BitVec 32) (x : ℕ) : Prop :=
  (c.esp.toNat - 20 ≤ x ∧ x < c.esp.toNat) ∨ (esp0.toNat - 92 ≤ x ∧ x < esp0.toNat)

/-- The state in which the C function is called, with the pointer to the frame on top of the stack. -/
def enteredCpu (L : Layout) (ss0 : BitVec 16) (esp0 : BitVec 32) (args : SyscallArgs) (c : Cpu) : Cpu :=
  syscallSave ((c.pushAll [args.arg3, args.arg2, args.arg1, args.arg0, args.id]).lcall (syscallGate L)
    ss0 esp0)

/-- The C function runs on the segments of the kernel, with the flags of the program. -/
structure Entered (c : Cpu) (esp0 : BitVec 32) (args : SyscallArgs) (c₁ : Cpu) : Prop where
  esp : c₁.esp.toNat = esp0.toNat - 92
  level : c₁.cpl = 0
  segments : ∀ s ∈ [c₁.ds, c₁.es, c₁.fs, c₁.gs], s.toNat = kernelSelectorDs
  eflags : c₁.eflags = c.eflags
  stack : ∃ dummy, c₁.Stack 0 ((c₁.esp + 4#32) :: (callFrame c args dummy).words)
  mem : ∀ x, ¬ CallBytes c esp0 x → c₁.mem x = c.mem x

variable {L : Layout} {gdt : Gdt} {ss0 : BitVec 16} {esp0 : BitVec 32} {args : SyscallArgs}

theorem entered (hc : UserProgram gdt c) (hroom : 92 ≤ esp0.toNat) :
    Entered c esp0 args (enteredCpu L ss0 esp0 args c) := by
  have huser := hc.room
  let five := [args.arg3, args.arg2, args.arg1, args.arg0, args.id]
  have hfive : (c.pushAll five).Stack 0 ([args.id, args.arg0, args.arg1, args.arg2, args.arg3] ++ []) :=
    Cpu.Stack.pushAll (Cpu.stack_nil (by show 4 * (0 + 5) ≤ _; omega))
  have hesp : (c.pushAll five).esp = c.esp - 5 * 4 := by
    refine BitVec.eq_of_toNat_eq ?_
    rw [Cpu.esp_pushAll (by show 4 * 5 ≤ _; omega), BitVec.toNat_sub_of_le (by
      rw [BitVec.le_def]
      exact huser)]
    rfl
  have hmem : ∀ x, ¬ CallBytes c esp0 x → (c.pushAll five).mem x = c.mem x := fun x hx => by
    refine Cpu.mem_pushAll (by show 4 * 5 ≤ _; omega) ?_
    unfold CallBytes at hx
    show x < c.esp.toNat - 4 * 5 ∨ _
    omega
  have hpushed : c.pushAll five = { c with esp := (c.pushAll five).esp, mem := (c.pushAll five).mem } :=
    Cpu.pushAll_eq
  rw [enteredCpu]
  generalize c.pushAll five = d at hfive hesp hmem hpushed
  have hcpl : d.cpl = 3 := by
    rw [hpushed]
    exact hc.level
  have hcall : (d.lcall (syscallGate L) ss0 esp0).Stack 14 _ :=
    hfive.lcall rfl (by omega) (by show 4 * (14 + 5 + 4) ≤ _; omega)
  obtain ⟨a, m, he, ha, hm⟩ : ∃ a m, d.lcall (syscallGate L) ss0 esp0 = _ ∧ _ ∧ _ :=
    Cpu.lcall_inner (by omega) (by show 4 * (5 + 4) ≤ _; omega)
  generalize d.lcall (syscallGate L) ss0 esp0 = f at hcall he
  have hfa : f.esp.toNat = esp0.toNat - 36 := by
    rw [he]
    exact ha
  have hsave : (syscallSave f).Stack 0 _ := syscallSave_stack hcall
  obtain ⟨hesp₁, hfp, hcs, hflags⟩ := syscallSave_regs (c := f) (by omega)
  rw [hfp] at hsave
  have hwords : (savedWords f).reverse ++ (d.eip :: d.cs.setWidth 32 ::
      [args.id, args.arg0, args.arg1, args.arg2, args.arg3] ++ [d.esp, d.ss.setWidth 32]) =
      (callFrame c args f.esp).words := by
    simp only [savedWords, callFrame, SyscallFrame.words, he, hesp]
    rw [hpushed]
    rfl
  refine ⟨?_, ?_, fun s hs => syscallSave_segments hs, ?_, ⟨f.esp, ?_⟩, fun x hx => ?_⟩
  · omega
  · rw [Cpu.cpl, hcs, he]
    show (BitVec.ofNat 16 kernelSelectorCs).toNat % 4 = 0
    decide
  · rw [hflags, he, hpushed]
  · rw [← hwords]
    exact hsave
  · have hfm : f.mem x = m x := by rw [he]
    unfold CallBytes at hx
    rw [syscallSave_mem (by omega) (by omega), hfm, hm x (by show _ < _ - 4 * (5 + 4) ∨ _; omega)]
    exact hmem x hx

/-- The frame is there after the C function. -/
theorem Entered.kept {A : Type} {f : Prog Cpu A} {a : A} {c₁ c₂ : Cpu} (h : Entered c esp0 args c₁)
    (hroom : 92 ≤ esp0.toNat) (hstack : c₁.Stack 0 (fp :: frame.words)) (hf : ReturnsTo esp0.toNat f)
    (hrun : f c₁ = some (a, c₂)) :
    c₂.esp = c₁.esp ∧ c₂.cpl = 0 ∧ c₂.Stack 0 (fp :: frame.words) := by
  obtain ⟨⟨hesp, hcs, -⟩, hmem⟩ := hf c₁ a c₂ hrun
  refine ⟨hesp, ?_, hstack.congr hesp fun x hx hx' => hmem x hx ?_⟩
  · rw [Cpu.cpl, hcs]
    exact h.level
  · have hbytes := h.esp
    change x < _ + 4 * 23 at hx'
    have hbound := hstack.bound
    have := hstack.room
    omega

/-- A program of ring three comes through the gate. -/
theorem sysCall_enters (hgdt : gdt (selectorSyscall / 8) = Kernel.initialGdt L (selectorSyscall / 8))
    (hoff : L.exceptionHandlerSyscall < 2 ^ 32) (hc : UserProgram gdt c) (hroom : 92 ≤ esp0.toNat) :
    sysCall gdt srv ss0 esp0 args c =
      (doHandlerSyscall srv ((enteredCpu L ss0 esp0 args c).esp + 4#32) >>= fun _ =>
        Prog.modify (syscallRestore (gdtDpl gdt))) (enteredCpu L ss0 esp0 args c) := by
  obtain ⟨dummy, hstack⟩ : ∃ dummy,
      (enteredCpu L ss0 esp0 args c).Stack 0 (_ :: (callFrame c args dummy).words) :=
    (entered hc hroom).stack
  have htop := hstack.top
  rw [enteredCpu] at htop ⊢
  generalize hd : c.pushAll [args.arg3, args.arg2, args.arg1, args.arg0, args.id] = d at htop ⊢
  have hcpl : d.cpl = 3 := by
    rw [← hd, Cpu.pushAll_eq]
    exact hc.level
  have hgate : (gdt (selectorSyscall / 8)).callGate d.cpl = some (syscallGate L) := by
    rw [hgdt, hcpl]
    exact initialGdt_callGate hoff le_rfl
  have hfar : farCall gdt selectorSyscall ss0 esp0 d = some ((), d.lcall (syscallGate L) ss0 esp0) := by
    rw [farCall, hgate, Option.map_some]
  rw [sysCall, Prog.modify_bind, hd, Prog.bind_of_eq hfar, exceptionHandlerSyscall, Prog.modify_bind,
    Prog.gets_bind, htop]

theorem callFrame_restore {w dummy : BitVec 32} {m : Mem} :
    { callFrame c args dummy with eax := w }.restore m = { c with eax := w, mem := m } := by
  have hsel : ∀ s : BitVec 16, (s.setWidth 32).setWidth 16 = s := fun s => by
    rw [BitVec.setWidth_setWidth_of_le _ (by decide), BitVec.setWidth_eq]
  simp only [SyscallFrame.restore, callFrame, hsel, BitVec.sub_add_cancel]

/-- A frame from which a program of ring three can go on. -/
structure SyscallFrame.Returns (frame : SyscallFrame) (dpl : BitVec 16 → ℕ) : Prop where
  level : frame.cs.toNat % 4 = 3
  segments : ∀ s ∈ [frame.ds, frame.es, frame.fs, frame.gs], Cpu.visible dpl 3 (s.setWidth 16) = s.setWidth 16

theorem UserProgram.returns (hc : UserProgram gdt c) (w dummy : BitVec 32) :
    { callFrame c args dummy with eax := w }.Returns (gdtDpl gdt) := by
  refine ⟨?_, fun s hs => ?_⟩
  · show (c.cs.setWidth 32).toNat % 4 = 3
    rw [BitVec.toNat_setWidth, Nat.mod_eq_of_lt (c.cs.isLt.trans (by decide))]
    exact hc.level
  · have hmem : s ∈ [c.ds, c.es, c.fs, c.gs].map (BitVec.setWidth 32) := hs
    obtain ⟨v, hv, rfl⟩ := List.mem_map.mp hmem
    rw [BitVec.setWidth_setWidth_of_le _ (by decide), BitVec.setWidth_eq]
    exact hc.segments v hv

/-- The call returns to the frame that the C function leaves, with its result. -/
theorem sysCall_served {call : Syscall} {ret : BitVec 32} {c₂ : Cpu} {frame : SyscallFrame}
    (hgdt : gdt (selectorSyscall / 8) = Kernel.initialGdt L (selectorSyscall / 8))
    (hoff : L.exceptionHandlerSyscall < 2 ^ 32) (hc : UserProgram gdt c) (hroom : 92 ≤ esp0.toNat)
    (hcall : sysHandler args.id = some call)
    (hserve : srv.serve call args.arg0 args.arg1 args.arg2 args.arg3 (enteredCpu L ss0 esp0 args c) =
      some (ret, c₂))
    (hesp : c₂.esp = (enteredCpu L ss0 esp0 args c).esp) (hcpl : c₂.cpl = 0)
    (hstack : c₂.Stack 0 (fp :: frame.words)) (hframe : frame.Returns (gdtDpl gdt)) :
    sysCall gdt srv ss0 esp0 args c = some ((), { frame with eax := ret }.restore
      (c₂.mem.write32 (esp0.toNat - 40) ret.toNat)) := by
  rw [sysCall_enters hgdt hoff hc hroom]
  have hentered : Entered c esp0 args (enteredCpu L ss0 esp0 args c) := entered hc hroom
  generalize enteredCpu L ss0 esp0 args c = c₁ at hserve hesp hentered ⊢
  obtain ⟨dummy, hstack₁⟩ := hentered.stack
  have haddr : (c₁.esp + 4#32 + 48).toNat = esp0.toNat - 40 := by
    rw [BitVec.toNat_add, BitVec.toNat_add, hentered.esp]
    have := esp0.isLt
    change ((esp0.toNat - 92 + 4) % 2 ^ 32 + 48) % 2 ^ 32 = _
    omega
  have hstore : (c₂.store (c₁.esp + 4#32 + 48) ret).Stack 0 (fp :: { frame with eax := ret }.words) :=
    hstack.store (i := 13) (by
      rw [haddr, hesp, hentered.esp]
      omega)
  have hlevel : (c₂.store (c₁.esp + 4#32 + 48) ret).cpl < frame.cs.toNat % 4 := by
    rw [hframe.level]
    exact hcpl.trans_lt (by decide)
  have hback := syscallRestore_eq hstore hlevel (by
    rw [show ({ frame with eax := ret } : SyscallFrame).cs = frame.cs from rfl, hframe.level]
    exact hframe.segments)
  rw [Prog.bind_apply, doHandlerSyscall_some hstack₁ rfl hcall]
  show ((srv.serve call args.arg0 args.arg1 args.arg2 args.arg3 c₁).map _).bind _ = _
  rw [hserve, ← haddr]
  exact congrArg (fun d => some ((), d)) hback

/-- What a system call does besides serving the call: nothing. The C function finds the five words as its
arguments, its result goes to `eax`, and every other register of the program is as it was. -/
theorem sysCall_eq (hgdt : gdt (selectorSyscall / 8) = Kernel.initialGdt L (selectorSyscall / 8))
    (hoff : L.exceptionHandlerSyscall < 2 ^ 32) (hc : UserProgram gdt c) (hroom : 92 ≤ esp0.toNat)
    (hserve : ∀ call, sysHandler args.id = some call →
      ReturnsTo esp0.toNat (srv.serve call args.arg0 args.arg1 args.arg2 args.arg3))
    (hunknown : ReturnsTo esp0.toNat (srv.unknown args.id)) :
    ∃ c₁, Entered c esp0 args c₁ ∧ sysCall gdt srv ss0 esp0 args c = match sysHandler args.id with
      | some call => (srv.serve call args.arg0 args.arg1 args.arg2 args.arg3 c₁).map fun x =>
        ((), { c with eax := x.1, mem := x.2.mem.write32 (esp0.toNat - 40) x.1.toNat })
      | none => (srv.unknown args.id c₁).map fun x => ((), { c with mem := x.2.mem }) := by
  have hentered : Entered c esp0 args (enteredCpu L ss0 esp0 args c) := entered hc hroom
  have hrun : sysCall gdt srv ss0 esp0 args c =
      (doHandlerSyscall srv ((enteredCpu L ss0 esp0 args c).esp + 4#32) >>= fun _ =>
        Prog.modify (syscallRestore (gdtDpl gdt))) (enteredCpu L ss0 esp0 args c) :=
    sysCall_enters hgdt hoff hc hroom
  obtain ⟨dummy, hstack⟩ := hentered.stack
  have hesp := hentered.esp
  refine ⟨_, hentered, ?_⟩
  cases hcall : sysHandler args.id with
  | some call =>
      show _ = (srv.serve call _ _ _ _ _).map _
      cases hx : srv.serve call args.arg0 args.arg1 args.arg2 args.arg3 (enteredCpu L ss0 esp0 args c) with
      | none =>
          rw [hrun, Prog.bind_apply, doHandlerSyscall_some hstack rfl hcall]
          show ((srv.serve call args.arg0 args.arg1 args.arg2 args.arg3 _).map _).bind _ = _
          rw [hx]
          rfl
      | some x =>
          obtain ⟨ret, c₂⟩ := x
          obtain ⟨h₂, hcpl, hstack₂⟩ := hentered.kept hroom hstack (hserve call hcall) hx
          exact (sysCall_served hgdt hoff hc hroom hcall hx h₂ hcpl hstack₂ (hc.returns c.eax dummy)).trans
            (by rw [callFrame_restore]; rfl)
  | none =>
      show _ = (srv.unknown _ _).map _
      rw [hrun, Prog.bind_apply, doHandlerSyscall_none hstack rfl hcall]
      show (srv.unknown args.id _).bind _ = _
      cases hx : srv.unknown args.id (enteredCpu L ss0 esp0 args c) with
      | none => rfl
      | some x =>
          obtain ⟨u, c₂⟩ := x
          obtain ⟨-, hcpl, hstack₂⟩ := hentered.kept hroom hstack hunknown hx
          have hreturns : { callFrame c args dummy with eax := c.eax }.Returns (gdtDpl gdt) := hc.returns ..
          have hback : syscallRestore (gdtDpl gdt) c₂ = _ := syscallRestore_eq hstack₂
            (by rw [hreturns.level, hcpl]; decide) (by rw [hreturns.level]; exact hreturns.segments)
          exact congrArg (fun d => some ((), d)) (hback.trans callFrame_restore)

/-! ## A program and its segments -/

/-- The table with the segments of the programs. -/
def userGdt : Gdt :=
  segmentDescSet
    (segmentDescSet (Kernel.initialGdt sampleLayout) 0x20 0 0xFFFFFFFF
      (segPPresent ||| segDpl3 ||| segSNormal ||| segTypeData ||| segTypeRw ||| segD))
    0x28 0 0xFFFFFFFF (segPPresent ||| segDpl3 ||| segSNormal ||| segTypeCode ||| segTypeRw ||| segD)

/-- A program before a call. -/
def userCpu : Cpu where
  eax := 1
  ecx := 2
  edx := 3
  ebx := 4
  esp := 0x80000F14
  ebp := 0x80000F40
  esi := 5
  edi := 6
  eip := 0x80000010
  eflags := 0x202
  cs := 0x2B
  ss := 0x23
  ds := 0x23
  es := 0x23
  fs := 0x23
  gs := 0x23
  mem := Mem.zero

theorem userCpu_user : UserProgram userGdt userCpu where
  level := rfl
  segments s hs := by
    obtain rfl : s = 0x23 := by
      simpa [userCpu] using hs
    decide
  room := by decide

/-- Every call returns seven. -/
def sevenServices : Services where
  serve _ _ _ _ _ := pure 7
  unknown _ := pure ()

theorem sysCall_eq_getpid : ∃ c₁, Entered userCpu 0x204000 ⟨1, 0, 0, 0, 0⟩ c₁ ∧
    sysCall userGdt sevenServices 0x10 0x204000 ⟨1, 0, 0, 0, 0⟩ userCpu = some ((), { userCpu with
      eax := 7, mem := c₁.mem.write32 (0x204000 - 40) 7 }) := by
  have hreturns : ∀ {A : Type} (a : A), ReturnsTo 0x204000 (pure a : Prog Cpu A) := by
    intro A a c b c' h
    obtain ⟨-, rfl⟩ := Prog.pure_eq_some.mp h
    exact ⟨⟨rfl, rfl, rfl⟩, fun _ _ _ => rfl⟩
  exact sysCall_eq (L := sampleLayout) rfl (by decide) userCpu_user (by decide) (fun _ _ => hreturns _)
    (hreturns _)

end X86Os
