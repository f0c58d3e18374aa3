import X86Os.SyscallEntry

/-!
# Exceptions and interrupts

The table of `irq_init`, the entry code that `exception_handler` of `start.S` expands to, and the way back
by `iret`. An interrupt strikes a program between any two instructions, so that it has to leave no trace in
the registers.
-/

namespace X86Os

/-- The handlers that `start.S` has an entry for. -/
inductive ExceptionHandler
  | unknown
  | divider
  | debug
  | nmi
  | breakpoint
  | overflow
  | boundRange
  | invalidOpcode
  | deviceUnavailable
  | doubleFault
  | invalidTss
  | segmentNotPresent
  | stackSegmentFault
  | generalProtection
  | pageFault
  | fpuError
  | alignmentCheck
  | machineCheck
  | smdException
  | virtualException
  | timer
deriving DecidableEq, Repr

namespace ExceptionHandler

/-- The number that the entry code pushes. -/
def num : ExceptionHandler → BitVec 32
  | unknown => -1
  | divider => 0
  | debug => 1
  | nmi => 2
  | breakpoint => 3
  | overflow => 4
  | boundRange => 5
  | invalidOpcode => 6
  | deviceUnavailable => 7
  | doubleFault => 8
  | invalidTss => 10
  | segmentNotPresent => 11
  | stackSegmentFault => 12
  | generalProtection => 13
  | pageFault => 14
  | fpuError => 16
  | alignmentCheck => 17
  | machineCheck => 18
  | smdException => 19
  | virtualException => 20
  | timer => 0x20

/-- The entry code expects an error code on the stack. -/
def withErrorCode : ExceptionHandler → Bool
  | doubleFault | invalidTss | segmentNotPresent | stackSegmentFault | generalProtection | pageFault
  | alignmentCheck => true
  | _ => false

end ExceptionHandler

/-! ## The table -/

def idtTableNr : ℕ := 128

abbrev Idt : Type := ℕ → SegmentDesc

def gateDpl0 : ℕ := 0
def gateTypeIdt : ℕ := 0xE * 2 ^ 8

section Table

variable (addr : ExceptionHandler → ℕ)

/-- The gate to the handler `h`, whose entry lies at the address `addr h`. -/
def idtGate (h : ExceptionHandler) : SegmentDesc :=
  Kernel.gateDesc kernelSelectorCs (addr h) (Kernel.gatePPresent ||| gateDpl0 ||| gateTypeIdt)

def irqInstall (irqNum : ℕ) (h : ExceptionHandler) (idt : Idt) : ℤ × Idt :=
  if idtTableNr ≤ irqNum then (-1, idt) else (0, Function.update idt irqNum (idtGate addr h))

/-- The loop of `irq_init` from the index `i` on. -/
def irqInitLoop : ℕ → ℕ → Idt → Idt
  | 0, _, idt => idt
  | n + 1, i, idt => irqInitLoop n (i + 1) (Function.update idt i (idtGate addr .unknown))

/-- The exceptions that `irq_init` installs a handler for. -/
def irqHandlers : List (ℕ × ExceptionHandler) :=
  [(0, .divider), (1, .debug), (2, .nmi), (3, .breakpoint), (4, .overflow), (5, .boundRange),
    (6, .invalidOpcode), (7, .deviceUnavailable), (8, .doubleFault), (10, .invalidTss),
    (11, .segmentNotPresent), (12, .stackSegmentFault), (13, .generalProtection), (14, .pageFault),
    (16, .fpuError), (17, .alignmentCheck), (18, .machineCheck), (19, .smdException),
    (20, .virtualException)]

def irqInit (idt : Idt) : Idt :=
  irqHandlers.foldl (fun idt x => (irqInstall addr x.1 x.2 idt).2) (irqInitLoop addr idtTableNr 0 idt)

/-- `init_pit` installs the handler of the timer. -/
def timerInstall (idt : Idt) : Idt := (irqInstall addr 0x20 .timer idt).2

end Table

/-- The handler for each vector. -/
def handlerAt : ℕ → ExceptionHandler
  | 0 => .divider
  | 1 => .debug
  | 2 => .nmi
  | 3 => .breakpoint
  | 4 => .overflow
  | 5 => .boundRange
  | 6 => .invalidOpcode
  | 7 => .deviceUnavailable
  | 8 => .doubleFault
  | 10 => .invalidTss
  | 11 => .segmentNotPresent
  | 12 => .stackSegmentFault
  | 13 => .generalProtection
  | 14 => .pageFault
  | 16 => .fpuError
  | 17 => .alignmentCheck
  | 18 => .machineCheck
  | 19 => .smdException
  | 20 => .virtualException
  | 0x20 => .timer
  | _ => .unknown

/-- The exceptions for which the processor pushes an error code. -/
def pushesErrorCode (v : ℕ) : Bool := v == 8 || (10 ≤ v && v ≤ 14) || v == 17

/-- The entry code pushes a word in place of the error code exactly when the processor pushes none, and
the number of the vector if it has a handler of its own. -/
theorem handlerAt_spec : ∀ v < idtTableNr, (handlerAt v).withErrorCode = pushesErrorCode v ∧
    ((handlerAt v).num = BitVec.ofNat 32 v ∨ handlerAt v = .unknown) := by
  decide

variable {addr : ExceptionHandler → ℕ} {idt : Idt} {H : ℕ → ExceptionHandler} {v i n : ℕ}

/-- The table leads to the handlers `H`. -/
def Routes (addr : ExceptionHandler → ℕ) (idt : Idt) (H : ℕ → ExceptionHandler) : Prop :=
  ∀ v < idtTableNr, idt v = idtGate addr (H v)

theorem Routes.install (h : Routes addr idt H) (i : ℕ) (e : ExceptionHandler) :
    Routes addr (irqInstall addr i e idt).2 (Function.update H i e) := by
  intro v hv
  by_cases hi : v = i
  · subst hi
    rw [irqInstall, if_neg (by omega), Function.update_self]
    exact Function.update_self ..
  · rw [Function.update_of_ne hi, irqInstall]
    split_ifs
    · exact h v hv
    · exact (Function.update_of_ne hi _ _).trans (h v hv)

theorem Routes.installAll (l : List (ℕ × ExceptionHandler)) (h : Routes addr idt H) :
    Routes addr (l.foldl (fun idt x => (irqInstall addr x.1 x.2 idt).2) idt)
      (l.foldl (fun H x => Function.update H x.1 x.2) H) := by
  induction l generalizing idt H with
  | nil => exact h
  | cons x l ih => exact ih (h.install x.1 x.2)

theorem irqInitLoop_of_lt {i : ℕ} (hv : v < i) : irqInitLoop addr n i idt v = idt v := by
  induction n generalizing i idt with
  | zero => rfl
  | succ n ih => exact (ih (by omega)).trans (Function.update_of_ne (by omega) _ _)

theorem irqInitLoop_eq (hi : i ≤ v) (hv : v < i + n) :
    irqInitLoop addr n i idt v = idtGate addr .unknown := by
  induction n generalizing i idt with
  | zero => omega
  | succ n ih =>
      by_cases he : v = i
      · rw [irqInitLoop, irqInitLoop_of_lt (by omega), he, Function.update_self]
      · exact ih (by omega) (by omega)

/-- After `irq_init` and `init_pit` every vector leads to its handler. -/
theorem timerInstall_routes (idt : Idt) : Routes addr (timerInstall addr (irqInit addr idt)) handlerAt := by
  have hunknown : Routes addr (irqInitLoop addr idtTableNr 0 idt) fun _ => .unknown := fun v hv =>
    irqInitLoop_eq (Nat.zero_le v) (by omega)
  have hall := (hunknown.installAll irqHandlers).install 0x20 .timer
  have hsame : ∀ v < idtTableNr, Function.update
      (irqHandlers.foldl (fun H x => Function.update H x.1 x.2) fun _ => ExceptionHandler.unknown)
        0x20 .timer v = handlerAt v := by decide
  exact fun v hv => (hall v hv).trans (congrArg (idtGate addr) (hsame v hv))

/-! ## The entry code -/

/-- `exception_frame_t` up to the words that every interrupt pushes. -/
structure ExceptionFrame where
  gs : BitVec 32
  fs : BitVec 32
  es : BitVec 32
  ds : BitVec 32
  edi : BitVec 32
  esi : BitVec 32
  ebp : BitVec 32
  esp : BitVec 32
  ebx : BitVec 32
  edx : BitVec 32
  ecx : BitVec 32
  eax : BitVec 32
  num : BitVec 32
  errorCode : BitVec 32
  eip : BitVec 32
  cs : BitVec 32
  eflags : BitVec 32
deriving DecidableEq

/-- The frame in memory; `esp3` and `ss3` come after it when another stack was left. -/
def ExceptionFrame.words (f : ExceptionFrame) : List (BitVec 32) :=
  [f.gs, f.fs, f.es, f.ds, f.edi, f.esi, f.ebp, f.esp, f.ebx, f.edx, f.ecx, f.eax, f.num, f.errorCode,
    f.eip, f.cs, f.eflags]

/-- The entry code of the handler `h` up to the call. -/
def exceptionSave (h : ExceptionHandler) (c : Cpu) : Cpu :=
  let c := if h.withErrorCode then c else c.push 0
  let c := (c.push h.num).pusha.pushReg fun c => c.ds.setWidth 32
  let c := c.pushReg fun c => c.es.setWidth 32
  let c := c.pushReg fun c => c.fs.setWidth 32
  let c := c.pushReg fun c => c.gs.setWidth 32
  c.pushReg Cpu.esp

/-- The entry code after the call, up to `iret`. -/
def exceptionRestore (c : Cpu) : Cpu :=
  let c := (c.drop 4).popReg Cpu.setGs
  let c := c.popReg Cpu.setFs
  let c := c.popReg Cpu.setEs
  let c := c.popReg Cpu.setDs
  c.popa.drop (2 * 4)

section Interrupt

variable (dpl : BitVec 16 → ℕ) (doHandler : ExceptionHandler → BitVec 32 → Prog Cpu Unit)

/-- `exception_handler` for `h`. -/
def exceptionHandler (h : ExceptionHandler) : Prog Cpu Unit := do
  Prog.modify (exceptionSave h)
  let frame ← Prog.gets Cpu.top
  doHandler h frame
  Prog.modify exceptionRestore
  Prog.modify (Cpu.iret dpl)

/-- A descriptor as an interrupt gate. -/
def SegmentDesc.interruptGate (desc : SegmentDesc) : Option Gate :=
  if desc.attr / 2 ^ 7 % 2 = 1 ∧ desc.attr % 2 ^ 5 = 0xE then
    some {
      selector := BitVec.ofNat 16 desc.base15_0
      offset := BitVec.ofNat 32 desc.offset
      params := 0 }
  else none

variable (idt : Idt) (code : BitVec 32 → Option ExceptionHandler)

/-- The gate of the interrupt `v`. -/
def gateAt (v : ℕ) : Prog Cpu Gate := fun c => (idt v).interruptGate.map fun gate => (gate, c)

/-- The entry that execution has reached. -/
def handlerReached : Prog Cpu ExceptionHandler := fun c => (code c.eip).map fun h => (h, c)

/-- The interrupt `v`, with `errorCode` if it is one that pushes such a word; `code` says which entry lies at
an address, and the stack of the kernel is `ss0:esp0`. -/
def handleInterrupt (v : ℕ) (errorCode : BitVec 32) (ss0 : BitVec 16) (esp0 : BitVec 32) :
    Prog Cpu Unit := do
  let gate ← gateAt idt v
  Prog.modify (Cpu.interrupt gate ss0 esp0 (if pushesErrorCode v then some errorCode else none))
  let h ← handlerReached code
  exceptionHandler dpl doHandler h

end Interrupt

/-- What an interrupt pushes, and the entry code after it. -/
def interruptFrame (c : Cpu) (h : ExceptionHandler) (errorCode dummy : BitVec 32) : ExceptionFrame where
  gs := c.gs.setWidth 32
  fs := c.fs.setWidth 32
  es := c.es.setWidth 32
  ds := c.ds.setWidth 32
  edi := c.edi
  esi := c.esi
  ebp := c.ebp
  esp := dummy
  ebx := c.ebx
  edx := c.edx
  ecx := c.ecx
  eax := c.eax
  num := h.num
  errorCode := if h.withErrorCode then errorCode else 0
  eip := c.eip
  cs := c.cs.setWidth 32
  eflags := c.eflags

section Save

variable {c : Cpu} {h : ExceptionHandler} {ws : List (BitVec 32)} {r : ℕ}

/-- The general registers and the segment registers, in the order of the pushes. -/
def exceptionWords (c : Cpu) : List (BitVec 32) :=
  [c.eax, c.ecx, c.edx, c.ebx, c.esp, c.ebp, c.esi, c.edi, c.ds.setWidth 32, c.es.setWidth 32,
    c.fs.setWidth 32, c.gs.setWidth 32]

/-- The word in place of an error code, and the number. -/
def exceptionNumber (h : ExceptionHandler) : List (BitVec 32) :=
  (if h.withErrorCode then [] else [0]) ++ [h.num]

theorem exceptionSave_eq : ∃ d e : Cpu, d = c.pushAll (exceptionNumber h) ∧
    e = d.pushAll (exceptionWords d) ∧
    exceptionSave h c = c.pushAll (exceptionNumber h ++ exceptionWords d ++ [e.esp]) := by
  refine ⟨_, _, rfl, rfl, ?_⟩
  have hnumber : (if h.withErrorCode then c else c.push 0).push h.num = c.pushAll (exceptionNumber h) := by
    rw [exceptionNumber]
    split_ifs <;> rfl
  rw [exceptionSave, hnumber, ← Cpu.pushAll_append, ← Cpu.pushAll_append, Cpu.pusha,
    Cpu.pushReg_pushAll fun _ _ _ => rfl, Cpu.pushReg_pushAll fun _ _ _ => rfl,
    Cpu.pushReg_pushAll fun _ _ _ => rfl, Cpu.pushReg_pushAll fun _ _ _ => rfl]
  rfl

/-- The entry code pushes this many words. -/
def exceptionPushes (h : ExceptionHandler) : ℕ := (exceptionNumber h).length + 13

theorem exceptionSave_spec (hs : c.Stack (r + exceptionPushes h) ws) : ∃ a m dummy,
    exceptionSave h c = { c with esp := a, mem := m } ∧
    a.toNat = c.esp.toNat - 4 * exceptionPushes h ∧
    (∀ x, x < c.esp.toNat - 4 * exceptionPushes h ∨ c.esp.toNat ≤ x → m x = c.mem x) ∧
    ({ c with esp := a, mem := m } : Cpu).Stack r ((a + 4) ::
      (exceptionWords { c with esp := dummy }).reverse ++ (exceptionNumber h).reverse ++ ws) := by
  obtain ⟨d, e, hd, he, heq⟩ := exceptionSave_eq (c := c) (h := h)
  have hroom := hs.room
  have hwords : exceptionWords d = exceptionWords { c with esp := d.esp } := by
    rw [hd, Cpu.pushAll_eq]
    rfl
  have hlast : c.pushAll (exceptionNumber h ++ exceptionWords d ++ [e.esp]) = e.push e.esp := by
    rw [← Cpu.pushAll_append, ← Cpu.pushAll_append, ← hd, ← he]
    rfl
  have hfp : e.esp = (c.pushAll (exceptionNumber h ++ exceptionWords d ++ [e.esp])).esp + 4 := by
    rw [hlast]
    exact (BitVec.sub_add_cancel ..).symm
  obtain ⟨all, hall⟩ : ∃ all, all = exceptionNumber h ++ exceptionWords d ++ [e.esp] := ⟨_, rfl⟩
  have hlen : all.length = exceptionPushes h := by
    rw [hall, List.length_append, List.length_append]
    rfl
  rw [← hall] at heq hfp
  have hregs : c.pushAll all = _ := Cpu.pushAll_eq
  have hesp : (c.pushAll all).esp.toNat = _ := Cpu.esp_pushAll (by rw [hlen]; omega)
  have hmem : ∀ x, x < c.esp.toNat - 4 * all.length ∨ c.esp.toNat ≤ x → (c.pushAll all).mem x = c.mem x :=
    fun x hx => Cpu.mem_pushAll (by rw [hlen]; omega) hx
  have hstack : (c.pushAll all).Stack r (all.reverse ++ ws) := Cpu.Stack.pushAll (by rw [hlen]; exact hs)
  generalize c.pushAll all = f at *
  rw [hlen] at hesp hmem
  rw [hall, List.reverse_append, List.reverse_append, List.reverse_singleton, hfp, hwords] at hstack
  exact ⟨f.esp, f.mem, d.esp, heq.trans hregs, hesp, hmem, hstack.retain rfl rfl⟩

/-- How far an interrupt moves the stack pointer. -/
def interruptDepth (c : Cpu) : ℕ := 4 * (18 + c.outerStack.length)

/-- The state in which the handler is called, with the pointer to the frame on top of the stack. Interrupts
are off, and the data segments are those of the program that was interrupted. -/
structure Interrupted (c : Cpu) (h : ExceptionHandler) (errorCode : BitVec 32) (base c₁ : Cpu) : Prop where
  esp : c₁.esp.toNat = base.esp.toNat - interruptDepth c
  level : c₁.cpl = 0
  ss : c₁.ss = base.ss
  segments : [c₁.ds, c₁.es, c₁.fs, c₁.gs] = [c.ds, c.es, c.fs, c.gs]
  eflags : c₁.eflags = Cpu.maskFlags c.eflags
  stack : ∃ dummy, c₁.Stack 0
    ((c₁.esp + 4) :: (interruptFrame c h errorCode dummy).words ++ c.outerStack)
  mem : ∀ x, x < base.esp.toNat - interruptDepth c ∨ base.esp.toNat ≤ x → c₁.mem x = c.mem x

variable {ss0 : BitVec 16} {esp0 errorCode : BitVec 32} {err : Option (BitVec 32)} {gate : Gate} {c₂ : Cpu}

theorem interrupted (hsel : gate.selector = BitVec.ofNat 16 kernelSelectorCs)
    (herr : err = if h.withErrorCode then some errorCode else none)
    (hroom : interruptDepth c ≤ (c.entryStack ss0 esp0).esp.toNat) :
    Interrupted c h errorCode (c.entryStack ss0 esp0)
      (exceptionSave h (c.interrupt gate ss0 esp0 err)) := by
  have hone : err.toList.length + (exceptionNumber h).length = 2 := by
    rw [herr, exceptionNumber]
    split_ifs <;> rfl
  have hpushes : exceptionPushes h = (exceptionNumber h).length + 13 := rfl
  unfold interruptDepth at hroom
  obtain ⟨a, m, he, ha, hm⟩ : ∃ a m, c.interrupt gate ss0 esp0 err = _ ∧ _ ∧ _ :=
    Cpu.interrupt_regs rfl
      (show 4 * (err.toList.length + 3 + c.outerStack.length) ≤ (c.entryStack ss0 esp0).esp.toNat by omega)
  have hstack : (c.interrupt gate ss0 esp0 err).Stack (0 + exceptionPushes h) _ :=
    Cpu.Stack.interrupt (by omega)
  generalize c.interrupt gate ss0 esp0 err = d at he hstack ⊢
  have hda : d.esp = a := by rw [he]
  have hdm : d.mem = m := by rw [he]
  obtain ⟨a', m', dummy, he', ha', hm', hstack'⟩ := exceptionSave_spec hstack
  rw [hda] at ha' hm'
  rw [hdm] at hm'
  have hwords : (exceptionWords { d with esp := dummy }).reverse ++ (exceptionNumber h).reverse ++
      (err.toList ++ c.eip :: c.cs.setWidth 32 :: c.eflags :: c.outerStack) =
        (interruptFrame c h errorCode dummy).words ++ c.outerStack := by
    rw [herr, exceptionNumber, he]
    simp only [interruptFrame, ExceptionFrame.words]
    cases h.withErrorCode <;> rfl
  rw [List.cons_append, List.cons_append, hwords] at hstack'
  rw [he']
  refine ⟨?_, ?_, ?_, ?_, ?_, ⟨dummy, hstack'⟩, fun x hx => ?_⟩
  · show a'.toNat = _
    unfold interruptDepth
    omega
  · show d.cs.toNat % 4 = 0
    rw [he]
    show gate.selector.toNat % 4 = 0
    rw [hsel]
    decide
  · show d.ss = _
    rw [he]
  · show [d.ds, d.es, d.fs, d.gs] = _
    rw [he]
  · show d.eflags = _
    rw [he]
  · unfold interruptDepth at hx
    show m' x = _
    rw [hm' x (by omega), hm x (by omega)]

/-- The registers come back from the frame. -/
theorem exceptionRestore_spec {f : ExceptionFrame} {fp : BitVec 32} (hs : c.Stack r (fp :: f.words ++ ws)) :
    ∃ d, exceptionRestore c = d ∧ d = { c with
      gs := f.gs.setWidth 16, fs := f.fs.setWidth 16, es := f.es.setWidth 16, ds := f.ds.setWidth 16
      edi := f.edi, esi := f.esi, ebp := f.ebp, ebx := f.ebx, edx := f.edx, ecx := f.ecx, eax := f.eax
      esp := c.esp + 60 } ∧ d.Stack (r + 15) (f.eip :: f.cs :: f.eflags :: ws) := by
  obtain ⟨c₁, r₁, e₁, h₁⟩ := hs.drop.popReg Cpu.setGs (fun _ _ => rfl) fun _ _ => rfl
  obtain ⟨c₂, r₂, e₂, h₂⟩ := h₁.popReg Cpu.setFs (fun _ _ => rfl) fun _ _ => rfl
  obtain ⟨c₃, r₃, e₃, h₃⟩ := h₂.popReg Cpu.setEs (fun _ _ => rfl) fun _ _ => rfl
  obtain ⟨c₄, r₄, e₄, h₄⟩ := h₃.popReg Cpu.setDs (fun _ _ => rfl) fun _ _ => rfl
  obtain ⟨c₅, r₅, e₅, h₅⟩ := h₄.popa
  have hskip : c₅.Stack (r + 13) ([f.num, f.errorCode] ++ f.eip :: f.cs :: f.eflags :: ws) := h₅
  have h₆ : (c₅.drop (2 * 4)).Stack (r + 15) (f.eip :: f.cs :: f.eflags :: ws) := hskip.dropAll rfl
  refine ⟨_, ?_, ?_, h₆⟩
  · rw [exceptionRestore, r₁, r₂, r₃, r₄, r₅]
  · have hesp : c.esp + 4 + 4 + 4 + 4 + 4 + 32 + 2 * 4 = c.esp + 60 := by
      rw [BitVec.add_assoc, BitVec.add_assoc, BitVec.add_assoc, BitVec.add_assoc, BitVec.add_assoc,
        BitVec.add_assoc]
      rfl
    simp only [e₅, e₄, e₃, e₂, e₁, Cpu.drop, Cpu.setGs, Cpu.setFs, Cpu.setEs, Cpu.setDs, hesp]

/-! ## The way back -/

variable {gdt : Gdt} {base c₁ : Cpu}

/-- A program of an outer level whose segments it may use, or the kernel. -/
def OwnSegments (gdt : Gdt) (c : Cpu) : Prop :=
  c.cpl ≠ 0 → ∀ s ∈ [c.ds, c.es, c.fs, c.gs], Cpu.visible (gdtDpl gdt) c.cpl s = s

theorem setWidth_setWidth (s : BitVec 16) : (s.setWidth 32).setWidth 16 = s := by
  rw [BitVec.setWidth_setWidth_of_le _ (by decide), BitVec.setWidth_eq]

theorem setWidth_level (s : BitVec 16) : (s.setWidth 32).toNat % 4 = s.toNat % 4 := by
  rw [BitVec.toNat_setWidth, Nat.mod_eq_of_lt (s.isLt.trans (by decide))]

/-- A handler that comes back to the frame lets the program go on as if nothing had happened. -/
theorem Interrupted.back {fp dummy : BitVec 32} (hc : OwnSegments gdt c) (hcpl : c₂.cpl = 0)
    (hss : c.cpl = 0 → c₂.ss = c.ss) (hesp : c.cpl = 0 → c₂.esp + 72 = c.esp)
    (hs : c₂.Stack r (fp :: (interruptFrame c h errorCode dummy).words ++ c.outerStack)) :
    (exceptionRestore c₂).iret (gdtDpl gdt) = { c with mem := c₂.mem } := by
  obtain ⟨d, hd, he, hstack⟩ := exceptionRestore_spec hs
  have hlevel : d.cpl = 0 := by
    rw [he]
    exact hcpl
  have hframe : (interruptFrame c h errorCode dummy).cs.toNat % 4 = c.cpl := setWidth_level c.cs
  rw [hd]
  by_cases h0 : c.cpl = 0
  · rw [Cpu.iret_inner hstack (by rw [hframe, h0]; exact Nat.zero_le _), he]
    simp only [interruptFrame, setWidth_setWidth, hss h0, BitVec.add_assoc]
    rw [← hesp h0]
    rfl
  · rw [Cpu.outerStack, if_neg h0] at hstack
    rw [Cpu.iret_outer hstack (by rw [hframe, hlevel]; omega), he]
    simp only [interruptFrame, setWidth_setWidth]
    exact Cpu.dropSegments_eq (hc h0)

/-- In the kernel an interrupt uses the stack of what it interrupts. -/
theorem Interrupted.esp_kernel (hi : Interrupted c h errorCode (c.entryStack ss0 esp0) c₁) (h0 : c.cpl = 0)
    (hroom : interruptDepth c ≤ (c.entryStack ss0 esp0).esp.toNat) : c₁.esp + 72 = c.esp := by
  have hesp := hi.esp
  have hdepth : interruptDepth c = 72 := by rw [interruptDepth, Cpu.outerStack, if_pos h0]; rfl
  rw [Cpu.entryStack, if_pos h0, hdepth] at hesp hroom
  refine BitVec.eq_of_toNat_eq ?_
  rw [BitVec.toNat_add, hesp]
  have hlt := c.esp.isLt
  change (c.esp.toNat - 72 + 72) % 2 ^ 32 = _
  omega

theorem Interrupted.kept {A : Type} {a : A} {f : Prog Cpu A} {ws : List (BitVec 32)}
    (hi : Interrupted c h errorCode base c₁) (hroom : interruptDepth c ≤ base.esp.toNat)
    (hlen : 4 * ws.length = interruptDepth c) (hs : c₁.Stack 0 ws) (hf : ReturnsTo base.esp.toNat f)
    (hrun : f c₁ = some (a, c₂)) : c₂.esp = c₁.esp ∧ c₂.ss = base.ss ∧ c₂.cpl = 0 ∧ c₂.Stack 0 ws := by
  obtain ⟨⟨hesp, hcs, hss⟩, hmem⟩ := hf c₁ a c₂ hrun
  have hbytes := hi.esp
  refine ⟨hesp, hss.trans hi.ss, ?_, hs.congr hesp fun x hx hx' => hmem x hx ?_⟩
  · rw [Cpu.cpl, hcs]
    exact hi.level
  · omega

end Save

/-! ## Transparency -/

section Transparent

variable {gdt : Gdt} {idt : Idt} {addr : ExceptionHandler → ℕ} {code : BitVec 32 → Option ExceptionHandler}
  {doHandler : ExceptionHandler → BitVec 32 → Prog Cpu Unit} {v : ℕ} {errorCode : BitVec 32} {c : Cpu}
  {ss0 : BitVec 16} {esp0 : BitVec 32}

theorem gateDesc_interruptGate {offset attr : ℕ} (selector : ℕ) (hoff : offset < 2 ^ 32)
    (hattr : attr < 2 ^ 16) (hp : attr / 2 ^ 15 = 1) (htype : attr / 2 ^ 8 % 2 ^ 5 = 0xE) :
    (Kernel.gateDesc selector offset attr).interruptGate = some {
      selector := BitVec.ofNat 16 selector
      offset := BitVec.ofNat 32 offset
      params := 0 } := by
  have hdesc : (Kernel.gateDesc selector offset attr).attr = _ := gateDesc_attr selector hattr
  rw [SegmentDesc.interruptGate, hdesc, if_pos (by omega), gateDesc_offset selector hoff hattr]
  rfl

/-- Any interrupt, at any moment of a program or of the kernel: the handler of the vector finds what was
interrupted in its frame, with an error code in its place, and when it comes back, all the registers are as
they were before the interrupt. -/
theorem interrupt_transparent (hv : v < idtTableNr) (haddr : ∀ h, addr h < 2 ^ 32)
    (hcode : ∀ h, code (BitVec.ofNat 32 (addr h)) = some h) (hc : OwnSegments gdt c)
    (hroom : interruptDepth c ≤ (c.entryStack ss0 esp0).esp.toNat)
    (hreturns : ∀ frame, ReturnsTo (c.entryStack ss0 esp0).esp.toNat (doHandler (handlerAt v) frame)) :
    ∃ c₁, Interrupted c (handlerAt v) errorCode (c.entryStack ss0 esp0) c₁ ∧
      handleInterrupt (gdtDpl gdt) doHandler (timerInstall addr (irqInit addr idt)) code v errorCode ss0 esp0
        c = (doHandler (handlerAt v) (c₁.esp + 4) c₁).map fun x => ((), { c with mem := x.2.mem }) := by
  let h := handlerAt v
  let gate : Gate := ⟨BitVec.ofNat 16 kernelSelectorCs, BitVec.ofNat 32 (addr h), 0⟩
  let err := if pushesErrorCode v then some errorCode else none
  have herr : err = if h.withErrorCode then some errorCode else none := by
    rw [(handlerAt_spec v hv).1]
  have hgate : (timerInstall addr (irqInit addr idt) v).interruptGate = some gate := by
    rw [timerInstall_routes idt v hv]
    exact gateDesc_interruptGate kernelSelectorCs (haddr h) (by decide) (by decide) (by decide)
  have hi : Interrupted c h errorCode (c.entryStack ss0 esp0)
      (exceptionSave h (c.interrupt gate ss0 esp0 err)) := interrupted rfl herr hroom
  refine ⟨_, hi, ?_⟩
  obtain ⟨dummy, hstack⟩ := hi.stack
  have hfirst : gateAt (timerInstall addr (irqInit addr idt)) v c = some (gate, c) := by
    rw [gateAt, hgate, Option.map_some]
  have hreached : handlerReached code (c.interrupt gate ss0 esp0 err) =
      some (h, c.interrupt gate ss0 esp0 err) := congrArg (Option.map _) (hcode h)
  rw [handleInterrupt, Prog.bind_of_eq hfirst, Prog.modify_bind, Prog.bind_of_eq hreached,
    exceptionHandler, Prog.modify_bind, Prog.gets_bind, hstack.top, Prog.bind_apply]
  generalize exceptionSave h (c.interrupt gate ss0 esp0 err) = c₁ at hi hstack ⊢
  cases hx : doHandler h (c₁.esp + 4) c₁ with
  | none => rfl
  | some x =>
      obtain ⟨u, c₂⟩ := x
      have hlen : 4 * ((c₁.esp + 4) :: (interruptFrame c h errorCode dummy).words ++ c.outerStack).length =
          interruptDepth c := by
        rw [List.length_append]
        rfl
      obtain ⟨hesp, hss, hcpl, hstack₂⟩ := hi.kept hroom hlen hstack (hreturns _) hx
      have hback : (exceptionRestore c₂).iret (gdtDpl gdt) = { c with mem := c₂.mem } :=
        Interrupted.back hc hcpl (fun h0 => hss.trans (by rw [Cpu.entryStack, if_pos h0]))
          (fun h0 => by rw [hesp, hi.esp_kernel h0 hroom]) hstack₂
      exact congrArg (fun d => some ((), d)) hback

/-- Addresses of the entries. -/
def sampleAddr (h : ExceptionHandler) : ℕ := 0x13000 + 0x40 * h.ctorIdx

def sampleCode (a : BitVec 32) : Option ExceptionHandler :=
  [.unknown, .divider, .debug, .nmi, .breakpoint, .overflow, .boundRange, .invalidOpcode,
    .deviceUnavailable, .doubleFault, .invalidTss, .segmentNotPresent, .stackSegmentFault,
    .generalProtection, .pageFault, .fpuError, .alignmentCheck, .machineCheck, .smdException,
    .virtualException, .timer].find? fun h => BitVec.ofNat 32 (sampleAddr h) = a

theorem userCpu_segments : OwnSegments userGdt userCpu := fun _ => userCpu_user.segments

theorem interrupt_transparent_timer : ∃ c₁,
    Interrupted userCpu .timer 0 (userCpu.entryStack 0x10 0x204000) c₁ ∧
    handleInterrupt (gdtDpl userGdt) (fun _ _ => pure ())
      (timerInstall sampleAddr (irqInit sampleAddr fun _ => .zero)) sampleCode 0x20 0 0x10 0x204000 userCpu =
        some ((), { userCpu with mem := c₁.mem }) := by
  have hroom : interruptDepth userCpu ≤ (userCpu.entryStack 0x10 0x204000).esp.toNat := by decide
  refine interrupt_transparent (v := 0x20) (by decide) (fun h => ?_) (fun h => ?_) userCpu_segments hroom
    fun frame c u c' hrun => ?_
  · cases h <;> decide
  · cases h <;> rfl
  · obtain ⟨-, rfl⟩ := Prog.pure_eq_some.mp hrun
    exact ⟨⟨rfl, rfl, rfl⟩, fun _ _ _ => rfl⟩

end Transparent

end X86Os
