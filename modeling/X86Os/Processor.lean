import X86Os.Memory
import X86Os.Prog

/-!
# Registers and the stack

The part of the processor that entry code works with: the registers, a stack that grows down in memory,
far calls through a gate, interrupts, and the returns from both. To the rules below the stack is a list
of words. A push puts a word in front of it and a pop takes the first word, whatever else the memory holds.
-/

namespace X86Os

structure Cpu where
  eax : BitVec 32
  ecx : BitVec 32
  edx : BitVec 32
  ebx : BitVec 32
  esp : BitVec 32
  ebp : BitVec 32
  esi : BitVec 32
  edi : BitVec 32
  eip : BitVec 32
  eflags : BitVec 32
  cs : BitVec 16
  ss : BitVec 16
  ds : BitVec 16
  es : BitVec 16
  fs : BitVec 16
  gs : BitVec 16
  mem : Mem

/-- A call gate or an interrupt gate. -/
structure Gate where
  selector : BitVec 16
  offset : BitVec 32
  params : ℕ

namespace Cpu

/-- The word at the address `a`. -/
def word (c : Cpu) (a : BitVec 32) : BitVec 32 := BitVec.ofNat 32 (c.mem.read32 a.toNat)

def store (a w : BitVec 32) (c : Cpu) : Cpu := { c with mem := c.mem.write32 a.toNat w.toNat }

def push (w : BitVec 32) (c : Cpu) : Cpu :=
  { c with esp := c.esp - 4, mem := c.mem.write32 (c.esp - 4).toNat w.toNat }

def pushAll (ws : List (BitVec 32)) (c : Cpu) : Cpu := ws.foldl (fun c w => c.push w) c

def top (c : Cpu) : BitVec 32 := c.word c.esp

def topSeg (c : Cpu) : BitVec 16 := c.top.setWidth 16

/-- Add to the stack pointer. -/
def drop (n : BitVec 32) (c : Cpu) : Cpu := { c with esp := c.esp + n }

/-- Push what a register holds. -/
def pushReg (get : Cpu → BitVec 32) (c : Cpu) : Cpu := c.push (get c)

/-- Pop a word to a register. -/
def popReg (set : BitVec 32 → Cpu → Cpu) (c : Cpu) : Cpu := set c.top (c.drop 4)

def setEflags (w : BitVec 32) (c : Cpu) : Cpu := { c with eflags := w }

/-- The low half of a word goes to a segment register. -/
def setDs (w : BitVec 32) (c : Cpu) : Cpu := { c with ds := w.setWidth 16 }

def setEs (w : BitVec 32) (c : Cpu) : Cpu := { c with es := w.setWidth 16 }

def setFs (w : BitVec 32) (c : Cpu) : Cpu := { c with fs := w.setWidth 16 }

def setGs (w : BitVec 32) (c : Cpu) : Cpu := { c with gs := w.setWidth 16 }

/-- The general registers go onto the stack, the stack pointer as it was before. -/
def pusha (c : Cpu) : Cpu :=
  c.pushAll [c.eax, c.ecx, c.edx, c.ebx, c.esp, c.ebp, c.esi, c.edi]

/-- The saved stack pointer is skipped. -/
def popa (c : Cpu) : Cpu :=
  { c with
    edi := c.word c.esp
    esi := c.word (c.esp + 4)
    ebp := c.word (c.esp + 8)
    ebx := c.word (c.esp + 16)
    edx := c.word (c.esp + 20)
    ecx := c.word (c.esp + 24)
    eax := c.word (c.esp + 28)
    esp := c.esp + 32 }

/-! ## Privilege levels -/

def cpl (c : Cpu) : ℕ := c.cs.toNat % 4

section Levels

variable (dpl : BitVec 16 → ℕ)

/-- A selector of a data segment after a return to the level `level`: the segment must not be more
privileged. -/
def visible (level : ℕ) (s : BitVec 16) : BitVec 16 :=
  if 4 ≤ s.toNat ∧ dpl s < level then 0 else s

/-- The data segments after a return to an outer level. -/
def dropSegments (c : Cpu) : Cpu :=
  { c with
    ds := visible dpl c.cpl c.ds
    es := visible dpl c.cpl c.es
    fs := visible dpl c.cpl c.fs
    gs := visible dpl c.cpl c.gs }

/-- A far call through a gate for the level 0. From an outer level, the stack is `ss0:esp0`, and the
parameters are copied to it. -/
def lcall (gate : Gate) (ss0 : BitVec 16) (esp0 : BitVec 32) (c : Cpu) : Cpu :=
  let params := (List.range gate.params).map fun i => c.word (c.esp + BitVec.ofNat 32 (4 * i))
  let inner := if c.cpl = 0 then c
    else ({ c with ss := ss0, esp := esp0 }.pushAll [c.ss.setWidth 32, c.esp]).pushAll params.reverse
  { inner.pushAll [c.cs.setWidth 32, c.eip] with cs := gate.selector, eip := gate.offset }

/-- The return from a far call with `n` bytes of parameters. -/
def retf (n : BitVec 32) (c : Cpu) : Cpu :=
  let back := { (c.drop 8).drop n with eip := c.top, cs := (c.drop 4).topSeg }
  if back.cpl ≤ c.cpl then back
  else dropSegments dpl { back with esp := back.top + n, ss := (back.drop 4).topSeg }

/-- The flags in an interrupt: no further interrupts, no single steps, no nested task. -/
def maskFlags (eflags : BitVec 32) : BitVec 32 := eflags &&& ~~~(0x34300 : BitVec 32)

/-- An interrupt or an exception through a gate for the level 0. -/
def interrupt (gate : Gate) (ss0 : BitVec 16) (esp0 : BitVec 32) (errorCode : Option (BitVec 32))
    (c : Cpu) : Cpu :=
  let inner := if c.cpl = 0 then c
    else ({ c with ss := ss0, esp := esp0 } : Cpu).pushAll [c.ss.setWidth 32, c.esp]
  { (inner.pushAll [c.eflags, c.cs.setWidth 32, c.eip]).pushAll errorCode.toList with
    cs := gate.selector, eip := gate.offset, eflags := maskFlags c.eflags }

def iret (c : Cpu) : Cpu :=
  let back := { c.drop 12 with eip := c.top, cs := (c.drop 4).topSeg, eflags := (c.drop 8).top }
  if back.cpl ≤ c.cpl then back
  else dropSegments dpl { back with esp := back.top, ss := (back.drop 4).topSeg }

end Levels

end Cpu

/-! ## Words in memory -/

/-- The words lie in memory from the address `a` on. -/
def Mem.Words (m : Mem) : ℕ → List (BitVec 32) → Prop
  | _, [] => True
  | a, w :: ws => m.read32 a = w.toNat ∧ m.Words (a + 4) ws

theorem Mem.Words.congr {m m' : Mem} {a : ℕ} {ws : List (BitVec 32)} (h : m.Words a ws)
    (hm : ∀ x, a ≤ x → x < a + 4 * ws.length → m' x = m x) : m'.Words a ws := by
  induction ws generalizing a with
  | nil => trivial
  | cons w ws ih =>
      rw [List.length_cons] at hm
      refine ⟨?_, ih h.2 fun x hx hx' => hm x (by omega) (by omega)⟩
      rw [Mem.read32_congr fun x hx hx' => hm x (by omega) (by omega)]
      exact h.1

theorem Mem.Words.append {m : Mem} {a : ℕ} {ws ws' : List (BitVec 32)} (h : m.Words a (ws ++ ws')) :
    m.Words (a + 4 * ws.length) ws' := by
  induction ws generalizing a with
  | nil => exact h
  | cons w ws ih =>
      rw [List.length_cons, Nat.mul_succ, Nat.add_comm _ 4, ← Nat.add_assoc]
      exact ih h.2

theorem Mem.Words.get {m : Mem} {a i : ℕ} {ws : List (BitVec 32)} {w : BitVec 32} (h : m.Words a ws)
    (hi : ws[i]? = some w) : m.read32 (a + 4 * i) = w.toNat := by
  induction ws generalizing a i with
  | nil => cases hi
  | cons v ws ih =>
      cases i with
      | zero =>
          obtain rfl := Option.some.inj hi
          exact h.1
      | succ i =>
          have hread := ih h.2 hi
          rwa [Nat.add_assoc, Nat.add_comm 4, ← Nat.mul_succ] at hread

/-- One of the words is written again. -/
theorem Mem.Words.set {m : Mem} {a i : ℕ} {ws : List (BitVec 32)} {w : BitVec 32} (h : m.Words a ws) :
    (m.write32 (a + 4 * i) w.toNat).Words a (ws.set i w) := by
  induction ws generalizing a i with
  | nil => trivial
  | cons v ws ih =>
      cases i with
      | zero =>
          refine ⟨Mem.read32_write32_self w.isLt, h.2.congr fun x hx _ => ?_⟩
          exact Mem.write32_apply_of_out x (by omega)
      | succ i =>
          refine ⟨(Mem.read32_write32_of_apart (by omega)).trans h.1, ?_⟩
          rw [show a + 4 * (i + 1) = a + 4 + 4 * i by omega]
          exact ih h.2

namespace Cpu

variable {c c' : Cpu} {w : BitVec 32} {ws ws' : List (BitVec 32)} {a : BitVec 32} {x : ℕ}

/-! ## Registers that are pushed -/

/-- A register other than the stack pointer. -/
def Apart (get : Cpu → BitVec 32) : Prop := ∀ c a m, get { c with esp := a, mem := m } = get c

theorem pushAll_eq : c.pushAll ws = { c with esp := (c.pushAll ws).esp, mem := (c.pushAll ws).mem } := by
  induction ws generalizing c with
  | nil => rfl
  | cons w ws ih => exact ih (c := c.push w)

theorem pushAll_append : (c.pushAll ws).pushAll ws' = c.pushAll (ws ++ ws') := by
  rw [pushAll, pushAll, pushAll, List.foldl_append]

theorem pushReg_pushAll {get : Cpu → BitVec 32} (h : Apart get) :
    (c.pushAll ws).pushReg get = c.pushAll (ws ++ [get c]) := by
  have hget : get (c.pushAll ws) = get c := by
    rw [pushAll_eq]
    exact h ..
  rw [pushReg, hget, pushAll, pushAll, List.foldl_append]
  rfl

/-! ## The stack -/

/-- The words `ws` lie on the stack, the first one on top, and there is room for `r` more. -/
structure Stack (c : Cpu) (r : ℕ) (ws : List (BitVec 32)) : Prop where
  words : c.mem.Words c.esp.toNat ws
  bound : c.esp.toNat + 4 * ws.length < 2 ^ 32
  room : 4 * r ≤ c.esp.toNat

theorem stack_nil {r : ℕ} (h : 4 * r ≤ c.esp.toNat) : c.Stack r [] := ⟨trivial, c.esp.isLt, h⟩

theorem esp_push (h : 4 ≤ c.esp.toNat) : (c.push w).esp.toNat = c.esp.toNat - 4 :=
  BitVec.toNat_sub_of_le h

/-- A push leaves alone what is on the stack and all but one word below it. -/
theorem mem_push (h : 4 ≤ c.esp.toNat) (hx : x < c.esp.toNat - 4 ∨ c.esp.toNat ≤ x) :
    (c.push w).mem x = c.mem x := by
  have he : (c.esp - 4).toNat = c.esp.toNat - 4 := BitVec.toNat_sub_of_le h
  refine Mem.write32_apply_of_out x ?_
  omega

theorem esp_pushAll (h : 4 * ws.length ≤ c.esp.toNat) :
    (c.pushAll ws).esp.toNat = c.esp.toNat - 4 * ws.length := by
  induction ws generalizing c with
  | nil => rfl
  | cons w ws ih =>
      rw [List.length_cons] at h
      have he : (c.push w).esp.toNat = c.esp.toNat - 4 := esp_push (by omega)
      rw [pushAll, List.foldl_cons, ← pushAll, ih (by omega), he, List.length_cons]
      omega

theorem mem_pushAll (h : 4 * ws.length ≤ c.esp.toNat)
    (hx : x < c.esp.toNat - 4 * ws.length ∨ c.esp.toNat ≤ x) : (c.pushAll ws).mem x = c.mem x := by
  induction ws generalizing c with
  | nil => rfl
  | cons w ws ih =>
      rw [List.length_cons] at h hx
      have he : (c.push w).esp.toNat = c.esp.toNat - 4 := esp_push (by omega)
      rw [pushAll, List.foldl_cons, ← pushAll, ih (by omega) (by omega)]
      exact mem_push (by omega) (by omega)

/-- A far call to an inner level. -/
theorem lcall_inner {gate : Gate} {ss0 : BitVec 16} {esp0 : BitVec 32} (hcpl : c.cpl ≠ 0)
    (hroom : 4 * (gate.params + 4) ≤ esp0.toNat) : ∃ a m, c.lcall gate ss0 esp0 = { c with
      esp := a, mem := m, ss := ss0, cs := gate.selector, eip := gate.offset } ∧
        a.toNat = esp0.toNat - 4 * (gate.params + 4) ∧
        ∀ x, x < esp0.toNat - 4 * (gate.params + 4) ∨ esp0.toNat ≤ x → m x = c.mem x := by
  let params := (List.range gate.params).map fun i => c.word (c.esp + BitVec.ofNat 32 (4 * i))
  let all := [c.ss.setWidth 32, c.esp] ++ (params.reverse ++ [c.cs.setWidth 32, c.eip])
  let d := { c with ss := ss0, esp := esp0 }
  have hlen : all.length = gate.params + 4 := by
    simp only [all, params, List.length_append, List.length_reverse, List.length_map, List.length_range,
      List.length_cons, List.length_nil]
    omega
  have heq : c.lcall gate ss0 esp0 = { d.pushAll all with cs := gate.selector, eip := gate.offset } := by
    rw [lcall, if_neg hcpl, pushAll_append, pushAll_append]
  have hroom' : 4 * all.length ≤ d.esp.toNat := by rwa [hlen]
  have hregs : d.pushAll all = { d with esp := (d.pushAll all).esp, mem := (d.pushAll all).mem } := pushAll_eq
  refine ⟨(d.pushAll all).esp, (d.pushAll all).mem, ?_, ?_, fun x hx => ?_⟩
  · generalize d.pushAll all = e at heq hregs
    rw [heq, hregs]
  · rw [esp_pushAll hroom', hlen]
  · rw [← hlen] at hx
    exact mem_pushAll hroom' hx

namespace Stack

variable {r : ℕ}

theorem congr (h : c.Stack r ws) (he : c'.esp = c.esp)
    (hm : ∀ x, c.esp.toNat ≤ x → x < c.esp.toNat + 4 * ws.length → c'.mem x = c.mem x) :
    c'.Stack r ws := by
  refine ⟨?_, he ▸ h.bound, he ▸ h.room⟩
  rw [he]
  exact h.words.congr hm

/-- Registers and bytes apart from the stack do not matter. -/
theorem retain (h : c.Stack r ws) (he : c'.esp = c.esp) (hm : c'.mem = c.mem) : c'.Stack r ws :=
  h.congr he fun x _ _ => congrFun hm x

theorem push (h : c.Stack (r + 1) ws) : (c.push w).Stack r (w :: ws) := by
  have hbound := h.bound
  have hroom := h.room
  have he : (c.push w).esp.toNat = c.esp.toNat - 4 := esp_push (by omega)
  refine ⟨⟨?_, ?_⟩, by rw [he, List.length_cons]; omega, by omega⟩
  · exact Mem.read32_write32_self w.isLt
  · rw [he, Nat.sub_add_cancel (by omega)]
    exact h.words.congr fun x hx _ => mem_push (by omega) (.inr hx)

theorem pushAll (h : c.Stack (r + ws'.length) ws) : (c.pushAll ws').Stack r (ws'.reverse ++ ws) := by
  induction ws' generalizing c ws with
  | nil => exact h
  | cons w ws' ih =>
      rw [List.reverse_cons, List.append_assoc]
      exact ih (c := c.push w) (push h)

theorem top (h : c.Stack r (w :: ws)) : c.top = w := by
  rw [Cpu.top, Cpu.word, h.words.1, BitVec.ofNat_toNat, BitVec.setWidth_eq]

theorem dropAll (h : c.Stack r (ws ++ ws')) (ha : a.toNat = 4 * ws.length) :
    (c.drop a).Stack (r + ws.length) ws' := by
  have hbound := h.bound
  have hroom := h.room
  rw [List.length_append] at hbound
  have he : (c.drop a).esp.toNat = c.esp.toNat + 4 * ws.length := by
    rw [Cpu.drop, BitVec.toNat_add, ha]
    exact Nat.mod_eq_of_lt (by omega)
  refine ⟨?_, by omega, by omega⟩
  rw [he]
  exact h.words.append

theorem drop (h : c.Stack r (w :: ws)) : (c.drop 4).Stack (r + 1) ws :=
  dropAll (show c.Stack r ([w] ++ ws) from h) rfl

/-- The setter of a register changes neither the stack pointer nor memory. -/
theorem popReg (h : c.Stack r (w :: ws)) (set : BitVec 32 → Cpu → Cpu)
    (hesp : ∀ v d, (set v d).esp = d.esp) (hmem : ∀ v d, (set v d).mem = d.mem) :
    ∃ d, c.popReg set = d ∧ d = set w (c.drop 4) ∧ d.Stack (r + 1) ws := by
  rw [Cpu.popReg, h.top]
  exact ⟨_, rfl, rfl, h.drop.retain (hesp _ _) (hmem _ _)⟩

/-- The word number `i`. -/
theorem word {i : ℕ} (h : c.Stack r ws) (hi : ws[i]? = some w) (ha : a.toNat = c.esp.toNat + 4 * i) :
    c.word a = w := by
  rw [Cpu.word, ha, h.words.get hi, BitVec.ofNat_toNat, BitVec.setWidth_eq]

theorem wordAt (h : c.Stack r ws) (i : ℕ) (hi : ws[i]? = some w) :
    c.word (c.esp + BitVec.ofNat 32 (4 * i)) = w := by
  have hlt := (List.getElem?_eq_some_iff.mp hi).1
  have hbound := h.bound
  refine h.word hi ?_
  rw [BitVec.toNat_add, BitVec.toNat_ofNat]
  omega

theorem store {i : ℕ} (h : c.Stack r ws) (ha : a.toNat = c.esp.toNat + 4 * i) :
    (c.store a w).Stack r (ws.set i w) := by
  refine ⟨?_, by rw [List.length_set]; exact h.bound, h.room⟩
  rw [Cpu.store, ha]
  exact h.words.set

/-- A far call to an inner level leaves the parameters on the new stack, as they lay on the old one. -/
theorem lcall {gate : Gate} {ss0 : BitVec 16} {esp0 : BitVec 32} {k : ℕ} (h : c.Stack k (ws ++ ws'))
    (hn : ws.length = gate.params) (hcpl : c.cpl ≠ 0) (hroom : 4 * (r + ws.length + 4) ≤ esp0.toNat) :
    (c.lcall gate ss0 esp0).Stack r
      (c.eip :: c.cs.setWidth 32 :: ws ++ [c.esp, c.ss.setWidth 32]) := by
  have hparams : ((List.range gate.params).map fun i => c.word (c.esp + BitVec.ofNat 32 (4 * i))) = ws := by
    refine List.ext_getElem (by rw [List.length_map, List.length_range, hn]) fun i hi hi' => ?_
    rw [List.getElem_map, List.getElem_range]
    exact h.wordAt i (by rw [List.getElem?_append_left hi', List.getElem?_eq_getElem hi'])
  have hinner : ∀ d : Cpu, d.esp = esp0 →
      (((d.pushAll [c.ss.setWidth 32, c.esp]).pushAll ws.reverse).pushAll
        [c.cs.setWidth 32, c.eip]).Stack r
          (c.eip :: c.cs.setWidth 32 :: ws ++ [c.esp, c.ss.setWidth 32]) := by
    intro d hd
    have h₀ : d.Stack (r + 2 + ws.reverse.length + 2) [] :=
      stack_nil (by rw [hd, List.length_reverse]; omega)
    have h₁ : (d.pushAll [c.ss.setWidth 32, c.esp]).Stack (r + 2 + ws.reverse.length)
        [c.esp, c.ss.setWidth 32] := h₀.pushAll
    have h₂ : ((d.pushAll [c.ss.setWidth 32, c.esp]).pushAll ws.reverse).Stack (r + 2)
        (ws.reverse.reverse ++ [c.esp, c.ss.setWidth 32]) := h₁.pushAll
    rw [List.reverse_reverse] at h₂
    exact h₂.pushAll
  rw [Cpu.lcall, hparams, if_neg hcpl]
  exact (hinner _ rfl).retain rfl rfl

end Stack

/-! ## Restoring registers -/

variable {eip eflags cs ss esp n : BitVec 32} {dpl : BitVec 16 → ℕ} {r : ℕ}

theorem Stack.popa {eax ecx edx ebx ebp esi edi : BitVec 32}
    (h : c.Stack r (edi :: esi :: ebp :: esp :: ebx :: edx :: ecx :: eax :: ws)) :
    ∃ d, c.popa = d ∧ d = { c with
      edi := edi, esi := esi, ebp := ebp, ebx := ebx, edx := edx, ecx := ecx, eax := eax
      esp := c.esp + 32 } ∧ d.Stack (r + 8) ws := by
  have hrest : ∀ us : List (BitVec 32), us.length = 8 → c.Stack r (us ++ ws) →
      (c.drop 32).Stack (r + us.length) ws := fun us hus hs => hs.dropAll (by rw [hus]; rfl)
  have hall := hrest [edi, esi, ebp, esp, ebx, edx, ecx, eax] rfl h
  refine ⟨_, rfl, ?_, hall.retain rfl rfl⟩
  rw [Cpu.popa, show c.word c.esp = edi from h.top, show c.word (c.esp + 4) = esi from h.wordAt 1 rfl,
    show c.word (c.esp + 8) = ebp from h.wordAt 2 rfl, show c.word (c.esp + 16) = ebx from h.wordAt 4 rfl,
    show c.word (c.esp + 20) = edx from h.wordAt 5 rfl, show c.word (c.esp + 24) = ecx from h.wordAt 6 rfl,
    show c.word (c.esp + 28) = eax from h.wordAt 7 rfl]

theorem drop_drop (a b : BitVec 32) : (c.drop a).drop b = c.drop (a + b) := by
  rw [drop, drop, drop, BitVec.add_assoc]

theorem retf_outer (h : c.Stack r (eip :: cs :: ws ++ [esp, ss])) (hn : n.toNat = 4 * ws.length)
    (hcpl : c.cpl < cs.toNat % 4) : c.retf dpl n = dropSegments dpl { c with
      eip := eip, cs := cs.setWidth 16, esp := esp + n, ss := ss.setWidth 16 } := by
  have h₁ : (c.drop 4).Stack (r + 1) (cs :: ws ++ [esp, ss]) := h.drop
  have h₂ : (c.drop 8).Stack (r + 1 + 1) (ws ++ [esp, ss]) := drop_drop (c := c) 4 4 ▸ h₁.drop
  have hback : ((c.drop 8).drop n).Stack (r + 1 + 1 + ws.length) [esp, ss] := h₂.dropAll hn
  have hlevel : ¬ (cs.setWidth 16).toNat % 4 ≤ c.cpl := by
    rw [BitVec.toNat_setWidth]
    omega
  rw [retf, show c.top = eip from h.top, show (c.drop 4).topSeg = cs.setWidth 16 from
    congrArg (BitVec.setWidth 16) h₁.top]
  refine (if_neg hlevel).trans ?_
  have htop : ((c.drop 8).drop n).top = esp := hback.top
  have hss : (((c.drop 8).drop n).drop 4).topSeg = ss.setWidth 16 := congrArg _ hback.drop.top
  rw [← htop, ← hss]
  rfl

/-! ## Interrupts -/

/-- What an interrupt keeps of the stack that it leaves. -/
def outerStack (c : Cpu) : List (BitVec 32) := if c.cpl = 0 then [] else [c.esp, c.ss.setWidth 32]

/-- The stack on which an interrupt puts its words. -/
def entryStack (ss0 : BitVec 16) (esp0 : BitVec 32) (c : Cpu) : Cpu :=
  if c.cpl = 0 then c else { c with ss := ss0, esp := esp0 }

variable {gate : Gate} {ss0 : BitVec 16} {esp0 : BitVec 32} {err : Option (BitVec 32)}

theorem interrupt_eq : c.interrupt gate ss0 esp0 err =
    { (c.entryStack ss0 esp0).pushAll
        (c.outerStack.reverse ++ [c.eflags, c.cs.setWidth 32, c.eip] ++ err.toList) with
      cs := gate.selector, eip := gate.offset, eflags := maskFlags c.eflags } := by
  rw [interrupt, entryStack, outerStack]
  split_ifs with h
  · rw [pushAll_append]
    rfl
  · rw [pushAll_append, pushAll_append]
    rfl

theorem interrupt_regs {n : ℕ} (hn : n = 4 * (err.toList.length + 3 + c.outerStack.length))
    (hroom : n ≤ (c.entryStack ss0 esp0).esp.toNat) : ∃ a m, c.interrupt gate ss0 esp0 err = { c with
      esp := a, mem := m, ss := (c.entryStack ss0 esp0).ss, cs := gate.selector, eip := gate.offset
      eflags := maskFlags c.eflags } ∧ a.toNat = (c.entryStack ss0 esp0).esp.toNat - n ∧
        ∀ x, x < (c.entryStack ss0 esp0).esp.toNat - n ∨ (c.entryStack ss0 esp0).esp.toNat ≤ x →
          m x = c.mem x := by
  have hbase : c.entryStack ss0 esp0 = { c with
      ss := (c.entryStack ss0 esp0).ss, esp := (c.entryStack ss0 esp0).esp } := by
    rw [entryStack]
    split_ifs <;> rfl
  rw [interrupt_eq]
  generalize hws : c.outerStack.reverse ++ [c.eflags, c.cs.setWidth 32, c.eip] ++ err.toList = ws
  have hlen : 4 * ws.length = n := by
    rw [hn, ← hws, List.length_append, List.length_append, List.length_reverse]
    show 4 * (_ + 3 + _) = _
    omega
  have hregs : (c.entryStack ss0 esp0).pushAll ws = _ := pushAll_eq
  have hesp : ((c.entryStack ss0 esp0).pushAll ws).esp.toNat = _ := esp_pushAll (by omega)
  have hmem : ∀ x, x < (c.entryStack ss0 esp0).esp.toNat - 4 * ws.length ∨
      (c.entryStack ss0 esp0).esp.toNat ≤ x →
      ((c.entryStack ss0 esp0).pushAll ws).mem x = (c.entryStack ss0 esp0).mem x :=
    fun x hx => mem_pushAll (by omega) hx
  generalize (c.entryStack ss0 esp0).pushAll ws = d at hregs hesp hmem ⊢
  rw [hlen] at hesp hmem
  refine ⟨d.esp, d.mem, ?_, hesp, fun x hx => ?_⟩
  · rw [hregs, hbase]
  · rw [hmem x hx, hbase]

theorem Stack.interrupt (hroom : 4 * (r + err.toList.length + 3 + c.outerStack.length) ≤
    (c.entryStack ss0 esp0).esp.toNat) : (c.interrupt gate ss0 esp0 err).Stack r
      (err.toList ++ c.eip :: c.cs.setWidth 32 :: c.eflags :: c.outerStack) := by
  let ws := c.outerStack.reverse ++ [c.eflags, c.cs.setWidth 32, c.eip] ++ err.toList
  have hlen : ws.length = c.outerStack.length + 3 + err.toList.length := by
    rw [List.length_append, List.length_append, List.length_reverse]
    rfl
  have hrev : ws.reverse ++ [] = err.toList ++ c.eip :: c.cs.setWidth 32 :: c.eflags :: c.outerStack := by
    rw [List.append_nil, List.reverse_append, List.reverse_append, List.reverse_reverse]
    cases err <;> rfl
  have hall : ((c.entryStack ss0 esp0).pushAll ws).Stack r (ws.reverse ++ []) :=
    (stack_nil (by rw [hlen]; omega)).pushAll
  rw [interrupt_eq, ← hrev]
  exact hall.retain rfl rfl

theorem iret_outer (h : c.Stack r [eip, cs, eflags, esp, ss]) (hcpl : c.cpl < cs.toNat % 4) :
    c.iret dpl = dropSegments dpl { c with
      eip := eip, cs := cs.setWidth 16, eflags := eflags, esp := esp, ss := ss.setWidth 16 } := by
  have h₂ : (c.drop 8).Stack (r + 1 + 1) [eflags, esp, ss] := drop_drop (c := c) 4 4 ▸ h.drop.drop
  have h₃ : (c.drop 12).Stack (r + 1 + 1 + 1) [esp, ss] := drop_drop (c := c) 8 4 ▸ h₂.drop
  have hlevel : ¬ (cs.setWidth 16).toNat % 4 ≤ c.cpl := by
    rw [BitVec.toNat_setWidth]
    omega
  rw [iret, h.top, h₂.top, show (c.drop 4).topSeg = cs.setWidth 16 from congrArg _ h.drop.top]
  refine (if_neg hlevel).trans ?_
  rw [← show (c.drop 12).top = esp from h₃.top,
    ← show ((c.drop 12).drop 4).topSeg = ss.setWidth 16 from congrArg _ h₃.drop.top]
  rfl

theorem iret_inner (h : c.Stack r (eip :: cs :: eflags :: ws)) (hcpl : cs.toNat % 4 ≤ c.cpl) :
    c.iret dpl = { c with
      eip := eip, cs := cs.setWidth 16, eflags := eflags, esp := c.esp + 12 } := by
  have h₂ : (c.drop 8).Stack (r + 1 + 1) (eflags :: ws) := drop_drop (c := c) 4 4 ▸ h.drop.drop
  have hlevel : (cs.setWidth 16).toNat % 4 ≤ c.cpl := by
    rw [BitVec.toNat_setWidth]
    omega
  rw [iret, h.top, h₂.top, show (c.drop 4).topSeg = cs.setWidth 16 from congrArg _ h.drop.top]
  exact if_pos hlevel

/-- The segments of the program stay visible to it. -/
theorem dropSegments_eq (h : ∀ s ∈ [c.ds, c.es, c.fs, c.gs], visible dpl c.cpl s = s) :
    dropSegments dpl c = c := by
  rw [dropSegments, h _ (by simp), h _ (by simp), h _ (by simp), h _ (by simp)]

end Cpu

end X86Os
