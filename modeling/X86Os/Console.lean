import X86Os.Memory
import X86Os.Prog

/-!
# Characters in memory

The state in which the formatting functions of `tools/klib.c` and `tools/log.c` run: memory as the
running task sees it, the addresses that were written, and the bytes sent to the serial port. Strings
end with a zero byte.
-/

namespace X86Os

/-- The fields `written` and `com1` only remember what was done. -/
structure Console where
  mem : Mem
  written : List ℕ
  com1 : List (BitVec 8)

namespace Mem

variable {m m' : Mem} {a : ℕ} {b : BitVec 8} {bs cs text : List (BitVec 8)}

/-- The bytes from `a` on. -/
def BytesAt (m : Mem) (a : ℕ) (bs : List (BitVec 8)) : Prop :=
  ∀ i (h : i < bs.length), m (a + i) = bs[i]

/-- A string with its end. -/
structure TextAt (m : Mem) (a : ℕ) (text : List (BitVec 8)) : Prop where
  bytes : m.BytesAt a text
  stop : m (a + text.length) = 0
  nonzero : ∀ c ∈ text, c ≠ 0

theorem bytesAt_nil (m : Mem) (a : ℕ) : m.BytesAt a [] := fun _ h => nomatch h

theorem bytesAt_cons : m.BytesAt a (b :: bs) ↔ m a = b ∧ m.BytesAt (a + 1) bs := by
  constructor
  · intro h
    refine ⟨h 0 (Nat.succ_pos _), fun i hi => ?_⟩
    rw [Nat.add_assoc, Nat.add_comm 1 i]
    exact h (i + 1) (Nat.succ_lt_succ hi)
  · rintro ⟨h0, h⟩ i hi
    cases i with
    | zero => exact h0
    | succ i =>
        have hi' := h i (Nat.lt_of_succ_lt_succ hi)
        rwa [Nat.add_assoc, Nat.add_comm 1 i] at hi'

theorem bytesAt_append :
    m.BytesAt a (bs ++ cs) ↔ m.BytesAt a bs ∧ m.BytesAt (a + bs.length) cs := by
  induction bs generalizing a with
  | nil => exact ⟨fun h => ⟨bytesAt_nil _ _, h⟩, And.right⟩
  | cons b bs ih =>
      rw [List.cons_append, bytesAt_cons, ih, bytesAt_cons, and_assoc, List.length_cons,
        Nat.add_assoc, Nat.add_comm 1]

theorem BytesAt.congr (h : m.BytesAt a bs)
    (hsame : ∀ x, a ≤ x → x < a + bs.length → m' x = m x) : m'.BytesAt a bs := fun i hi =>
  (hsame (a + i) (by omega) (by omega)).trans (h i hi)

theorem TextAt.congr (h : m.TextAt a text)
    (hsame : ∀ x, a ≤ x → x ≤ a + text.length → m' x = m x) : m'.TextAt a text :=
  ⟨h.bytes.congr fun x h1 h2 => hsame x h1 (by omega),
    (hsame _ (by omega) le_rfl).trans h.stop, h.nonzero⟩

theorem TextAt.tail (h : m.TextAt a (b :: text)) : m.TextAt (a + 1) text :=
  ⟨(bytesAt_cons.mp h.bytes).2, by
    have := h.stop
    rwa [List.length_cons, Nat.add_comm text.length, ← Nat.add_assoc] at this,
    fun c hc => h.nonzero c (List.mem_cons_of_mem b hc)⟩

end Mem

namespace Console

/-- The state after writing one character. -/
def put (s : Console) (p : ℕ) (ch : BitVec 8) : Console :=
  { s with mem := s.mem.write8 p ch, written := s.written ++ [p] }

/-- Empty memory, and nothing written or sent. -/
def blank : Console where
  mem := Mem.zero
  written := []
  com1 := []

def putChar (p : ℕ) (ch : BitVec 8) : Prog Console Unit := Prog.modify fun s => s.put p ch

def getChar (p : ℕ) : Prog Console (BitVec 8) := Prog.gets fun s => s.mem p

/-- The loop of `kernel_strlen`. -/
def strlenLoop : ℕ → ℕ → ℕ → Prog Console ℕ
  | 0, _, _ => Prog.halt
  | fuel + 1, c, len => do
    let ch ← getChar c
    if ch ≠ 0 then strlenLoop fuel (c + 1) (len + 1) else pure len

/-- A string is searched through all of memory; a search that never ends has no result. -/
def kernelStrlen (str : ℕ) : Prog Console ℕ :=
  if str = 0 then pure 0 else strlenLoop (2 ^ 32) str 0

/-! ## Where bytes are written -/

/-- Only bytes from `lo` on and before `hi` were written, and nothing was sent. -/
structure WritesIn (lo hi : ℕ) (s s' : Console) : Prop where
  mem : ∀ x, x < lo ∨ hi ≤ x → s'.mem x = s.mem x
  written : ∃ w, s'.written = s.written ++ w ∧ ∀ x ∈ w, lo ≤ x ∧ x < hi
  com1 : s'.com1 = s.com1

variable {s s' s'' : Console} {lo hi a p : ℕ} {ch : BitVec 8} {text bs : List (BitVec 8)}

namespace WritesIn

theorem refl (lo hi : ℕ) (s : Console) : WritesIn lo hi s s :=
  ⟨fun _ _ => rfl, ⟨[], by simp⟩, rfl⟩

theorem trans (h : WritesIn lo hi s s') (h' : WritesIn lo hi s' s'') : WritesIn lo hi s s'' := by
  obtain ⟨w, hw, hin⟩ := h.written
  obtain ⟨w', hw', hin'⟩ := h'.written
  refine ⟨fun x hx => (h'.mem x hx).trans (h.mem x hx), ⟨w ++ w', ?_, fun x hx => ?_⟩,
    h'.com1.trans h.com1⟩
  · rw [hw', hw, List.append_assoc]
  · rcases List.mem_append.mp hx with hx | hx
    · exact hin x hx
    · exact hin' x hx

theorem mono {lo' hi' : ℕ} (h : WritesIn lo hi s s') (hlo : lo' ≤ lo) (hhi : hi ≤ hi') :
    WritesIn lo' hi' s s' := by
  obtain ⟨w, hw, hin⟩ := h.written
  refine ⟨fun x hx => h.mem x (by omega), ⟨w, hw, fun x hx => ?_⟩, h.com1⟩
  have := hin x hx
  omega

end WritesIn

@[simp] theorem put_self (s : Console) (p : ℕ) (ch : BitVec 8) : (s.put p ch).mem p = ch :=
  Function.update_self ..

theorem put_of_ne {x : ℕ} (h : x ≠ p) : (s.put p ch).mem x = s.mem x := Function.update_of_ne h _ _

theorem writesIn_put (hlo : lo ≤ p) (hhi : p < hi) : WritesIn lo hi s (s.put p ch) := by
  refine ⟨fun x hx => put_of_ne (by omega), ⟨[p], rfl, fun x hx => ?_⟩, rfl⟩
  obtain rfl := List.mem_singleton.mp hx
  exact ⟨hlo, hhi⟩

/-! ## `kernel_strlen` -/

theorem strlenLoop_eq {fuel len : ℕ} (h : s.mem.TextAt a text) (hfuel : text.length < fuel) :
    strlenLoop fuel a len s = some (len + text.length, s) := by
  induction text generalizing fuel a len with
  | nil =>
      obtain ⟨fuel, rfl⟩ : ∃ n, fuel = n + 1 := ⟨fuel - 1, by simp at hfuel; omega⟩
      have hstop : s.mem a = 0 := h.stop
      rw [strlenLoop, getChar, Prog.gets_bind, if_neg (not_not.mpr hstop)]
      rfl
  | cons b text ih =>
      obtain ⟨fuel, rfl⟩ : ∃ n, fuel = n + 1 := ⟨fuel - 1, by simp at hfuel; omega⟩
      have hb : s.mem a ≠ 0 := by
        rw [(Mem.bytesAt_cons.mp h.bytes).1]
        exact h.nonzero b List.mem_cons_self
      rw [strlenLoop, getChar, Prog.gets_bind, if_pos hb,
        ih h.tail (by rw [List.length_cons] at hfuel; omega), List.length_cons,
        Nat.add_assoc, Nat.add_comm 1]

theorem kernelStrlen_eq (h : s.mem.TextAt a text) (ha : a ≠ 0) (hlen : text.length < 2 ^ 32) :
    kernelStrlen a s = some (text.length, s) := by
  rw [kernelStrlen, if_neg ha, strlenLoop_eq h hlen, Nat.zero_add]

end Console

end X86Os
