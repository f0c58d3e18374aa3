import Mathlib.Tactic

/-!
# Byte memory

A memory gives every address a byte. Words have four bytes, the lowest first. A write is described
by what is read afterwards: the written word itself, and every word apart from it.
-/

namespace X86Os

abbrev Mem : Type := ℕ → BitVec 8

namespace Mem

def zero : Mem := fun _ => 0

def read32 (m : Mem) (a : ℕ) : ℕ :=
  (m a).toNat + 2 ^ 8 * (m (a + 1)).toNat + 2 ^ 16 * (m (a + 2)).toNat + 2 ^ 24 * (m (a + 3)).toNat

def write8 (m : Mem) (a : ℕ) (b : BitVec 8) : Mem := Function.update m a b

def write32 (m : Mem) (a v : ℕ) : Mem := fun x =>
  if x = a then BitVec.ofNat 8 v
  else if x = a + 1 then BitVec.ofNat 8 (v / 2 ^ 8)
  else if x = a + 2 then BitVec.ofNat 8 (v / 2 ^ 16)
  else if x = a + 3 then BitVec.ofNat 8 (v / 2 ^ 24)
  else m x

/-- `n` bytes from `a` on have the value `b`. -/
def fill (m : Mem) (a : ℕ) (b : BitVec 8) (n : ℕ) : Mem := fun x =>
  if a ≤ x ∧ x < a + n then b else m x

/-- `n` bytes from `s` are written from `a` on; the two ranges are apart. -/
def copy (m : Mem) (a s n : ℕ) : Mem := fun x =>
  if a ≤ x ∧ x < a + n then m (s + (x - a)) else m x

/-- The memory with the word `w i` at the address `4 * i`. -/
def ofWords (w : ℕ → ℕ) : Mem := fun x => BitVec.ofNat 8 (w (x / 4) / 2 ^ (8 * (x % 4)))

variable {m m' : Mem} {a b v n : ℕ}

theorem read32_zero (a : ℕ) : zero.read32 a = 0 := rfl

theorem read32_lt (m : Mem) (a : ℕ) : m.read32 a < 2 ^ 32 := by
  have h0 := (m a).isLt
  have h1 := (m (a + 1)).isLt
  have h2 := (m (a + 2)).isLt
  have h3 := (m (a + 3)).isLt
  unfold read32
  omega

theorem read32_congr (h : ∀ x, a ≤ x → x < a + 4 → m' x = m x) : m'.read32 a = m.read32 a := by
  simp only [read32, h a le_rfl (by omega), h (a + 1) (by omega) (by omega),
    h (a + 2) (by omega) (by omega), h (a + 3) (by omega) (by omega)]

theorem write32_apply_of_out (x : ℕ) (h : x < a ∨ a + 4 ≤ x) : m.write32 a v x = m x := by
  simp only [write32, if_neg (show x ≠ a by omega), if_neg (show x ≠ a + 1 by omega),
    if_neg (show x ≠ a + 2 by omega), if_neg (show x ≠ a + 3 by omega)]

theorem read32_write32_self (hv : v < 2 ^ 32) : (m.write32 a v).read32 a = v := by
  simp only [read32, write32, if_true, if_neg (show a + 1 ≠ a by omega),
    if_neg (show a + 2 ≠ a by omega), if_neg (show a + 2 ≠ a + 1 by omega),
    if_neg (show a + 3 ≠ a by omega), if_neg (show a + 3 ≠ a + 1 by omega),
    if_neg (show a + 3 ≠ a + 2 by omega), BitVec.toNat_ofNat]
  omega

theorem read32_write32_of_apart (h : b + 4 ≤ a ∨ a + 4 ≤ b) :
    (m.write32 a v).read32 b = m.read32 b :=
  read32_congr fun x hx hx' => write32_apply_of_out x (by omega)

theorem fill_apply_of_out {c : BitVec 8} (x : ℕ) (h : x < a ∨ a + n ≤ x) :
    m.fill a c n x = m x := if_neg (by omega)

theorem read32_fill_zero (h : a ≤ b) (h' : b + 4 ≤ a + n) : (m.fill a 0 n).read32 b = 0 := by
  have hz : ∀ x, b ≤ x → x < b + 4 → m.fill a 0 n x = 0 := fun x hx hx' => if_pos (by omega)
  simp only [read32, hz b le_rfl (by omega), hz (b + 1) (by omega) (by omega),
    hz (b + 2) (by omega) (by omega), hz (b + 3) (by omega) (by omega)]
  rfl

theorem copy_apply_of_out {s : ℕ} (x : ℕ) (h : x < a ∨ a + n ≤ x) : m.copy a s n x = m x :=
  if_neg (by omega)

theorem copy_apply {s i : ℕ} (h : i < n) : m.copy a s n (a + i) = m (s + i) := by
  rw [copy, if_pos (by omega), Nat.add_sub_cancel_left]

theorem read32_ofWords {w : ℕ → ℕ} {i : ℕ} (h : w i < 2 ^ 32) : (ofWords w).read32 (4 * i) = w i := by
  simp only [read32, ofWords, BitVec.toNat_ofNat, show 4 * i / 4 = i by omega,
    show (4 * i + 1) / 4 = i by omega, show (4 * i + 2) / 4 = i by omega,
    show (4 * i + 3) / 4 = i by omega, show 4 * i % 4 = 0 by omega,
    show (4 * i + 1) % 4 = 1 by omega, show (4 * i + 2) % 4 = 2 by omega,
    show (4 * i + 3) % 4 = 3 by omega]
  omega

end Mem

end X86Os
