import Mathlib.Tactic

/-!
# C integers

The values of `uint32_t` are natural numbers below `2 ^ 32` and those of `int` are integers; the
functions here bring a result back into its type. Conversions and overflow wrap around.
-/

namespace X86Os

/-- The value of a C `int` after signed 32-bit wrap-around. -/
def i32 (x : ℤ) : ℤ := Int.bmod x (2 ^ 32)

/-- The value of a `uint32_t`. -/
def u32 (x : ℕ) : ℕ := x % 2 ^ 32

/-- The difference of two `uint32_t` values. -/
def u32Sub (x y : ℕ) : ℕ := u32 (x + (2 ^ 32 - y % 2 ^ 32))

/-- An `int` read as a `uint32_t`. -/
def toU32 (x : ℤ) : ℕ := (x % 2 ^ 32).toNat

theorem i32_of_bounds {x : ℤ} (h1 : -2 ^ 31 ≤ x) (h2 : x < 2 ^ 31) : i32 x = x := by
  unfold i32
  rw [Int.bmod_eq_of_le] <;> omega

theorem i32_succ (x : ℤ) : i32 (i32 x + 1) = i32 (x + 1) := by
  simp [i32]

/-- A `uint32_t` read as an `int`. -/
theorem i32_cast {x : ℕ} (h : x < 2 ^ 32) :
    i32 x = if x < 2 ^ 31 then (x : ℤ) else x - 2 ^ 32 := by
  unfold i32
  split_ifs with hx
  · rw [Int.bmod_eq_of_le] <;> omega
  · have hmod : Int.bmod (x : ℤ) (2 ^ 32) = Int.bmod ((x : ℤ) - 2 ^ 32) (2 ^ 32) := by
      rw [← Int.sub_bmod_right]
      norm_num
    rw [hmod, Int.bmod_eq_of_le] <;> omega

theorem u32_of_lt {x : ℕ} (h : x < 2 ^ 32) : u32 x = x := Nat.mod_eq_of_lt h

theorem u32_lt (x : ℕ) : u32 x < 2 ^ 32 := Nat.mod_lt _ (by norm_num)

theorem u32Sub_of_le {x y : ℕ} (h : y ≤ x) (hx : x < 2 ^ 32) : u32Sub x y = x - y := by
  unfold u32Sub u32
  omega

/-- The distance of a wrapped sum from its first term. -/
theorem u32Sub_u32_add (x : ℕ) {d : ℕ} (hd : d < 2 ^ 32) : u32Sub (u32 (x + d)) x = d := by
  unfold u32Sub u32
  omega

end X86Os
