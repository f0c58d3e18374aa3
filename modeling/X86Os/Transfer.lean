import X86Os.Memory

/-!
# Byte transfers

Bytes are moved one after the other, the byte number `k` from the address `a k` to the address `d k`.
Sources and destinations may be scattered, and a source may be overwritten before it is read. Where
the destinations are different and no source is one of them, the result is the parallel copy; where
they are different, a transfer changes nothing exactly if every byte was there already.
-/

namespace X86Os

namespace Mem

/-- The memory after the first bytes were moved. -/
def transfer (d a : ℕ → ℕ) : ℕ → Mem → Mem
  | 0, m => m
  | k + 1, m => (transfer d a k m).write8 (d k) (transfer d a k m (a k))

variable {m : Mem} {d a : ℕ → ℕ} {n x : ℕ}

theorem transfer_out (h : ∀ k < n, x ≠ d k) : transfer d a n m x = m x := by
  induction n with
  | zero => rfl
  | succ n ih =>
      rw [transfer, write8, Function.update_of_ne (h n (by omega))]
      exact ih fun k hk => h k (by omega)

/-- Sources outside the destinations: a parallel copy. -/
theorem transfer_at (hd : ∀ k < n, ∀ l < n, d k = d l → k = l) (ha : ∀ k < n, ∀ l < n, a k ≠ d l)
    {k : ℕ} (hk : k < n) : transfer d a n m (d k) = m (a k) := by
  induction n with
  | zero => omega
  | succ n ih =>
      rw [transfer, write8]
      by_cases hkn : k = n
      · subst k
        rw [Function.update_self]
        exact transfer_out fun l hl => ha n (by omega) l (by omega)
      · have hne : d k ≠ d n := fun he => hkn (hd k hk n (by omega) he)
        rw [Function.update_of_ne hne]
        exact ih (fun i hi j hj => hd i (by omega) j (by omega))
          (fun i hi j hj => ha i (by omega) j (by omega)) (by omega)

/-- Sources anywhere: nothing changes exactly if every byte was there already. -/
theorem transfer_eq_self (hd : ∀ k < n, ∀ l < n, d k = d l → k = l) :
    transfer d a n m = m ↔ ∀ k < n, m (d k) = m (a k) := by
  induction n with
  | zero => simp [transfer]
  | succ n ih =>
      have hih := ih fun i hi j hj => hd i (by omega) j (by omega)
      constructor
      · intro h
        have hpre : transfer d a n m = m := by
          funext x
          by_cases hx : x = d n
          · subst x
            exact transfer_out fun k hk he => by
              have := hd n (by omega) k (by omega) he
              omega
          · have hat := congrFun h x
            rwa [transfer, write8, Function.update_of_ne hx] at hat
        intro k hk
        rcases Nat.lt_succ_iff_lt_or_eq.mp hk with hk | rfl
        · exact hih.mp hpre k hk
        · have hat := congrFun h (d k)
          rw [transfer, write8, Function.update_self, hpre] at hat
          exact hat.symm
      · intro h
        have hpre := hih.mpr fun k hk => h k (by omega)
        rw [transfer, hpre, ← h n (by omega)]
        exact Function.update_eq_self (d n) m

end Mem

end X86Os
