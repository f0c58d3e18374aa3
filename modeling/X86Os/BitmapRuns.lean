import X86Os.Bitmap

/-!
# Several bits

`bitmap_set_bit` and `bitmap_alloc_nbits` with any count. The inner loop of the search reads the first
bit of a candidate a second time, so one bit fewer than the count is compared; and `~bit` is not zero
for either value of a bit, so the bits of the run are set in both cases.
-/

namespace X86Os

namespace Bitmap

/-- The bits from `s` on, `count` of them, are in the bitmap and equal `bit`. -/
def Run (bitmap : Bitmap) (bit : ℤ) (count s : ℕ) : Prop :=
  ((s + count : ℕ) : ℤ) ≤ bitmap.bitCount ∧
    ∀ j, s ≤ j → j < s + count → bitmapGetBit bitmap j = bit

def FirstRun (bitmap : Bitmap) (bit : ℤ) (count s : ℕ) : Prop :=
  bitmap.Run bit count s ∧ ∀ k < s, ¬ bitmap.Run bit count k

/-- Exactly the bits of the run at `s` differ. -/
structure Flipped (bitmap : Bitmap) (count s : ℕ) (bitmap' : Bitmap) : Prop where
  bitCount : bitmap'.bitCount = bitmap.bitCount
  bitAt : ∀ j, bitmap'.bitAt j =
    if s ≤ j ∧ j < s + count then !bitmap.bitAt j else bitmap.bitAt j
  before : ∀ i < 0, bitmap'.bits i = bitmap.bits i

/-- The result of an allocation of the first run of `count` bits. -/
def AllocsRun (bitmap : Bitmap) (bit : ℤ) (count : ℕ) (r : ℤ × Bitmap) : Prop :=
  (∀ s, bitmap.FirstRun bit count s → r.1 = s ∧ bitmap.Flipped count s r.2) ∧
  ((r.1 = -1 ∧ r.2 = bitmap) ↔ ∀ s, ¬ bitmap.Run bit count s)

/-- How many bits of a candidate are compared. -/
def compared (count : ℕ) : ℕ := max 1 (count - 1)

variable {bitmap : Bitmap} {bit : ℤ} {count s : ℕ}

/-! ## Runs -/

theorem Run.mono {n : ℕ} (h : bitmap.Run bit count s) (hn : n ≤ count) : bitmap.Run bit n s :=
  ⟨by have := h.1; omega, fun j h1 h2 => h.2 j h1 (by omega)⟩

theorem run_succ : bitmap.Run bit (count + 1) s ↔
    (s : ℤ) < bitmap.bitCount ∧ bitmapGetBit bitmap s = bit ∧ bitmap.Run bit count (s + 1) := by
  constructor
  · rintro ⟨hle, hbits⟩
    exact ⟨by omega, hbits s le_rfl (by omega), by omega,
      fun j h1 h2 => hbits j (by omega) (by omega)⟩
  · rintro ⟨-, hs, hle, hbits⟩
    refine ⟨by omega, fun j h1 h2 => ?_⟩
    rcases Nat.eq_or_lt_of_le h1 with rfl | hlt
    · exact hs
    · exact hbits j hlt (by omega)

theorem run_zero (h : (s : ℤ) ≤ bitmap.bitCount) : bitmap.Run bit 0 s :=
  ⟨by omega, fun j h1 h2 => by omega⟩

theorem exists_firstRun (h : bitmap.Run bit count s) : ∃ k, bitmap.FirstRun bit count k := by
  classical
  have hex : ∃ k, bitmap.Run bit count k := ⟨s, h⟩
  exact ⟨Nat.find hex, Nat.find_spec hex, fun k hk => Nat.find_min hex hk⟩

theorem FirstRun.le {k : ℕ} (h : bitmap.FirstRun bit count s) (hk : bitmap.Run bit count k) :
    s ≤ k := by
  by_contra hlt
  exact h.2 k (by omega) hk

theorem compared_le (h : 1 ≤ count) : compared count ≤ count := by
  unfold compared
  omega

/-- A candidate agrees in its first bit and in the bits that the inner loop reads. -/
theorem run_compared : bitmap.Run bit (compared count) s ↔
    (s : ℤ) < bitmap.bitCount ∧ bitmapGetBit bitmap s = bit ∧ bitmap.Run bit (count - 1) s := by
  constructor
  · intro h
    have h1 : bitmap.Run bit 1 s := h.mono (le_max_left _ _)
    obtain ⟨hs, hbit, -⟩ := run_succ.mp h1
    exact ⟨hs, hbit, h.mono (le_max_right _ _)⟩
  · rintro ⟨hs, hbit, hrun⟩
    rcases Nat.le_total (count - 1) 1 with hle | hle
    · rw [compared, max_eq_left hle]
      exact run_succ.mpr ⟨hs, hbit, run_zero (by omega)⟩
    · rwa [compared, max_eq_right hle]

/-! ## The two loops -/

/-- The inner loop from bit `x` on, with `c` bits to compare. -/
theorem runLoop_of_run {n i x c : ℕ} (ok : ℤ) (hn : bitmap.bitCount ≤ x + n)
    (h : bitmap.Run bit c x) :
    bitmapRunLoop bitmap bit ((i + c : ℕ) : ℤ) n i x ok = (((i + c : ℕ) : ℤ), ((x + c : ℕ) : ℤ), ok) := by
  induction c generalizing n i x with
  | zero => cases n with
    | zero => rfl
    | succ n => rw [bitmapRunLoop, if_neg (by omega)]; rfl
  | succ c ih =>
      obtain ⟨hx, hbit, hrest⟩ := run_succ.mp h
      cases n with
      | zero => omega
      | succ n =>
          rw [bitmapRunLoop, if_pos (by omega), if_neg (not_not.mpr hbit)]
          have hnext := ih (n := n) (i := i + 1) (by push_cast at hn ⊢; omega) hrest
          rw [Nat.add_assoc, Nat.add_comm 1 c, Nat.add_assoc, Nat.add_comm 1 c] at hnext
          exact hnext

/-- Where the inner loop stops short, no candidate starts before that place. -/
theorem runLoop_of_not_run {n i x c : ℕ} (ok : ℤ) (hx : (x : ℤ) ≤ bitmap.bitCount)
    (hn : bitmap.bitCount ≤ x + n) (h : ¬ bitmap.Run bit c x) :
    ∃ i' ok' : ℤ, ∃ f : ℕ,
      bitmapRunLoop bitmap bit ((i + c : ℕ) : ℤ) n i x ok = (i', (f : ℤ), ok') ∧
      i' < (i + c : ℕ) ∧ x ≤ f ∧ ((x : ℤ) < bitmap.bitCount → x < f) ∧
      ∀ k, x ≤ k → k < f → ¬ bitmap.Run bit c k := by
  induction c generalizing n i x with
  | zero => exact absurd (run_zero hx) h
  | succ c ih =>
      by_cases hend : (x : ℤ) < bitmap.bitCount
      · cases n with
        | zero => omega
        | succ n =>
            rw [bitmapRunLoop, if_pos (by omega)]
            by_cases hbit : bitmapGetBit bitmap x = bit
            · have hrest : ¬ bitmap.Run bit c (x + 1) := fun hr => h (run_succ.mpr ⟨hend, hbit, hr⟩)
              obtain ⟨i', ok', f, hloop, hi, hf, -, hnone⟩ :=
                ih (n := n) (i := i + 1) (by omega) (by push_cast at hn ⊢; omega) hrest
              refine ⟨i', ok', f, ?_, by omega, by omega, fun _ => by omega, fun k h1 h2 => ?_⟩
              · rw [if_neg (not_not.mpr hbit), ← hloop]
                congr 1
                omega
              · rcases Nat.eq_or_lt_of_le h1 with rfl | hlt
                · exact h
                · exact fun hr => hnone k hlt h2 (hr.mono (by omega))
            · refine ⟨i, -1, x + 1, by rw [if_pos hbit]; rfl, by omega, by omega, fun _ => by omega,
                fun k h1 h2 => ?_⟩
              obtain rfl : k = x := by omega
              exact h
      · refine ⟨i, ok, x, ?_, by omega, le_rfl, fun hlt => absurd hlt hend, fun k h1 h2 => by omega⟩
        cases n with
        | zero => rfl
        | succ n => rw [bitmapRunLoop, if_neg (by omega)]

theorem allocLoop_of_first {n k : ℕ} (hc : 1 ≤ count) (hsk : s ≤ k) (hn : bitmap.bitCount ≤ s + n)
    (hrun : bitmap.Run bit (compared count) k)
    (hnone : ∀ j, s ≤ j → j < k → ¬ bitmap.Run bit (compared count) j) :
    bitmapAllocLoop bitmap bit count n s = ((k : ℤ), bitmapSetBit bitmap k count (-bit - 1)) := by
  obtain ⟨hk, hkbit, hkrun⟩ := run_compared.mp hrun
  have hcount : (count : ℤ) = ((1 + (count - 1) : ℕ) : ℤ) := by omega
  induction n generalizing s with
  | zero => omega
  | succ n ih =>
      rw [bitmapAllocLoop, if_pos (by omega)]
      have hfuel : bitmap.bitCount ≤ (s : ℤ) + (bitmap.bitCount - s).toNat := by omega
      by_cases hbit : bitmapGetBit bitmap s = bit
      · rw [if_neg (not_not.mpr hbit)]
        by_cases hsrun : bitmap.Run bit (count - 1) s
        · have hs : s = k := by
            by_contra hne
            exact hnone s le_rfl (by omega) (run_compared.mpr ⟨by omega, hbit, hsrun⟩)
          subst s
          have hloop := runLoop_of_run (i := 1) (k : ℤ) hfuel hsrun
          rw [← hcount, Nat.cast_one] at hloop
          simp only [hloop, if_pos (le_refl (count : ℤ)), ge_iff_le]
        · obtain ⟨i', ok', f, hloop, hi, -, hsf, hmiss⟩ :=
            runLoop_of_not_run (i := 1) (s : ℤ) (by omega) hfuel hsrun
          rw [← hcount, Nat.cast_one] at hloop
          have hfk : f ≤ k := by
            by_contra hlt
            exact hmiss k hsk (by omega) hkrun
          have hsf' : s < f := hsf (by omega)
          simp only [hloop, if_neg (show ¬ i' ≥ (count : ℤ) by omega)]
          exact ih hfk (by push_cast at hn; omega) fun j h1 h2 => hnone j (by omega) h2
      · rw [if_pos hbit]
        have hs : s ≠ k := by
          rintro rfl
          exact hbit hkbit
        have hnext := ih (s := s + 1) (by omega) (by push_cast at hn ⊢; omega)
          fun j h1 h2 => hnone j (by omega) h2
        rwa [Nat.cast_succ] at hnext

theorem allocLoop_of_none {n : ℕ} (hc : 1 ≤ count)
    (hnone : ∀ j, ¬ bitmap.Run bit (compared count) j) :
    bitmapAllocLoop bitmap bit count n s = (-1, bitmap) := by
  have hcount : (count : ℤ) = ((1 + (count - 1) : ℕ) : ℤ) := by omega
  induction n generalizing s with
  | zero => rfl
  | succ n ih =>
      rw [bitmapAllocLoop]
      by_cases hs : (s : ℤ) < bitmap.bitCount
      · rw [if_pos hs]
        by_cases hbit : bitmapGetBit bitmap s = bit
        · rw [if_neg (not_not.mpr hbit)]
          have hsrun : ¬ bitmap.Run bit (count - 1) s := fun hr =>
            hnone s (run_compared.mpr ⟨hs, hbit, hr⟩)
          obtain ⟨i', ok', f, hloop, hi, -⟩ :=
            runLoop_of_not_run (n := (bitmap.bitCount - s).toNat) (i := 1) (s : ℤ) (by omega)
              (by omega) hsrun
          rw [← hcount, Nat.cast_one] at hloop
          simp only [hloop, if_neg (show ¬ i' ≥ (count : ℤ) by omega)]
          exact ih
        · rw [if_pos hbit]
          exact ih (s := s + 1)
      · rw [if_neg hs]

/-- What `bitmap_alloc_nbits` finds and sets. -/
theorem allocNbits_of_first (hc : 1 ≤ count) (h : bitmap.FirstRun bit (compared count) s) :
    bitmapAllocNbits bitmap bit count = ((s : ℤ), bitmapSetBit bitmap s count (-bit - 1)) :=
  allocLoop_of_first (s := 0) hc (Nat.zero_le s) (by omega) h.1 fun j _ hj => h.2 j hj

theorem allocNbits_of_none (hc : 1 ≤ count) (h : ∀ s, ¬ bitmap.Run bit (compared count) s) :
    bitmapAllocNbits bitmap bit count = (-1, bitmap) :=
  allocLoop_of_none (s := 0) hc h

/-! ## The bits afterwards -/

theorem bitAt_setLoop_beyond {x j n : ℕ} (hj : bitmap.bitCount ≤ j) :
    (bitmapSetLoop bit n x bitmap).bitAt j = bitmap.bitAt j := by
  induction n generalizing x bitmap with
  | zero => rfl
  | succ n ih =>
      rw [bitmapSetLoop]
      split_ifs with hx
      · have hne : j ≠ x := by omega
        have hput : (bitmapPutBit bitmap x bit).bitCount ≤ j := hj
        have hnext := ih (x := x + 1) hput
        rw [bitAt_putBit, if_neg hne] at hnext
        exact hnext
      · rfl

/-- No byte around the bitmap is written. -/
theorem bits_setLoop_out {x n : ℕ} {i : ℤ} (hi : i < 0 ∨ bitmapByteCount bitmap.bitCount ≤ i) :
    (bitmapSetLoop bit n x bitmap).bits i = bitmap.bits i := by
  induction n generalizing x bitmap with
  | zero => rfl
  | succ n ih =>
      rw [bitmapSetLoop]
      split_ifs with hx
      · have hne : i ≠ (x : ℤ).tdiv 8 := by
          rw [bitmapByteCount_eq (by omega)] at hi
          rw [tdiv_natCast]
          omega
        have hput : i < 0 ∨ bitmapByteCount (bitmapPutBit bitmap x bit).bitCount ≤ i := hi
        exact (ih (x := x + 1) hput).trans (Function.update_of_ne hne _ _)
      · rfl

theorem getBit_eq_one (bitmap : Bitmap) (j : ℕ) :
    bitmapGetBit bitmap j = 1 ↔ bitmap.bitAt j = true := by
  rw [getBit_eq]
  split_ifs with hbit <;> simp [hbit]

/-- A range of any length from any index sets its bits below `bit_count`, and nothing else. The sum in
`bitmap_byte_count` is below 2 ^ 31 for every bitmap that fits into the memory of the machine. -/
theorem setBit_range (bitmap : Bitmap) (index : ℕ) (count bit : ℤ) :
    (∀ j : ℕ, (j : ℤ) < bitmap.bitCount →
      (bitmapGetBit (bitmapSetBit bitmap index count bit) j = 1 ↔
        ((index : ℤ) ≤ j ∧ (j : ℤ) < index + count ∧ bit ≠ 0) ∨
          (¬ ((index : ℤ) ≤ j ∧ (j : ℤ) < index + count) ∧ bitmapGetBit bitmap j = 1))) ∧
    (∀ i : ℤ, i < 0 ∨ bitmapByteCount bitmap.bitCount ≤ i →
      (bitmapSetBit bitmap index count bit).bits i = bitmap.bits i) ∧
    ∀ (bits : ℤ → BitVec 8) (bitCount initBit : ℤ) (j : ℕ), (j : ℤ) < bitCount →
      bitmapGetBit (bitmapInit bits bitCount initBit) j = if initBit ≠ 0 then 1 else 0 := by
  refine ⟨fun j hj => ?_, fun i hi => bits_setLoop_out hi, fun bits bitCount initBit j hj => ?_⟩
  · have hrange : (index ≤ j ∧ j < index + count.toNat) ↔
        ((index : ℤ) ≤ j ∧ (j : ℤ) < index + count) := by omega
    rw [getBit_eq_one, getBit_eq_one, bitmapSetBit, bitAt_setLoop bitmap bit _ index j hj]
    by_cases hin : (index : ℤ) ≤ j ∧ (j : ℤ) < index + count
    · rw [if_pos (hrange.mpr hin), decide_eq_true_iff]
      exact ⟨fun h => .inl ⟨hin.1, hin.2, h⟩, fun h => h.elim (fun h => h.2.2) fun h => absurd hin h.1⟩
    · rw [if_neg (mt hrange.mp hin)]
      exact ⟨fun h => .inr ⟨hin, h⟩, fun h => h.elim (fun h => absurd ⟨h.1, h.2.1⟩ hin) And.right⟩
  · rw [getBit_eq, bitAt_init_eq bits hj]
    simp only [decide_eq_true_iff]

/-- Five bits from the index 6 on, of which two lie behind the bitmap. -/
theorem setBit_range_five :
    bitmapGetBit (bitmapSetBit (bitmapInit (fun _ => 0) 9 0) 6 5 1) 8 = 1 ∧
      (bitmapSetBit (bitmapInit (fun _ => 0) 9 0) 6 5 1).bits 2 = 0 := by
  have h := setBit_range (bitmapInit (fun _ => 0) 9 0) 6 5 1
  exact ⟨(h.1 8 (by decide)).mpr (.inl (by decide)), h.2.1 2 (.inr (by decide))⟩

/-- Setting a run that lies in the bitmap. -/
theorem bitAt_setBit_run (h : ((s + count : ℕ) : ℤ) ≤ bitmap.bitCount) (j : ℕ) :
    (bitmapSetBit bitmap s count bit).bitAt j =
      if s ≤ j ∧ j < s + count then decide (bit ≠ 0) else bitmap.bitAt j := by
  rw [bitmapSetBit, Int.toNat_natCast]
  by_cases hj : (j : ℤ) < bitmap.bitCount
  · exact bitAt_setLoop bitmap bit count s j hj
  · rw [bitAt_setLoop_beyond (by omega), if_neg (by omega)]

theorem flipped_setBit (h : bitmap.Run 0 count s) :
    bitmap.Flipped count s (bitmapSetBit bitmap s count (-0 - 1)) where
  bitCount := setBit_bitCount ..
  bitAt j := by
    rw [bitAt_setBit_run h.1]
    split_ifs with hj
    · have hbit := h.2 j hj.1 hj.2
      rw [getBit_eq] at hbit
      simpa using hbit
    · rfl
  before i hi := bits_setLoop_out (.inl hi)

/-! ## When the search is right -/

/-- No run of the compared length is there, or the first one has clear bits and is long enough. -/
def RunKept (bitmap : Bitmap) (bit : ℤ) (count : ℕ) : Prop :=
  (∀ s, ¬ bitmap.Run bit (compared count) s) ∨
    bit = 0 ∧ ∃ s, bitmap.FirstRun bit (compared count) s ∧ bitmap.Run bit count s

theorem allocNbits_exact_of_kept (hc : 1 ≤ count) (h : bitmap.RunKept bit count) :
    bitmap.AllocsRun bit count (bitmapAllocNbits bitmap bit count) := by
  rcases h with hnone | ⟨rfl, s, hfirst, hrun⟩
  · have hall : ∀ s, ¬ bitmap.Run bit count s := fun s hr => hnone s (hr.mono (compared_le hc))
    rw [allocNbits_of_none hc hnone]
    exact ⟨fun s hs => absurd hs.1 (hall s), iff_of_true ⟨rfl, rfl⟩ hall⟩
  · rw [allocNbits_of_first hc hfirst]
    refine ⟨fun k hk => ?_, iff_of_false (fun h => by omega) fun h => h s hrun⟩
    have hks : k ≤ s := hk.le hrun
    have hsk : s ≤ k := hfirst.le (hk.1.mono (compared_le hc))
    obtain rfl : k = s := by omega
    exact ⟨rfl, flipped_setBit hrun⟩

/-- `bitmap_alloc_nbits` allocates the first run of the bits it was asked for exactly when that is
also the first candidate it accepts, and the bits are clear. -/
theorem allocNbits_exact_iff (hbit : bit = 0 ∨ bit = 1) (hc : 1 ≤ count) :
    bitmap.AllocsRun bit count (bitmapAllocNbits bitmap bit count) ↔ bitmap.RunKept bit count := by
  refine ⟨fun h => ?_, allocNbits_exact_of_kept hc⟩
  by_cases hsome : ∃ s, bitmap.Run bit (compared count) s
  · obtain ⟨s, hs⟩ := hsome
    obtain ⟨k, hk⟩ := exists_firstRun hs
    rw [allocNbits_of_first hc hk] at h
    obtain ⟨hfound, hnone⟩ := h
    have hrun : ∃ s, bitmap.Run bit count s := by
      by_contra hno
      have := (hnone.mpr (not_exists.mp hno)).1
      omega
    obtain ⟨r, hr⟩ := hrun
    obtain ⟨first, hfirst⟩ := exists_firstRun hr
    obtain ⟨hsame, hflip⟩ := hfound first hfirst
    obtain rfl : k = first := Int.ofNat_inj.mp hsame
    have hset := hflip.bitAt k
    rw [bitAt_setBit_run hfirst.1.1, if_pos ⟨le_rfl, by omega⟩, if_pos ⟨le_rfl, by omega⟩,
      decide_eq_true (by omega)] at hset
    have hclear := hfirst.1.2 k le_rfl (by omega)
    rw [getBit_eq] at hclear
    refine .inr ⟨?_, k, hk, hfirst.1⟩
    rw [← hclear, if_neg (by simpa using hset.symm)]
  · exact .inl (not_exists.mp hsome)

/-- A bitmap in which only the bit with index 1 is set. -/
def secondTaken : Bitmap where
  bitCount := 8
  bits _ := 2

/-- Two bits are found in an empty bitmap, but not where the second bit is set. -/
theorem allocNbits_exact_iff_two :
    (bitmapInit (fun _ => 0) 8 0).AllocsRun 0 2 (bitmapAllocNbits (bitmapInit (fun _ => 0) 8 0) 0 2) ∧
      ¬ secondTaken.AllocsRun 0 2 (bitmapAllocNbits secondTaken 0 2) := by
  have hempty : ∀ count ≤ 8, (bitmapInit (fun _ => 0) 8 0).Run 0 count 0 := by
    intro count hcount
    refine ⟨?_, fun j _ hj => ?_⟩
    · rw [Nat.zero_add]
      exact Int.ofNat_le.mpr hcount
    · have hj' : j < 8 := by omega
      interval_cases j <;> decide
  have hkept : (bitmapInit (fun _ => 0) 8 0).RunKept 0 2 :=
    .inr ⟨rfl, 0, ⟨hempty 1 (by norm_num), fun k hk => absurd hk (Nat.not_lt_zero k)⟩,
      hempty 2 (by norm_num)⟩
  have hfirst : secondTaken.Run 0 1 0 := by
    refine ⟨by decide, fun j _ hj => ?_⟩
    obtain rfl : j = 0 := by omega
    decide
  refine ⟨(allocNbits_exact_iff (.inl rfl) (by norm_num)).mpr hkept, fun h => ?_⟩
  rcases (allocNbits_exact_iff (.inl rfl) (by norm_num)).mp h with hnone | ⟨-, k, hk, hrun⟩
  · exact hnone 0 hfirst
  · obtain rfl : k = 0 := by
      by_contra hne
      exact hk.2 0 (Nat.pos_of_ne_zero hne) hfirst
    have hbit := hrun.2 1 (by norm_num) (by norm_num)
    revert hbit
    decide

/-- Two bits are asked for, and the second of those returned was not clear. -/
theorem allocNbits_takes_set_bit : ¬ ∀ (bitmap : Bitmap) (bit : ℤ) (count : ℕ), bit = 0 ∨ bit = 1 →
    1 ≤ count → bitmap.AllocsRun bit count (bitmapAllocNbits bitmap bit count) := by
  intro h
  have hrun : secondTaken.FirstRun 0 2 2 := by
    refine ⟨⟨by decide, fun j h1 h2 => ?_⟩, fun k hk hr => ?_⟩
    · interval_cases j <;> decide
    · have hbit := hr.2 1 (by omega) (by omega)
      revert hbit
      decide
  have hzero : (bitmapAllocNbits secondTaken 0 (2 : ℕ)).1 = 0 := by decide
  have htwo := ((h secondTaken 0 2 (.inl rfl) (by norm_num)).1 2 hrun).1
  rw [hzero] at htwo
  norm_num at htwo

end Bitmap

end X86Os
