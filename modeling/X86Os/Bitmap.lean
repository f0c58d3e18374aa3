import X86Os.Word

/-!
# Bitmaps

The model of `tools/bitmap.c`. The bytes of a bitmap are named by their distance from the pointer
`bits`, so that an index outside the bitmap reaches the bytes around it, as it does in the source.
`bitAt` is the abstract view: the bits at the natural positions below `bit_count`.
-/

namespace X86Os

structure Bitmap where
  bitCount : ℤ
  bits : ℤ → BitVec 8

def bitmapByteCount (bitCount : ℤ) : ℤ := (bitCount + 8 - 1).tdiv 8

/-- `kernel_memset` on the bytes at a pointer. -/
def kernelMemset (dest : ℤ → BitVec 8) (v : BitVec 8) (size : ℤ) : ℤ → BitVec 8 :=
  fun i => if 0 ≤ i ∧ i < size then v else dest i

def bitmapInit (bits : ℤ → BitVec 8) (count initBit : ℤ) : Bitmap where
  bitCount := count
  bits := kernelMemset bits (if initBit ≠ 0 then 0xFF else 0) (bitmapByteCount count)

/-- The byte `1 << (index % 8)`; a negative remainder shifts as the processor does. -/
def bitMask (index : ℤ) : BitVec 8 := BitVec.twoPow 8 (index.tmod 8 % 32).toNat

def bitmapGetBit (bitmap : Bitmap) (index : ℤ) : ℤ :=
  if bitmap.bits (index.tdiv 8) &&& bitMask index ≠ 0 then 1 else 0

/-- One round of the loop of `bitmap_set_bit`. -/
def bitmapPutBit (bitmap : Bitmap) (index bit : ℤ) : Bitmap :=
  let byte := bitmap.bits (index.tdiv 8)
  { bitmap with
    bits := Function.update bitmap.bits (index.tdiv 8)
      (if bit ≠ 0 then byte ||| bitMask index else byte &&& ~~~bitMask index) }

def bitmapSetLoop (bit : ℤ) : ℕ → ℤ → Bitmap → Bitmap
  | 0, _, bitmap => bitmap
  | n + 1, index, bitmap =>
    if index < bitmap.bitCount then bitmapSetLoop bit n (index + 1) (bitmapPutBit bitmap index bit)
    else bitmap

def bitmapSetBit (bitmap : Bitmap) (index count bit : ℤ) : Bitmap :=
  bitmapSetLoop bit count.toNat index bitmap

def bitmapIsSet (bitmap : Bitmap) (index : ℤ) : ℤ := if bitmapGetBit bitmap index ≠ 0 then 1 else 0

/-- The inner loop of `bitmap_alloc_nbits`: the values of `i`, `search_idx` and `ok_idx` after it.
The first argument bounds the rounds; `bit_count - search_idx` is enough of them. -/
def bitmapRunLoop (bitmap : Bitmap) (bit count : ℤ) : ℕ → ℤ → ℤ → ℤ → ℤ × ℤ × ℤ
  | 0, i, searchIdx, okIdx => (i, searchIdx, okIdx)
  | n + 1, i, searchIdx, okIdx =>
    if i < count ∧ searchIdx < bitmap.bitCount then
      if bitmapGetBit bitmap searchIdx ≠ bit then (i, searchIdx + 1, -1)
      else bitmapRunLoop bitmap bit count n (i + 1) (searchIdx + 1) okIdx
    else (i, searchIdx, okIdx)

/-- The `while` loop of `bitmap_alloc_nbits`; every round advances `search_idx` or returns. -/
def bitmapAllocLoop (bitmap : Bitmap) (bit count : ℤ) : ℕ → ℤ → ℤ × Bitmap
  | 0, _ => (-1, bitmap)
  | n + 1, searchIdx =>
    if searchIdx < bitmap.bitCount then
      if bitmapGetBit bitmap searchIdx ≠ bit then
        bitmapAllocLoop bitmap bit count n (searchIdx + 1)
      else
        let r := bitmapRunLoop bitmap bit count (bitmap.bitCount - searchIdx).toNat 1 searchIdx
          searchIdx
        if r.1 ≥ count then (r.2.2, bitmapSetBit bitmap r.2.2 count (-bit - 1))
        else bitmapAllocLoop bitmap bit count n r.2.1
    else (-1, bitmap)

/-- The argument `~bit` of the call of `bitmap_set_bit` is `-bit - 1`. -/
def bitmapAllocNbits (bitmap : Bitmap) (bit count : ℤ) : ℤ × Bitmap :=
  bitmapAllocLoop bitmap bit count bitmap.bitCount.toNat 0

/-! ## Bits -/

namespace Bitmap

def bitAt (bitmap : Bitmap) (k : ℕ) : Bool := (bitmap.bits (k / 8 : ℕ)).getLsbD (k % 8)

theorem bitMask_natCast (k : ℕ) : bitMask k = BitVec.twoPow 8 (k % 8) := by
  have hmod : (k : ℤ).tmod 8 = (k % 8 : ℕ) := by
    rw [Int.tmod_eq_emod_of_nonneg (by omega)]
    rfl
  rw [bitMask, hmod]
  congr 1
  omega

theorem tdiv_natCast (k : ℕ) : (k : ℤ).tdiv 8 = (k / 8 : ℕ) := by
  rw [Int.tdiv_eq_ediv_of_nonneg (by omega)]
  rfl

theorem getBit_eq (bitmap : Bitmap) (k : ℕ) :
    bitmapGetBit bitmap k = if bitmap.bitAt k then 1 else 0 := by
  have hlt : k % 8 < 8 := Nat.mod_lt _ (by omega)
  rw [bitmapGetBit, bitMask_natCast, tdiv_natCast, BitVec.and_twoPow, bitAt]
  generalize bitmap.bits (k / 8 : ℕ) = byte
  by_cases hb : byte.getLsbD (k % 8) = true
  · have hne : BitVec.twoPow 8 (k % 8) ≠ 0 := by
      intro h0
      have hbit := congrArg (fun x => x.getLsbD (k % 8)) h0
      simp [hlt] at hbit
    simp only [hb, if_true, if_pos hne]
  · simp [hb]

theorem bitAt_putBit (bitmap : Bitmap) (k j : ℕ) (bit : ℤ) :
    (bitmapPutBit bitmap k bit).bitAt j = if j = k then decide (bit ≠ 0) else bitmap.bitAt j := by
  have hk : k % 8 < 8 := Nat.mod_lt _ (by omega)
  have hj : j % 8 < 8 := Nat.mod_lt _ (by omega)
  rw [bitAt, bitAt, bitmapPutBit, bitMask_natCast, tdiv_natCast]
  by_cases hbyte : j / 8 = k / 8
  · simp only [hbyte, Function.update_self]
    generalize bitmap.bits (k / 8 : ℕ) = byte
    by_cases he : j = k
    · subst j
      by_cases hb : bit = 0
      · simp [hb, hk]
      · simp [hb, hk]
    · have hne : k % 8 ≠ j % 8 := by omega
      by_cases hb : bit = 0
      · simp [hb, he, Ne.symm hne, hj]
      · simp [hb, he, BitVec.getLsbD_twoPow, hne]
  · have hne : j ≠ k := fun he => hbyte (he ▸ rfl)
    have hcast : ((j / 8 : ℕ) : ℤ) ≠ (k / 8 : ℕ) := by exact_mod_cast hbyte
    simp only [Function.update_of_ne hcast, if_neg hne]

/-- The mask of a negative index that is rounded to the first byte is empty. -/
theorem bitMask_neg {x : ℤ} (hx : x < 0) (h8 : -8 < x) : bitMask x = 0 := by
  interval_cases x <;> decide

/-- A write before the first byte changes no bit. -/
theorem bitAt_putBit_neg (bitmap : Bitmap) {x : ℤ} (hx : x < 0) (j : ℕ) (bit : ℤ) :
    (bitmapPutBit bitmap x bit).bitAt j = bitmap.bitAt j := by
  by_cases h8 : -8 < x
  · have hbyte : ∀ b : BitVec 8, (if bit ≠ 0 then b ||| bitMask x else b &&& ~~~bitMask x) = b := by
      intro b
      rw [bitMask_neg hx h8]
      split_ifs
      · exact BitVec.or_zero
      · exact (congrArg (b &&& ·) BitVec.not_zero).trans BitVec.and_allOnes
    simp only [bitAt, bitmapPutBit, hbyte, Function.update_eq_self]
  · have hneg : x.tdiv 8 < 0 := by
      rw [← Int.neg_neg x, Int.neg_tdiv, Int.tdiv_eq_ediv_of_nonneg (by omega)]
      omega
    have hne : ((j / 8 : ℕ) : ℤ) ≠ x.tdiv 8 := by omega
    simp only [bitAt, bitmapPutBit, Function.update_of_ne hne]

@[simp] theorem putBit_bitCount (bitmap : Bitmap) (x bit : ℤ) :
    (bitmapPutBit bitmap x bit).bitCount = bitmap.bitCount := rfl

@[simp] theorem setLoop_bitCount (bitmap : Bitmap) (bit : ℤ) (n : ℕ) (x : ℤ) :
    (bitmapSetLoop bit n x bitmap).bitCount = bitmap.bitCount := by
  induction n generalizing x bitmap with
  | zero => rfl
  | succ n ih =>
      rw [bitmapSetLoop]
      split_ifs
      · rw [ih, putBit_bitCount]
      · rfl

@[simp] theorem setBit_bitCount (bitmap : Bitmap) (x count bit : ℤ) :
    (bitmapSetBit bitmap x count bit).bitCount = bitmap.bitCount := setLoop_bitCount ..

theorem allocLoop_bitCount (bitmap : Bitmap) (bit count : ℤ) (n : ℕ) (s : ℤ) :
    (bitmapAllocLoop bitmap bit count n s).2.bitCount = bitmap.bitCount := by
  induction n generalizing s with
  | zero => rfl
  | succ n ih =>
      simp only [bitmapAllocLoop]
      split_ifs
      · exact ih _
      · exact setBit_bitCount ..
      · exact ih _
      · rfl

@[simp] theorem allocNbits_bitCount (bitmap : Bitmap) (bit count : ℤ) :
    (bitmapAllocNbits bitmap bit count).2.bitCount = bitmap.bitCount := allocLoop_bitCount ..

/-- `bitmap_set_bit` on a range that starts in the bitmap. -/
theorem bitAt_setLoop (bitmap : Bitmap) (bit : ℤ) (n k j : ℕ) (hj : (j : ℤ) < bitmap.bitCount) :
    (bitmapSetLoop bit n k bitmap).bitAt j =
      if k ≤ j ∧ j < k + n then decide (bit ≠ 0) else bitmap.bitAt j := by
  induction n generalizing k bitmap with
  | zero =>
      rw [if_neg (by omega)]
      rfl
  | succ n ih =>
      rw [bitmapSetLoop]
      by_cases hk : (k : ℤ) < bitmap.bitCount
      · rw [if_pos hk]
        have hih := ih (bitmapPutBit bitmap k bit) (k + 1) hj
        rw [Nat.cast_succ] at hih
        rw [hih, bitAt_putBit]
        by_cases hjk : j = k
        · simp [hjk]
        · have hiff : (k + 1 ≤ j ∧ j < k + 1 + n) ↔ (k ≤ j ∧ j < k + (n + 1)) := by omega
          simp only [hiff, if_neg hjk]
      · rw [if_neg hk, if_neg (by omega)]

theorem bitAt_setBit_one (bitmap : Bitmap) {k : ℕ} (hk : (k : ℤ) < bitmap.bitCount) (j : ℕ)
    (bit : ℤ) : (bitmapSetBit bitmap k 1 bit).bitAt j =
      if j = k then decide (bit ≠ 0) else bitmap.bitAt j := by
  simp only [bitmapSetBit, Int.toNat_one, bitmapSetLoop, if_pos hk, bitAt_putBit]

theorem setBit_one_out (bitmap : Bitmap) {x : ℤ} (hx : bitmap.bitCount ≤ x) (bit : ℤ) :
    bitmapSetBit bitmap x 1 bit = bitmap := by
  simp only [bitmapSetBit, Int.toNat_one, bitmapSetLoop, if_neg (Int.not_lt.mpr hx)]

theorem bitAt_setBit_neg (bitmap : Bitmap) {x : ℤ} (hx : x < 0) (h0 : 0 ≤ bitmap.bitCount) (j : ℕ)
    (bit : ℤ) : (bitmapSetBit bitmap x 1 bit).bitAt j = bitmap.bitAt j := by
  have hlt : x < bitmap.bitCount := by omega
  simp only [bitmapSetBit, Int.toNat_one, bitmapSetLoop, if_pos hlt, bitAt_putBit_neg _ hx]

theorem setLoop_out (bitmap : Bitmap) {x : ℤ} (hx : bitmap.bitCount ≤ x) (bit : ℤ) (n : ℕ) :
    bitmapSetLoop bit n x bitmap = bitmap := by
  cases n with
  | zero => rfl
  | succ n => rw [bitmapSetLoop, if_neg (Int.not_lt.mpr hx)]

theorem bitAt_setLoop_neg (bitmap : Bitmap) {x : ℤ} {n : ℕ} (hx : x + n ≤ 0) (bit : ℤ) (j : ℕ) :
    (bitmapSetLoop bit n x bitmap).bitAt j = bitmap.bitAt j := by
  induction n generalizing x bitmap with
  | zero => rfl
  | succ n ih =>
      rw [bitmapSetLoop]
      split_ifs
      · rw [ih _ (by push_cast at hx; omega), bitAt_putBit_neg _ (by push_cast at hx; omega)]
      · rfl

theorem bitmapByteCount_eq {count : ℤ} (h : 0 ≤ count) : bitmapByteCount count = (count + 7) / 8 := by
  rw [bitmapByteCount, Int.tdiv_eq_ediv_of_nonneg (by omega)]
  omega

/-- `bitmap_init` gives all bits one value. -/
theorem bitAt_init_eq (bits : ℤ → BitVec 8) {count : ℤ} {k : ℕ} (hk : (k : ℤ) < count)
    (initBit : ℤ) : (bitmapInit bits count initBit).bitAt k = decide (initBit ≠ 0) := by
  have hin : (0 : ℤ) ≤ (k / 8 : ℕ) ∧ ((k / 8 : ℕ) : ℤ) < bitmapByteCount count := by
    rw [bitmapByteCount_eq (by omega)]
    omega
  have hbit : k % 8 < 8 := Nat.mod_lt _ (by omega)
  have hones : ∀ i < 8, (0xFF : BitVec 8).getLsbD i = true := by decide
  simp only [bitAt, bitmapInit, kernelMemset, if_pos hin]
  by_cases hinit : initBit = 0
  · rw [if_neg (not_not.mpr hinit), decide_eq_false (not_not.mpr hinit)]
    exact BitVec.getLsbD_zero
  · rw [if_pos hinit, decide_eq_true hinit]
    exact hones _ hbit

theorem bitAt_init (bits : ℤ → BitVec 8) {count k : ℕ} (hk : k < count) :
    (bitmapInit bits count 0).bitAt k = false := bitAt_init_eq bits (Int.ofNat_lt.mpr hk) 0

/-! ## Searching for one clear bit -/

theorem allocLoop_found (bitmap : Bitmap) {s k n : ℕ} (hsk : s ≤ k) (hn : k < s + n)
    (hk : (k : ℤ) < bitmap.bitCount) (hclear : bitmap.bitAt k = false)
    (hset : ∀ j, s ≤ j → j < k → bitmap.bitAt j = true) :
    bitmapAllocLoop bitmap 0 1 n s = ((k : ℤ), bitmapSetBit bitmap k 1 (-1)) := by
  induction n generalizing s with
  | zero => omega
  | succ n ih =>
      have hs : (s : ℤ) < bitmap.bitCount := by omega
      rw [bitmapAllocLoop, if_pos hs, getBit_eq]
      by_cases he : s = k
      · subst s
        rw [if_neg (by simp [hclear])]
        have hrun : ∀ m, bitmapRunLoop bitmap 0 1 m 1 k k = (1, (k : ℤ), (k : ℤ)) := by
          intro m
          cases m with
          | zero => rfl
          | succ m => rw [bitmapRunLoop, if_neg (by omega)]
        simp [hrun]
      · rw [if_pos (by simp [hset s le_rfl (by omega)])]
        have hnext := ih (s := s + 1) (by omega) (by omega) fun j h1 h2 => hset j (by omega) h2
        rwa [Nat.cast_succ] at hnext

theorem allocLoop_none (bitmap : Bitmap) {s n : ℕ}
    (hset : ∀ j, s ≤ j → (j : ℤ) < bitmap.bitCount → bitmap.bitAt j = true) :
    bitmapAllocLoop bitmap 0 1 n s = (-1, bitmap) := by
  induction n generalizing s with
  | zero => rfl
  | succ n ih =>
      rw [bitmapAllocLoop]
      by_cases hs : (s : ℤ) < bitmap.bitCount
      · rw [if_pos hs, getBit_eq, if_pos (by simp [hset s le_rfl hs])]
        have hnext := ih (s := s + 1) fun j h1 h2 => hset j (by omega) h2
        rwa [Nat.cast_succ] at hnext
      · rw [if_neg hs]

/-- The first clear bit of the bitmap. -/
def FirstClear (bitmap : Bitmap) (k : ℕ) : Prop :=
  (k : ℤ) < bitmap.bitCount ∧ bitmap.bitAt k = false ∧ ∀ j < k, bitmap.bitAt j = true

theorem allocNbits_found {bitmap : Bitmap} {k : ℕ} (h : bitmap.FirstClear k) :
    bitmapAllocNbits bitmap 0 1 = ((k : ℤ), bitmapSetBit bitmap k 1 (-1)) := by
  obtain ⟨hk, hclear, hset⟩ := h
  exact allocLoop_found (s := 0) bitmap (by omega) (by omega) hk hclear fun j _ hj => hset j hj

theorem allocNbits_none {bitmap : Bitmap}
    (h : ∀ k : ℕ, (k : ℤ) < bitmap.bitCount → bitmap.bitAt k = true) :
    bitmapAllocNbits bitmap 0 1 = (-1, bitmap) :=
  allocLoop_none (s := 0) bitmap fun j _ hj => h j hj

theorem exists_firstClear {bitmap : Bitmap} {k : ℕ} (hk : (k : ℤ) < bitmap.bitCount)
    (hclear : bitmap.bitAt k = false) : ∃ j, bitmap.FirstClear j ∧ j ≤ k := by
  have hex : ∃ j, bitmap.bitAt j = false := ⟨k, hclear⟩
  have hle : Nat.find hex ≤ k := Nat.find_min' hex hclear
  refine ⟨Nat.find hex, ⟨by omega, Nat.find_spec hex, fun j hj => ?_⟩, hle⟩
  simpa using Nat.find_min hex hj

theorem FirstClear.unique {bitmap : Bitmap} {k l : ℕ} (hk : bitmap.FirstClear k)
    (hl : bitmap.FirstClear l) : k = l := by
  by_contra hne
  rcases Nat.lt_or_gt_of_ne hne with h | h
  · have := hl.2.2 k h
    simp [hk.2.1] at this
  · have := hk.2.2 l h
    simp [hl.2.1] at this

end Bitmap

end X86Os
