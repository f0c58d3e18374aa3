import X86Os.Console
import X86Os.Word

/-!
# Numbers as text

The model of `kernel_itoa`: the digits are written from the last to the first and then reversed in
place. The text that is left is the canonical representation of the number.
-/

namespace X86Os

namespace Console

/-- `"FEDCBA9876543210123456789ABCDEF"`; the digit zero has index 15. -/
def num2ch : List (BitVec 8) :=
  [0x46, 0x45, 0x44, 0x43, 0x42, 0x41, 0x39, 0x38, 0x37, 0x36, 0x35, 0x34, 0x33, 0x32, 0x31, 0x30,
    0x31, 0x32, 0x33, 0x34, 0x35, 0x36, 0x37, 0x38, 0x39, 0x41, 0x42, 0x43, 0x44, 0x45, 0x46]

def minus : BitVec 8 := 0x2D

/-- The loop over the digits of a negative number; `num` keeps its sign. -/
def itoaSigned (base : ℤ) : ℕ → ℤ → ℕ → Prog Console ℕ
  | 0, _, _ => Prog.halt
  | fuel + 1, num, p => do
    putChar p (num2ch.getD (num.tmod base + 15).toNat 0)
    if num.tdiv base ≠ 0 then itoaSigned base fuel (num.tdiv base) (p + 1) else pure (p + 1)

def itoaUnsigned (base : ℕ) : ℕ → ℕ → ℕ → Prog Console ℕ
  | 0, _, _ => Prog.halt
  | fuel + 1, uNum, p => do
    putChar p (num2ch.getD (uNum % base + 15) 0)
    if uNum / base ≠ 0 then itoaUnsigned base fuel (uNum / base) (p + 1) else pure (p + 1)

/-- The loop that reverses the bytes from `start` to `p`. -/
def itoaReverse : ℕ → ℕ → ℕ → Prog Console Unit
  | 0, _, _ => Prog.halt
  | fuel + 1, start, p =>
    if start < p then do
      let ch ← getChar start
      let last ← getChar p
      putChar start last
      putChar p ch
      itoaReverse fuel (start + 1) (p - 1)
    else pure ()

/-- A number of 32 bits has at most 32 digits, which bounds the rounds of the loops. -/
def kernelItoa (buf : ℕ) (num : ℤ) (base : ℕ) : Prog Console Unit := do
  if base ≠ 2 ∧ base ≠ 8 ∧ base ≠ 10 ∧ base ≠ 16 then putChar buf 0
  else if num < 0 ∧ base = 10 then
    putChar buf minus
    let p ← itoaSigned base 32 num (buf + 1)
    putChar p 0
    itoaReverse 32 (buf + 1) (p - 1)
  else
    let p ← itoaUnsigned base 32 (toU32 num) buf
    putChar p 0
    itoaReverse 32 buf (p - 1)

/-! ## Text of a number -/

/-- `"0123456789ABCDEF"`. -/
def digitChars : List (BitVec 8) :=
  [0x30, 0x31, 0x32, 0x33, 0x34, 0x35, 0x36, 0x37, 0x38, 0x39, 0x41, 0x42, 0x43, 0x44, 0x45, 0x46]

def digitChar (d : ℕ) : BitVec 8 := digitChars.getD d 0

/-- The digits of a number, the lowest first; zero has one digit. -/
def lowDigits (base n : ℕ) : List ℕ := if n = 0 then [0] else Nat.digits base n

def digitsText (base n : ℕ) : List (BitVec 8) := ((lowDigits base n).map digitChar).reverse

def itoaText (num : ℤ) (base : ℕ) : List (BitVec 8) :=
  if num < 0 ∧ base = 10 then minus :: digitsText base num.natAbs else digitsText base (toU32 num)

/-- The text is a sign for a negative decimal number and then digits without a leading zero. -/
def Canonical (num : ℤ) (base : ℕ) (text : List (BitVec 8)) : Prop :=
  ∃ ds, text = (if num < 0 ∧ base = 10 then [minus] else []) ++ ds ∧ ds ≠ [] ∧
    (∀ c ∈ ds, c ∈ digitChars.take base) ∧ (ds.head? = some (digitChar 0) → ds = [digitChar 0])

def digitValue (c : BitVec 8) : ℕ := digitChars.idxOf c

def parseDigits (base : ℕ) (text : List (BitVec 8)) : ℕ :=
  text.foldl (fun v c => v * base + digitValue c) 0

def parseText (base : ℕ) : List (BitVec 8) → ℤ
  | [] => 0
  | c :: text => if c = minus then -parseDigits base text else parseDigits base (c :: text)

/-! ### Digits -/

theorem num2ch_up {d : ℕ} (h : d < 16) : num2ch.getD (d + 15) 0 = digitChar d := by
  interval_cases d <;> rfl

/-- The table is mirrored, for the remainders of negative numbers. -/
theorem num2ch_down {d : ℕ} (h : d < 16) : num2ch.getD (-(d : ℤ) + 15).toNat 0 = digitChar d := by
  interval_cases d <;> rfl

theorem digitValue_digitChar {d : ℕ} (h : d < 16) : digitValue (digitChar d) = d := by
  interval_cases d <;> rfl

theorem digitChar_ne {d : ℕ} (h : d < 16) : digitChar d ≠ 0 ∧ digitChar d ≠ minus := by
  interval_cases d <;> decide

theorem digitChar_eq_zero {d : ℕ} (h : d < 16) (h0 : digitChar d = digitChar 0) : d = 0 := by
  rw [← digitValue_digitChar h, h0]
  rfl

theorem digitChar_mem {d base : ℕ} (h : d < base) (hbase : base ≤ 16) :
    digitChar d ∈ digitChars.take base := by
  have hlen : digitChars.length = 16 := rfl
  have hd : d < (digitChars.take base).length := by
    rw [List.length_take, hlen]
    omega
  have hget : digitChar d = (digitChars.take base)[d] := by
    rw [List.getElem_take, digitChar, List.getD_eq_getElem?_getD, List.getElem?_eq_getElem]
    rfl
  rw [hget]
  exact List.getElem_mem hd

variable {base n : ℕ}

theorem lowDigits_eq (hbase : 1 < base) : lowDigits base n =
    n % base :: if n / base = 0 then [] else lowDigits base (n / base) := by
  by_cases hn : n = 0
  · subst n
    rw [lowDigits, if_pos rfl, Nat.zero_mod, if_pos (Nat.zero_div base)]
  · rw [lowDigits, if_neg hn, Nat.digits_def' hbase (Nat.pos_of_ne_zero hn)]
    split_ifs with hdiv
    · rw [hdiv, Nat.digits_zero]
    · rw [lowDigits, if_neg hdiv]

theorem lowDigits_ne_nil (base n : ℕ) : lowDigits base n ≠ [] := by
  unfold lowDigits
  split_ifs with hn
  · exact List.cons_ne_nil 0 []
  · exact Nat.digits_ne_nil_iff_ne_zero.mpr hn

theorem lowDigits_lt (hbase : 1 < base) {d : ℕ} (hd : d ∈ lowDigits base n) : d < base := by
  unfold lowDigits at hd
  split_ifs at hd with hn
  · obtain rfl := List.mem_singleton.mp hd
    omega
  · exact Nat.digits_lt_base hbase hd

theorem lowDigits_getLast (h : (lowDigits base n).getLast (lowDigits_ne_nil base n) = 0) :
    lowDigits base n = [0] := by
  by_cases hn : n = 0
  · rw [lowDigits, if_pos hn]
  · exfalso
    have hdigits : lowDigits base n = Nat.digits base n := if_neg hn
    simp only [hdigits] at h
    exact Nat.getLast_digit_ne_zero base hn h

theorem ofDigits_lowDigits (base n : ℕ) : Nat.ofDigits base (lowDigits base n) = n := by
  unfold lowDigits
  split_ifs with hn
  · rw [hn]
    exact Nat.ofDigits_singleton
  · exact Nat.ofDigits_digits base n

/-! ### Reading the text back -/

theorem parseDigits_reverse {ds : List ℕ} (h : ∀ d ∈ ds, d < 16) :
    parseDigits base (ds.map digitChar).reverse = Nat.ofDigits base ds := by
  rw [parseDigits, List.foldl_reverse]
  induction ds with
  | nil => rfl
  | cons d ds ih =>
      rw [List.map_cons, List.foldr_cons, ih fun e he => h e (List.mem_cons_of_mem d he),
        digitValue_digitChar (h d List.mem_cons_self), Nat.ofDigits_cons]
      ring

theorem parseDigits_digitsText (h1 : 1 < base) (h2 : base ≤ 16) :
    parseDigits base (digitsText base n) = n := by
  rw [digitsText, parseDigits_reverse fun d hd => (lowDigits_lt h1 hd).trans_le h2,
    ofDigits_lowDigits]

theorem digitsText_ne_nil (base n : ℕ) : digitsText base n ≠ [] := by
  simp [digitsText, lowDigits_ne_nil]

theorem mem_digitsText {c : BitVec 8} (h1 : 1 < base) (hc : c ∈ digitsText base n) :
    ∃ d < base, c = digitChar d := by
  rw [digitsText, List.mem_reverse, List.mem_map] at hc
  obtain ⟨d, hd, rfl⟩ := hc
  exact ⟨d, lowDigits_lt h1 hd, rfl⟩

theorem digitsText_head (h1 : 1 < base) (h2 : base ≤ 16)
    (h : (digitsText base n).head? = some (digitChar 0)) : digitsText base n = [digitChar 0] := by
  rw [digitsText, List.head?_reverse, List.getLast?_map,
    List.getLast?_eq_some_getLast (lowDigits_ne_nil base n), Option.map_some] at h
  have hlast := lowDigits_lt h1 (List.getLast_mem (lowDigits_ne_nil base n))
  have hzero := digitChar_eq_zero (hlast.trans_le h2) (Option.some.inj h)
  rw [digitsText, lowDigits_getLast hzero]
  rfl

theorem parseText_digitsText (h1 : 1 < base) (h2 : base ≤ 16) :
    parseText base (digitsText base n) = n := by
  obtain ⟨c, text, htext⟩ := List.exists_cons_of_ne_nil (digitsText_ne_nil base n)
  obtain ⟨d, hd, rfl⟩ := mem_digitsText (n := n) h1 (htext ▸ List.mem_cons_self)
  rw [htext, parseText, if_neg (digitChar_ne (hd.trans_le h2)).2, ← htext,
    parseDigits_digitsText h1 h2]

/-! ## The loops -/

variable {s : Console} {p start fuel : ℕ}

/-- Its digits are those of the unsigned loop for the absolute value. -/
theorem itoaSigned_neg (h1 : 1 < base) (h2 : base ≤ 16) :
    itoaSigned base fuel (-(n : ℤ)) p = itoaUnsigned base fuel n p := by
  induction fuel generalizing n p with
  | zero => rfl
  | succ fuel ih =>
      have hdigit : n % base < 16 := (Nat.mod_lt n (by omega)).trans_le h2
      have hmod : (-(n : ℤ)).tmod base = -((n % base : ℕ) : ℤ) := by
        rw [Int.neg_tmod, Int.ofNat_tmod]
      have hdiv : (-(n : ℤ)).tdiv base = -((n / base : ℕ) : ℤ) := by
        rw [Int.neg_tdiv, Int.ofNat_tdiv]
      have hne : -((n / base : ℕ) : ℤ) ≠ 0 ↔ n / base ≠ 0 := by omega
      rw [itoaSigned, itoaUnsigned, hmod, hdiv, num2ch_down hdigit, num2ch_up hdigit, ih]
      simp only [hne]

theorem itoaUnsigned_spec (h1 : 1 < base) (h2 : base ≤ 16) (hn : n < base ^ fuel) (hf : 0 < fuel) :
    ∃ s', itoaUnsigned base fuel n p s = some (p + (lowDigits base n).length, s') ∧
      s'.mem.BytesAt p ((lowDigits base n).map digitChar) ∧
      (lowDigits base n).length ≤ fuel ∧ WritesIn p (p + (lowDigits base n).length) s s' := by
  induction fuel generalizing n p s with
  | zero => omega
  | succ fuel ih =>
      have hdigit : n % base < 16 := (Nat.mod_lt n (by omega)).trans_le h2
      rw [itoaUnsigned, num2ch_up hdigit, putChar, Prog.modify_bind, lowDigits_eq h1]
      by_cases hlast : n / base = 0
      · rw [if_neg (not_not.mpr hlast), if_pos hlast]
        refine ⟨s.put p (digitChar (n % base)), rfl, ?_, by simp, writesIn_put le_rfl (by simp)⟩
        rw [List.map_singleton, Mem.bytesAt_cons]
        exact ⟨put_self _ _ _, Mem.bytesAt_nil _ _⟩
      · rw [if_pos hlast, if_neg hlast]
        have hdiv : n / base < base ^ fuel := by
          rw [Nat.div_lt_iff_lt_mul (by omega), ← Nat.pow_succ]
          exact hn
        have hf' : 0 < fuel := by
          rcases Nat.eq_zero_or_pos fuel with rfl | hpos
          · exact absurd (Nat.lt_one_iff.mp hdiv) hlast
          · exact hpos
        obtain ⟨s', hrun, hbytes, hlen, hwrites⟩ :=
          ih (p := p + 1) (s := s.put p (digitChar (n % base))) hdiv hf'
        refine ⟨s', ?_, ?_, by simpa using hlen, ?_⟩
        · rw [hrun, List.length_cons]
          congr 2
          omega
        · rw [List.map_cons, Mem.bytesAt_cons]
          exact ⟨(hwrites.mem p (by omega)).trans (put_self _ _ _), hbytes⟩
        · rw [List.length_cons]
          exact (writesIn_put le_rfl (by omega)).trans (hwrites.mono (by omega) (by omega))

/-- The bytes from `start` to `p` are reversed. -/
theorem itoaReverse_spec (start p fuel : ℕ) (s : Console) (hle : start ≤ p + 1)
    (hfuel : p + 1 < start + 2 * fuel) : ∃ s', itoaReverse fuel start p s = some ((), s') ∧
      (∀ x, s'.mem x = if start ≤ x ∧ x ≤ p then s.mem (start + p - x) else s.mem x) ∧
      WritesIn start (p + 1) s s' := by
  induction fuel generalizing start p s with
  | zero => omega
  | succ fuel ih =>
      rw [itoaReverse]
      by_cases hlt : start < p
      · rw [if_pos hlt, getChar, Prog.gets_bind, getChar, Prog.gets_bind, putChar,
          Prog.modify_bind, putChar, Prog.modify_bind]
        let s₁ := (s.put start (s.mem p)).put p (s.mem start)
        obtain ⟨s', hrun, hmem, hwrites⟩ :=
          ih (start + 1) (p - 1) s₁ (by omega) (by omega)
        refine ⟨s', hrun, fun x => ?_, ?_⟩
        · rw [hmem]
          by_cases hx : x = start
          · subst x
            rw [if_neg (by omega), if_pos ⟨le_rfl, by omega⟩, put_of_ne (by omega), put_self,
              Nat.add_sub_cancel_left]
          · by_cases hxp : x = p
            · subst x
              rw [if_neg (by omega), if_pos ⟨by omega, le_rfl⟩, put_self, Nat.add_sub_cancel]
            · by_cases hin : start ≤ x ∧ x ≤ p
              · rw [if_pos (by omega), if_pos hin, put_of_ne (by omega), put_of_ne (by omega)]
                congr 1
                omega
              · rw [if_neg (by omega), if_neg hin, put_of_ne hxp, put_of_ne hx]
        · have hput : WritesIn start (p + 1) s s₁ :=
            (writesIn_put le_rfl (by omega)).trans (writesIn_put (by omega) (by omega))
          exact hput.trans (hwrites.mono (by omega) (by omega))
      · rw [if_neg hlt]
        refine ⟨s, rfl, fun x => ?_, .refl _ _ _⟩
        by_cases hin : start ≤ x ∧ x ≤ p
        · rw [if_pos hin]
          congr 1
          omega
        · rw [if_neg hin]

theorem length_digitsText (base n : ℕ) :
    (digitsText base n).length = (lowDigits base n).length := by
  simp [digitsText]

/-- The digits, the end of the string and the reversal. -/
theorem digits_spec (h1 : 1 < base) (h2 : base ≤ 16) (hn : n < 2 ^ 32) (start : ℕ) (s : Console) :
    ∃ s', (do
        let p ← itoaUnsigned base 32 n start
        putChar p 0
        itoaReverse 32 start (p - 1) : Prog Console Unit) s = some ((), s') ∧
      s'.mem.TextAt start (digitsText base n) ∧
      WritesIn start (start + (digitsText base n).length + 1) s s' := by
  have hpow : n < base ^ 32 := hn.trans_le (Nat.pow_le_pow_left h1 32)
  obtain ⟨s₁, hrun, hbytes, hlen, hwrites⟩ := itoaUnsigned_spec (p := start) (s := s) h1 h2 hpow
    (by norm_num)
  rw [length_digitsText]
  have hpos : 0 < (lowDigits base n).length := List.length_pos_of_ne_nil (lowDigits_ne_nil base n)
  generalize hL : (lowDigits base n).length = L at *
  obtain ⟨s', hrev, hmem, hwrites'⟩ := itoaReverse_spec start (start + L - 1) 32
    (s₁.put (start + L) 0) (by omega) (by omega)
  refine ⟨s', ?_, ⟨fun i hi => ?_, ?_, ?_⟩, ?_⟩
  · rw [Prog.bind_of_eq hrun, putChar, Prog.modify_bind, hrev]
  · have hiL : i < L := by rwa [length_digitsText, hL] at hi
    have hget := hbytes (L - 1 - i) (by rw [List.length_map, hL]; omega)
    rw [hmem, if_pos (by omega), put_of_ne (by omega)]
    simp only [digitsText, List.getElem_reverse, List.length_map, hL]
    rw [← hget]
    congr 1
    omega
  · rw [length_digitsText, hL, hmem, if_neg (by omega), put_self]
  · intro c hc
    obtain ⟨d, hd, rfl⟩ := mem_digitsText h1 hc
    exact (digitChar_ne (hd.trans_le h2)).1
  · have hput : WritesIn start (start + L + 1) s₁ (s₁.put (start + L) 0) :=
      writesIn_put (by omega) (by omega)
    exact ((hwrites.mono le_rfl (by omega)).trans hput).trans (hwrites'.mono le_rfl (by omega))

/-! ## `kernel_itoa` -/

/-- The text of the number is written with its end, and nothing after that. -/
theorem kernelItoa_spec {num : ℤ} (hnum : -2 ^ 31 ≤ num) (hbase : base = 2 ∨ base = 8 ∨ base = 10 ∨
    base = 16) (buf : ℕ) (s : Console) :
    ∃ s', kernelItoa buf num base s = some ((), s') ∧ s'.mem.TextAt buf (itoaText num base) ∧
      WritesIn buf (buf + (itoaText num base).length + 1) s s' := by
  have h1 : 1 < base := by omega
  have h2 : base ≤ 16 := by omega
  have hknown : ¬ (base ≠ 2 ∧ base ≠ 8 ∧ base ≠ 10 ∧ base ≠ 16) := by omega
  rw [kernelItoa, if_neg hknown, itoaText]
  by_cases hsign : num < 0 ∧ base = 10
  · have hneg : num = -(num.natAbs : ℤ) := by omega
    rw [if_pos hsign, if_pos hsign, putChar, Prog.modify_bind]
    have hloop : itoaSigned base 32 num (buf + 1) = itoaUnsigned base 32 num.natAbs (buf + 1) := by
      conv_lhs => rw [hneg]
      exact itoaSigned_neg h1 h2
    obtain ⟨s', hrun, htext, hwrites⟩ :=
      digits_spec (n := num.natAbs) h1 h2 (by omega) (buf + 1) (s.put buf minus)
    have hsigned : s'.mem buf = minus := (hwrites.mem buf (by omega)).trans (put_self _ _ _)
    refine ⟨s', ?_, ⟨Mem.bytesAt_cons.mpr ⟨hsigned, htext.bytes⟩, ?_, ?_⟩, ?_⟩
    · rw [hloop]
      exact hrun
    · rw [List.length_cons, Nat.add_comm _ 1, ← Nat.add_assoc]
      exact htext.stop
    · intro c hc
      rcases List.mem_cons.mp hc with rfl | hc
      · decide
      · exact htext.nonzero c hc
    · rw [List.length_cons]
      exact (writesIn_put le_rfl (by omega)).trans (hwrites.mono (by omega) (by omega))
  · rw [if_neg hsign, if_neg hsign]
    have hlt : toU32 num < 2 ^ 32 := by
      unfold toU32
      omega
    exact digits_spec h1 h2 hlt buf s

theorem itoaText_canonical (num : ℤ) (h1 : 1 < base) (h2 : base ≤ 16) :
    Canonical num base (itoaText num base) := by
  have hds : ∀ n, (∀ c ∈ digitsText base n, c ∈ digitChars.take base) := by
    intro n c hc
    obtain ⟨d, hd, rfl⟩ := mem_digitsText h1 hc
    exact digitChar_mem hd h2
  unfold Canonical itoaText
  split_ifs
  · exact ⟨digitsText base num.natAbs, rfl, digitsText_ne_nil _ _, hds _, digitsText_head h1 h2⟩
  · exact ⟨digitsText base (toU32 num), rfl, digitsText_ne_nil _ _, hds _, digitsText_head h1 h2⟩

theorem parseText_itoaText {num : ℤ} (hlo : -2 ^ 31 ≤ num) (hhi : num < 2 ^ 31) (h1 : 1 < base)
    (h2 : base ≤ 16) :
    parseText base (itoaText num base) = if base = 10 then num else (toU32 num : ℤ) := by
  unfold itoaText
  by_cases hsign : num < 0 ∧ base = 10
  · rw [if_pos hsign, if_pos hsign.2, parseText, if_pos rfl, parseDigits_digitsText h1 h2]
    omega
  · rw [if_neg hsign, parseText_digitsText h1 h2]
    split_ifs with h10
    · unfold toU32
      omega
    · rfl

/-- The buffer holds the canonical text of the number, from which the number can be read back. -/
theorem kernelItoa_roundTrip (num : ℤ) (hlo : -2 ^ 31 ≤ num) (hhi : num < 2 ^ 31)
    (hbase : base = 2 ∨ base = 8 ∨ base = 10 ∨ base = 16) (buf : ℕ) (s : Console) :
    (∃ s', kernelItoa buf num base s = some ((), s') ∧ s'.mem.TextAt buf (itoaText num base) ∧
      WritesIn buf (buf + (itoaText num base).length + 1) s s') ∧
    Canonical num base (itoaText num base) ∧
    parseText base (itoaText num base) = (if base = 10 then num else (toU32 num : ℤ)) ∧
    ∀ num', -2 ^ 31 ≤ num' → num' < 2 ^ 31 → itoaText num' base = itoaText num base →
      num' = num := by
  have h1 : 1 < base := by omega
  have h2 : base ≤ 16 := by omega
  have hparse := parseText_itoaText hlo hhi h1 h2
  refine ⟨kernelItoa_spec hlo hbase buf s, itoaText_canonical num h1 h2, hparse,
    fun num' hlo' hhi' htext => ?_⟩
  have hsame := parseText_itoaText hlo' hhi' h1 h2
  rw [htext, hparse] at hsame
  unfold toU32 at hsame
  split_ifs at hsame with h10
  · exact hsame.symm
  · omega

theorem kernelItoa_roundTrip_intMin :
    (∃ s', kernelItoa 0x1000 (-2 ^ 31) 10 blank = some ((), s') ∧
      s'.mem.TextAt 0x1000 (itoaText (-2 ^ 31) 10) ∧
      WritesIn 0x1000 (0x1000 + (itoaText (-2 ^ 31) 10).length + 1) blank s') ∧
    parseText 10 (itoaText (-2 ^ 31) 10) = -2 ^ 31 :=
  have h := kernelItoa_roundTrip (-2 ^ 31) (by norm_num) (by norm_num) (.inr (.inr (.inl rfl)))
    0x1000 blank
  ⟨h.1, h.2.2.1⟩

end Console

end X86Os
