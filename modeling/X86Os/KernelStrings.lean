import X86Os.Console

/-!
# Strings of bounded length

The model of `kernel_strncpy` and `kernel_strncmp` of `tools/klib.c`. Both loops count `size` down, and
what stands behind a loop does not know which part of its condition has failed. So `kernel_strncpy` puts
the end of the string one byte too early when the string fills the buffer, and one byte behind the buffer
when it is longer; and `kernel_strncmp` compares one character more than `size`.
-/

namespace X86Os

namespace Console

/-- The loop of `kernel_strncpy`: the values of `size` and `d` behind it. -/
def strncpyLoop : ℕ → ℕ → ℕ → Prog Console (ℤ × ℕ)
  | 0, d, _ => pure (-1, d)
  | size + 1, d, s => do
    let ch ← getChar s
    if ch ≠ 0 then do
      putChar d ch
      strncpyLoop size (d + 1) (s + 1)
    else pure (size, d)

/-- A negative size leaves the loop at once, and is not zero behind it. -/
def kernelStrncpy (dest src : ℕ) (size : ℤ) : Prog Console Unit :=
  if dest = 0 ∨ src = 0 ∨ size = 0 then pure ()
  else do
    let r ← strncpyLoop size.toNat dest src
    if r.1 = 0 then putChar (r.2 - 1) 0 else putChar r.2 0

/-- The loop of `kernel_strncmp`: the two pointers behind it. -/
def strncmpLoop : ℕ → ℕ → ℕ → ℤ → Prog Console (ℕ × ℕ)
  | 0, _, _, _ => Prog.halt
  | fuel + 1, s1, s2, size => do
    let c1 ← getChar s1
    let c2 ← getChar s2
    if c1 ≠ 0 ∧ c2 ≠ 0 ∧ c1 = c2 ∧ size ≠ 0 then strncmpLoop fuel (s1 + 1) (s2 + 1) (size - 1)
    else pure (s1, s2)

def kernelStrncmp (s1 s2 : ℕ) (size : ℤ) : Prog Console ℤ :=
  if s1 = 0 ∨ s2 = 0 then pure (-1)
  else do
    let r ← strncmpLoop (2 ^ 32) s1 s2 size
    let c1 ← getChar r.1
    let c2 ← getChar r.2
    pure (if c1 = 0 ∨ c2 = 0 ∨ c1 = c2 then 0 else 1)

variable {s s' : Console} {dest src size d a b : ℕ} {text text1 text2 : List (BitVec 8)}

/-! ## `kernel_strncpy` -/

/-- The string `text` lies at `src`, and the buffer does not overlap it. -/
structure CopyInput (s : Console) (dest src size : ℕ) (text : List (BitVec 8)) : Prop where
  dest_ne : dest ≠ 0
  src_ne : src ≠ 0
  size_pos : 0 < size
  string : s.mem.TextAt src text
  apart : ∀ i < size, ∀ j ≤ text.length, dest + i ≠ src + j

/-- Only bytes of the buffer were written, and it holds as much of the string as fits with its end. -/
def Copied (dest size : ℕ) (text : List (BitVec 8)) (s s' : Console) : Prop :=
  WritesIn dest (dest + size) s s' ∧ s'.mem.TextAt dest (text.take (size - 1))

/-- Behind the loop `size` is zero only if the string with its end fills the buffer. -/
theorem strncpyLoop_total (h : s.mem.TextAt src text)
    (hapart : ∀ i < size, ∀ j ≤ text.length, d + i ≠ src + j) :
    ∃ left s', strncpyLoop size d src s = some ((left, d + min text.length size), s') ∧
      (left = 0 ↔ text.length + 1 = size) ∧ WritesIn d (d + min text.length size) s s' ∧
      s'.mem.BytesAt d (text.take size) := by
  induction size generalizing d src text s with
  | zero =>
      refine ⟨-1, s, ?_, by simp, .refl _ _ s, Mem.bytesAt_nil _ _⟩
      rw [Nat.min_zero]
      rfl
  | succ size ih =>
      cases text with
      | nil =>
          have hstop : s.mem src = 0 := h.stop
          refine ⟨size, s, ?_, ?_, .refl _ _ s, Mem.bytesAt_nil _ _⟩
          · rw [strncpyLoop, getChar, Prog.gets_bind, if_neg (not_not.mpr hstop)]
            rfl
          · rw [List.length_nil]
            omega
      | cons c text =>
          have hc : s.mem src = c := (Mem.bytesAt_cons.mp h.bytes).1
          have hne : c ≠ 0 := h.nonzero c List.mem_cons_self
          have hput : putChar d c s = some ((), s.put d c) := rfl
          rw [List.length_cons] at hapart
          have hnext : (s.put d c).mem.TextAt (src + 1) text := by
            refine h.tail.congr fun x hx hx' => put_of_ne fun heq => ?_
            have := hapart 0 (Nat.succ_pos _) (x - src) (by omega)
            omega
          have hapart' : ∀ i < size, ∀ j ≤ text.length, d + 1 + i ≠ src + 1 + j := by
            intro i hi j hj
            have := hapart (i + 1) (by omega) (j + 1) (by omega)
            omega
          obtain ⟨left, s', hs', hleft, hin, hbytes⟩ := ih hnext hapart'
          have hmin : min (c :: text).length (size + 1) = min text.length size + 1 := by
            rw [List.length_cons]
            omega
          have hend : d + (min text.length size + 1) = d + 1 + min text.length size := by omega
          refine ⟨left, s', ?_, ?_, ?_, ?_⟩
          · rw [strncpyLoop, getChar, Prog.gets_bind, hc, if_pos hne, Prog.bind_of_eq hput, hs',
              hmin, hend]
          · rw [hleft, List.length_cons]
            omega
          · rw [hmin, hend]
            exact (writesIn_put le_rfl (by omega)).trans (hin.mono (by omega) le_rfl)
          · rw [List.take_succ_cons, Mem.bytesAt_cons]
            exact ⟨(hin.mem d (.inl (by omega))).trans (put_self s d c), hbytes⟩

/-- Where the end of the string is put. -/
def strncpyStop (dest len size : ℕ) : ℕ :=
  if len + 1 = size then dest + len - 1 else dest + min len size

theorem kernelStrncpy_total (h : CopyInput s dest src size text) :
    ∃ s₁, kernelStrncpy dest src size s = some ((), s₁.put (strncpyStop dest text.length size) 0) ∧
      WritesIn dest (dest + min text.length size) s s₁ ∧ s₁.mem.BytesAt dest (text.take size) := by
  have hpos := h.size_pos
  obtain ⟨left, s₁, hloop, hleft, hin, hbytes⟩ := strncpyLoop_total h.string h.apart
  refine ⟨s₁, ?_, hin, hbytes⟩
  have hargs : ¬ (dest = 0 ∨ src = 0 ∨ (size : ℤ) = 0) := by
    have := h.dest_ne
    have := h.src_ne
    omega
  rw [kernelStrncpy, if_neg hargs, Int.toNat_natCast, Prog.bind_of_eq hloop, strncpyStop]
  by_cases hfull : text.length + 1 = size
  · have hmin : min text.length size = text.length := by omega
    rw [if_pos (hleft.mpr hfull), if_pos hfull, hmin]
    rfl
  · rw [if_neg (mt hleft.mp hfull), if_neg hfull]
    rfl

/-- The last write of a run is one of the new ones. -/
theorem WritesIn.last {s₁ : Console} {lo hi lo' hi' p : ℕ} {ch : BitVec 8}
    (h : WritesIn lo hi s (s₁.put p ch)) (h₁ : WritesIn lo' hi' s s₁) : lo ≤ p ∧ p < hi := by
  obtain ⟨w, hw, hin⟩ := h.written
  obtain ⟨w₁, hw₁, -⟩ := h₁.written
  have hall : s.written ++ (w₁ ++ [p]) = s.written ++ w := by
    rw [← hw, ← List.append_assoc, ← hw₁]
    rfl
  exact hin p (List.append_cancel_left hall ▸ List.mem_append_right _ (List.mem_singleton_self p))

/-- The copy is right exactly if the string with its end is shorter than the buffer. -/
theorem copied_iff (h : CopyInput s dest src size text) :
    ∃ s', kernelStrncpy dest src size s = some ((), s') ∧
      (Copied dest size text s s' ↔ text.length + 1 < size) := by
  have hpos := h.size_pos
  have hdest := h.dest_ne
  obtain ⟨s₁, hrun, hin, hbytes⟩ := kernelStrncpy_total h
  refine ⟨_, hrun, ?_, fun hlt => ?_⟩
  · rintro ⟨hwrites, htext⟩
    have hstop := hwrites.last hin
    by_contra hge
    unfold strncpyStop at hstop htext
    by_cases hfull : text.length + 1 = size
    · rw [if_pos hfull] at hstop htext
      have hlast : text.length - 1 < text.length := by omega
      have htake : text.take (size - 1) = text := List.take_of_length_le (by omega)
      rw [htake] at htext
      have hchar := htext.bytes (text.length - 1) hlast
      rw [← Nat.add_sub_assoc (by omega), put_self] at hchar
      exact htext.nonzero _ (List.getElem_mem hlast) hchar.symm
    · rw [if_neg hfull] at hstop
      omega
  · have hstop : strncpyStop dest text.length size = dest + text.length := by
      rw [strncpyStop, if_neg (by omega), Nat.min_eq_left (by omega)]
    have htake : text.take (size - 1) = text := List.take_of_length_le (by omega)
    rw [List.take_of_length_le (by omega)] at hbytes
    rw [hstop, Copied, htake]
    refine ⟨(hin.mono le_rfl (by omega)).trans (writesIn_put (by omega) (by omega)),
      hbytes.congr fun x hx hx' => put_of_ne (by omega), put_self _ _ _, h.string.nonzero⟩

/-! ## `kernel_strncmp` -/

/-- The result for two strings. -/
def compareTexts : List (BitVec 8) → List (BitVec 8) → ℕ → ℤ
  | c1 :: text1, c2 :: text2, size =>
    if c1 ≠ c2 then 1 else if size = 0 then 0 else compareTexts text1 text2 (size - 1)
  | _, _, _ => 0

/-- The characters that both strings have below `size` are the same. -/
def AgreeBelow (size : ℕ) (text1 text2 : List (BitVec 8)) : Prop :=
  ∀ i < size, ∀ (h1 : i < text1.length) (h2 : i < text2.length), text1[i] = text2[i]

/-- A string ends below `size`, or there is a difference below it. -/
def StopsBelow (size : ℕ) (text1 text2 : List (BitVec 8)) : Prop :=
  text1.length < size ∨ text2.length < size ∨ ¬ AgreeBelow size text1 text2

/-- Wherever the strings lie, and however they go on from `size`, the result is `r`. -/
def Unaffected (size : ℕ) (text1 text2 : List (BitVec 8)) (r : ℤ) : Prop :=
  ∀ (s : Console) (a b : ℕ) (t1 t2 : List (BitVec 8)), a ≠ 0 → b ≠ 0 →
    s.mem.TextAt a t1 → s.mem.TextAt b t2 → t1.take size = text1.take size →
    t2.take size = text2.take size → kernelStrncmp a b size s = some (r, s)

theorem strncmpLoop_total {fuel : ℕ} (h1 : s.mem.TextAt a text1) (h2 : s.mem.TextAt b text2)
    (hfuel : size < fuel) : ∃ r, strncmpLoop fuel a b size s = some (r, s) ∧
      (if s.mem r.1 = 0 ∨ s.mem r.2 = 0 ∨ s.mem r.1 = s.mem r.2 then 0 else 1) =
        compareTexts text1 text2 size := by
  induction text1 generalizing text2 a b size fuel with
  | nil =>
      obtain ⟨fuel, rfl⟩ : ∃ n, fuel = n + 1 := ⟨fuel - 1, by omega⟩
      have hstop : s.mem a = 0 := h1.stop
      refine ⟨(a, b), ?_, ?_⟩
      · rw [strncmpLoop, getChar, Prog.gets_bind, getChar, Prog.gets_bind,
          if_neg (fun h => h.1 hstop)]
        rfl
      · rw [if_pos (.inl hstop), compareTexts]
        intro _ _ _ _ h
        cases h
  | cons c1 text1 ih =>
      obtain ⟨fuel, rfl⟩ : ∃ n, fuel = n + 1 := ⟨fuel - 1, by omega⟩
      have hc1 : s.mem a = c1 := (Mem.bytesAt_cons.mp h1.bytes).1
      have hne1 : c1 ≠ 0 := h1.nonzero c1 List.mem_cons_self
      cases text2 with
      | nil =>
          have hstop : s.mem b = 0 := h2.stop
          refine ⟨(a, b), ?_, ?_⟩
          · rw [strncmpLoop, getChar, Prog.gets_bind, getChar, Prog.gets_bind,
              if_neg (fun h => h.2.1 hstop)]
            rfl
          · rw [if_pos (.inr (.inl hstop)), compareTexts]
            intro _ _ _ _ _ h
            cases h
      | cons c2 text2 =>
          have hc2 : s.mem b = c2 := (Mem.bytesAt_cons.mp h2.bytes).1
          have hne2 : c2 ≠ 0 := h2.nonzero c2 List.mem_cons_self
          rw [strncmpLoop, getChar, Prog.gets_bind, getChar, Prog.gets_bind, hc1, hc2, compareTexts]
          by_cases heq : c1 = c2
          · by_cases hz : size = 0
            · subst hz
              refine ⟨(a, b), ?_, ?_⟩
              · rw [if_neg (fun h => h.2.2.2 rfl)]
                rfl
              · rw [if_pos (.inr (.inr (by rw [hc1, hc2, heq]))), if_neg (not_not.mpr heq), if_pos rfl]
            · obtain ⟨r, hr, hvalue⟩ := ih h1.tail h2.tail (show size - 1 < fuel by omega)
              refine ⟨r, ?_, ?_⟩
              · rw [if_pos ⟨hne1, hne2, heq, by omega⟩, ← hr]
                congr 1
                omega
              · rw [hvalue, if_neg (not_not.mpr heq), if_neg hz]
          · refine ⟨(a, b), ?_, ?_⟩
            · rw [if_neg (fun h => heq h.2.2.1)]
              rfl
            · rw [if_neg, if_pos heq]
              rintro (h | h | h)
              · exact hne1 (hc1.symm.trans h)
              · exact hne2 (hc2.symm.trans h)
              · exact heq (hc1.symm.trans (h.trans hc2))

theorem kernelStrncmp_eq (ha : a ≠ 0) (hb : b ≠ 0) (h1 : s.mem.TextAt a text1)
    (h2 : s.mem.TextAt b text2) (hsize : size < 2 ^ 31) :
    kernelStrncmp a b size s = some (compareTexts text1 text2 size, s) := by
  obtain ⟨r, hloop, hvalue⟩ := strncmpLoop_total h1 h2 (show size < 2 ^ 32 by omega)
  rw [kernelStrncmp, if_neg (not_or.mpr ⟨ha, hb⟩), Prog.bind_of_eq hloop, getChar, Prog.gets_bind,
    getChar, Prog.gets_bind, hvalue]
  rfl

theorem agreeBelow_nil_left : AgreeBelow size [] text2 := fun _ _ h => nomatch h

theorem agreeBelow_nil_right : AgreeBelow size text1 [] := fun _ _ _ h => nomatch h

theorem agreeBelow_cons {c1 c2 : BitVec 8} : AgreeBelow (size + 1) (c1 :: text1) (c2 :: text2) ↔
    c1 = c2 ∧ AgreeBelow size text1 text2 := by
  constructor
  · intro h
    exact ⟨h 0 (Nat.succ_pos _) (Nat.succ_pos _) (Nat.succ_pos _), fun i hi h1 h2 =>
      h (i + 1) (Nat.succ_lt_succ hi) (Nat.succ_lt_succ h1) (Nat.succ_lt_succ h2)⟩
  · rintro ⟨h0, h⟩ i hi h1 h2
    cases i with
    | zero => exact h0
    | succ i =>
        exact h i (Nat.lt_of_succ_lt_succ hi) (Nat.lt_of_succ_lt_succ h1) (Nat.lt_of_succ_lt_succ h2)

/-- One character more than `size` is compared. -/
theorem compareTexts_eq_zero :
    compareTexts text1 text2 size = 0 ↔ AgreeBelow (size + 1) text1 text2 := by
  fun_induction compareTexts text1 text2 size with
  | case1 c1 text1 c2 text2 size hne =>
      rw [agreeBelow_cons]
      exact ⟨fun h => absurd h one_ne_zero, fun h => absurd h.1 hne⟩
  | case2 c1 text1 c2 text2 heq =>
      rw [agreeBelow_cons]
      exact ⟨fun _ => ⟨not_not.mp heq, fun i hi => absurd hi (Nat.not_lt_zero i)⟩, fun _ => rfl⟩
  | case3 c1 text1 c2 text2 size heq hpos ih =>
      rw [ih, agreeBelow_cons, Nat.sub_add_cancel (Nat.one_le_iff_ne_zero.mpr hpos)]
      exact ⟨fun h => ⟨not_not.mp heq, h⟩, And.right⟩
  | case4 text1 text2 size hnil =>
      refine ⟨fun _ => ?_, fun _ => rfl⟩
      cases text1 with
      | nil => exact agreeBelow_nil_left
      | cons c1 text1 =>
          cases text2 with
          | nil => exact agreeBelow_nil_right
          | cons c2 text2 => exact (hnil _ _ _ _ rfl rfl).elim

theorem compareTexts_eq (text1 text2 : List (BitVec 8)) (size : ℕ) :
    compareTexts text1 text2 size = 0 ∨ compareTexts text1 text2 size = 1 := by
  fun_induction compareTexts text1 text2 size with
  | case1 => exact .inr rfl
  | case2 => exact .inl rfl
  | case3 c1 text1 c2 text2 size heq hpos ih => exact ih
  | case4 => exact .inl rfl

/-- The character at `size` counts only if the comparison reaches it. -/
theorem StopsBelow.agree (h : StopsBelow size text1 text2) :
    AgreeBelow (size + 1) text1 text2 ↔ AgreeBelow size text1 text2 := by
  refine ⟨fun hall i hi h1 h2 => hall i (by omega) h1 h2, fun hall i hi h1 h2 => ?_⟩
  rcases h with hend | hend | hdiff
  · exact hall i (by omega) h1 h2
  · exact hall i (by omega) h1 h2
  · exact absurd hall hdiff

theorem agreeBelow_take :
    AgreeBelow size (text1.take size) (text2.take size) ↔ AgreeBelow size text1 text2 := by
  constructor
  · intro h i hi h1 h2
    have := h i hi (by rw [List.length_take]; omega) (by rw [List.length_take]; omega)
    rwa [List.getElem_take, List.getElem_take] at this
  · intro h i hi h1 h2
    rw [List.length_take] at h1 h2
    rw [List.getElem_take, List.getElem_take]
    exact h i hi (by omega) (by omega)

theorem stopsBelow_take :
    StopsBelow size (text1.take size) (text2.take size) ↔ StopsBelow size text1 text2 := by
  rw [StopsBelow, StopsBelow, agreeBelow_take, List.length_take, List.length_take]
  have hmin : ∀ n, min size n < size ↔ n < size := fun n => by omega
  rw [hmin, hmin]

/-! ### Two strings in memory -/

def bytesMem (l : List (BitVec 8)) : Mem := fun x => l.getD x 0

theorem textAt_bytesMem (front back : List (BitVec 8)) (h : ∀ c ∈ text, c ≠ 0) :
    (bytesMem (front ++ text ++ 0 :: back)).TextAt front.length text := by
  refine ⟨fun i hi => ?_, ?_, h⟩
  · have hlt : front.length + i < (front ++ text).length := by
      rw [List.length_append]
      omega
    rw [bytesMem, List.getD_eq_getElem?_getD, List.getElem?_append_left hlt,
      List.getElem?_append_right (by omega), Nat.add_sub_cancel_left, List.getElem?_eq_getElem hi]
    rfl
  · rw [bytesMem, ← List.length_append, List.getD_eq_getElem?_getD, List.getElem?_append_right le_rfl,
      Nat.sub_self]
    rfl

def twoTexts (text1 text2 : List (BitVec 8)) : Console :=
  { blank with mem := bytesMem (0 :: (text1 ++ 0 :: (text2 ++ [0]))) }

theorem twoTexts_left (h : ∀ c ∈ text1, c ≠ 0) : (twoTexts text1 text2).mem.TextAt 1 text1 :=
  textAt_bytesMem [0] (text2 ++ [0]) h

theorem twoTexts_right (h : ∀ c ∈ text2, c ≠ 0) :
    (twoTexts text1 text2).mem.TextAt (text1.length + 2) text2 := by
  have htext := textAt_bytesMem (0 :: (text1 ++ [0])) [] h
  rw [List.length_cons, List.length_append, List.length_singleton] at htext
  have hbytes : 0 :: (text1 ++ [0]) ++ text2 ++ [0] = 0 :: (text1 ++ 0 :: (text2 ++ [0])) := by simp
  rwa [hbytes] at htext

/-- If the comparison goes as far as `size`, the characters there decide. -/
theorem stopsBelow_of_unaffected {r : ℤ} (hne : ∀ c ∈ text1, c ≠ 0) (hsize : size < 2 ^ 31)
    (h : Unaffected size text1 text2 r) : StopsBelow size text1 text2 := by
  by_contra hstop
  obtain ⟨hlen1, hrest⟩ := not_or.mp hstop
  obtain ⟨hlen2, hagree⟩ := not_or.mp hrest
  have htake : text2.take size = text1.take size := by
    refine List.ext_getElem (by rw [List.length_take, List.length_take]; omega) fun i h2 h1 => ?_
    rw [List.length_take] at h1 h2
    rw [List.getElem_take, List.getElem_take]
    exact (not_not.mp hagree i (by omega) (by omega) (by omega)).symm
  generalize hp : text1.take size = p at htake
  have hlen : p.length = size := by
    rw [← hp, List.length_take]
    omega
  have hpne : ∀ c ∈ p, c ≠ 0 := fun c hc => hne c (List.mem_of_mem_take (hp ▸ hc))
  have hlast : ∀ x : BitVec 8, x ≠ 0 → ∀ c ∈ p ++ [x], c ≠ 0 := by
    intro x hx c hc
    rcases List.mem_append.mp hc with hc | hc
    · exact hpne c hc
    · rwa [List.mem_singleton.mp hc]
  have hcut : ∀ x : BitVec 8, (p ++ [x]).take size = p := fun x => List.take_left' hlen
  -- the same strings, and strings that differ at `size`
  have hsame := h (twoTexts p p) 1 1 p p (by decide) (by decide) (twoTexts_left hpne)
    (twoTexts_left hpne) (by rw [hp, List.take_of_length_le hlen.le])
    (by rw [htake, List.take_of_length_le hlen.le])
  have hdiff := h (twoTexts (p ++ [1]) (p ++ [2])) 1 ((p ++ [1]).length + 2) (p ++ [1]) (p ++ [2])
    (by decide) (by omega) (twoTexts_left (hlast 1 (by decide))) (twoTexts_right (hlast 2 (by decide)))
    (by rw [hcut, hp]) (by rw [hcut, htake])
  rw [kernelStrncmp_eq (by decide) (by decide) (twoTexts_left hpne) (twoTexts_left hpne) hsize] at hsame
  rw [kernelStrncmp_eq (by decide) (by omega) (twoTexts_left (hlast 1 (by decide)))
    (twoTexts_right (hlast 2 (by decide))) hsize] at hdiff
  have hequal : compareTexts p p size = compareTexts (p ++ [1]) (p ++ [2]) size :=
    (Prod.mk.inj (Option.some.inj hsame)).1.trans (Prod.mk.inj (Option.some.inj hdiff)).1.symm
  have hzero : compareTexts p p size = 0 := compareTexts_eq_zero.mpr fun i _ _ _ => rfl
  rw [hzero] at hequal
  have hchar := compareTexts_eq_zero.mp hequal.symm size (Nat.lt_succ_self _) (by simp [hlen])
    (by simp [hlen])
  rw [List.getElem_concat_length hlen.symm, List.getElem_concat_length hlen.symm] at hchar
  exact absurd hchar (by decide)

/-- The comparison is right, and looks at nothing from `size` on, exactly if it ends below `size`. -/
theorem kernelStrncmp_bounded_iff (ha : a ≠ 0) (hb : b ≠ 0) (h1 : s.mem.TextAt a text1)
    (h2 : s.mem.TextAt b text2) (hsize : size < 2 ^ 31) :
    ∃ r, kernelStrncmp a b size s = some (r, s) ∧
      ((r = 0 ↔ AgreeBelow size text1 text2) ∧ Unaffected size text1 text2 r ↔
        StopsBelow size text1 text2) := by
  refine ⟨_, kernelStrncmp_eq ha hb h1 h2 hsize, ?_, fun hstop => ⟨?_, ?_⟩⟩
  · exact fun h => stopsBelow_of_unaffected h1.nonzero hsize h.2
  · exact compareTexts_eq_zero.trans hstop.agree
  · intro t a' b' t1 t2 ha' hb' h1' h2' htake1 htake2
    have hstop' : StopsBelow size t1 t2 := by
      rwa [← stopsBelow_take, htake1, htake2, stopsBelow_take]
    have hagree : AgreeBelow size t1 t2 ↔ AgreeBelow size text1 text2 := by
      rw [← agreeBelow_take, htake1, htake2, agreeBelow_take]
    have hzero : compareTexts t1 t2 size = 0 ↔ compareTexts text1 text2 size = 0 :=
      (compareTexts_eq_zero.trans hstop'.agree).trans
        (hagree.trans (compareTexts_eq_zero.trans hstop.agree).symm)
    have hequal : compareTexts t1 t2 size = compareTexts text1 text2 size := by
      rcases compareTexts_eq text1 text2 size with h | h
      · rw [h, hzero.mpr h]
      · rcases compareTexts_eq t1 t2 size with h' | h'
        · exact h'.trans (hzero.mp h').symm
        · exact h'.trans h.symm
    rw [kernelStrncmp_eq ha' hb' h1' h2' hsize, hequal]

/-- The strings `"ab"` and `"ac"`, at the addresses 1 and 4. -/
def abAc : Console := twoTexts [0x61, 0x62] [0x61, 0x63]

theorem abAc_left : abAc.mem.TextAt 1 [0x61, 0x62] := twoTexts_left (by decide)

theorem abAc_right : abAc.mem.TextAt 4 [0x61, 0x63] := twoTexts_right (by decide)

/-- They differ below two. -/
theorem kernelStrncmp_bounded_iff_abAc : ∃ r, kernelStrncmp 1 4 (2 : ℕ) abAc = some (r, abAc) ∧
    (r = 0 ↔ AgreeBelow 2 [0x61, 0x62] [0x61, 0x63]) ∧
    Unaffected 2 [0x61, 0x62] [0x61, 0x63] r := by
  obtain ⟨r, hr, hiff⟩ :=
    kernelStrncmp_bounded_iff (by decide) (by decide) abAc_left abAc_right (show 2 < 2 ^ 31 by decide)
  refine ⟨r, hr, hiff.mpr (.inr (.inr fun h => ?_))⟩
  exact absurd (h 1 (by decide) (by decide) (by decide)) (by decide)

/-- Their first characters are the same, but with the size one they are found to differ. -/
theorem kernelStrncmp_reads_past : AgreeBelow 1 [0x61, 0x62] [0x61, 0x63] ∧
    kernelStrncmp 1 4 (1 : ℕ) abAc = some (1, abAc) := by
  refine ⟨fun i hi _ _ => ?_, ?_⟩
  · obtain rfl : i = 0 := by omega
    rfl
  · exact kernelStrncmp_eq (by decide) (by decide) abAc_left abAc_right (by decide)

end Console

end X86Os
