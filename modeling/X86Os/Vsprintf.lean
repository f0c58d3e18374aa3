import X86Os.Itoa

/-!
# Format strings

The model of `kernel_vsprintf`, a scanner with two states over the format. The remaining arguments
are the words that `va_arg` will read. `expand` says what a format with its arguments stands for;
what the code leaves in the buffer is that text.
-/

namespace X86Os

inductive FmtState
  | normal
  | readFmt
deriving DecidableEq, Repr

namespace Console

def percent : BitVec 8 := 0x25
def charD : BitVec 8 := 0x64
def charX : BitVec 8 := 0x78
def charC : BitVec 8 := 0x63
def charS : BitVec 8 := 0x73

/-- Reading past the last argument is not modelled. -/
def vaArg : List ℕ → Prog Console (ℕ × List ℕ)
  | [] => Prog.halt
  | w :: args => pure (w, args)

/-- The loop that copies the `len` characters of a string argument. -/
def copyText : ℕ → ℕ → ℕ → Prog Console ℕ
  | 0, curr, _ => pure curr
  | len + 1, curr, str => do
    let ch ← getChar str
    putChar curr ch
    copyText len (curr + 1) (str + 1)

/-- The text of a number at `curr`, measured by its end. -/
def putNumber (curr w base : ℕ) : Prog Console ℕ := do
  kernelItoa curr (i32 w) base
  let len ← kernelStrlen curr
  pure (curr + len)

/-- The branch `READ_FMT`: the new `curr` and the arguments that are left. -/
def convert (ch : BitVec 8) (curr : ℕ) (args : List ℕ) : Prog Console (ℕ × List ℕ) := do
  if ch = charD then
    let r ← vaArg args
    let curr ← putNumber curr r.1 10
    pure (curr, r.2)
  else if ch = charX then
    let r ← vaArg args
    let curr ← putNumber curr r.1 16
    pure (curr, r.2)
  else if ch = charC then
    let r ← vaArg args
    putChar curr (BitVec.ofNat 8 r.1)
    pure (curr + 1, r.2)
  else if ch = charS then
    let r ← vaArg args
    let len ← kernelStrlen r.1
    let curr ← copyText len curr r.1
    pure (curr, r.2)
  else pure (curr, args)

/-- The loop of `kernel_vsprintf`, with the last value of `curr`. -/
def vsprintfLoop : List (BitVec 8) → FmtState → ℕ → List ℕ → Prog Console ℕ
  | [], _, curr, _ => pure curr
  | ch :: fmt, state, curr, args =>
    if ch = 0 then pure curr
    else match state with
      | .normal =>
        if ch = percent then vsprintfLoop fmt .readFmt curr args
        else do
          putChar curr ch
          vsprintfLoop fmt .normal (curr + 1) args
      | .readFmt => do
        let r ← convert ch curr args
        vsprintfLoop fmt .normal r.1 r.2

def kernelVsprintf (buffer : ℕ) (fmt : List (BitVec 8)) (args : List ℕ) : Prog Console Unit := do
  let _ ← vsprintfLoop fmt .normal buffer args
  pure ()

end Console

/-! ## What a format stands for -/

/-- An argument of a variadic call: a number, or a string that may be missing. -/
inductive FmtArg
  | int (v : ℤ)
  | str (text : Option (List (BitVec 8)))

namespace Format

open Console

/-- The characters after `%` that read an argument. -/
def Takes (ch : BitVec 8) : Prop := ch = charD ∨ ch = charX ∨ ch = charC ∨ ch = charS

instance (ch : BitVec 8) : Decidable (Takes ch) := inferInstanceAs (Decidable (_ ∨ _ ∨ _ ∨ _))

/-- The argument has the type that the conversion reads. -/
def Suits (ch : BitVec 8) : FmtArg → Prop
  | .int _ => ch = charD ∨ ch = charX ∨ ch = charC
  | .str _ => ch = charS

def conversionText (ch : BitVec 8) : FmtArg → List (BitVec 8)
  | .int v =>
    if ch = charD then itoaText v 10 else if ch = charX then itoaText v 16 else [BitVec.ofInt 8 v]
  | .str text => text.getD []

def expand : FmtState → List (BitVec 8) → List FmtArg → List (BitVec 8)
  | _, [], _ => []
  | .normal, ch :: fmt, args =>
    if ch = percent then expand .readFmt fmt args else ch :: expand .normal fmt args
  | .readFmt, ch :: fmt, args =>
    if Takes ch then args.head?.elim [] (conversionText ch) ++ expand .normal fmt args.tail
    else expand .normal fmt args

/-- The arguments are those that the conversions of the format read. -/
def Matches : FmtState → List (BitVec 8) → List FmtArg → Prop
  | _, [], args => args = []
  | .normal, ch :: fmt, args =>
    if ch = percent then Matches .readFmt fmt args else Matches .normal fmt args
  | .readFmt, ch :: fmt, args =>
    if Takes ch then ∃ arg rest, args = arg :: rest ∧ Suits ch arg ∧ Matches .normal fmt rest
    else Matches .normal fmt args

/-- The state of the scanner after the format. -/
def endState : FmtState → List (BitVec 8) → FmtState
  | state, [] => state
  | .normal, ch :: fmt => endState (if ch = percent then .readFmt else .normal) fmt
  | .readFmt, _ :: fmt => endState .normal fmt

/-- Two formats one after the other. -/
theorem expand_append {state : FmtState} {f₁ f₂ : List (BitVec 8)} {args₁ args₂ : List FmtArg}
    (h : Matches state f₁ args₁) : expand state (f₁ ++ f₂) (args₁ ++ args₂) =
      expand state f₁ args₁ ++ expand (endState state f₁) f₂ args₂ := by
  induction f₁ generalizing state args₁ with
  | nil =>
      obtain rfl : args₁ = [] := by
        cases state with
        | normal => exact h
        | readFmt => exact h
      cases state with
      | normal => rfl
      | readFmt => rfl
  | cons ch f₁ ih =>
      cases state with
      | normal =>
          rw [Matches] at h
          rw [List.cons_append, expand, expand, endState]
          split_ifs at h ⊢ with hp
          · exact ih h
          · rw [ih h, List.cons_append]
      | readFmt =>
          rw [Matches] at h
          rw [List.cons_append, expand, expand, endState]
          split_ifs at h ⊢ with ht
          · obtain ⟨arg, rest, rfl, -, hrest⟩ := h
            simp only [List.cons_append, List.head?_cons, List.tail_cons, ih hrest,
              List.append_assoc]
          · exact ih h

end Format

/-! ## What the code leaves in the buffer -/

namespace Console

open Format

/-- The word `w` carries the argument; a string lies apart from the bytes from `lo` to `hi`. -/
def ArgAt (m : Mem) (lo hi : ℕ) : FmtArg → ℕ → Prop
  | .int v, w => -2 ^ 31 ≤ v ∧ v < 2 ^ 31 ∧ w = toU32 v
  | .str none, w => w = 0
  | .str (some text), w => w ≠ 0 ∧ m.TextAt w text ∧ w + text.length < 2 ^ 32 ∧
      (w + text.length < lo ∨ hi ≤ w)

/-- All bytes from `lo` on and before `hi` are zero. -/
def ZeroIn (m : Mem) (lo hi : ℕ) : Prop := ∀ x, lo ≤ x → x < hi → m x = 0

variable {s s' : Console} {curr lo hi w : ℕ} {ch : BitVec 8} {arg : FmtArg}
  {text fmt : List (BitVec 8)} {args : List FmtArg} {words : List ℕ}

theorem ArgAt.of_writes (h : ArgAt s.mem lo hi arg w) (hw : WritesIn lo hi s s') :
    ArgAt s'.mem lo hi arg w := by
  match arg, h with
  | .int v, h => exact h
  | .str none, h => exact h
  | .str (some text), ⟨hne, htext, hlt, hout⟩ =>
      exact ⟨hne, htext.congr fun x h1 h2 => hw.mem x (by omega), hlt, hout⟩

theorem i32_toU32 {v : ℤ} (h1 : -2 ^ 31 ≤ v) (h2 : v < 2 ^ 31) : i32 (toU32 v) = v := by
  have hlt : toU32 v < 2 ^ 32 := by
    unfold toU32
    omega
  rw [i32_cast hlt]
  unfold toU32 at *
  split_ifs <;> omega

theorem ofNat_toU32 (v : ℤ) : BitVec.ofNat 8 (toU32 v) = BitVec.ofInt 8 v := by
  apply BitVec.eq_of_toNat_eq
  rw [BitVec.toNat_ofNat, BitVec.toNat_ofInt]
  unfold toU32
  omega

/-- A forward copy, to a place that is apart or before. -/
theorem copyText_spec {str : ℕ} (curr : ℕ) (h : s.mem.BytesAt str text)
    (hapart : curr ≤ str ∨ str + text.length ≤ curr) :
    ∃ s', copyText text.length curr str s = some (curr + text.length, s') ∧
      s'.mem.BytesAt curr text ∧ WritesIn curr (curr + text.length) s s' := by
  induction text generalizing curr str s with
  | nil => exact ⟨s, rfl, Mem.bytesAt_nil _ _, .refl _ _ _⟩
  | cons b text ih =>
      rw [List.length_cons] at hapart ⊢
      obtain ⟨hb, hrest⟩ := Mem.bytesAt_cons.mp h
      have hkeep : (s.put curr b).mem.BytesAt (str + 1) text :=
        hrest.congr fun x h1 h2 => put_of_ne (by omega)
      obtain ⟨s', hrun, hbytes, hwrites⟩ := ih (curr + 1) hkeep (by omega)
      refine ⟨s', ?_, ?_, ?_⟩
      · rw [copyText, getChar, Prog.gets_bind, hb, putChar, Prog.modify_bind, hrun, Nat.add_assoc,
          Nat.add_comm 1]
      · exact Mem.bytesAt_cons.mpr ⟨(hwrites.mem curr (by omega)).trans (put_self _ _ _), hbytes⟩
      · exact (writesIn_put le_rfl (by omega)).trans (hwrites.mono (by omega) (by omega))

/-- A text has been appended at `curr`, and the buffer is clean behind it if it was before. -/
structure Appended (curr hi : ℕ) (text : List (BitVec 8)) (s s' : Console) : Prop where
  bytes : s'.mem.BytesAt curr text
  writes : WritesIn curr (curr + text.length + 1) s s'
  clean : ZeroIn s.mem curr hi → ZeroIn s'.mem (curr + text.length) hi

namespace Appended

theorem nil (curr hi : ℕ) (s : Console) : Appended curr hi [] s s :=
  ⟨Mem.bytesAt_nil _ _, .refl _ _ _, fun h => h⟩

theorem append {text' : List (BitVec 8)} {s'' : Console} (h : Appended curr hi text s s')
    (h' : Appended (curr + text.length) hi text' s' s'') :
    Appended curr hi (text ++ text') s s'' := by
  refine ⟨Mem.bytesAt_append.mpr ⟨h.bytes.congr fun x h1 h2 => h'.writes.mem x (by omega),
    h'.bytes⟩, ?_, fun hz => ?_⟩
  · rw [List.length_append]
    exact (h.writes.mono le_rfl (by omega)).trans (h'.writes.mono (by omega) (by omega))
  · rw [List.length_append, ← Nat.add_assoc]
    exact h'.clean (h.clean hz)

/-- Writes that end with the text leave the rest of the buffer as it was. -/
theorem of_writes (hbytes : s'.mem.BytesAt curr text)
    (hw : WritesIn curr (curr + text.length) s s') : Appended curr hi text s s' :=
  ⟨hbytes, hw.mono le_rfl (by omega),
    fun hz x h1 h2 => (hw.mem x (by omega)).trans (hz x (by omega) h2)⟩

theorem of_text (htext : s'.mem.TextAt curr text)
    (hw : WritesIn curr (curr + text.length + 1) s s') : Appended curr hi text s s' := by
  refine ⟨htext.bytes, hw, fun hz x h1 h2 => ?_⟩
  rcases Nat.eq_or_lt_of_le h1 with rfl | hlt
  · exact htext.stop
  · exact (hw.mem x (by omega)).trans (hz x (by omega) h2)

theorem char (curr hi : ℕ) (ch : BitVec 8) (s : Console) :
    Appended curr hi [ch] s (s.put curr ch) :=
  of_writes (Mem.bytesAt_cons.mpr ⟨put_self _ _ _, Mem.bytesAt_nil _ _⟩)
    (writesIn_put le_rfl (by simp))

end Appended

theorem putNumber_spec {v : ℤ} {base : ℕ} (hi : ℕ) (s : Console) (h1 : -2 ^ 31 ≤ v) (h2 : v < 2 ^ 31)
    (hbase : base = 10 ∨ base = 16) (hpos : curr ≠ 0)
    (hlt : curr + (itoaText v base).length < 2 ^ 32) :
    ∃ s', putNumber curr (toU32 v) base s = some (curr + (itoaText v base).length, s') ∧
      Appended curr hi (itoaText v base) s s' := by
  have hknown : base = 2 ∨ base = 8 ∨ base = 10 ∨ base = 16 := by omega
  obtain ⟨s', hrun, htext, hwrites⟩ := kernelItoa_spec h1 hknown curr s
  refine ⟨s', ?_, .of_text htext hwrites⟩
  rw [putNumber, i32_toU32 h1 h2, Prog.bind_of_eq hrun,
    Prog.bind_of_eq (kernelStrlen_eq htext hpos (by omega))]
  rfl

/-- A conversion that reads an argument. -/
theorem convert_spec (words : List ℕ) (hs : Suits ch arg) (ha : ArgAt s.mem lo hi arg w) (hlo : lo ≤ curr)
    (hpos : 0 < lo) (hroom : curr + (conversionText ch arg).length < hi) (hhi : hi ≤ 2 ^ 32) :
    ∃ s', convert ch curr (w :: words) s =
        some ((curr + (conversionText ch arg).length, words), s') ∧
      Appended curr hi (conversionText ch arg) s s' := by
  match arg, hs, ha with
  | .int v, hs, ⟨h1, h2, hw⟩ =>
      subst w
      rcases hs with rfl | rfl | rfl
      · obtain ⟨s', hrun, happ⟩ := putNumber_spec hi s h1 h2 (.inl rfl)
          (show curr ≠ 0 by omega) (hroom.trans_le hhi)
        refine ⟨s', ?_, happ⟩
        rw [convert, if_pos rfl, vaArg, Prog.pure_bind, Prog.bind_of_eq hrun]
        rfl
      · obtain ⟨s', hrun, happ⟩ := putNumber_spec hi s h1 h2 (.inr rfl)
          (show curr ≠ 0 by omega) (hroom.trans_le hhi)
        refine ⟨s', ?_, happ⟩
        rw [convert, if_neg (by decide), if_pos rfl, vaArg, Prog.pure_bind, Prog.bind_of_eq hrun]
        rfl
      · refine ⟨s.put curr (BitVec.ofInt 8 v), ?_, .char _ _ _ _⟩
        rw [convert, if_neg (by decide), if_neg (by decide), if_pos rfl, vaArg, Prog.pure_bind,
          ofNat_toU32, putChar, Prog.modify_bind]
        rfl
  | .str none, hs, hw =>
      obtain rfl : ch = charS := hs
      obtain rfl : w = 0 := hw
      exact ⟨s, rfl, .nil _ _ _⟩
  | .str (some text), hs, ⟨hne, htext, hlt, hout⟩ =>
      obtain rfl : ch = charS := hs
      have hroom' : curr + text.length < hi := hroom
      obtain ⟨s', hrun, hbytes, hwrites⟩ := copyText_spec curr htext.bytes (by omega)
      refine ⟨s', ?_, .of_writes hbytes hwrites⟩
      rw [convert, if_neg (by decide), if_neg (by decide), if_neg (by decide), if_pos rfl, vaArg,
        Prog.pure_bind, Prog.bind_of_eq (kernelStrlen_eq htext hne (by omega)),
        Prog.bind_of_eq hrun]
      rfl

theorem convert_other (h : ¬ Takes ch) : convert ch curr words s = some ((curr, words), s) := by
  simp only [Takes, not_or] at h
  rw [convert, if_neg h.1, if_neg h.2.1, if_neg h.2.2.1, if_neg h.2.2.2]
  rfl

/-- The scanner appends what the rest of the format stands for. -/
theorem vsprintfLoop_spec {state : FmtState} (hfmt : ∀ c ∈ fmt, c ≠ 0)
    (hm : Matches state fmt args) (ha : List.Forall₂ (ArgAt s.mem lo hi) args words)
    (hlo : lo ≤ curr) (hpos : 0 < lo) (hroom : curr + (expand state fmt args).length < hi)
    (hhi : hi ≤ 2 ^ 32) :
    ∃ s', vsprintfLoop fmt state curr words s =
        some (curr + (expand state fmt args).length, s') ∧
      Appended curr hi (expand state fmt args) s s' := by
  induction fmt generalizing state curr args words s with
  | nil =>
      cases state with
      | normal => exact ⟨s, rfl, .nil _ _ _⟩
      | readFmt => exact ⟨s, rfl, .nil _ _ _⟩
  | cons ch fmt ih =>
      have hch : ch ≠ 0 := hfmt ch List.mem_cons_self
      have hrest : ∀ c ∈ fmt, c ≠ 0 := fun c hc => hfmt c (List.mem_cons_of_mem ch hc)
      cases state with
      | normal =>
          rw [vsprintfLoop, if_neg hch]
          rw [Matches] at hm
          rw [expand] at hroom ⊢
          by_cases hp : ch = percent
          · simp only [if_pos hp] at hm hroom ⊢
            exact ih hrest hm ha hlo hroom
          · simp only [if_neg hp] at hm hroom ⊢
            rw [List.length_cons] at hroom
            have happ := Appended.char curr hi ch s
            have ha' : List.Forall₂ (ArgAt (s.put curr ch).mem lo hi) args words :=
              ha.imp fun arg w h => h.of_writes (writesIn_put hlo (by omega))
            obtain ⟨s', hrun, happ'⟩ := ih hrest hm ha' (show lo ≤ curr + 1 by omega) (by omega)
            refine ⟨s', ?_, happ.append happ'⟩
            rw [putChar, Prog.modify_bind, hrun, List.length_cons, Nat.add_assoc, Nat.add_comm 1]
      | readFmt =>
          rw [vsprintfLoop, if_neg hch]
          rw [Matches] at hm
          rw [expand] at hroom ⊢
          by_cases ht : Takes ch
          · rw [if_pos ht] at hm hroom ⊢
            obtain ⟨arg, rest, rfl, hs, hm⟩ := hm
            obtain ⟨w, words, hw, harest, rfl⟩ := List.forall₂_cons_left_iff.mp ha
            simp only [List.head?_cons, Option.elim_some, List.tail_cons] at hroom ⊢
            rw [List.length_append] at hroom ⊢
            obtain ⟨s₁, hconv, happ⟩ :=
              convert_spec words hs hw hlo hpos (by omega) hhi
            have ha' : List.Forall₂ (ArgAt s₁.mem lo hi) rest words :=
              harest.imp fun arg w h => h.of_writes (happ.writes.mono hlo (by omega))
            have hnext : lo ≤ curr + (conversionText ch arg).length := by omega
            obtain ⟨s', hrun, happ'⟩ := ih hrest hm ha' hnext (by omega)
            refine ⟨s', ?_, happ.append happ'⟩
            simp only [Prog.bind_of_eq hconv, hrun, Nat.add_assoc]
          · rw [if_neg ht] at hm hroom ⊢
            simp only [Prog.bind_of_eq (convert_other ht)]
            exact ih hrest hm ha hlo hroom

/-- A zero-filled buffer with room for the expansion and its end holds the expansion and then zeros
afterwards; formats one after the other expand one after the other. -/
theorem kernelVsprintf_expands {buffer size : ℕ} (hfmt : ∀ c ∈ fmt, c ≠ 0)
    (hm : Matches .normal fmt args)
    (ha : List.Forall₂ (ArgAt s.mem buffer (buffer + size)) args words) (hbuf : buffer ≠ 0)
    (hsize : buffer + size ≤ 2 ^ 32) (hzero : ZeroIn s.mem buffer (buffer + size))
    (hroom : (expand .normal fmt args).length < size) :
    ∃ s', kernelVsprintf buffer fmt words s = some ((), s') ∧
      s'.mem.BytesAt buffer (expand .normal fmt args) ∧
      ZeroIn s'.mem (buffer + (expand .normal fmt args).length) (buffer + size) ∧
      WritesIn buffer (buffer + size) s s' ∧
      ∀ f₁ f₂ args₁ args₂, fmt = f₁ ++ f₂ → args = args₁ ++ args₂ → Matches .normal f₁ args₁ →
        endState .normal f₁ = .normal →
        s'.mem.BytesAt buffer (expand .normal f₁ args₁ ++ expand .normal f₂ args₂) := by
  obtain ⟨s', hrun, happ⟩ := vsprintfLoop_spec hfmt hm ha le_rfl (Nat.pos_of_ne_zero hbuf)
    (Nat.add_lt_add_left hroom buffer) hsize
  refine ⟨s', ?_, happ.bytes, happ.clean hzero, happ.writes.mono le_rfl (by omega), ?_⟩
  · rw [kernelVsprintf, Prog.bind_of_eq hrun]
    rfl
  · rintro f₁ f₂ args₁ args₂ rfl rfl hm₁ hend
    have happend : expand .normal (f₁ ++ f₂) (args₁ ++ args₂) =
        expand .normal f₁ args₁ ++ expand .normal f₂ args₂ := by
      rw [expand_append hm₁, hend]
    exact happend ▸ happ.bytes

/-- `"a%c"` in a buffer of 128 bytes. -/
theorem kernelVsprintf_expands_char : ∃ s',
    kernelVsprintf 0x1000 [0x61, percent, charC] [0x62] blank = some ((), s') ∧
      s'.mem.BytesAt 0x1000 [0x61, 0x62] ∧ ZeroIn s'.mem 0x1002 0x1080 := by
  have ha : List.Forall₂ (ArgAt blank.mem 0x1000 (0x1000 + 128)) [.int 0x62] [0x62] :=
    .cons ⟨by norm_num, by norm_num, rfl⟩ .nil
  have hm : Matches .normal [0x61, percent, charC] [.int 0x62] :=
    ⟨_, _, rfl, .inr (.inr rfl), rfl⟩
  obtain ⟨s', hrun, hbytes, hzero, -⟩ := kernelVsprintf_expands (s := blank) (by decide) hm ha
    (by norm_num) (by norm_num) (fun _ _ _ => rfl) (by decide)
  exact ⟨s', hrun, hbytes, hzero⟩

end Console

end X86Os
