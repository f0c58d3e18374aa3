import X86Os.Vm
import X86Os.Vsprintf

/-!
# Output on the console

The model of `log_printf` and `sys_write`. The text is formed in a local buffer of 128 bytes and sent
to the serial port, which is taken to be ready; the mutex around it is not part of this memory. No
function on the way has a limit on the length, and `sys_write` stores a zero behind the user's bytes.
-/

namespace X86Os

namespace Console

/-- The size of `str_buf`. -/
def strBufSize : ℕ := 128

def carriageReturn : BitVec 8 := 0x0D
def lineFeed : BitVec 8 := 0x0A

def memsetLoop (v : BitVec 8) : ℕ → ℕ → Prog Console Unit
  | 0, _ => pure ()
  | size + 1, d => do
    putChar d v
    memsetLoop v size (d + 1)

def kernelMemset (dest : ℕ) (v : BitVec 8) (size : ℕ) : Prog Console Unit :=
  if dest = 0 ∨ size = 0 then pure () else memsetLoop v size dest

def outb (b : BitVec 8) : Prog Console Unit := Prog.modify fun s => { s with com1 := s.com1 ++ [b] }

/-- The loop that sends a string. -/
def sendLoop : ℕ → ℕ → Prog Console Unit
  | 0, _ => Prog.halt
  | fuel + 1, p => do
    let ch ← getChar p
    if ch ≠ 0 then do
      outb ch
      sendLoop fuel (p + 1)
    else pure ()

/-- The compiler puts `str_buf` on the kernel stack at the address `strBuf`. -/
def logPrintf (strBuf : ℕ) (fmt : List (BitVec 8)) (args : List ℕ) : Prog Console Unit := do
  kernelMemset strBuf 0 strBufSize
  kernelVsprintf strBuf fmt args
  sendLoop (2 ^ 32) strBuf
  outb carriageReturn
  outb lineFeed

def sysWrite (strBuf : ℕ) (_file : ℤ) (ptr : ℕ) (len : ℤ) : Prog Console ℤ := do
  putChar (ptr + len).toNat 0
  logPrintf strBuf [percent, charS] [ptr]
  pure len

/-! ## What is asked of them -/

open Format

variable {s s' : Console} {strBuf ptr : ℕ} {file : ℤ} {text fmt : List (BitVec 8)}
  {args : List FmtArg} {words : List ℕ}

/-- `kernel_vsprintf` leaves room for the terminator in the buffer that `log_printf` has cleared. -/
def LogFits (strBuf : ℕ) (fmt : List (BitVec 8)) (args : List ℕ) (s : Console) : Prop :=
  ∃ s₁ s₂ curr, kernelMemset strBuf 0 strBufSize s = some ((), s₁) ∧
    vsprintfLoop fmt .normal strBuf args s₁ = some (curr, s₂) ∧ curr ≤ strBuf + (strBufSize - 1)

/-- The formatter has one end, whether or not it is in the buffer. -/
theorem logFits_of_run {strBuf curr : ℕ} {fmt : List (BitVec 8)} {args : List ℕ}
    {s s₁ s₂ : Console} (hclear : kernelMemset strBuf 0 strBufSize s = some ((), s₁))
    (hscan : vsprintfLoop fmt .normal strBuf args s₁ = some (curr, s₂)) :
    LogFits strBuf fmt args s ↔ curr ≤ strBuf + (strBufSize - 1) := by
  refine ⟨?_, fun hcurr => ⟨s₁, s₂, curr, hclear, hscan, hcurr⟩⟩
  rintro ⟨t₁, t₂, curr', hclear', hscan', hcurr⟩
  obtain ⟨-, rfl⟩ := Prog.result_unique hclear hclear'
  obtain ⟨rfl, -⟩ := Prog.result_unique hscan hscan'
  exact hcurr

/-- The bytes `text` at `ptr` are sent with a line end, kernel memory is written in `str_buf` only,
and user memory stays as it was. -/
def WriteComplete (strBuf : ℕ) (file : ℤ) (ptr : ℕ) (text : List (BitVec 8)) (s : Console) : Prop :=
  (∃ s', sysWrite strBuf file ptr text.length s = some ((text.length : ℤ), s') ∧
    s'.com1 = s.com1 ++ (text ++ [carriageReturn, lineFeed]) ∧
    (∃ w, s'.written = s.written ++ w ∧
      ∀ x ∈ w, x < memoryTaskBase → strBuf ≤ x ∧ x < strBuf + strBufSize) ∧
    ∀ x, memoryTaskBase ≤ x → s'.mem x = s.mem x) ∧
  LogFits strBuf [percent, charS] [ptr] (s.put (ptr + text.length) 0)

/-! ## Steps -/

theorem memsetLoop_spec (v : BitVec 8) (size d : ℕ) (s : Console) :
    ∃ s', memsetLoop v size d s = some ((), s') ∧ (∀ x, d ≤ x → x < d + size → s'.mem x = v) ∧
      WritesIn d (d + size) s s' := by
  induction size generalizing d s with
  | zero => exact ⟨s, rfl, fun x h1 h2 => by omega, .refl _ _ _⟩
  | succ size ih =>
      obtain ⟨s', hrun, hmem, hwrites⟩ := ih (d + 1) (s.put d v)
      refine ⟨s', hrun, fun x h1 h2 => ?_, ?_⟩
      · rcases Nat.eq_or_lt_of_le h1 with rfl | hlt
        · exact (hwrites.mem d (by omega)).trans (put_self _ _ _)
        · exact hmem x hlt (by omega)
      · exact (writesIn_put le_rfl (by omega)).trans (hwrites.mono (by omega) (by omega))

theorem kernelMemset_spec (hpos : 0 < strBuf) (s : Console) :
    ∃ s', kernelMemset strBuf 0 strBufSize s = some ((), s') ∧
      ZeroIn s'.mem strBuf (strBuf + strBufSize) ∧
      WritesIn strBuf (strBuf + strBufSize) s s' := by
  have hne : ¬ (strBuf = 0 ∨ strBufSize = 0) := by
    unfold strBufSize
    omega
  rw [kernelMemset, if_neg hne]
  exact memsetLoop_spec 0 strBufSize strBuf s

theorem sendLoop_spec {p : ℕ} (fuel : ℕ) (h : s.mem.TextAt p text) (hfuel : text.length < fuel) :
    sendLoop fuel p s = some ((), { s with com1 := s.com1 ++ text }) := by
  induction text generalizing fuel p s with
  | nil =>
      obtain ⟨fuel, rfl⟩ : ∃ n, fuel = n + 1 := ⟨fuel - 1, by simp at hfuel; omega⟩
      have hstop : s.mem p = 0 := h.stop
      rw [sendLoop, getChar, Prog.gets_bind, if_neg (not_not.mpr hstop), List.append_nil]
      rfl
  | cons b text ih =>
      obtain ⟨fuel, rfl⟩ : ∃ n, fuel = n + 1 := ⟨fuel - 1, by simp at hfuel; omega⟩
      have hb : s.mem p = b := (Mem.bytesAt_cons.mp h.bytes).1
      have hne : b ≠ 0 := h.nonzero b List.mem_cons_self
      have htail : ({ s with com1 := s.com1 ++ [b] } : Console).mem.TextAt (p + 1) text := h.tail
      rw [sendLoop, getChar, Prog.gets_bind, hb, if_pos hne, outb, Prog.modify_bind,
        ih fuel htail (by rw [List.length_cons] at hfuel; omega), List.append_assoc]
      rfl

/-- The scanner on `"%s"`, for a string of any length that does not lie below the buffer's end. -/
theorem vsprintf_string (h : s.mem.TextAt ptr text) (hpos : 0 < strBuf) (hptr : strBuf < ptr)
    (hlt : text.length < 2 ^ 32) :
    ∃ s', vsprintfLoop [percent, charS] .normal strBuf [ptr] s =
        some (strBuf + text.length, s') ∧
      s'.mem.BytesAt strBuf text ∧ WritesIn strBuf (strBuf + text.length) s s' := by
  obtain ⟨s', hrun, hbytes, hwrites⟩ := copyText_spec strBuf h.bytes (.inl hptr.le)
  have hconv : convert charS strBuf [ptr] s = some ((strBuf + text.length, []), s') := by
    rw [convert, if_neg (by decide), if_neg (by decide), if_neg (by decide), if_pos rfl, vaArg,
      Prog.pure_bind, Prog.bind_of_eq (kernelStrlen_eq h (by omega) hlt), Prog.bind_of_eq hrun]
    rfl
  refine ⟨s', ?_, hbytes, hwrites⟩
  rw [vsprintfLoop, if_neg (by decide)]
  simp only [if_true]
  rw [vsprintfLoop, if_neg (by decide)]
  simp only [Prog.bind_of_eq hconv]
  rfl

/-! ## `sys_write` -/

/-- A user buffer without zero bytes, and where `str_buf` and the buffer may lie. -/
structure WriteInput (strBuf ptr : ℕ) (text : List (BitVec 8)) (s : Console) : Prop where
  bytes : s.mem.BytesAt ptr text
  nonzero : ∀ c ∈ text, c ≠ 0
  strBuf_pos : 0 < strBuf
  strBuf_le : strBuf + strBufSize ≤ memoryTaskBase
  ptr_ge : memoryTaskBase ≤ ptr
  ptr_lt : ptr + text.length < 2 ^ 32

namespace WriteInput

/-- After the zero is stored the user's bytes are a string. -/
theorem terminated (h : WriteInput strBuf ptr text s) :
    (s.put (ptr + text.length) 0).mem.TextAt ptr text :=
  ⟨h.bytes.congr fun x h1 h2 => put_of_ne (by omega), put_self _ _ _, h.nonzero⟩

/-- Clearing the buffer and scanning the format. -/
theorem formatted (h : WriteInput strBuf ptr text s) : ∃ s₁ s₂,
    kernelMemset strBuf 0 strBufSize (s.put (ptr + text.length) 0) = some ((), s₁) ∧
    vsprintfLoop [percent, charS] .normal strBuf [ptr] s₁ = some (strBuf + text.length, s₂) ∧
    ZeroIn s₁.mem strBuf (strBuf + strBufSize) ∧
    WritesIn strBuf (strBuf + strBufSize) (s.put (ptr + text.length) 0) s₁ ∧
    s₂.mem.BytesAt strBuf text ∧ WritesIn strBuf (strBuf + text.length) s₁ s₂ := by
  have hle := h.strBuf_le
  have hge := h.ptr_ge
  have hlt := h.ptr_lt
  obtain ⟨s₁, hclear, hzero, hwrites⟩ :=
    kernelMemset_spec h.strBuf_pos (s.put (ptr + text.length) 0)
  have htext : s₁.mem.TextAt ptr text :=
    h.terminated.congr fun x h1 h2 => hwrites.mem x (.inr (by omega))
  have hpos : strBuf < ptr := by
    unfold strBufSize at hle
    omega
  obtain ⟨s₂, hscan, hbytes, hwrites'⟩ := vsprintf_string htext h.strBuf_pos hpos (by omega)
  exact ⟨s₁, s₂, hclear, hscan, hzero, hwrites, hbytes, hwrites'⟩

/-- The number of characters is that of the user's bytes, however many they are. -/
theorem fits_iff (h : WriteInput strBuf ptr text s) :
    LogFits strBuf [percent, charS] [ptr] (s.put (ptr + text.length) 0) ↔
      text.length ≤ strBufSize - 1 := by
  obtain ⟨s₁, s₂, hclear, hscan, -⟩ := h.formatted
  rw [logFits_of_run hclear hscan]
  exact Nat.add_le_add_iff_left

/-- The whole of `sys_write` for a text that leaves room for the terminator. -/
theorem run (h : WriteInput strBuf ptr text s) (hlen : text.length ≤ strBufSize - 1) (file : ℤ) :
    ∃ s', sysWrite strBuf file ptr text.length s = some ((text.length : ℤ), s') ∧
      s'.com1 = s.com1 ++ (text ++ [carriageReturn, lineFeed]) ∧
      (∃ w, s'.written = s.written ++ w ∧
        ∀ x ∈ w, x < memoryTaskBase → strBuf ≤ x ∧ x < strBuf + strBufSize) ∧
      ∀ x, memoryTaskBase ≤ x → s'.mem x = (s.put (ptr + text.length) 0).mem x := by
  obtain ⟨s₁, s₂, hclear, hscan, hzero, hwrites, hbytes, hwrites'⟩ := h.formatted
  have hsize : strBufSize = 128 := rfl
  have htext : s₂.mem.TextAt strBuf text := by
    refine ⟨hbytes, ?_, h.nonzero⟩
    exact (hwrites'.mem _ (by omega)).trans (hzero _ (by omega) (by omega))
  have hall : WritesIn strBuf (strBuf + strBufSize) (s.put (ptr + text.length) 0) s₂ :=
    hwrites.trans (hwrites'.mono le_rfl (by omega))
  have haddr : ((ptr : ℤ) + (text.length : ℤ)).toNat = ptr + text.length := by omega
  refine ⟨{ s₂ with com1 := s₂.com1 ++ text ++ [carriageReturn] ++ [lineFeed] }, ?_, ?_, ?_,
    fun x hx => hall.mem x (.inr (h.strBuf_le.trans hx))⟩
  · have hscan' : kernelVsprintf strBuf [percent, charS] [ptr] s₁ = some ((), s₂) := by
      rw [kernelVsprintf, Prog.bind_of_eq hscan]
      rfl
    have hsend := sendLoop_spec (2 ^ 32) htext (by omega)
    have hlog : logPrintf strBuf [percent, charS] [ptr] (s.put (ptr + text.length) 0) =
        some ((), { s₂ with com1 := s₂.com1 ++ text ++ [carriageReturn] ++ [lineFeed] }) := by
      rw [logPrintf, Prog.bind_of_eq hclear, Prog.bind_of_eq hscan', Prog.bind_of_eq hsend]
      rfl
    rw [sysWrite, haddr, putChar, Prog.modify_bind, Prog.bind_of_eq hlog]
    rfl
  · simp only [hall.com1, put, List.append_assoc]
    rfl
  · obtain ⟨w, hw, hin⟩ := hall.written
    refine ⟨(ptr + text.length) :: w, ?_, fun x hx hlt => ?_⟩
    · simp only [hw, put, List.append_assoc]
      rfl
    · rcases List.mem_cons.mp hx with rfl | hx
      · have hge := h.ptr_ge
        omega
      · exact hin x hx

end WriteInput

theorem WriteComplete.bounds (h : WriteInput strBuf ptr text s)
    (hw : WriteComplete strBuf file ptr text s) :
    text.length ≤ strBufSize - 1 ∧ s.mem (ptr + text.length) = 0 := by
  obtain ⟨⟨s', hrun, -, -, hkeep⟩, hfits⟩ := hw
  have hlen := h.fits_iff.mp hfits
  obtain ⟨t, hrun', -, -, hmem⟩ := h.run hlen file
  obtain ⟨-, rfl⟩ := Prog.result_unique hrun hrun'
  have hbase : memoryTaskBase ≤ ptr + text.length := h.ptr_ge.trans (Nat.le_add_right _ _)
  exact ⟨hlen, by rw [← hkeep _ hbase, hmem _ hbase, put_self]⟩

theorem writeComplete_of_bounds (h : WriteInput strBuf ptr text s) (file : ℤ)
    (hlen : text.length ≤ strBufSize - 1) (hzero : s.mem (ptr + text.length) = 0) :
    WriteComplete strBuf file ptr text s := by
  obtain ⟨s', hrun, hsent, hwritten, hmem⟩ := h.run hlen file
  refine ⟨⟨s', hrun, hsent, hwritten, fun x hx => ?_⟩, h.fits_iff.mpr hlen⟩
  rw [hmem x hx]
  by_cases hlast : x = ptr + text.length
  · rw [hlast, put_self, hzero]
  · exact put_of_ne hlast

/-- Any format, with arguments whose strings are apart from what the expansion would fill. -/
theorem logFits_iff (hpos : 0 < strBuf) (hfmt : ∀ c ∈ fmt, c ≠ 0) (hm : Matches .normal fmt args)
    {room : ℕ} (hbuf : strBufSize ≤ room) (hroom : (expand .normal fmt args).length < room)
    (hsize : strBuf + room ≤ 2 ^ 32)
    (ha : List.Forall₂ (ArgAt s.mem strBuf (strBuf + room)) args words) :
    LogFits strBuf fmt words s ↔ (expand .normal fmt args).length ≤ strBufSize - 1 := by
  obtain ⟨s₁, hclear, -, hwrites⟩ := kernelMemset_spec hpos s
  have ha' : List.Forall₂ (ArgAt s₁.mem strBuf (strBuf + room)) args words :=
    ha.imp fun arg w h => h.of_writes (hwrites.mono le_rfl (by omega))
  obtain ⟨s₂, hscan, -⟩ := vsprintfLoop_spec hfmt hm ha' le_rfl hpos
    (Nat.add_lt_add_left hroom strBuf) hsize
  rw [logFits_of_run hclear hscan]
  exact Nat.add_le_add_iff_left

/-- Exactly when `sys_write` is complete and confined, and exactly when the text of any format and
arguments leaves room for its end. -/
theorem console_output_iff (s : Console) (strBuf : ℕ) :
    (∀ (ptr : ℕ) (file : ℤ) (text : List (BitVec 8)),
      WriteInput strBuf ptr text s → (WriteComplete strBuf file ptr text s ↔
        text.length ≤ strBufSize - 1 ∧ s.mem (ptr + text.length) = 0)) ∧
    ∀ (room : ℕ) (fmt : List (BitVec 8)) (args : List FmtArg)
      (words : List ℕ), 0 < strBuf → (∀ c ∈ fmt, c ≠ 0) → Matches .normal fmt args →
      strBufSize ≤ room → (expand .normal fmt args).length < room → strBuf + room ≤ 2 ^ 32 →
      List.Forall₂ (ArgAt s.mem strBuf (strBuf + room)) args words →
      (LogFits strBuf fmt words s ↔ (expand .normal fmt args).length ≤ strBufSize - 1) :=
  ⟨fun _ file _ h => ⟨fun hw => hw.bounds h, fun hb => writeComplete_of_bounds h file hb.1 hb.2⟩,
    fun _ _ _ _ hpos hfmt hm hbuf hroom hsize ha => logFits_iff hpos hfmt hm hbuf hroom hsize ha⟩

/-- `n` characters at the start of user memory, with a zero behind them. -/
def userLine (n : ℕ) : Console :=
  { blank with mem := fun x => if memoryTaskBase ≤ x ∧ x < memoryTaskBase + n then 0x61 else 0 }

theorem userLine_input {n : ℕ} (hn : n < 2 ^ 31) :
    WriteInput 0x10000 memoryTaskBase (List.replicate n 0x61) (userLine n) := by
  have hlen : (List.replicate n (0x61 : BitVec 8)).length = n := List.length_replicate ..
  refine ⟨fun i hi => ?_, fun c hc => ?_, by norm_num, by decide, le_rfl, ?_⟩
  · rw [hlen] at hi
    rw [List.getElem_replicate]
    exact if_pos ⟨Nat.le_add_right _ _, Nat.add_lt_add_left hi _⟩
  · rw [List.eq_of_mem_replicate hc]
    decide
  · rw [hlen]
    unfold memoryTaskBase
    omega

theorem console_output_iff_short :
    WriteComplete 0x10000 1 memoryTaskBase (List.replicate 2 0x61) (userLine 2) :=
  ((console_output_iff _ _).1 _ _ _ (userLine_input (by norm_num))).mpr ⟨by decide, by decide⟩

/-- 200 characters do not fit into `str_buf`. -/
theorem sysWrite_overflows : ¬ ∀ (s : Console) (strBuf ptr : ℕ) (file : ℤ)
    (text : List (BitVec 8)), WriteInput strBuf ptr text s →
    WriteComplete strBuf file ptr text s := by
  intro h
  have hin := userLine_input (n := 200) (by norm_num)
  have hfits := ((h (userLine 200) 0x10000 memoryTaskBase 1 _ hin).bounds hin).1
  rw [List.length_replicate] at hfits
  exact absurd hfits (by decide)

end Console

end X86Os
