import X86Os.Paging

/-!
# The file interface

The model of `fs/fs.c`: opening a file reads eighty sectors of the disk into a buffer at the physical
address `TEMP_ADDR`; reading copies from there. The disk is a function from its bytes, and the driver
waits until a sector is ready.
-/

namespace X86Os

def tempFileId : ℤ := 100

def tempAddr : ℕ := 8 * 1024 * 1024

def sectorSize : ℕ := 512

/-- The bytes that `sys_open` reads. -/
def tempSize : ℕ := 80 * sectorSize

/-- Memory and the static variable `temp_pos`. -/
structure FileState where
  vm : Vm
  tempPos : ℕ

abbrev Disk : Type := ℕ → BitVec 8

/-- Run a program of the memory on the larger state. -/
def onVm {A : Type} : Prog Vm A → Prog FileState A := Prog.zoom FileState.vm fun v s => { s with vm := v }

def readDisk (disk : Disk) (sector sectorCount buf : ℕ) : Prog Vm Unit := do
  let _ ← Prog.loop (B := Unit) (fun i => do
    store8 (u32 (buf + i)) (disk (sector * sectorSize + i))
    pure none) (sectorCount * sectorSize) 0
  pure ()

/-- The character `/`. -/
def slash : BitVec 8 := 0x2F

def sysOpen (disk : Disk) (name : ℕ) : Prog FileState ℤ := do
  let c ← onVm (load8 name)
  if c = slash then
    onVm (readDisk disk 5000 80 tempAddr)
    Prog.modify fun s => { s with tempPos := tempAddr }
    pure tempFileId
  else pure (-1)

def sysRead (file : ℤ) (ptr len : ℕ) : Prog FileState ℤ := do
  if file = tempFileId then
    let pos ← Prog.gets FileState.tempPos
    onVm (kernelMemcpy ptr pos len)
    Prog.modify fun s => { s with tempPos := u32 (s.tempPos + len) }
    pure len
  else pure (-1)

def sysLseek (file : ℤ) (ptr : ℕ) : Prog FileState ℤ := do
  if file = tempFileId then
    Prog.modify fun s => { s with tempPos := u32 (ptr + tempAddr) }
    pure 0
  else pure (-1)

/-! ## What opening a file does to memory -/

def InBuffer (x : ℕ) : Prop := tempAddr ≤ x ∧ x < tempAddr + tempSize

/-- `n` bytes of `f` lie from `a` on. -/
def Mem.place (m : Mem) (a n : ℕ) (f : ℕ → BitVec 8) : Mem := fun x =>
  if a ≤ x ∧ x < a + n then f (x - a) else m x

theorem Mem.place_zero (m : Mem) (a : ℕ) (f : ℕ → BitVec 8) : m.place a 0 f = m := by
  funext x
  exact if_neg (by omega)

theorem Mem.place_succ (m : Mem) (a n : ℕ) (f : ℕ → BitVec 8) :
    (m.place a n f).write8 (a + n) (f n) = m.place a (n + 1) f := by
  funext x
  by_cases he : x = a + n
  · subst x
    rw [write8, Function.update_self, place, if_pos (by omega), Nat.add_sub_cancel_left]
  · rw [write8, Function.update_of_ne he]
    simp only [place]
    by_cases hx : a ≤ x ∧ x < a + n
    · rw [if_pos hx, if_pos (by omega)]
    · rw [if_neg hx, if_neg (by omega)]

theorem buffer_identity {i : ℕ} (hi : i < tempSize) :
    u32 (tempAddr + i) = tempAddr + i ∧ Identity (tempAddr + i) := by
  unfold tempSize sectorSize at hi
  refine ⟨u32_of_lt (by unfold tempAddr; omega), .inr ⟨?_, ?_⟩⟩
  · unfold memExtStart tempAddr
    omega
  · unfold memExtLimit tempAddr
    omega

theorem readDisk_buffer (disk : Disk) (s : Vm) : readDisk disk 5000 80 tempAddr s =
    some ((), { s with
      mem := s.mem.place tempAddr tempSize fun i => disk (5000 * sectorSize + i) }) := by
  let f : ℕ → BitVec 8 := fun i => disk (5000 * sectorSize + i)
  have hround : ∀ (j : ℕ) (t : Vm), 0 ≤ j → j < 0 + 80 * sectorSize →
      t = { s with mem := s.mem.place tempAddr j f } →
      ∃ t', (do store8 (u32 (tempAddr + j)) (f j); pure none : Prog Vm (Option Unit)) t =
        some (none, t') ∧ t' = { s with mem := s.mem.place tempAddr (j + 1) f } := by
    rintro j t - hj rfl
    rw [Nat.zero_add] at hj
    obtain ⟨hu, hid⟩ := buffer_identity hj
    rw [hu, Prog.bind_of_eq (store8_of_identity hid (f j)), Mem.place_succ]
    exact ⟨_, rfl, rfl⟩
  obtain ⟨t, ht, rfl⟩ := Prog.loop_total hround (show s = _ by rw [Mem.place_zero])
  rw [readDisk, Prog.bind_of_eq ht, Nat.zero_add]
  rfl

/-- Opening a file fills the buffer or does nothing. -/
theorem sysOpen_eq_some {disk : Disk} {name : ℕ} {s s' : FileState} {c : ℤ}
    (h : sysOpen disk name s = some (c, s')) :
    (c = -1 ∧ s' = s) ∨ (c = tempFileId ∧ s' = { s with
      vm := { s.vm with
        mem := s.vm.mem.place tempAddr tempSize fun i => disk (5000 * sectorSize + i) }
      tempPos := tempAddr }) := by
  obtain ⟨b, s₁, hload, hrest⟩ := Prog.bind_eq_some.mp h
  have hs₁ : s₁ = s := by
    simp only [onVm, Prog.zoom, load8, Option.map_map, Option.map_eq_some_iff] at hload
    obtain ⟨a, -, hpair⟩ := hload
    exact (Prod.mk.inj hpair).2.symm
  subst s₁
  by_cases hb : b = slash
  · rw [if_pos hb] at hrest
    obtain ⟨u, s₂, hread, hrest⟩ := Prog.bind_eq_some.mp hrest
    rw [onVm, Prog.zoom, readDisk_buffer, Option.map_some] at hread
    obtain ⟨-, rfl⟩ := Prod.mk.inj (Option.some.inj hread)
    obtain ⟨rfl, rfl⟩ := Prod.mk.inj (Option.some.inj hrest)
    exact .inr ⟨rfl, rfl⟩
  · rw [if_neg hb] at hrest
    obtain ⟨rfl, rfl⟩ := Prod.mk.inj (Option.some.inj hrest)
    exact .inl ⟨rfl, rfl⟩

theorem sysOpen_out {disk : Disk} {name : ℕ} {s s' : FileState} {c : ℤ}
    (h : sysOpen disk name s = some (c, s')) {x : ℕ} (hx : ¬ InBuffer x) :
    s'.vm.mem x = s.vm.mem x := by
  rcases sysOpen_eq_some h with ⟨-, rfl⟩ | ⟨-, rfl⟩
  · rfl
  · exact if_neg hx

end X86Os
