import X86Os.Fs

/-!
# Loading segments

The model of the ELF structures of `comm/elf.h` and of `load_phdr`, which loads one segment into an
address space. A file is read into a local variable as a list of bytes.
-/

namespace X86Os

/-! ## Headers -/

def halfAt (b : List (BitVec 8)) (i : ℕ) : ℕ :=
  (b.getD i 0).toNat + 2 ^ 8 * (b.getD (i + 1) 0).toNat

def wordAt (b : List (BitVec 8)) (i : ℕ) : ℕ := halfAt b i + 2 ^ 16 * halfAt b (i + 2)

def etExec : ℕ := 2
def et386 : ℕ := 3
def ptLoad : ℕ := 1

/-- The fields of `Elf32_Ehdr` that the loader reads. -/
structure Elf32Ehdr where
  ident : List (BitVec 8)
  type : ℕ
  machine : ℕ
  entry : ℕ
  phoff : ℕ
  phentsize : ℕ
  phnum : ℕ

def ehdrSize : ℕ := 52

def Elf32Ehdr.ofBytes (b : List (BitVec 8)) : Elf32Ehdr where
  ident := b.take 4
  type := halfAt b 16
  machine := halfAt b 18
  entry := wordAt b 24
  phoff := wordAt b 28
  phentsize := halfAt b 42
  phnum := halfAt b 44

/-- `"\x7FELF"`. -/
def elfMagic : List (BitVec 8) := [0x7F, 0x45, 0x4C, 0x46]

structure Elf32Phdr where
  type : ℕ
  offset : ℕ
  vaddr : ℕ
  paddr : ℕ
  filesz : ℕ
  memsz : ℕ

def phdrSize : ℕ := 32

def Elf32Phdr.ofBytes (b : List (BitVec 8)) : Elf32Phdr where
  type := wordAt b 0
  offset := wordAt b 4
  vaddr := wordAt b 8
  paddr := wordAt b 12
  filesz := wordAt b 16
  memsz := wordAt b 20

/-! ## Reading -/

def loadBytes : ℕ → ℕ → Prog Vm (List (BitVec 8))
  | 0, _ => pure []
  | n + 1, src => do
    let b ← load8 src
    let rest ← loadBytes n (u32 (src + 1))
    pure (b :: rest)

/-- `kernel_memcpy` to a local variable with the bytes `old`: without a source it stays as it is, and one
that was never written has no value. -/
def memcpyLocal (src size : ℕ) (old : Option (List (BitVec 8))) : Prog Vm (List (BitVec 8)) :=
  if src = 0 ∨ size = 0 then old.elim Prog.halt pure else loadBytes size src

/-- `sys_read` into a local variable. -/
def sysReadLocal (file : ℤ) (len : ℕ) (old : Option (List (BitVec 8))) :
    Prog FileState (ℤ × List (BitVec 8)) := do
  if file = tempFileId then
    let pos ← Prog.gets FileState.tempPos
    let bytes ← onVm (memcpyLocal pos len old)
    Prog.modify fun s => { s with tempPos := u32 (s.tempPos + len) }
    pure ((len : ℤ), bytes)
  else pure (-1, [])

/-! ## Segments -/

/-- The loop of `load_phdr`; every round reads at least one byte, so `size` rounds are enough. -/
def loadPhdrLoop (file : ℤ) (pageDir : ℕ) : ℕ → ℕ → ℕ → Prog FileState ℤ
  | 0, _, _ => pure 0
  | fuel + 1, vaddr, size =>
    if size = 0 then pure 0
    else do
      let currSize := min size memPageSize
      let paddr ← onVm (memoryGetPaddr pageDir vaddr)
      let cnt ← sysRead file paddr currSize
      if cnt < currSize then pure (-1)
      else loadPhdrLoop file pageDir fuel (u32 (vaddr + currSize)) (size - currSize)

def loadPhdr (file : ℤ) (phdr : Elf32Phdr) (pageDir : ℕ) : Prog FileState ℤ := do
  Prog.require (phdr.vaddr % memPageSize = 0)
  let err ← onVm (memoryAllocForPageDir pageDir phdr.vaddr phdr.memsz (pteP ||| pteU ||| pteW))
  if err < 0 then pure (-1)
  else
    let pos ← sysLseek file phdr.offset
    if pos < 0 then pure (-1)
    else loadPhdrLoop file pageDir phdr.filesz phdr.vaddr phdr.filesz

end X86Os
