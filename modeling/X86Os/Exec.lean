import X86Os.Elf
import X86Os.Kernel
import X86Os.Log

/-!
# Starting another program

The model of `sys_execve` with `load_elf_file` and `copy_args`, and of the way from there to the `main`
of the new program: the return through the call gate, `crt0` and `cstart`. Strings are searched through
all of memory; a search that never ends has no result. The local variable `task_args` lies on the kernel
stack at the address `argsAt`, which the compiler chooses.
-/

namespace X86Os

/-! ## Strings in memory -/

/-- The address of the end of the string. -/
def strEnd : ℕ → ℕ → Prog Vm ℕ
  | 0, _ => Prog.halt
  | fuel + 1, c => do
    let b ← load8 c
    if b = 0 then pure c else strEnd fuel (u32 (c + 1))

def kernelStrlen (str : ℕ) : Prog Vm ℕ :=
  if str = 0 then pure 0
  else do
    let c ← strEnd (2 ^ 32) str
    pure (u32Sub c str)

/-- `"open file failed."`. -/
def openFailedText : List (BitVec 8) :=
  [0x6F, 0x70, 0x65, 0x6E, 0x20, 0x66, 0x69, 0x6C, 0x65, 0x20, 0x66, 0x61, 0x69, 0x6C, 0x65, 0x64,
    0x2E]

/-- `log_printf("open file failed.%s", name)`. A text that leaves no room for its end in `str_buf` is
written over the kernel stack; such a call has no result. -/
def logOpenFailed (name : ℕ) : Prog Vm Unit := do
  let n ← kernelStrlen name
  Prog.require (openFailedText.length + n < Console.strBufSize)

/-- The length that is required is the one for which `log_printf` leaves room for the end. -/
theorem logFits_openFailed {s : Console} {strBuf room name : ℕ} {text : List (BitVec 8)}
    (hpos : 0 < strBuf) (hbuf : Console.strBufSize ≤ room)
    (hroom : openFailedText.length + text.length < room) (hsize : strBuf + room ≤ 2 ^ 32)
    (hname : Console.ArgAt s.mem strBuf (strBuf + room) (.str (some text)) name) :
    Console.LogFits strBuf (openFailedText ++ [Console.percent, Console.charS]) [name] s ↔
      openFailedText.length + text.length < Console.strBufSize := by
  have hm : Format.Matches .normal (openFailedText ++ [Console.percent, Console.charS])
      [.str (some text)] := ⟨_, _, rfl, rfl, rfl⟩
  have hexpand : Format.expand .normal (openFailedText ++ [Console.percent, Console.charS])
      [.str (some text)] = openFailedText ++ (text ++ []) := rfl
  have hlen := congrArg List.length hexpand
  rw [List.append_nil, List.length_append] at hlen
  have hfits := Console.logFits_iff hpos (by decide) hm hbuf (hlen ▸ hroom) hsize (.cons hname .nil)
  rw [hlen] at hfits
  exact hfits.trans (Nat.le_sub_one_iff_lt (by decide))

def backslash : BitVec 8 := 0x5C

/-- The backward search of `get_file_name`; the character is read before the bound is tested. -/
def fileNameStart (name : ℕ) : ℕ → ℕ → Prog Vm ℕ
  | 0, _ => Prog.halt
  | fuel + 1, c => do
    let b ← load8 c
    if b = backslash ∨ b = slash ∨ c < name then pure (u32 (c + 1))
    else fileNameStart name fuel (u32Sub c 1)

def getFileName (name : ℕ) : Prog Vm ℕ := do
  let c ← strEnd (2 ^ 32) name
  fileNameStart name (2 ^ 32) c

def stringsCountLoop : ℕ → ℕ → ℕ → Prog Vm ℕ
  | 0, _, _ => Prog.halt
  | fuel + 1, start, count => do
    let v ← load32 start
    if v = 0 then pure count else stringsCountLoop fuel (u32 (start + 4)) (count + 1)

def stringsCount (start : ℕ) : Prog Vm ℕ :=
  if start = 0 then pure 0 else stringsCountLoop (2 ^ 32) start 0

/-! ## Arguments -/

def memTaskStackTop : ℕ := 0xE0000000
def memTaskStackSize : ℕ := memPageSize * 500
def memTaskArgSize : ℕ := memPageSize * 4

def taskArgsSize : ℕ := 12

/-- One round of the loop of `copy_args`: the address of the next string. -/
def copyArg (pageDir argv table i dest : ℕ) : Prog Vm ℕ := do
  let src ← load32 (u32 (argv + 4 * i))
  let n ← kernelStrlen src
  let err ← memoryCopyUvmData dest pageDir src (n + 1)
  Prog.require (0 ≤ err)
  store32 (u32 (table + 4 * i)) dest
  pure (u32 (dest + (n + 1)))

/-- The loop of `copy_args`; the number of arguments left comes first. -/
def copyArgsLoop (pageDir argv table : ℕ) : ℕ → ℕ → ℕ → Prog Vm Unit
  | 0, _, _ => pure ()
  | n + 1, i, dest => do
    let dest ← copyArg pageDir argv table i dest
    copyArgsLoop pageDir argv table n (i + 1) dest

def copyArgs (argsAt dest pageDir argc argv : ℕ) : Prog Vm ℤ := do
  store32 (argsAt + 4) argc
  store32 (argsAt + 8) (u32 (dest + taskArgsSize))
  let table ← memoryGetPaddr pageDir (u32 (dest + taskArgsSize))
  Prog.require (table ≠ 0)
  copyArgsLoop pageDir argv table argc 0 (u32 (dest + taskArgsSize + 4 * argc))
  memoryCopyUvmData dest pageDir argsAt taskArgsSize

/-! ## Loading -/

namespace Kernel

def onFile {A : Type} : Prog FileState A → Prog Kernel A :=
  Prog.zoom (fun s => { vm := s.vm, tempPos := s.tempPos })
    fun r s => { s with vm := r.vm, tempPos := r.tempPos }

/-- One round of the loop of `load_elf_file`, where `old` is what `elf_phdr` holds. A round that has not
failed returns what it holds then. -/
def loadHeader (t : TaskId) (file : ℤ) (pageDir phoff phentsize i : ℕ)
    (old : Option (List (BitVec 8))) : Prog Kernel (Unit ⊕ Option (List (BitVec 8))) := do
  let pos ← onFile (sysLseek file (u32 (phoff + i * phentsize)))
  if pos < 0 then pure (.inl ())
  else
    let r ← onFile (sysReadLocal file phdrSize old)
    if toU32 r.1 < phdrSize then pure (.inl ())
    else
      let phdr := Elf32Phdr.ofBytes r.2
      if phdr.type ≠ ptLoad ∨ phdr.vaddr < memoryTaskBase then pure (.inr (some r.2))
      else
        let err ← onFile (loadPhdr file phdr pageDir)
        if err < 0 then pure (.inl ())
        else
          setTask t fun task =>
            { task with
              heapStart := u32 (phdr.vaddr + phdr.memsz)
              heapEnd := u32 (phdr.vaddr + phdr.memsz) }
          pure (.inr (some r.2))

/-- `load_elf_file` once the file is open. Closing it has no effect. -/
def loadElfOpen (t : TaskId) (file : ℤ) (pageDir : ℕ) : Prog Kernel ℕ := do
  let r ← onFile (sysReadLocal file ehdrSize none)
  if toU32 r.1 < ehdrSize then pure 0
  else
    let hdr := Elf32Ehdr.ofBytes r.2
    if hdr.ident ≠ elfMagic then pure 0
    else if hdr.type ≠ etExec ∨ hdr.machine ≠ et386 ∨ hdr.entry = 0 then pure 0
    else if hdr.phentsize = 0 ∨ hdr.phoff = 0 then pure 0
    else
      match ← Prog.loopWith (loadHeader t file pageDir hdr.phoff hdr.phentsize) hdr.phnum 0 none with
      | .inr _ => pure hdr.entry
      | .inl () => pure 0

def loadElfFile (disk : Disk) (t : TaskId) (name pageDir : ℕ) : Prog Kernel ℕ := do
  let file ← onFile (sysOpen disk name)
  if file < 0 then
    onVm (logOpenFailed name)
    pure 0
  else loadElfOpen t file pageDir

/-! ## `sys_execve` -/

/-- `kernel_strncpy(task->name, src, TASK_NAME_SIZE)`; the byte after the name is the first one of
`sleep_ticks`. -/
def copyTaskName (t : TaskId) (src : ℕ) : Prog Kernel Unit :=
  if src = 0 then pure ()
  else do
    let bytes ← strncpyBytes (fun i => onVm (load8 (u32 (src + i)))) taskNameSize 0
    setTask t fun task => { task with name := task.name.set bytes }
    if endsPastName bytes then
      setSched fun s => s.setTask t
        { s.task t with sleepTicks := (s.task t).sleepTicks - (s.task t).sleepTicks % 2 ^ 8 }
    else pure ()

def setPageDir (t : TaskId) (dir : ℕ) : Prog Kernel Unit := do
  setTask t fun task => task.withTss (task.tss.withCr3 dir)
  onVm (Prog.modify fun v => { v with cr3 := dir })

def execFailed (t : TaskId) (oldPageDir newPageDir : ℕ) : Prog Kernel ℤ := do
  setPageDir t oldPageDir
  onVm (memoryDestroyUvm newPageDir)
  pure (-1)

/-- The address of the arguments. -/
def execStackTop : ℕ := memTaskStackTop - memTaskArgSize

def storeFrame (esp0 k v : ℕ) : Prog Kernel Unit := onVm (store32 (frameAddr esp0 k) v)

/-- The words of the frame as in `forkRegisters`. -/
def execFrame (esp0 entry : ℕ) : Prog Kernel Unit := do
  storeFrame esp0 13 entry
  storeFrame esp0 10 0
  storeFrame esp0 11 0
  storeFrame esp0 9 0
  storeFrame esp0 12 0
  storeFrame esp0 7 0
  storeFrame esp0 5 0
  storeFrame esp0 6 0
  storeFrame esp0 0 (eflagsDefault ||| eflagsIf)
  storeFrame esp0 20 (execStackTop - 4 * syscallParamCount)

/-- `sys_execve` once the new stack is mapped. -/
def execStart (argsAt : ℕ) (t : TaskId) (oldPageDir newPageDir entry argv : ℕ) :
    Prog Kernel ℤ := do
  let argc ← onVm (stringsCount argv)
  let err ← onVm (copyArgs argsAt execStackTop newPageDir argc argv)
  if err < 0 then execFailed t oldPageDir newPageDir
  else
    let esp0 ← Prog.gets fun s => (s.task t).tss.esp0
    execFrame esp0 entry
    setPageDir t newPageDir
    onVm (memoryDestroyUvm oldPageDir)
    pure 0

/-- `sys_execve` once the new directory exists. -/
def execLoad (disk : Disk) (argsAt : ℕ) (t : TaskId) (oldPageDir newPageDir name argv : ℕ) :
    Prog Kernel ℤ := do
  let entry ← loadElfFile disk t name newPageDir
  if entry = 0 then execFailed t oldPageDir newPageDir
  else
    let err ← onVm (memoryAllocForPageDir newPageDir (memTaskStackTop - memTaskStackSize)
      memTaskStackSize (pteP ||| pteU ||| pteW))
    if err < 0 then execFailed t oldPageDir newPageDir
    else execStart argsAt t oldPageDir newPageDir entry argv

def sysExecve (L : Layout) (disk : Disk) (argsAt name argv : ℕ) : Prog Kernel ℤ := do
  let t ← taskCurrent
  let src ← onVm (getFileName name)
  copyTaskName t src
  let oldPageDir ← Prog.gets fun s => (s.task t).tss.cr3
  let newPageDir ← onVm (memoryCreateUvm L)
  if newPageDir = 0 then execFailed t oldPageDir newPageDir
  else execLoad disk argsAt t oldPageDir newPageDir name argv

/-! ## The new program up to `main` -/

/-- `cstart` calls `main(argc, argv)`; `esp` points to the return address of `cstart`, and `ret` is the
one of `main`. -/
def cstart (ret esp : ℕ) : Prog Vm ℕ := do
  let argc ← load32 (u32 (esp + 4))
  let argv ← load32 (u32 (esp + 8))
  store32 (u32Sub esp 4) argv
  store32 (u32Sub esp 8) argc
  store32 (u32Sub esp 12) ret
  pure (u32Sub esp 12)

/-- `_start` loads the segment registers and jumps to `cstart`. -/
def crt0Start (ret esp : ℕ) : Prog Vm ℕ := cstart ret esp

/-- The system call by which a program becomes another one: `do_handler_syscall` stores the result in
the frame, the call gate drops its parameters from the user stack, and the new program runs. Its result
is the stack pointer in `main`, if `sys_execve` succeeds. -/
def enterMain (L : Layout) (disk : Disk) (argsAt name argv ret : ℕ) : Prog Kernel (Option ℕ) := do
  let t ← taskCurrent
  let r ← sysExecve L disk argsAt name argv
  let esp0 ← Prog.gets fun s => (s.task t).tss.esp0
  storeFrame esp0 12 (toU32 r)
  if r < 0 then pure none
  else
    let esp ← frameWord esp0 20
    let sp ← onVm (crt0Start ret (u32 (esp + 4 * syscallParamCount)))
    pure (some sp)

end Kernel

end X86Os
