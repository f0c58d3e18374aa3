import X86Os.Vm

/-!
# Page tables

The model of the functions of `core/memory.c` that build, walk, copy and destroy two-level page
tables. Directories and tables are reached through kernel pointers; a null pointer is the number zero.
`memory_copy_uvm` has no `return` on its error path, so there its result is whatever the register
holds, the parameter `residue`.
-/

namespace X86Os

/-- Where the linker puts the kernel, as far as `kernel.lds` fixes it. -/
structure Layout where
  sText : ℕ
  eText : ℕ
  sData : ℕ
  kernelPageDir : ℕ
  taskTable : ℕ
  firstTask : ℕ
  idleTask : ℕ
  idleTaskEntry : ℕ
  idleTaskStack : ℕ
  exceptionHandlerSyscall : ℕ
  sFirstTask : ℕ
  memFreeStart : ℕ
  sText_eq : sText = 0x10000
  eText_ge : sText ≤ eText
  sData_eq : sData = (eText + 4095) / 4096 * 4096
  pageDir_aligned : kernelPageDir % memPageSize = 0
  pageDir_ge : sData ≤ kernelPageDir
  pageDir_le : kernelPageDir + memPageSize ≤ memFreeStart
  taskTable_aligned : taskTable % 4 = 0
  taskTable_ge : sData ≤ taskTable
  taskTable_le : taskTable + 128 * 196 ≤ memFreeStart
  firstTask_ge : sData ≤ firstTask
  firstTask_le : firstTask + 196 ≤ memFreeStart
  idleTask_ge : sData ≤ idleTask
  idleTask_le : idleTask + 196 ≤ memFreeStart
  sFirstTask_le : sFirstTask ≤ memFreeStart

/-- A small kernel. -/
def sampleLayout : Layout where
  sText := 0x10000
  eText := 0x18000
  sData := 0x18000
  kernelPageDir := 0x20000
  taskTable := 0x21000
  firstTask := 0x28000
  idleTask := 0x280C4
  idleTaskEntry := 0x11000
  idleTaskStack := 0x19000
  exceptionHandlerSyscall := 0x12000
  sFirstTask := 0x2F000
  memFreeStart := 0x30000
  sText_eq := rfl
  eText_ge := by decide
  sData_eq := rfl
  pageDir_aligned := by decide
  pageDir_ge := by decide
  pageDir_le := by decide
  taskTable_aligned := by decide
  taskTable_ge := by decide
  taskTable_le := by decide
  firstTask_ge := by decide
  firstTask_le := by decide
  idleTask_ge := by decide
  idleTask_le := by decide
  sFirstTask_le := by decide

def pdeCnt : ℕ := 1024
def pteCnt : ℕ := 1024

/-- `pde_index(MEMORY_TASK_BASE)`. -/
def userPdeStart : ℕ := pdeIndex memoryTaskBase

def findPte (pageDir vaddr : ℕ) (alloc : Bool) : Prog Vm ℕ := do
  let pde ← load32 (u32 (pageDir + 4 * pdeIndex vaddr))
  if Present pde then pure (u32 (entryPaddr pde + 4 * pteIndex vaddr))
  else if alloc then
    let pgPaddr ← allocPage
    if pgPaddr = 0 then pure 0
    else
      store32 (u32 (pageDir + 4 * pdeIndex vaddr)) (pgPaddr ||| pteP ||| pteW ||| pdeU)
      memset pgPaddr 0 memPageSize
      pure (u32 (pgPaddr + 4 * pteIndex vaddr))
  else pure 0

/-- `memory_create_map`; the number of pages comes first. -/
def memoryCreateMap (pageDir perm : ℕ) : ℕ → ℕ → ℕ → Prog Vm ℤ
  | 0, _, _ => pure 0
  | count + 1, vaddr, paddr => do
    let pte ← findPte pageDir vaddr true
    if pte = 0 then pure (-1)
    else
      let v ← load32 pte
      Prog.require (¬ Present v)
      store32 pte (paddr ||| perm ||| pteP)
      memoryCreateMap pageDir perm count (u32 (vaddr + memPageSize)) (u32 (paddr + memPageSize))

def memoryGetPaddr (pageDir vaddr : ℕ) : Prog Vm ℕ := do
  let pte ← findPte pageDir vaddr false
  if pte = 0 then pure 0
  else
    let v ← load32 pte
    pure (u32 (entryPaddr v + vaddr % memPageSize))

/-- One round of the loop of `memory_alloc_for_page_dir`. -/
def memoryAllocRound (pageDir vaddr perm i : ℕ) : Prog Vm (Option ℤ) := do
  let paddr ← allocPage
  Prog.require (paddr ≠ 0)
  let err ← memoryCreateMap pageDir perm 1 (u32 (vaddr + i * memPageSize)) paddr
  if err < 0 then
    freePages (down2 vaddr memPageSize) (i + 1)
    pure (some (-1))
  else pure none

def memoryAllocForPageDir (pageDir vaddr size perm : ℕ) : Prog Vm ℤ := do
  let pageCount := up2 size memPageSize / memPageSize
  let r ← Prog.loop (memoryAllocRound pageDir vaddr perm) pageCount 0
  pure (r.getD 0)

/-- The loop of `memory_copy_uvm_data`; every round copies at least one byte, so `size` rounds are
enough. -/
def memoryCopyUvmDataLoop (pageDir : ℕ) : ℕ → ℕ → ℕ → ℕ → Prog Vm ℤ
  | 0, _, _, _ => pure 0
  | fuel + 1, dest, src, size =>
    if size = 0 then pure 0
    else do
      let toPaddr ← memoryGetPaddr pageDir dest
      if toPaddr = 0 then pure (-1)
      else
        let currSize := min size (memPageSize - toPaddr % memPageSize)
        kernelMemcpy toPaddr src currSize
        memoryCopyUvmDataLoop pageDir fuel (u32 (dest + currSize)) (u32 (src + currSize))
          (size - currSize)

def memoryCopyUvmData (dest pageDir src size : ℕ) : Prog Vm ℤ :=
  memoryCopyUvmDataLoop pageDir size dest src size

/-! ## Address spaces -/

/-- The loop that copies the directory entries of the kernel. -/
def copyKernelPdes (L : Layout) (pageDir i : ℕ) : Prog Vm (Option Unit) := do
  let v ← load32 (L.kernelPageDir + 4 * i)
  store32 (u32 (pageDir + 4 * i)) v
  pure none

def memoryCreateUvm (L : Layout) : Prog Vm ℕ := do
  let pageDir ← allocPage
  if pageDir = 0 then pure 0
  else
    memset pageDir 0 memPageSize
    let _ ← Prog.loop (copyKernelPdes L pageDir) userPdeStart 0
    pure pageDir

def destroyPage (table j : ℕ) : Prog Vm (Option Unit) := do
  let pte ← load32 (u32 (table + 4 * j))
  if Present pte then freePages (entryPaddr pte) 1
  pure none

/-- After the loop over its entries the pointer `pte` is one past the end of the table, and the entry
it points to is freed as well. -/
def destroyTable (pageDir i : ℕ) : Prog Vm (Option Unit) := do
  let pde ← load32 (u32 (pageDir + 4 * i))
  if Present pde then
    let _ ← Prog.loop (destroyPage (entryPaddr pde)) pteCnt 0
    let past ← load32 (u32 (entryPaddr pde + 4 * pteCnt))
    freePages (entryPaddr past) 1
    freePages (entryPaddr pde) 1
  pure none

def memoryDestroyUvm (pageDir : ℕ) : Prog Vm Unit := do
  let _ ← Prog.loop (destroyTable pageDir) (pdeCnt - userPdeStart) userPdeStart
  pure ()

def copyPage (table toPageDir i j : ℕ) : Prog Vm (Option Unit) := do
  let pte ← load32 (u32 (table + 4 * j))
  if Present pte then
    let page ← allocPage
    if page = 0 then pure (some ())
    else
      let vaddr := i * 2 ^ 22 + j * 2 ^ 12
      let err ← memoryCreateMap toPageDir (getPtePerm pte) 1 vaddr page
      if err < 0 then pure (some ())
      else
        kernelMemcpy page vaddr memPageSize
        pure none
  else pure none

def copyTable (pageDir toPageDir i : ℕ) : Prog Vm (Option Unit) := do
  let pde ← load32 (u32 (pageDir + 4 * i))
  if Present pde then Prog.loop (copyPage (entryPaddr pde) toPageDir i) pteCnt 0
  else pure none

def memoryCopyUvm (L : Layout) (residue pageDir : ℕ) : Prog Vm ℕ := do
  let toPageDir ← memoryCreateUvm L
  if toPageDir = 0 then pure residue
  else
    match ← Prog.loop (copyTable pageDir toPageDir) (pdeCnt - userPdeStart) userPdeStart with
    | none => pure toPageDir
    | some () => do
      memoryDestroyUvm toPageDir
      pure residue

def memoryAllocPage : Prog Vm ℕ := allocPage

/-- `memory_free_page`, where `currDir` is the directory of the current task. In the user half the
assertion asks for a null pointer. -/
def memoryFreePage (currDir addr : ℕ) : Prog Vm Unit :=
  if addr < memoryTaskBase then freePages addr 1
  else do
    let pte ← findPte currDir addr false
    Prog.require (pte = 0)
    let v ← load32 pte
    Prog.require (Present v)
    freePages (entryPaddr v) 1
    store32 pte 0

end X86Os
