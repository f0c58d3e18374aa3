import X86Os.AddrAlloc
import X86Os.Memory
import X86Os.Prog

/-!
# Physical memory behind the MMU

The state on which `core/memory.c` works: the bytes of physical memory, the page allocator and the
page directory that the processor uses. Below `MEMORY_TASK_BASE` the kernel reaches memory through the
identity mapping of `create_kernel_table`, above through the tables of the current directory; an access
that no table maps is a page fault, after which the handler halts. The kernel's own variables are not
part of this memory. The list `frees` is not in the source: it records the calls of `addr_free_page`
and whether they cleared a set bit.
-/

namespace X86Os

def memEbdaStart : ℕ := 0x80000

def memExtStart : ℕ := 1024 * 1024

/-- One byte past `MEM_EXT_END`. -/
def memExtLimit : ℕ := 128 * 1024 * 1024

def memoryTaskBase : ℕ := 0x80000000

/-- `up2`; the bounds used are powers of two. -/
def up2 (size bound : ℕ) : ℕ := u32 (size + bound - 1) / bound * bound

def down2 (size bound : ℕ) : ℕ := size / bound * bound

/-! ## Page table entries -/

def pteP : ℕ := 1
def pteW : ℕ := 2
def pteU : ℕ := 4
def pdeU : ℕ := 4

/-- The bit `present` of an entry. -/
def Present (v : ℕ) : Prop := v % 2 = 1

instance (v : ℕ) : Decidable (Present v) := inferInstanceAs (Decidable (v % 2 = 1))

def pdeIndex (vaddr : ℕ) : ℕ := vaddr / 2 ^ 22

def pteIndex (vaddr : ℕ) : ℕ := vaddr / 2 ^ 12 % 1024

/-- `pde_paddr` and `pte_paddr`. -/
def entryPaddr (v : ℕ) : ℕ := v / 2 ^ 12 * 2 ^ 12

def getPtePerm (v : ℕ) : ℕ := v &&& 0x1FF

/-! ## The state -/

structure FreeCall where
  addr : ℕ
  count : ℕ
  cleared : Bool
deriving DecidableEq, Repr

structure Vm where
  mem : Mem
  alloc : AddrAlloc
  cr3 : ℕ
  frees : List FreeCall

/-- The addresses that `create_kernel_table` maps to themselves. -/
def Identity (a : ℕ) : Prop := a < memEbdaStart ∨ (memExtStart ≤ a ∧ a < memExtLimit)

instance (a : ℕ) : Decidable (Identity a) :=
  inferInstanceAs (Decidable (a < memEbdaStart ∨ (memExtStart ≤ a ∧ a < memExtLimit)))

/-- The walk of the processor through the tables of the directory `dir`. -/
def Mem.walk (m : Mem) (dir v : ℕ) : Option ℕ :=
  let pde := m.read32 (dir + 4 * pdeIndex v)
  if Present pde then
    let pte := m.read32 (entryPaddr pde + 4 * pteIndex v)
    if Present pte then some (entryPaddr pte + v % memPageSize) else none
  else none

/-- The physical address behind `v`. -/
def Vm.phys (s : Vm) (v : ℕ) : Option ℕ :=
  if v < memoryTaskBase then if Identity v then some v else none
  else s.mem.walk (entryPaddr s.cr3) v

/-! ## Accesses -/

def load8 (v : ℕ) : Prog Vm (BitVec 8) := fun s => (s.phys v).map fun a => (s.mem a, s)

def store8 (v : ℕ) (b : BitVec 8) : Prog Vm Unit :=
  fun s => (s.phys v).map fun a => ((), { s with mem := s.mem.write8 a b })

def load32 (v : ℕ) : Prog Vm ℕ := do
  let b0 ← load8 v
  let b1 ← load8 (u32 (v + 1))
  let b2 ← load8 (u32 (v + 2))
  let b3 ← load8 (u32 (v + 3))
  pure (b0.toNat + 2 ^ 8 * b1.toNat + 2 ^ 16 * b2.toNat + 2 ^ 24 * b3.toNat)

/-- The words the kernel writes are aligned. -/
def store32 (v x : ℕ) : Prog Vm Unit :=
  fun s => (s.phys v).map fun a => ((), { s with mem := s.mem.write32 a x })

def memcpyLoop : ℕ → ℕ → ℕ → Prog Vm Unit
  | 0, _, _ => pure ()
  | n + 1, dest, src => do
    let b ← load8 src
    store8 dest b
    memcpyLoop n (u32 (dest + 1)) (u32 (src + 1))

def kernelMemcpy (dest src size : ℕ) : Prog Vm Unit :=
  if dest = 0 ∨ src = 0 ∨ size = 0 then pure () else memcpyLoop size dest src

def memsetLoop (v : BitVec 8) : ℕ → ℕ → Prog Vm Unit
  | 0, _ => pure ()
  | n + 1, dest => do
    store8 dest v
    memsetLoop v n (u32 (dest + 1))

/-- `kernel_memset` on memory behind a pointer. -/
def memset (dest : ℕ) (v : BitVec 8) (size : ℕ) : Prog Vm Unit :=
  if dest = 0 ∨ size = 0 then pure () else memsetLoop v size dest

/-! ## The page allocator -/

/-- `addr_alloc_page(&paddr_alloc, 1)`. -/
def allocPage : Prog Vm ℕ := fun s =>
  let r := addrAllocPage s.alloc 1
  some (r.1, { s with alloc := r.2 })

/-- A set bit of `alloc` is clear in `alloc'`. -/
def AddrAlloc.lost (alloc alloc' : AddrAlloc) : Bool :=
  (List.range alloc.bitmap.bitCount.toNat).any fun k =>
    alloc.bitmap.bitAt k && !alloc'.bitmap.bitAt k

def Vm.freed (s : Vm) (addr count : ℕ) : Vm :=
  let alloc := addrFreePage s.alloc addr count
  { s with
    alloc := alloc
    frees := s.frees ++ [{ addr := addr, count := count, cleared := s.alloc.lost alloc }] }

/-- `addr_free_page(&paddr_alloc, addr, count)`. With a negative index `bitmap_set_bit` writes to whatever
lies before the bits, or to no memory at all; such a call has no result. -/
def freePages (addr count : ℕ) : Prog Vm Unit := fun s =>
  if s.alloc.Freeable addr then some ((), s.freed addr count) else none

theorem freePages_eq_some {addr count : ℕ} {s s' : Vm} {u : Unit} :
    freePages addr count s = some (u, s') ↔ s.alloc.Freeable addr ∧ s' = s.freed addr count := by
  rw [freePages]
  split_ifs with h
  · exact ⟨fun hs => ⟨h, (Prod.mk.inj (Option.some.inj hs)).2.symm⟩, fun hs => by rw [hs.2]⟩
  · exact ⟨nofun, fun hs => absurd hs.1 h⟩

theorem freePages_of {addr : ℕ} {s : Vm} (h : s.alloc.Freeable addr) (count : ℕ) :
    freePages addr count s = some ((), s.freed addr count) := if_pos h

/-! ## Reading changes nothing -/

theorem load8_along (v : ℕ) : Prog.Along Eq (load8 v) := by
  intro s b s' h
  rw [load8, Option.map_eq_some_iff] at h
  obtain ⟨x, -, hb⟩ := h
  exact (Prod.mk.inj hb).2

theorem load32_along (v : ℕ) : Prog.Along Eq (load32 v) :=
  (load8_along _).bind fun _ => (load8_along _).bind fun _ => (load8_along _).bind fun _ =>
    (load8_along _).bind fun _ => Prog.along_pure _

/-! ## Evaluation in the kernel half -/

variable {s : Vm} {a v : ℕ}

theorem entryPaddr_mod (v : ℕ) : entryPaddr v % memPageSize = 0 := by
  unfold entryPaddr memPageSize
  omega

theorem pteIndex_lt (v : ℕ) : pteIndex v < 1024 := by
  unfold pteIndex
  omega

/-- The kernel half is mapped by whole pages. -/
theorem Identity.add (h : Identity a) (ha : a % memPageSize = 0) {i : ℕ} (hi : i < memPageSize) :
    Identity (a + i) := by
  unfold Identity memEbdaStart memExtStart memExtLimit memPageSize at *
  omega

theorem Identity.lt (h : Identity a) : a < 2 ^ 27 := by
  unfold Identity memEbdaStart memExtStart memExtLimit at h
  omega

theorem phys_of_identity (h : Identity a) : s.phys a = some a := by
  have hlt : a < memoryTaskBase := lt_trans h.lt (by unfold memoryTaskBase; norm_num)
  rw [Vm.phys, if_pos hlt, if_pos h]

theorem load8_of_identity (h : Identity a) : load8 a s = some (s.mem a, s) := by
  simp [load8, phys_of_identity h]

theorem store8_of_identity (h : Identity a) (b : BitVec 8) :
    store8 a b s = some ((), { s with mem := s.mem.write8 a b }) := by
  simp [store8, phys_of_identity h]

theorem store32_of_identity (h : Identity a) (x : ℕ) :
    store32 a x s = some ((), { s with mem := s.mem.write32 a x }) := by
  simp [store32, phys_of_identity h]

theorem load32_of_identity (h : Identity a) (ha : a % 4 = 0) :
    load32 a s = some (s.mem.read32 a, s) := by
  have hlt := h.lt
  have hnext : ∀ i < 4, Identity (u32 (a + i)) ∧ u32 (a + i) = a + i := by
    intro i hi
    rw [u32_of_lt (by omega)]
    refine ⟨?_, rfl⟩
    unfold Identity memEbdaStart memExtStart memExtLimit at *
    omega
  obtain ⟨h1, e1⟩ := hnext 1 (by omega)
  obtain ⟨h2, e2⟩ := hnext 2 (by omega)
  obtain ⟨h3, e3⟩ := hnext 3 (by omega)
  rw [load32, Prog.bind_of_eq (load8_of_identity h), Prog.bind_of_eq (load8_of_identity h1),
    Prog.bind_of_eq (load8_of_identity h2), Prog.bind_of_eq (load8_of_identity h3), e1, e2, e3]
  rfl

theorem memsetLoop_of_identity {n : ℕ} (b : BitVec 8) (h : ∀ i < n, Identity (a + i)) :
    memsetLoop b n a s = some ((), { s with mem := s.mem.fill a b n }) := by
  induction n generalizing a s with
  | zero =>
      have hsame : s.mem.fill a b 0 = s.mem := by
        funext x
        exact Mem.fill_apply_of_out x (by omega)
      rw [hsame]
      rfl
  | succ n ih =>
      have h0 : Identity a := h 0 (by omega)
      have hwrap : u32 (a + 1) = a + 1 := u32_of_lt (by have := h0.lt; omega)
      rw [memsetLoop, Prog.bind_of_eq (store8_of_identity h0 b), hwrap,
        ih fun i hi => by rw [Nat.add_right_comm]; exact h (i + 1) (by omega)]
      have hmem : (s.mem.write8 a b).fill (a + 1) b n = s.mem.fill a b (n + 1) := by
        funext x
        by_cases hx : x = a
        · subst x
          rw [Mem.fill_apply_of_out _ (by omega), Mem.write8, Function.update_self, Mem.fill,
            if_pos (by omega)]
        · by_cases hin : a + 1 ≤ x ∧ x < a + 1 + n
          · rw [Mem.fill, if_pos hin, Mem.fill, if_pos (by omega)]
          · rw [Mem.fill, if_neg hin, Mem.write8, Function.update_of_ne hx, Mem.fill,
              if_neg (by omega)]
      rw [hmem]

/-- Filling a page of the kernel half. -/
theorem memset_page (h : Identity a) (ha : a % memPageSize = 0) (h0 : a ≠ 0) (b : BitVec 8) :
    memset a b memPageSize s = some ((), { s with mem := s.mem.fill a b memPageSize }) := by
  rw [memset, if_neg (by unfold memPageSize; omega)]
  exact memsetLoop_of_identity b fun i hi => h.add ha hi

/-- Copying to the kernel half from memory that stays mapped to the same place while it is read. -/
theorem memcpyLoop_of_identity {n b p : ℕ} (h : ∀ i < n, Identity (a + i)) (hsrc : b + n ≤ 2 ^ 32)
    (hphys : ∀ m : Mem, (∀ x, ¬ (a ≤ x ∧ x < a + n) → m x = s.mem x) →
      ∀ i < n, ({ s with mem := m } : Vm).phys (b + i) = some (p + i))
    (hapart : p + n ≤ a ∨ a + n ≤ p) :
    memcpyLoop n a b s = some ((), { s with mem := s.mem.copy a p n }) := by
  induction n generalizing a b p s with
  | zero =>
      have hsame : s.mem.copy a p 0 = s.mem := by
        funext x
        exact Mem.copy_apply_of_out x (by omega)
      rw [hsame]
      rfl
  | succ n ih =>
      have h0 : Identity a := h 0 (by omega)
      have hwrap : u32 (a + 1) = a + 1 := u32_of_lt (by have := h0.lt; omega)
      have hload : load8 b s = some (s.mem p, s) := by
        have := hphys s.mem (fun _ _ => rfl) 0 (by omega)
        simp only [Nat.add_zero] at this
        simp [load8, this]
      rw [memcpyLoop, Prog.bind_of_eq hload, Prog.bind_of_eq (store8_of_identity h0 _), hwrap]
      have hmem : (s.mem.write8 a (s.mem p)).copy (a + 1) (p + 1) n = s.mem.copy a p (n + 1) := by
        funext x
        by_cases hx : x = a
        · subst x
          rw [Mem.copy_apply_of_out _ (by omega), Mem.write8, Function.update_self, Mem.copy,
            if_pos (by omega), Nat.sub_self, Nat.add_zero]
        · by_cases hin : a + 1 ≤ x ∧ x < a + 1 + n
          · rw [Mem.copy, if_pos hin, Mem.write8, Function.update_of_ne (by omega), Mem.copy,
              if_pos (by omega)]
            congr 1
            omega
          · rw [Mem.copy, if_neg hin, Mem.write8, Function.update_of_ne hx, Mem.copy,
              if_neg (by omega)]
      cases n with
      | zero =>
          rw [← hmem]
          have hsame : ∀ m : Mem, m.copy (a + 1) (p + 1) 0 = m := by
            intro m
            funext x
            exact Mem.copy_apply_of_out x (by omega)
          rw [hsame]
          rfl
      | succ n =>
          rw [u32_of_lt (show b + 1 < 2 ^ 32 by omega)]
          have hnext := ih (s := { s with mem := s.mem.write8 a (s.mem p) }) (a := a + 1)
            (b := b + 1) (p := p + 1)
            (fun i hi => by rw [Nat.add_right_comm]; exact h (i + 1) (by omega)) (by omega)
            (fun m hm i hi => ?_) (by omega)
          · rw [hnext, hmem]
          · have hphys' := hphys m (fun x hx => ?_) (i + 1) (by omega)
            · rw [Nat.add_right_comm b 1 i, Nat.add_right_comm p 1 i]
              exact hphys'
            · exact (hm x (by omega)).trans (Function.update_of_ne (by omega) _ _)

end X86Os
