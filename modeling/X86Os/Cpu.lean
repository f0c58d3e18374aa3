import Mathlib.Tactic

/-!
# The descriptor table

The model of the GDT part of `cpu/cpu.c`. A descriptor is free when its attributes are zero; the
selector of a descriptor is eight times its index. Each function holds the mutex of the table for the
whole of its work.
-/

namespace X86Os

def gdtTableSize : ℕ := 256

def segPPresent : ℕ := 2 ^ 7
def segDpl0 : ℕ := 0
def segDpl3 : ℕ := 3 * 2 ^ 5
def segSNormal : ℕ := 2 ^ 4
def segTypeCode : ℕ := 2 ^ 3
def segTypeData : ℕ := 0
def segTypeRw : ℕ := 2 ^ 1
def segTypeTss : ℕ := 9
def segD : ℕ := 2 ^ 14
def segRpl3 : ℕ := 3

def kernelSelectorCs : ℕ := 1 * 8
def kernelSelectorDs : ℕ := 2 * 8
def selectorSyscall : ℕ := 3 * 8

def eflagsDefault : ℕ := 2 ^ 1
def eflagsIf : ℕ := 2 ^ 9

structure SegmentDesc where
  limit15_0 : ℕ
  base15_0 : ℕ
  base23_16 : ℕ
  attr : ℕ
  base31_24 : ℕ
deriving DecidableEq, Repr

def SegmentDesc.zero : SegmentDesc where
  limit15_0 := 0
  base15_0 := 0
  base23_16 := 0
  attr := 0
  base31_24 := 0

abbrev Gdt : Type := ℕ → SegmentDesc

/-- The loop of `gdt_alloc_desc` from index `i` on. -/
def gdtSearch (gdt : Gdt) : ℕ → ℕ → Option ℕ
  | 0, _ => none
  | n + 1, i => if (gdt i).attr = 0 then some i else gdtSearch gdt n (i + 1)

/-- The index of the first free descriptor; the first one is never used. -/
def gdtFree (gdt : Gdt) : Option ℕ := gdtSearch gdt (gdtTableSize - 1) 1

def gdtAllocDesc (gdt : Gdt) : ℤ × Gdt :=
  match gdtFree gdt with
  | none => (-1, gdt)
  | some i => (8 * i, Function.update gdt i { gdt i with attr := segPPresent })

def segmentDescSet (gdt : Gdt) (selector base limit attr : ℕ) : Gdt :=
  let attr := if limit > 0xFFFFF then attr ||| 0x8000 else attr
  let limit := if limit > 0xFFFFF then limit / 0x1000 else limit
  Function.update gdt (selector / 8)
    { limit15_0 := limit % 2 ^ 16
      base15_0 := base % 2 ^ 16
      base23_16 := base / 2 ^ 16 % 2 ^ 8
      attr := attr ||| limit / 2 ^ 16 % 2 ^ 4 * 2 ^ 8
      base31_24 := base / 2 ^ 24 % 2 ^ 8 }

def gdtFreeSel (gdt : Gdt) (sel : ℕ) : Gdt :=
  Function.update gdt (sel / 8) { gdt (sel / 8) with attr := 0 }

theorem gdtSearch_eq_some {gdt : Gdt} {n i k : ℕ} (h : gdtSearch gdt n i = some k) :
    i ≤ k ∧ k < i + n ∧ (gdt k).attr = 0 := by
  induction n generalizing i with
  | zero => cases h
  | succ n ih =>
      rw [gdtSearch] at h
      split_ifs at h with hfree
      · obtain rfl := Option.some.inj h
        exact ⟨le_rfl, by omega, hfree⟩
      · obtain ⟨h1, h2, h3⟩ := ih h
        exact ⟨by omega, by omega, h3⟩

theorem gdtFree_eq_some {gdt : Gdt} {k : ℕ} (h : gdtFree gdt = some k) :
    1 ≤ k ∧ k < gdtTableSize ∧ (gdt k).attr = 0 := by
  obtain ⟨h1, h2, h3⟩ := gdtSearch_eq_some h
  refine ⟨h1, ?_, h3⟩
  unfold gdtTableSize at *
  omega

end X86Os
