import X86Os.KernelInit
import X86Os.SchedRun

/-!
# Descriptors and their selectors

The processor reads a descriptor as eight bytes: the base from three places, the limit from two, and
the granularity bit says whether the limit counts bytes or pages. What `segment_desc_set` writes is
decoded in that layout. Then the selectors: a descriptor is taken when its attributes are not zero,
and every value that the kernel puts there, for a segment or for the call gate, is not zero.
-/

namespace X86Os

/-! ## The layout of a descriptor -/

/-- The bytes of the packed structure. -/
def SegmentDesc.bytes (desc : SegmentDesc) : Fin 8 → ℕ :=
  ![desc.limit15_0 % 2 ^ 8, desc.limit15_0 / 2 ^ 8 % 2 ^ 8, desc.base15_0 % 2 ^ 8,
    desc.base15_0 / 2 ^ 8 % 2 ^ 8, desc.base23_16 % 2 ^ 8, desc.attr % 2 ^ 8,
    desc.attr / 2 ^ 8 % 2 ^ 8, desc.base31_24 % 2 ^ 8]

namespace DescBytes

def base (b : Fin 8 → ℕ) : ℕ := b 2 + b 3 * 2 ^ 8 + b 4 * 2 ^ 16 + b 7 * 2 ^ 24

def limitField (b : Fin 8 → ℕ) : ℕ := b 0 + b 1 * 2 ^ 8 + b 6 % 2 ^ 4 * 2 ^ 16

def granular (b : Fin 8 → ℕ) : Bool := (b 6).testBit 7

/-- The access byte and the three flags below the granularity bit, in the places they have in the
field `attr`. -/
def attr (b : Fin 8 → ℕ) : ℕ := b 5 + b 6 / 2 ^ 4 % 2 ^ 3 * 2 ^ 12

def effective (granular : Bool) (field : ℕ) : ℕ :=
  if granular then field * 4096 + 4095 else field

/-- The last offset of the segment. -/
def effectiveLimit (b : Fin 8 → ℕ) : ℕ := effective (granular b) (limitField b)

/-- The limits that some descriptor has. -/
def EncodableLimit (limit : ℕ) : Prop :=
  ∃ granular field, field < 2 ^ 20 ∧ effective granular field = limit

end DescBytes

/-- The bits of `attr` that belong to the limit and its granularity. -/
def limitBits : List ℕ := [8, 9, 10, 11, 15]

theorem testBit_false_iff (n i : ℕ) : n.testBit i = false ↔ n / 2 ^ i % 2 = 0 := by
  rw [Nat.testBit_eq_decide_div_mod_eq]
  simp

theorem attr_split {attr : ℕ} (hattr : attr < 2 ^ 16)
    (hclear : ∀ i ∈ limitBits, attr.testBit i = false) :
    ∃ flags access, flags < 2 ^ 3 ∧ access < 2 ^ 8 ∧ attr = 2 ^ 12 * flags + access := by
  simp only [limitBits, List.forall_mem_cons, testBit_false_iff] at hclear
  obtain ⟨h8, h9, h10, h11, h15, -⟩ := hclear
  exact ⟨attr / 2 ^ 12, attr % 2 ^ 8, by omega, by omega, by omega⟩

/-- The field `attr` of the descriptor, from the flags, the high bits of the limit and the access
byte. -/
theorem attr_or_limit {flags access high : ℕ} (haccess : access < 2 ^ 8) (hhigh : high < 2 ^ 4) :
    (2 ^ 12 * flags + access) ||| high * 2 ^ 8 = 2 ^ 12 * flags + (2 ^ 8 * high + access) := by
  rw [Nat.two_pow_add_eq_or_of_lt (show access < 2 ^ 12 by omega),
    Nat.two_pow_add_eq_or_of_lt (show 2 ^ 8 * high + access < 2 ^ 12 by omega),
    Nat.two_pow_add_eq_or_of_lt haccess, Nat.or_assoc, Nat.or_comm access, Nat.mul_comm high]

theorem attr_or_granular {flags access : ℕ} (hflags : flags < 2 ^ 3) (haccess : access < 2 ^ 8) :
    (2 ^ 12 * flags + access) ||| 0x8000 = 2 ^ 12 * (flags + 8) + access := by
  have hlow : 2 ^ 12 * flags + access < 2 ^ 15 := by omega
  have hor := Nat.two_pow_add_eq_or_of_lt hlow 1
  rw [Nat.mul_one, Nat.or_comm] at hor
  exact hor.symm.trans (by omega)

/-- The descriptor that `segment_desc_set` writes, once the granularity is chosen. -/
def packed (base field flags access : ℕ) : SegmentDesc where
  limit15_0 := field % 2 ^ 16
  base15_0 := base % 2 ^ 16
  base23_16 := base / 2 ^ 16 % 2 ^ 8
  attr := 2 ^ 12 * flags + (2 ^ 8 * (field / 2 ^ 16 % 2 ^ 4) + access)
  base31_24 := base / 2 ^ 24 % 2 ^ 8

theorem segmentDescSet_packed (gdt : Gdt) (selector base limit : ℕ) {flags access : ℕ}
    (hflags : flags < 2 ^ 3) (haccess : access < 2 ^ 8) :
    segmentDescSet gdt selector base limit (2 ^ 12 * flags + access) =
      Function.update gdt (selector / 8)
        (if limit > 0xFFFFF then packed base (limit / 4096) (flags + 8) access
          else packed base limit flags access) := by
  have hhigh : ∀ field : ℕ, field / 2 ^ 16 % 2 ^ 4 < 2 ^ 4 := fun field => Nat.mod_lt _ (by norm_num)
  unfold segmentDescSet packed
  by_cases hlimit : limit > 0xFFFFF
  · simp only [if_pos hlimit, attr_or_granular hflags haccess, attr_or_limit haccess (hhigh _)]
  · simp only [if_neg hlimit, attr_or_limit haccess (hhigh _)]

/-! ### Decoding -/

section Decode

open DescBytes

variable {base field flags access : ℕ}

theorem base_packed (hbase : base < 2 ^ 32) :
    DescBytes.base (packed base field flags access).bytes = base := by
  simp only [DescBytes.base, SegmentDesc.bytes, packed, Matrix.cons_val]
  omega

theorem limitField_packed (hfield : field < 2 ^ 20) (haccess : access < 2 ^ 8) :
    limitField (packed base field flags access).bytes = field := by
  simp only [limitField, SegmentDesc.bytes, packed, Matrix.cons_val]
  omega

theorem attr_packed (haccess : access < 2 ^ 8) :
    DescBytes.attr (packed base field flags access).bytes = 2 ^ 12 * (flags % 8) + access := by
  simp only [DescBytes.attr, SegmentDesc.bytes, packed, Matrix.cons_val]
  omega

theorem granular_packed (haccess : access < 2 ^ 8) :
    granular (packed base field flags access).bytes = decide (flags / 8 % 2 = 1) := by
  simp only [granular, SegmentDesc.bytes, packed, Matrix.cons_val, Nat.testBit_eq_decide_div_mod_eq]
  congr 1
  have hbit : (2 ^ 12 * flags + (2 ^ 8 * (field / 2 ^ 16 % 2 ^ 4) + access)) / 2 ^ 8 % 2 ^ 8 / 2 ^ 7
      = flags / 8 % 2 := by omega
  rw [hbit, Nat.mod_mod]

theorem effectiveLimit_packed (hfield : field < 2 ^ 20) (haccess : access < 2 ^ 8) :
    effectiveLimit (packed base field flags access).bytes =
      effective (decide (flags / 8 % 2 = 1)) field := by
  rw [effectiveLimit, granular_packed haccess, limitField_packed hfield haccess]

theorem encodable_fine {limit : ℕ} (h : limit < 2 ^ 20) : EncodableLimit limit :=
  ⟨false, limit, h, rfl⟩

theorem encodable_coarse {field : ℕ} (h : field < 2 ^ 20) :
    EncodableLimit (field * 4096 + 4095) :=
  ⟨true, field, h, rfl⟩

theorem isLeast_fine {limit : ℕ} (h : limit < 2 ^ 20) :
    IsLeast {l | EncodableLimit l ∧ limit ≤ l} limit :=
  ⟨⟨encodable_fine h, le_rfl⟩, fun _ hl => hl.2⟩

/-- Above the byte granular limits only the ends of pages are encodable. -/
theorem isLeast_coarse {limit : ℕ} (hlow : 2 ^ 20 ≤ limit) (hhigh : limit < 2 ^ 32) :
    IsLeast {l | EncodableLimit l ∧ limit ≤ l} (limit / 4096 * 4096 + 4095) := by
  refine ⟨⟨encodable_coarse (by omega), by omega⟩, ?_⟩
  rintro l ⟨⟨g, field, hfield, rfl⟩, hle⟩
  cases g with
  | false =>
      simp only [effective, Bool.false_eq_true, if_false] at hle
      omega
  | true =>
      simp only [effective, if_true] at hle ⊢
      omega

end Decode

/-- What `segment_desc_set` writes, as the processor decodes it. -/
theorem segmentDescSet_decode (gdt : Gdt) (selector : ℕ) {base limit attr : ℕ}
    (hbase : base < 2 ^ 32) (hlimit : limit < 2 ^ 32) (hattr : attr < 2 ^ 16)
    (hclear : ∀ i ∈ limitBits, attr.testBit i = false) :
    let gdt' := segmentDescSet gdt selector base limit attr
    let b := (gdt' (selector / 8)).bytes
    DescBytes.base b = base ∧ DescBytes.attr b = attr ∧
    IsLeast {l | DescBytes.EncodableLimit l ∧ limit ≤ l} (DescBytes.effectiveLimit b) ∧
    (limit ≤ 0xFFFFF ∨ limit % 0x1000 = 0xFFF → DescBytes.effectiveLimit b = limit) ∧
    ∀ i, i ≠ selector / 8 → gdt' i = gdt i := by
  obtain ⟨flags, access, hflags, haccess, rfl⟩ := attr_split hattr hclear
  simp only [segmentDescSet_packed gdt selector base limit hflags haccess, Function.update_self]
  refine ⟨?_, ?_, ?_, ?_, fun i hi => Function.update_of_ne hi _ _⟩
  · split_ifs
    · exact base_packed hbase
    · exact base_packed hbase
  · split_ifs
    · rw [attr_packed haccess]
      omega
    · rw [attr_packed haccess]
      omega
  · split_ifs with hbig
    · rw [effectiveLimit_packed (by omega) haccess, decide_eq_true (by omega)]
      exact isLeast_coarse (by omega) hlimit
    · rw [effectiveLimit_packed (by omega) haccess, decide_eq_false (by omega)]
      exact isLeast_fine (by omega)
  · intro hexact
    split_ifs with hbig
    · rw [effectiveLimit_packed (by omega) haccess, decide_eq_true (by omega), DescBytes.effective,
        if_pos rfl]
      omega
    · rw [effectiveLimit_packed (by omega) haccess, decide_eq_false (by omega)]
      rfl

/-- The descriptor of a task's state segment. -/
theorem segmentDescSet_decode_tss :
    let gdt' := segmentDescSet (fun _ => .zero) 32 0x2000 104 (segPPresent ||| segTypeTss)
    let b := (gdt' (32 / 8)).bytes
    DescBytes.base b = 0x2000 ∧ DescBytes.attr b = segPPresent ||| segTypeTss ∧
    IsLeast {l | DescBytes.EncodableLimit l ∧ 104 ≤ l} (DescBytes.effectiveLimit b) ∧
    (104 ≤ 0xFFFFF ∨ 104 % 0x1000 = 0xFFF → DescBytes.effectiveLimit b = 104) ∧
    ∀ i, i ≠ 32 / 8 → gdt' i = .zero :=
  segmentDescSet_decode (fun _ => .zero) 32 (by norm_num) (by norm_num) (by decide) (by decide)

/-! ## Selectors in use -/

theorem gdtSearch_eq_none {gdt : Gdt} {n i : ℕ} :
    gdtSearch gdt n i = none ↔ ∀ k, i ≤ k → k < i + n → (gdt k).attr ≠ 0 := by
  induction n generalizing i with
  | zero => exact ⟨fun _ k h1 h2 => by omega, fun _ => rfl⟩
  | succ n ih =>
      rw [gdtSearch]
      constructor
      · intro h k h1 h2
        split_ifs at h with hi
        rcases Nat.eq_or_lt_of_le h1 with rfl | hlt
        · exact hi
        · exact ih.mp h k hlt (by omega)
      · intro h
        rw [if_neg (h i le_rfl (by omega))]
        exact ih.mpr fun k h1 h2 => h k (by omega) (by omega)

theorem gdtFree_eq_none {gdt : Gdt} :
    gdtFree gdt = none ↔ ∀ k, 1 ≤ k → k < gdtTableSize → (gdt k).attr ≠ 0 := by
  rw [gdtFree, gdtSearch_eq_none]
  rfl

namespace Kernel

/-- The first slot that `gdt_alloc_desc` can give away. -/
def firstSlot : ℕ := 4

/-- A kernel, and the selectors that `gdt_alloc_desc` returned and that are not freed yet. -/
structure GdtUse where
  kernel : Kernel
  outstanding : List ℕ

inductive GdtAction
  | alloc
  | set (sel base limit attr : ℕ)
  | free (sel : ℕ)

/-- The selectors in use after `gdt_alloc_desc` returned `sel`. -/
def keepSel (outstanding : List ℕ) (sel : ℤ) : List ℕ :=
  if sel = -1 then outstanding else sel.toNat :: outstanding

def gdtStep (u : GdtUse) : GdtAction → Option GdtUse
  | .alloc => (gdtAllocDesc u.kernel).map fun r => ⟨r.2, keepSel u.outstanding r.1⟩
  | .set sel base limit attr =>
    (segmentDescSet sel base limit attr u.kernel).map fun r => ⟨r.2, u.outstanding⟩
  | .free sel => (gdtFreeSel sel u.kernel).map fun r => ⟨r.2, u.outstanding.erase sel⟩

/-- The descriptor table from `init_gdt` on. -/
def gdtMachine : Machine GdtUse GdtAction where
  init u := ∃ L s, initGdt L s = some ((), u.kernel) ∧ u.outstanding = []
  enabled u
    | .alloc => True
    | .set sel base limit attr => sel ∈ u.outstanding ∧ base < 2 ^ 32 ∧ limit < 2 ^ 32 ∧
        attr < 2 ^ 16 ∧ attr &&& segPPresent ≠ 0
    | .free sel => sel ∈ u.outstanding
  step := gdtStep

/-- A slot is taken exactly while its selector is in use. -/
structure GdtTracked (gdt : Gdt) (outstanding : List ℕ) : Prop where
  nodup : outstanding.Nodup
  slot : ∀ sel ∈ outstanding, ∃ i, firstSlot ≤ i ∧ i < gdtTableSize ∧ sel = 8 * i
  reserved : ∀ i, 1 ≤ i → i < firstSlot → (gdt i).attr ≠ 0
  taken : ∀ i, firstSlot ≤ i → i < gdtTableSize → ((gdt i).attr ≠ 0 ↔ 8 * i ∈ outstanding)

variable {u u' : GdtUse} {s s' : Kernel} {L : Layout}

/-- The table that `init_gdt` leaves. -/
def initialGdt (L : Layout) : Gdt :=
  Function.update
    (X86Os.segmentDescSet
      (X86Os.segmentDescSet (fun _ => .zero) kernelSelectorDs 0 0xFFFFFFFF
        (segPPresent ||| segDpl0 ||| segSNormal ||| segTypeData ||| segTypeRw ||| segD))
      kernelSelectorCs 0 0xFFFFFFFF
      (segPPresent ||| segDpl0 ||| segSNormal ||| segTypeCode ||| segTypeRw ||| segD))
    (selectorSyscall / 8)
    (gateDesc kernelSelectorCs L.exceptionHandlerSyscall
      (gatePPresent ||| gateDpl3 ||| gateTypeSyscall ||| syscallParamCount))

theorem initGdt_eq (L : Layout) (s : Kernel) :
    initGdt L s = some ((), { s with gdt := initialGdt L }) := rfl

theorem or_ne_zero {m : ℕ} (n : ℕ) (h : m ≠ 0) : m ||| n ≠ 0 := by
  intro h0
  exact h (Nat.or_eq_zero_iff.mp h0).1

/-- Whatever base and limit, the attributes keep the bits that were asked for. -/
theorem segmentDescSet_attr_ne_zero {attr : ℕ} (gdt : Gdt) (sel base limit : ℕ) (h : attr ≠ 0) :
    (X86Os.segmentDescSet gdt sel base limit attr (sel / 8)).attr ≠ 0 := by
  simp only [X86Os.segmentDescSet, Function.update_self]
  apply or_ne_zero
  split_ifs
  · exact or_ne_zero _ h
  · exact h

/-- The upper byte of the gate's own attributes shares its place with bits of the handler's
address. -/
theorem gateDesc_attr_ne_zero {attr : ℕ} (selector offset : ℕ) (h : 2 ^ 8 ≤ attr) :
    (gateDesc selector offset attr).attr ≠ 0 := by
  apply or_ne_zero
  have hdiv : 0 < attr / 2 ^ 8 := Nat.div_pos h (by norm_num)
  omega

theorem segmentDescSet_of_ne {attr i : ℕ} (gdt : Gdt) {sel : ℕ} (base limit : ℕ) (h : i ≠ sel / 8) :
    X86Os.segmentDescSet gdt sel base limit attr i = gdt i := Function.update_of_ne h _ _

theorem initialGdt_reserved (L : Layout) {i : ℕ} (h1 : 1 ≤ i) (h4 : i < firstSlot) :
    (initialGdt L i).attr ≠ 0 := by
  have hcases : i = kernelSelectorCs / 8 ∨ i = kernelSelectorDs / 8 ∨ i = selectorSyscall / 8 := by
    unfold firstSlot kernelSelectorCs kernelSelectorDs selectorSyscall at *
    omega
  rcases hcases with rfl | rfl | rfl
  · rw [initialGdt, Function.update_of_ne (by decide)]
    exact segmentDescSet_attr_ne_zero _ _ _ _ (by decide)
  · rw [initialGdt, Function.update_of_ne (by decide), segmentDescSet_of_ne _ _ _ (by decide)]
    exact segmentDescSet_attr_ne_zero _ _ _ _ (by decide)
  · rw [initialGdt, Function.update_self]
    exact gateDesc_attr_ne_zero _ _ (by decide)

theorem initialGdt_free (L : Layout) {i : ℕ} (hi : firstSlot ≤ i) : (initialGdt L i).attr = 0 := by
  have h1 : i ≠ kernelSelectorCs / 8 := by
    unfold firstSlot kernelSelectorCs at *
    omega
  have h2 : i ≠ kernelSelectorDs / 8 := by
    unfold firstSlot kernelSelectorDs at *
    omega
  have h3 : i ≠ selectorSyscall / 8 := by
    unfold firstSlot selectorSyscall at *
    omega
  rw [initialGdt, Function.update_of_ne h3, segmentDescSet_of_ne _ _ _ h1,
    segmentDescSet_of_ne _ _ _ h2]
  rfl

/-! ### What one operation does to the slots -/

namespace GdtTracked

variable {gdt : Gdt} {outstanding : List ℕ} {i : ℕ}

theorem initial (L : Layout) : GdtTracked (initialGdt L) [] where
  nodup := List.nodup_nil
  slot := by simp
  reserved _ h1 h4 := initialGdt_reserved L h1 h4
  taken _ hi _ := by simp [initialGdt_free L hi]

/-- The slot that is found was free, so its selector is not in use. -/
theorem found (h : GdtTracked gdt outstanding) (hfree : gdtFree gdt = some i) :
    firstSlot ≤ i ∧ i < gdtTableSize ∧ 8 * i ∉ outstanding := by
  obtain ⟨h1, hi, h0⟩ := gdtFree_eq_some hfree
  have h4 : firstSlot ≤ i := by
    by_contra hlt
    exact h.reserved i h1 (by omega) h0
  exact ⟨h4, hi, fun hmem => (h.taken i h4 hi).mpr hmem h0⟩

theorem alloc (h : GdtTracked gdt outstanding) (hfree : gdtFree gdt = some i) :
    GdtTracked (Function.update gdt i { gdt i with attr := segPPresent }) (8 * i :: outstanding) := by
  obtain ⟨h4, hi, hnew⟩ := h.found hfree
  refine ⟨List.nodup_cons.mpr ⟨hnew, h.nodup⟩, ?_, ?_, ?_⟩
  · intro sel hsel
    rcases List.mem_cons.mp hsel with rfl | hsel
    · exact ⟨i, h4, hi, rfl⟩
    · exact h.slot sel hsel
  · intro j hj1 hj4
    rw [Function.update_of_ne (by omega)]
    exact h.reserved j hj1 hj4
  · intro j hj4 hj
    by_cases hji : j = i
    · subst j
      simp [segPPresent]
    · rw [Function.update_of_ne hji, h.taken j hj4 hj, List.mem_cons]
      constructor
      · exact .inr
      · rintro (heq | hmem)
        · omega
        · exact hmem

theorem set {base limit attr : ℕ} (h : GdtTracked gdt outstanding) (hsel : 8 * i ∈ outstanding)
    (hattr : attr ≠ 0) :
    GdtTracked (X86Os.segmentDescSet gdt (8 * i) base limit attr) outstanding := by
  obtain ⟨_, h4, hi, hsame⟩ := h.slot _ hsel
  have hdiv : 8 * i / 8 = i := by omega
  refine ⟨h.nodup, h.slot, ?_, ?_⟩
  · intro j hj1 hj4
    rw [segmentDescSet_of_ne _ _ _ (by omega)]
    exact h.reserved j hj1 hj4
  · intro j hj4 hj
    by_cases hji : j = i
    · subst j
      have hne := segmentDescSet_attr_ne_zero gdt (8 * i) base limit hattr
      rw [hdiv] at hne
      exact iff_of_true hne hsel
    · rw [segmentDescSet_of_ne _ _ _ (by omega)]
      exact h.taken j hj4 hj

theorem free (h : GdtTracked gdt outstanding) (hsel : 8 * i ∈ outstanding) :
    GdtTracked (X86Os.gdtFreeSel gdt (8 * i)) (outstanding.erase (8 * i)) := by
  obtain ⟨_, h4, hi, hsame⟩ := h.slot _ hsel
  have hdiv : 8 * i / 8 = i := by omega
  refine ⟨h.nodup.erase _, fun sel hsel => h.slot sel (List.mem_of_mem_erase hsel), ?_, ?_⟩
  · intro j hj1 hj4
    rw [X86Os.gdtFreeSel, Function.update_of_ne (by omega)]
    exact h.reserved j hj1 hj4
  · intro j hj4 hj
    rw [X86Os.gdtFreeSel, hdiv, h.nodup.mem_erase_iff]
    by_cases hji : j = i
    · subst j
      simp
    · rw [Function.update_of_ne hji, h.taken j hj4 hj]
      exact ⟨fun hmem => ⟨by omega, hmem⟩, And.right⟩

theorem gdtFree_eq_none (h : GdtTracked gdt outstanding) : gdtFree gdt = none ↔
    ∀ i, firstSlot ≤ i → i < gdtTableSize → 8 * i ∈ outstanding := by
  rw [X86Os.gdtFree_eq_none]
  constructor
  · intro hall i h4 hi
    exact (h.taken i h4 hi).mp (hall i (by unfold firstSlot at h4; omega) hi)
  · intro hall i h1 hi
    by_cases h4 : firstSlot ≤ i
    · exact (h.taken i h4 hi).mpr (hall i h4 hi)
    · exact h.reserved i h1 (by omega)

end GdtTracked

/-- Either the table is full, or the first free slot is marked. -/
theorem gdtAllocDesc_cases {s s' : Kernel} {sel : ℤ} (h : gdtAllocDesc s = some (sel, s')) :
    (gdtFree s.gdt = none ∧ sel = -1 ∧ s' = s) ∨
    ∃ i : ℕ, gdtFree s.gdt = some i ∧ sel = ((8 * i : ℕ) : ℤ) ∧ s' = { s with
      gdt := Function.update s.gdt i { s.gdt i with attr := segPPresent } } := by
  cases hfree : gdtFree s.gdt with
  | none => exact .inl ⟨rfl, Prog.result_unique h (gdtAllocDesc_none hfree)⟩
  | some i => exact .inr ⟨i, rfl, Prog.result_unique h (gdtAllocDesc_some hfree)⟩

theorem gdtStep_tracked {a : GdtAction} (h : GdtTracked u.kernel.gdt u.outstanding)
    (he : gdtMachine.enabled u a) (hs : gdtStep u a = some u') :
    GdtTracked u'.kernel.gdt u'.outstanding := by
  cases a with
  | alloc =>
      rw [gdtStep, Option.map_eq_some_iff] at hs
      obtain ⟨⟨sel, s⟩, halloc, rfl⟩ := hs
      rcases gdtAllocDesc_cases halloc with ⟨-, rfl, rfl⟩ | ⟨i, hfree, rfl, rfl⟩
      · exact h
      · have hkeep : keepSel u.outstanding ((8 * i : ℕ) : ℤ) = 8 * i :: u.outstanding := by
          rw [keepSel, if_neg (by omega), Int.toNat_natCast]
        exact hkeep ▸ h.alloc hfree
  | set sel base limit attr =>
      obtain ⟨hsel, -, -, -, hpresent⟩ := he
      obtain ⟨i, -, -, rfl⟩ := h.slot sel hsel
      rw [gdtStep, Option.map_eq_some_iff] at hs
      obtain ⟨⟨⟨⟩, s⟩, hset, rfl⟩ := hs
      obtain rfl := Prog.modify_eq_some.mp hset
      refine h.set hsel ?_
      rintro rfl
      exact hpresent (Nat.zero_and _)
  | free sel =>
      obtain ⟨i, -, -, rfl⟩ := h.slot sel he
      rw [gdtStep, Option.map_eq_some_iff] at hs
      obtain ⟨⟨⟨⟩, s⟩, hfree, rfl⟩ := hs
      obtain rfl := gdtFreeSel_eq_some.mp hfree
      exact h.free he

theorem gdtTracked_of_reach (h : gdtMachine.Reach u) : GdtTracked u.kernel.gdt u.outstanding := by
  refine h.invariant ?_ fun u a u' hu he hs => gdtStep_tracked hu he hs
  rintro ⟨k, outstanding⟩ ⟨L, s, hs, rfl⟩
  obtain ⟨-, rfl⟩ := Prod.mk.inj (Option.some.inj hs)
  exact .initial L

/-- The selectors in use in any run from `init_gdt`, and what the next operation changes. -/
theorem gdt_slots (h : gdtMachine.Reach u) :
    u.outstanding.Nodup ∧
    (∀ sel ∈ u.outstanding, 8 ∣ sel ∧ 32 ≤ sel ∧ sel ≤ 8 * (gdtTableSize - 1)) ∧
    (∀ sel s', gdtAllocDesc u.kernel = some (sel, s') →
      (sel = -1 ↔ ∀ i, firstSlot ≤ i → i < gdtTableSize → 8 * i ∈ u.outstanding) ∧
      ∀ i : ℕ, ((8 * i : ℕ) : ℤ) ≠ sel → s'.gdt i = u.kernel.gdt i) ∧
    (∀ sel ∈ u.outstanding, ∀ base limit attr s',
      segmentDescSet sel base limit attr u.kernel = some ((), s') →
      ∀ i, 8 * i ≠ sel → s'.gdt i = u.kernel.gdt i) ∧
    ∀ sel ∈ u.outstanding, ∀ s', gdtFreeSel sel u.kernel = some ((), s') →
      ∀ i, 8 * i ≠ sel → s'.gdt i = u.kernel.gdt i := by
  have htracked := gdtTracked_of_reach h
  refine ⟨htracked.nodup, ?_, ?_, ?_, ?_⟩
  · intro sel hsel
    obtain ⟨i, h4, hi, rfl⟩ := htracked.slot sel hsel
    unfold firstSlot at h4
    exact ⟨⟨i, rfl⟩, by omega, by omega⟩
  · intro sel s' halloc
    rw [← htracked.gdtFree_eq_none]
    rcases gdtAllocDesc_cases halloc with ⟨hfree, rfl, rfl⟩ | ⟨k, hfree, rfl, rfl⟩
    · exact ⟨iff_of_true rfl hfree, fun i _ => rfl⟩
    · refine ⟨iff_of_false (by omega) (by simp [hfree]), fun i hi => ?_⟩
      exact Function.update_of_ne (by rintro rfl; exact hi rfl) _ _
  · intro sel hsel base limit attr s' hset i hi
    obtain ⟨j, -, -, rfl⟩ := htracked.slot sel hsel
    obtain rfl := Prog.modify_eq_some.mp hset
    exact segmentDescSet_of_ne _ _ _ (by omega)
  · intro sel hsel s' hfree i hi
    obtain ⟨j, -, -, rfl⟩ := htracked.slot sel hsel
    obtain rfl := gdtFreeSel_eq_some.mp hfree
    exact Function.update_of_ne (by omega) _ _

/-- A kernel with nothing but a descriptor table. -/
def onlyGdt (gdt : Gdt) : Kernel where
  vm := { mem := Mem.zero, alloc := addrAllocInit (fun _ => 0) 0x300000 0x1000 memPageSize,
          cr3 := 0, frees := [] }
  tempPos := 0
  gdt := gdt
  gdtFrees := []
  task _ := .zero
  sched := Sched.zeroed
  appCodeSel := 0
  appDataSel := 0

/-- A selector is taken and set up, another one is taken, and the first one is given back. -/
def reusedSelector : GdtUse :=
  let first := Function.update (initialGdt sampleLayout) 4
    { initialGdt sampleLayout 4 with attr := segPPresent }
  let tss := X86Os.segmentDescSet first 32 0x28050 tssSize (segPPresent ||| segDpl0 ||| segTypeTss)
  let second := Function.update tss 5 { tss 5 with attr := segPPresent }
  { kernel := { onlyGdt (X86Os.gdtFreeSel second 32) with gdtFrees := [32] }
    outstanding := [40] }

theorem reusedSelector_reach : gdtMachine.Reach reusedSelector := by
  let boot : GdtUse := ⟨onlyGdt (initialGdt sampleLayout), []⟩
  let first : GdtUse := ⟨onlyGdt (Function.update boot.kernel.gdt 4
    { boot.kernel.gdt 4 with attr := segPPresent }), [32]⟩
  let tss : GdtUse := ⟨onlyGdt (X86Os.segmentDescSet first.kernel.gdt 32 0x28050 tssSize
    (segPPresent ||| segDpl0 ||| segTypeTss)), [32]⟩
  let second : GdtUse := ⟨onlyGdt (Function.update tss.kernel.gdt 5
    { tss.kernel.gdt 5 with attr := segPPresent }), [40, 32]⟩
  have hinit : gdtMachine.init boot := ⟨sampleLayout, onlyGdt fun _ => .zero, rfl, rfl⟩
  have hset : 32 ∈ first.outstanding ∧ 0x28050 < 2 ^ 32 ∧ tssSize < 2 ^ 32 ∧
      segPPresent ||| segDpl0 ||| segTypeTss < 2 ^ 16 ∧
      (segPPresent ||| segDpl0 ||| segTypeTss) &&& segPPresent ≠ 0 := by decide
  have hfree : 32 ∈ second.outstanding := by decide
  have h₁ : gdtMachine.Reach first := .step (a := .alloc) (.init hinit) trivial rfl
  have h₂ : gdtMachine.Reach tss := .step (a := .set 32 0x28050 tssSize _) h₁ hset rfl
  have h₃ : gdtMachine.Reach second := .step (a := .alloc) h₂ trivial rfl
  exact .step (a := .free 32) h₃ hfree rfl

/-- The selector that was given back is the next one, and no other descriptor changes. -/
theorem gdt_slots_reused : reusedSelector.outstanding.Nodup ∧
    (∀ sel ∈ reusedSelector.outstanding, 8 ∣ sel ∧ 32 ≤ sel ∧ sel ≤ 8 * (gdtTableSize - 1)) ∧
    ∃ s', gdtAllocDesc reusedSelector.kernel = some (32, s') ∧
      ∀ i : ℕ, ((8 * i : ℕ) : ℤ) ≠ 32 → s'.gdt i = reusedSelector.kernel.gdt i := by
  have h := gdt_slots reusedSelector_reach
  have hfree : gdtFree reusedSelector.kernel.gdt = some 4 := rfl
  have halloc := gdtAllocDesc_some hfree
  exact ⟨h.1, h.2.1, _, halloc, (h.2.2.1 _ _ halloc).2⟩

end Kernel

end X86Os
