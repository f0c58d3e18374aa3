import X86Os.MapLookup
import X86Os.Transfer

/-!
# Copying into another address space

The loop of `memory_copy_uvm_data` moves bytes to the places that `memory_get_paddr` names, and stops
at the start of a chunk for which it names none. In a mapped page this is the frame; in a page whose
entry is zero it is the offset in physical page zero, which is no error unless the offset is zero.
-/

namespace X86Os

variable {dir dest src size : ℕ} {d a : ℕ → ℕ} {s : Vm}

/-! ## Enough rounds -/

theorem copyUvmDataLoop_succ {fuel : ℕ} (h : size ≤ fuel) :
    memoryCopyUvmDataLoop dir (fuel + 1) dest src size =
      memoryCopyUvmDataLoop dir fuel dest src size := by
  induction fuel generalizing dest src size with
  | zero =>
      obtain rfl : size = 0 := by omega
      rfl
  | succ fuel ih =>
      rw [memoryCopyUvmDataLoop, memoryCopyUvmDataLoop]
      by_cases hz : size = 0
      · rw [if_pos hz, if_pos hz]
      · rw [if_neg hz, if_neg hz]
        congr 1
        funext toPaddr
        have hless : size - min size (memPageSize - toPaddr % memPageSize) ≤ fuel := by
          unfold memPageSize
          omega
        by_cases hp : toPaddr = 0
        · rw [if_pos hp, if_pos hp]
        · rw [if_neg hp, if_neg hp]
          dsimp only
          rw [ih hless]

/-- The loop ends after at most `size` rounds. -/
theorem copyUvmDataLoop_fuel {fuel : ℕ} (h : size ≤ fuel) :
    memoryCopyUvmDataLoop dir fuel dest src size = memoryCopyUvmData dest dir src size := by
  induction fuel, h using Nat.le_induction with
  | base => rfl
  | succ fuel h ih => rw [copyUvmDataLoop_succ h, ih]

/-! ## The bytes that are moved -/

/-- The first `N` bytes go to the addresses `d 0, d 1, …` in pages that hold no table, and come from
the addresses `a 0, a 1, …`, whatever has been written before. -/
structure Landing (dir dest src N : ℕ) (d a : ℕ → ℕ) (s : Vm) : Prop where
  directory : Directory s.mem dir
  page : ∀ k < N, ∃ x, s.mem.pteWord dir (pdeIndex (dest + k)) (pteIndex (dest + k)) = some x ∧
    d k = entryPaddr x + (dest + k) % memPageSize ∧ Identity (entryPaddr x) ∧ entryPaddr x ≠ dir ∧
    ∀ i < pdeCnt, Present (s.mem.pde dir i) → s.mem.table dir i ≠ entryPaddr x
  source : ∀ k < N, ∀ m : Mem, (∀ x, (∀ l < N, x ≠ d l) → m x = s.mem x) →
    ({ s with mem := m } : Vm).phys (src + k) = some (a k)

/-- The state after `k` bytes. -/
def moved (s : Vm) (d a : ℕ → ℕ) (k : ℕ) : Vm := { s with mem := s.mem.transfer d a k }

namespace Landing

variable {N : ℕ}

theorem identity (h : Landing dir dest src N d a s) {k : ℕ} (hk : k < N) : Identity (d k) := by
  obtain ⟨x, -, hd, hid, -⟩ := h.page k hk
  rw [hd]
  exact hid.add (entryPaddr_mod x) (Nat.mod_lt _ (by decide))

/-- No byte of the directory or a table is written. -/
theorem outside (h : Landing dir dest src N d a s) {j x p : ℕ} (hj : j ≤ N)
    (hp : p % memPageSize = 0) (hx : InPage p x)
    (hpd : p = dir ∨ ∃ i < pdeCnt, Present (s.mem.pde dir i) ∧ s.mem.table dir i = p) :
    s.mem.transfer d a j x = s.mem x := by
  refine Mem.transfer_out fun k hk he => ?_
  obtain ⟨y, -, hd, -, hdir, htable⟩ := h.page k (by omega)
  have hin : InPage (entryPaddr y) x := by
    rw [he, hd]
    unfold InPage memPageSize
    omega
  have heq := InPage.unique hp (entryPaddr_mod y) hx hin
  rcases hpd with rfl | ⟨i, hi, hpres, rfl⟩
  · exact hdir heq.symm
  · exact htable i hi hpres heq

/-- Lookups stay the same while bytes are moved. -/
theorem memoryGetPaddr (h : Landing dir dest src N d a s) {j v : ℕ} (hj : j ≤ N) (hv : v < 2 ^ 32) :
    memoryGetPaddr dir v (moved s d a j) = some (s.mem.lookup dir v, moved s d a j) := by
  have hi := pdeIndex_lt hv
  have hdir : ∀ x, InPage dir x → s.mem.transfer d a j x = s.mem x := fun x hx =>
    h.outside hj h.directory.dirPage.aligned hx (.inl rfl)
  have hpde : (s.mem.transfer d a j).pde dir (pdeIndex v) = s.mem.pde dir (pdeIndex v) :=
    Mem.read32_congr fun x hx hx' => hdir x (inPage_word hi hx hx')
  have hword : (s.mem.transfer d a j).pteWord dir (pdeIndex v) (pteIndex v) =
      s.mem.pteWord dir (pdeIndex v) (pteIndex v) :=
    Mem.pteWord_congr hi (pteIndex_lt v) hdir fun hp x hx =>
      h.outside hj (entryPaddr_mod _) hx (.inr ⟨_, hi, hp, rfl⟩)
  have hget := memoryGetPaddr_eq (s := moved s d a j) h.directory.dirPage hv fun hp => by
    have hp' : Present (s.mem.pde dir (pdeIndex v)) := hpde ▸ hp
    show KernelPage ((s.mem.transfer d a j).table dir (pdeIndex v))
    rw [Mem.table, hpde]
    exact (h.directory.tablePage _ hi hp').1
  rw [hget]
  show some ((s.mem.transfer d a j).lookup dir v, _) = _
  rw [Mem.lookup, hword]
  rfl

/-- A chunk of the copy. -/
theorem memcpyLoop (h : Landing dir dest src N d a s) (hsrc : src + N ≤ 2 ^ 32) {c k p : ℕ}
    (hk : k + c ≤ N) (hp : ∀ t < c, d (k + t) = p + t) :
    memcpyLoop c p (src + k) (moved s d a k) = some ((), moved s d a (k + c)) := by
  induction c generalizing k p with
  | zero => rfl
  | succ c ih =>
      have hp0 : d k = p := hp 0 (by omega)
      have hid : Identity p := hp0 ▸ h.identity (show k < N by omega)
      have hload : load8 (src + k) (moved s d a k) =
          some (s.mem.transfer d a k (a k), moved s d a k) := by
        have hphys := h.source k (by omega) (s.mem.transfer d a k) fun x hx =>
          Mem.transfer_out fun l hl => hx l (by omega)
        have hphys' : (moved s d a k).phys (src + k) = some (a k) := hphys
        rw [load8, hphys']
        rfl
      have hstore : store8 p (s.mem.transfer d a k (a k)) (moved s d a k) =
          some ((), moved s d a (k + 1)) := by
        rw [store8_of_identity hid, ← hp0]
        rfl
      rw [X86Os.memcpyLoop, Prog.bind_of_eq hload, Prog.bind_of_eq hstore,
        u32_of_lt (show p + 1 < 2 ^ 32 by have := hid.lt; omega)]
      cases c with
      | zero => rfl
      | succ c =>
          rw [u32_of_lt (show src + k + 1 < 2 ^ 32 by omega), Nat.add_assoc src k 1,
            ih (k := k + 1) (by omega) fun t ht => by
              rw [show k + 1 + t = k + (t + 1) by omega, hp (t + 1) (by omega)]
              omega]
          rw [show k + 1 + (c + 1) = k + (c + 1 + 1) by omega]

/-- The place of a byte is what `memory_get_paddr` names, with the offset of its address. -/
theorem lookup_eq (h : Landing dir dest src N d a s) {k : ℕ} (hk : k < N) :
    s.mem.lookup dir (dest + k) = d k ∧ d k % memPageSize = (dest + k) % memPageSize := by
  obtain ⟨x, hx, hd, -⟩ := h.page k hk
  have hlt := (h.identity hk).lt
  have hal := entryPaddr_mod x
  constructor
  · rw [Mem.lookup, hx]
    simp only [← hd]
    exact u32_of_lt (by omega)
  · unfold memPageSize at *
    omega

/-- Bytes of one target page stay together. -/
theorem place_add (h : Landing dir dest src N d a s) {k t : ℕ} (hk : k + t < N)
    (ht : (dest + k) % memPageSize + t < memPageSize) : d (k + t) = d k + t := by
  obtain ⟨x, hx, hd, -⟩ := h.page k (by omega)
  obtain ⟨y, hy, hd', -⟩ := h.page (k + t) hk
  have hi : pdeIndex (dest + (k + t)) = pdeIndex (dest + k) := by
    unfold pdeIndex memPageSize at *
    omega
  have hj : pteIndex (dest + (k + t)) = pteIndex (dest + k) := by
    unfold pteIndex memPageSize at *
    omega
  rw [hi, hj, hx] at hy
  obtain rfl : x = y := Option.some.inj hy
  rw [hd, hd']
  unfold memPageSize at *
  omega

/-- The loop at the start of a chunk goes on to `N`, where it ends or finds no place. -/
theorem run (h : Landing dir dest src N d a s) (hdest : dest + size ≤ 2 ^ 32)
    (hsrc : src + size ≤ 2 ^ 32) (hnull : src ≠ 0) (hN : N ≤ size)
    (hplace : ∀ k < N, k = 0 ∨ (dest + k) % memPageSize = 0 → d k ≠ 0)
    (hstop : N = size ∨ (N < size ∧ (N = 0 ∨ (dest + N) % memPageSize = 0) ∧
      s.mem.lookup dir (dest + N) = 0)) {fuel k : ℕ} (hfuel : size - k ≤ fuel) (hk : k ≤ N)
    (hstart : k = size ∨ k = 0 ∨ (dest + k) % memPageSize = 0) :
    memoryCopyUvmDataLoop dir fuel (u32 (dest + k)) (u32 (src + k)) (size - k) (moved s d a k) =
      some (if N = size then 0 else -1, moved s d a N) := by
  induction fuel generalizing k with
  | zero =>
      obtain rfl : k = N := by omega
      obtain rfl : k = size := by omega
      rw [if_pos rfl]
      rfl
  | succ fuel ih =>
      rw [memoryCopyUvmDataLoop]
      by_cases hks : k = size
      · obtain rfl : k = N := by omega
        rw [if_pos (by omega), if_pos hks]
        rfl
      · have hchunk : k = 0 ∨ (dest + k) % memPageSize = 0 := hstart.resolve_left hks
        rw [if_neg (by omega), u32_of_lt (show dest + k < 2 ^ 32 by omega),
          u32_of_lt (show src + k < 2 ^ 32 by omega),
          Prog.bind_of_eq (h.memoryGetPaddr hk (by omega))]
        by_cases hkN : k = N
        · subst k
          rcases hstop with hs | ⟨-, -, hzero⟩
          · exact absurd hs hks
          · rw [hzero, if_pos rfl, if_neg hks]
            rfl
        · have hlt : k < N := by omega
          obtain ⟨hlookup, hoff⟩ := h.lookup_eq hlt
          have hne := hplace k hlt hchunk
          rw [hlookup, if_neg hne, hoff]
          generalize hc : min (size - k) (memPageSize - (dest + k) % memPageSize) = c
          have hpage : (dest + k) % memPageSize < memPageSize := Nat.mod_lt _ (by decide)
          have hcN : k + c ≤ N := by
            rcases hstop with hs | ⟨-, hchunkN, -⟩
            · omega
            · unfold memPageSize at *
              omega
          have hcopy : kernelMemcpy (d k) (src + k) c (moved s d a k) =
              some ((), moved s d a (k + c)) := by
            rw [kernelMemcpy, if_neg (by omega)]
            exact h.memcpyLoop (by omega) hcN fun t ht => h.place_add (by omega) (by omega)
          have hnext : k + c = size ∨ k + c = 0 ∨ (dest + (k + c)) % memPageSize = 0 := by
            unfold memPageSize at *
            omega
          have hrest := ih (k := k + c) (by omega) hcN hnext
          rw [Prog.bind_of_eq hcopy, Nat.sub_sub, Nat.add_assoc, Nat.add_assoc]
          exact hrest

/-- The whole call. -/
theorem copy (h : Landing dir dest src N d a s) (hdest : dest + size ≤ 2 ^ 32)
    (hsrc : src + size ≤ 2 ^ 32) (hnull : src ≠ 0) (hN : N ≤ size)
    (hplace : ∀ k < N, k = 0 ∨ (dest + k) % memPageSize = 0 → d k ≠ 0)
    (hstop : N = size ∨ (N < size ∧ (N = 0 ∨ (dest + N) % memPageSize = 0) ∧
      s.mem.lookup dir (dest + N) = 0)) :
    memoryCopyUvmData dest dir src size s = some (if N = size then 0 else -1, moved s d a N) := by
  cases size with
  | zero =>
      obtain rfl : N = 0 := by omega
      rfl
  | succ size =>
      have hfuel : size + 1 - 0 ≤ size + 1 := le_rfl
      have hrun := h.run hdest hsrc hnull hN hplace hstop hfuel (Nat.zero_le N) (.inr (.inl rfl))
      rw [Nat.add_zero, Nat.add_zero, u32_of_lt (by omega), u32_of_lt (by omega)] at hrun
      exact hrun

end Landing

/-! ## The copy -/

/-- The present entry for the user address `v`. -/
abbrev Mem.entryAt (m : Mem) (dir v : ℕ) : Option ℕ := m.userEntry dir (pdeIndex v) (pteIndex v)

/-- The frames of the target range. -/
def TargetFrame (m : Mem) (dir dest size p : ℕ) : Prop :=
  ∃ k < size, ∃ e, m.entryAt dir (dest + k) = some e ∧ p = entryPaddr e

/-- The ranges do not wrap; the mapped target pages have different frames, which hold no table of the
target or the current directory and none of the source bytes; and all source bytes can be read. -/
structure CopyInput (dir dest src size : ℕ) (s : Vm) : Prop where
  directory : Directory s.mem dir
  dest_end : dest + size ≤ 2 ^ 32
  src_end : src + size ≤ 2 ^ 32
  src_ne : src ≠ 0
  frame : ∀ p, TargetFrame s.mem dir dest size p → KernelPage p ∧ p ≠ dir ∧
    ∀ i < pdeCnt, Present (s.mem.pde dir i) → s.mem.table dir i ≠ p
  distinct : ∀ k < size, ∀ l < size, ∀ e e', s.mem.entryAt dir (dest + k) = some e →
    s.mem.entryAt dir (dest + l) = some e' → entryPaddr e = entryPaddr e' →
    (dest + k) / memPageSize = (dest + l) / memPageSize
  source : ∀ k < size, ∃ q, s.phys (src + k) = some q ∧
    ∀ p, TargetFrame s.mem dir dest size p → ¬ InPage p q
  current : ∀ k < size, memoryTaskBase ≤ src + k →
    ∀ p, p = entryPaddr s.cr3 ∨ p = s.mem.table (entryPaddr s.cr3) (pdeIndex (src + k)) →
      KernelPage p ∧ ¬ TargetFrame s.mem dir dest size p

/-- The result is zero exactly if every page of the target range is mapped, and exactly the bytes
before the first unmapped page were copied. -/
def CopiesRight (dir dest src size : ℕ) (s : Vm) : Prop :=
  ∃ r s', memoryCopyUvmData dest dir src size s = some (r, s') ∧ (r = 0 ∨ r = -1) ∧
    (r = 0 ↔ ∀ k < size, (s.mem.walk dir (dest + k)).isSome) ∧
    (∀ k < size, (∀ l ≤ k, (s.mem.walk dir (dest + l)).isSome) → ∀ p q,
      s.mem.walk dir (dest + k) = some p → s.phys (src + k) = some q → s'.mem p = s.mem q) ∧
    ∀ x, (∀ k < size, (∀ l ≤ k, (s.mem.walk dir (dest + l)).isSome) →
      s.mem.walk dir (dest + k) ≠ some x) → s'.mem x = s.mem x

/-- At the first target address whose page is not mapped `memory_get_paddr` gives zero. -/
def StopsUnmapped (dir dest size : ℕ) (m : Mem) : Prop :=
  ∀ k < size, (∀ l < k, (m.walk dir (dest + l)).isSome) → m.walk dir (dest + k) = none →
    m.lookup dir (dest + k) = 0

/-- The target entries that are not present are zero, as the kernel leaves them. -/
def ZeroEntries (dir dest size : ℕ) (m : Mem) : Prop :=
  ∀ k < size, ∀ x, m.pteWord dir (pdeIndex (dest + k)) (pteIndex (dest + k)) = some x →
    ¬ Present x → x = 0

/-- A chunk for which `memory_get_paddr` gives zero is reached, and every byte before it is already
where `memory_get_paddr` says. -/
def AlreadyThere (dir dest src size : ℕ) (s : Vm) : Prop :=
  ∃ N < size, (N = 0 ∨ (dest + N) % memPageSize = 0) ∧ s.mem.lookup dir (dest + N) = 0 ∧
    ∀ k < N, (k = 0 ∨ (dest + k) % memPageSize = 0 → s.mem.lookup dir (dest + k) ≠ 0) ∧
      ∀ q, s.phys (src + k) = some q → s.mem (s.mem.lookup dir (dest + k)) = s.mem q

theorem exists_prefix (p : ℕ → Prop) (n : ℕ) :
    ∃ N ≤ n, (∀ k < N, p k) ∧ (N = n ∨ (N < n ∧ ¬ p N)) := by
  induction n with
  | zero => exact ⟨0, le_rfl, nofun, .inl rfl⟩
  | succ n ih =>
      obtain ⟨N, hN, hall, hend⟩ := ih
      rcases hend with rfl | ⟨hlt, hno⟩
      · by_cases hp : p N
        · refine ⟨N + 1, le_rfl, fun k hk => ?_, .inl rfl⟩
          rcases Nat.lt_succ_iff_lt_or_eq.mp hk with hk | rfl
          · exact hall k hk
          · exact hp
        · exact ⟨N, by omega, hall, .inr ⟨by omega, hp⟩⟩
      · exact ⟨N, by omega, hall, .inr ⟨by omega, hno⟩⟩

theorem entryAt_of_walk {m : Mem} {v p : ℕ} (h : m.walk dir v = some p) :
    ∃ e, m.entryAt dir v = some e ∧ p = entryPaddr e + v % memPageSize := by
  rw [walk_eq] at h
  obtain ⟨e, he, rfl⟩ := Option.map_eq_some_iff.mp h
  exact ⟨e, he, rfl⟩

theorem pteWord_of_entryAt {m : Mem} {v e : ℕ} (h : m.entryAt dir v = some e) :
    m.pteWord dir (pdeIndex v) (pteIndex v) = some e := by
  rw [Mem.entryAt, Mem.userEntry_eq_filter, Option.filter_eq_some_iff] at h
  exact h.1

theorem same_page {m : Mem} {v w : ℕ} (h : v / memPageSize = w / memPageSize) :
    m.pteWord dir (pdeIndex v) (pteIndex v) = m.pteWord dir (pdeIndex w) (pteIndex w) ∧
      m.entryAt dir v = m.entryAt dir w := by
  have hi : pdeIndex v = pdeIndex w := by
    unfold pdeIndex memPageSize at *
    omega
  have hj : pteIndex v = pteIndex w := by
    unfold pteIndex memPageSize at *
    omega
  rw [Mem.entryAt, Mem.entryAt, hi, hj]
  exact ⟨rfl, rfl⟩

theorem walk_isSome_iff {m : Mem} {v : ℕ} :
    (m.walk dir v).isSome ↔ ∃ e, m.entryAt dir v = some e := by
  rw [walk_eq, Option.isSome_map, Option.isSome_iff_exists]

/-- A page that is not mapped has no table or an entry that is not present. -/
theorem word_of_not_mapped {m : Mem} {v x : ℕ} (h : m.walk dir v = none)
    (hx : m.pteWord dir (pdeIndex v) (pteIndex v) = some x) : ¬ Present x := by
  intro hp
  have hsome : (m.walk dir v).isSome := walk_isSome_iff.mpr ⟨x, by
    rw [Mem.entryAt, Mem.userEntry_eq_filter, hx, Option.filter_some, if_pos (by simpa using hp)]⟩
  rw [h] at hsome
  cases hsome

namespace CopyInput

variable {N : ℕ}

/-- Bytes that land in target frames or in page zero do not disturb the source. -/
theorem source_stable (h : CopyInput dir dest src size s) {k : ℕ} (hk : k < size)
    (hland : ∀ l < N, ∃ p, InPage p (d l) ∧ p % memPageSize = 0 ∧
      (p = 0 ∨ TargetFrame s.mem dir dest size p)) {m : Mem}
    (hm : ∀ x, (∀ l < N, x ≠ d l) → m x = s.mem x) :
    ({ s with mem := m } : Vm).phys (src + k) = s.phys (src + k) := by
  have hend := h.src_end
  rw [Vm.phys, Vm.phys]
  by_cases hlow : src + k < memoryTaskBase
  · rw [if_pos hlow, if_pos hlow]
  · rw [if_neg hlow, if_neg hlow]
    have hpages := h.current k hk (by omega)
    have hsame : ∀ p, p = entryPaddr s.cr3 ∨
        p = s.mem.table (entryPaddr s.cr3) (pdeIndex (src + k)) → ∀ x, InPage p x → m x = s.mem x := by
      intro p hp x hx
      obtain ⟨hkp, hno⟩ := hpages p hp
      refine hm x fun l hl he => ?_
      obtain ⟨q, hq, hal, hzero⟩ := hland l hl
      obtain rfl := InPage.unique hal hkp.aligned hq (he ▸ hx)
      exact hzero.elim hkp.ne_zero hno
    have hword := Mem.pteWord_congr (pdeIndex_lt (show src + k < 2 ^ 32 by omega))
      (pteIndex_lt (src + k)) (hsame _ (.inl rfl)) fun _ => hsame _ (.inr rfl)
    rw [walk_eq, walk_eq, Mem.userEntry_eq_filter, Mem.userEntry_eq_filter, hword]

/-- The byte `k` of the target range is in a mapped page, or in the first page, whose entry is zero. -/
def LandsAt (m : Mem) (dir dest k : ℕ) : Prop :=
  (∃ e, m.entryAt dir (dest + k) = some e) ∨
    ((dest + k) / memPageSize = dest / memPageSize ∧
      m.pteWord dir (pdeIndex (dest + k)) (pteIndex (dest + k)) = some 0)

/-- The page of such a byte. -/
theorem landing_page (h : CopyInput dir dest src size s) {k : ℕ} (hk : k < size)
    (hland : LandsAt s.mem dir dest k) :
    ∃ x, s.mem.pteWord dir (pdeIndex (dest + k)) (pteIndex (dest + k)) = some x ∧
      s.mem.lookup dir (dest + k) = entryPaddr x + (dest + k) % memPageSize ∧
      Identity (entryPaddr x) ∧
      ((s.mem.entryAt dir (dest + k) = some x ∧ TargetFrame s.mem dir dest size (entryPaddr x)) ∨
        (x = 0 ∧ (dest + k) / memPageSize = dest / memPageSize)) := by
  rcases hland with ⟨e, he⟩ | ⟨hfirst, hzero⟩
  · have hword := pteWord_of_entryAt he
    have htarget : TargetFrame s.mem dir dest size (entryPaddr e) := ⟨k, hk, e, he, rfl⟩
    have hid := (h.frame _ htarget).1.identity
    have hlt := hid.lt
    refine ⟨e, hword, ?_, hid, .inl ⟨he, htarget⟩⟩
    rw [Mem.lookup, hword]
    refine u32_of_lt ?_
    unfold memPageSize
    omega
  · refine ⟨0, hzero, ?_, .inl (by decide), .inr ⟨rfl, hfirst⟩⟩
    rw [Mem.lookup, hzero]
    refine u32_of_lt ?_
    have : entryPaddr 0 = 0 := rfl
    unfold memPageSize
    omega

/-- The copy of `N` bytes whose places are known. -/
theorem landing (h : CopyInput dir dest src size s) (hN : N ≤ size)
    (hland : ∀ k < N, LandsAt s.mem dir dest k) :
    Landing dir dest src N (fun k => s.mem.lookup dir (dest + k))
      (fun k => (s.phys (src + k)).getD 0) s where
  directory := h.directory
  page k hk := by
    obtain ⟨x, hword, hd, hid, hcase⟩ := h.landing_page (by omega) (hland k hk)
    refine ⟨x, hword, hd, hid, ?_⟩
    rcases hcase with ⟨-, htarget⟩ | ⟨rfl, -⟩
    · exact (h.frame _ htarget).2
    · exact ⟨h.directory.dirPage.ne_zero.symm, fun i hi hp => (h.directory.tablePage i hi hp).1.ne_zero⟩
  source k hk m hm := by
    obtain ⟨q, hq, -⟩ := h.source k (by omega)
    rw [h.source_stable (by omega) (fun l hl => ?_) hm, hq]
    · rfl
    · obtain ⟨x, -, hd, -, hcase⟩ := h.landing_page (by omega) (hland l hl)
      refine ⟨entryPaddr x, ?_, entryPaddr_mod x, ?_⟩
      · rw [hd]
        unfold InPage memPageSize
        omega
      · rcases hcase with ⟨-, htarget⟩ | ⟨rfl, -⟩
        · exact .inr htarget
        · exact .inl rfl

/-- Different bytes have different places. -/
theorem place_injective (h : CopyInput dir dest src size s) (hN : N ≤ size)
    (hland : ∀ k < N, LandsAt s.mem dir dest k) :
    ∀ k < N, ∀ l < N, s.mem.lookup dir (dest + k) = s.mem.lookup dir (dest + l) → k = l := by
  intro k hk l hl heq
  obtain ⟨x, -, hx, -, hcase⟩ := h.landing_page (by omega) (hland k hk)
  obtain ⟨y, -, hy, -, hcase'⟩ := h.landing_page (by omega) (hland l hl)
  have halx := entryPaddr_mod x
  have haly := entryPaddr_mod y
  rw [hx, hy] at heq
  have hpages : entryPaddr x = entryPaddr y ∧
      (dest + k) % memPageSize = (dest + l) % memPageSize := by
    unfold memPageSize at *
    omega
  have hsame : (dest + k) / memPageSize = (dest + l) / memPageSize := by
    rcases hcase with ⟨he, htarget⟩ | ⟨rfl, hfirst⟩ <;>
      rcases hcase' with ⟨he', htarget'⟩ | ⟨rfl, hfirst'⟩
    · exact h.distinct k (by omega) l (by omega) _ _ he he' hpages.1
    · exact absurd hpages.1 (h.frame _ htarget).1.ne_zero
    · exact absurd hpages.1.symm (h.frame _ htarget').1.ne_zero
    · rw [hfirst, hfirst']
  unfold memPageSize at *
  omega

theorem lookup_of_walk (h : CopyInput dir dest src size s) {k p : ℕ} (hk : k < size)
    (hp : s.mem.walk dir (dest + k) = some p) : s.mem.lookup dir (dest + k) = p := by
  obtain ⟨e, he, rfl⟩ := entryAt_of_walk hp
  obtain ⟨x, hx, hd, -⟩ := h.landing_page hk (.inl ⟨e, he⟩)
  rw [pteWord_of_entryAt he] at hx
  obtain rfl : e = x := Option.some.inj hx
  exact hd

/-- A chunk starts at the first address of the range or of a page. -/
theorem chunk_of_first (hmapped : ∀ k < N, ∃ e, s.mem.entryAt dir (dest + k) = some e)
    (hno : ¬ ∃ e, s.mem.entryAt dir (dest + N) = some e) :
    N = 0 ∨ (dest + N) % memPageSize = 0 := by
  by_contra hmid
  rw [not_or] at hmid
  obtain ⟨e, he⟩ := hmapped (N - 1) (by omega)
  have hpage : (dest + N) / memPageSize = (dest + (N - 1)) / memPageSize := by
    unfold memPageSize at *
    omega
  exact hno ⟨e, by rw [(same_page hpage).2, he]⟩

/-- A copy that goes through the mapped pages up to `N`. -/
theorem copied (h : CopyInput dir dest src size s) (hN : N ≤ size)
    (hmapped : ∀ k < N, ∃ e, s.mem.entryAt dir (dest + k) = some e)
    (hstop : N = size ∨ (N < size ∧ (N = 0 ∨ (dest + N) % memPageSize = 0) ∧
      s.mem.lookup dir (dest + N) = 0)) :
    ∃ m', memoryCopyUvmData dest dir src size s =
        some (if N = size then 0 else -1, { s with mem := m' }) ∧
      (∀ k < N, ∀ p q, s.mem.walk dir (dest + k) = some p → s.phys (src + k) = some q →
        m' p = s.mem q) ∧
      ∀ x, (∀ k < N, s.mem.walk dir (dest + k) ≠ some x) → m' x = s.mem x := by
  have hland : ∀ k < N, LandsAt s.mem dir dest k := fun k hk => .inl (hmapped k hk)
  have hwalk : ∀ k < N, s.mem.walk dir (dest + k) = some (s.mem.lookup dir (dest + k)) := by
    intro k hk
    obtain ⟨p, hp⟩ := Option.isSome_iff_exists.mp (walk_isSome_iff.mpr (hmapped k hk))
    rw [h.lookup_of_walk (by omega) hp, hp]
  have hplace : ∀ k < N, s.mem.lookup dir (dest + k) ≠ 0 := by
    intro k hk
    obtain ⟨e, he, hp⟩ := entryAt_of_walk (hwalk k hk)
    have := (h.frame _ ⟨k, by omega, e, he, rfl⟩).1.ne_zero
    omega
  refine ⟨_, (h.landing hN hland).copy h.dest_end h.src_end h.src_ne hN (fun k hk _ => hplace k hk)
    hstop, fun k hk p q hp hq => ?_, fun x hx => ?_⟩
  · have hsrc : ∀ i < N, ∀ j < N,
        (s.phys (src + i)).getD 0 ≠ s.mem.lookup dir (dest + j) := by
      intro i hi j hj he
      obtain ⟨y, hy, hout⟩ := h.source i (by omega)
      obtain ⟨e, hentry, hp⟩ := entryAt_of_walk (hwalk j hj)
      refine hout _ ⟨j, by omega, e, hentry, rfl⟩ ?_
      rw [hy, Option.getD_some, hp] at he
      rw [he]
      unfold InPage memPageSize
      omega
    have hcopied := Mem.transfer_at (m := s.mem) (h.place_injective hN hland) hsrc hk
    rw [h.lookup_of_walk (by omega) hp, hq] at hcopied
    exact hcopied
  · refine Mem.transfer_out fun k hk he => hx k hk ?_
    rw [hwalk k hk, he]

/-- The copy is right if `memory_get_paddr` finds out that a page is not mapped. -/
theorem copiesRight (h : CopyInput dir dest src size s) (hstops : StopsUnmapped dir dest size s.mem) :
    CopiesRight dir dest src size s := by
  obtain ⟨N, hN, hmapped, hend⟩ :=
    exists_prefix (fun k => ∃ e, s.mem.entryAt dir (dest + k) = some e) size
  have hbefore : ∀ k < size, (∀ l ≤ k, (s.mem.walk dir (dest + l)).isSome) → k < N := by
    intro k hk hall
    rcases hend with rfl | ⟨-, hno⟩
    · exact hk
    · by_contra hle
      exact hno (walk_isSome_iff.mp (hall N (by omega)))
  have hstop : N = size ∨ (N < size ∧ (N = 0 ∨ (dest + N) % memPageSize = 0) ∧
      s.mem.lookup dir (dest + N) = 0) := by
    refine hend.imp_right fun ⟨hlt, hno⟩ => ⟨hlt, chunk_of_first hmapped hno, ?_⟩
    refine hstops N hlt (fun l hl => walk_isSome_iff.mpr (hmapped l hl)) ?_
    rw [← Option.not_isSome_iff_eq_none]
    exact fun hsome => hno (walk_isSome_iff.mp hsome)
  obtain ⟨m', hrun, hbytes, hout⟩ := h.copied hN hmapped hstop
  refine ⟨_, _, hrun, ?_, ?_, fun k hk hall p q hp hq => hbytes k (hbefore k hk hall) p q hp hq,
    fun x hx => hout x fun k hk => hx k (by omega) fun l hl =>
      walk_isSome_iff.mpr (hmapped l (by omega))⟩
  · by_cases hs : N = size
    · exact .inl (if_pos hs)
    · exact .inr (if_neg hs)
  · rcases hend with rfl | ⟨hlt, hno⟩
    · rw [if_pos rfl]
      exact ⟨fun _ k hk => walk_isSome_iff.mpr (hmapped k hk), fun _ => rfl⟩
    · rw [if_neg (by omega)]
      exact ⟨fun h1 => absurd h1 (by decide), fun hall =>
        absurd (walk_isSome_iff.mp (hall N hlt)) hno⟩

/-- Where it does not find out, the range starts inside a page of a table whose entry is zero. -/
theorem stray_start (hzero : ZeroEntries dir dest size s.mem)
    (hno : ¬ StopsUnmapped dir dest size s.mem) :
    0 < size ∧ s.mem.walk dir dest = none ∧
      s.mem.pteWord dir (pdeIndex dest) (pteIndex dest) = some 0 := by
  unfold StopsUnmapped at hno
  push Not at hno
  obtain ⟨k, hk, hmapped, hnone, hlookup⟩ := hno
  rw [Mem.lookup] at hlookup
  cases hword : s.mem.pteWord dir (pdeIndex (dest + k)) (pteIndex (dest + k)) with
  | none =>
      rw [hword] at hlookup
      exact absurd rfl hlookup
  | some x =>
      obtain rfl : x = 0 := hzero k hk x hword (word_of_not_mapped hnone hword)
      rw [hword] at hlookup
      have hchunk := chunk_of_first (fun l hl => walk_isSome_iff.mp (hmapped l hl)) (N := k)
        fun he => by
          have := walk_isSome_iff.mpr he
          rw [hnone] at this
          cases this
      rcases hchunk with rfl | hal
      · exact ⟨hk, hnone, hword⟩
      · simp only [hal] at hlookup
        exact absurd rfl hlookup

/-- Chunks that are not found missing land in mapped pages, the first one in page zero. -/
theorem stray_lands (hzero : ZeroEntries dir dest size s.mem) (hN : N ≤ size)
    (hfirst : s.mem.pteWord dir (pdeIndex dest) (pteIndex dest) = some 0)
    (hgood : ∀ k < N, k = 0 ∨ (dest + k) % memPageSize = 0 → s.mem.lookup dir (dest + k) ≠ 0) :
    ∀ k < N, LandsAt s.mem dir dest k := by
  intro k hk
  by_cases hpage : (dest + k) / memPageSize = dest / memPageSize
  · exact .inr ⟨hpage, by rw [(same_page hpage).1, hfirst]⟩
  · have hstart : ∃ c ≤ k, (dest + c) % memPageSize = 0 ∧
        (dest + k) / memPageSize = (dest + c) / memPageSize := by
      refine ⟨k - (dest + k) % memPageSize, by omega, ?_, ?_⟩ <;>
      · unfold memPageSize at *
        omega
    obtain ⟨c, hc, hal, hsame⟩ := hstart
    have hlookup := hgood c (by omega) (.inr hal)
    rw [Mem.lookup] at hlookup
    cases hword : s.mem.pteWord dir (pdeIndex (dest + c)) (pteIndex (dest + c)) with
    | none =>
        rw [hword] at hlookup
        exact absurd rfl hlookup
    | some x =>
        rw [hword] at hlookup
        have hp : Present x := by
          by_contra hp
          obtain rfl := hzero c (by omega) x hword hp
          simp only [hal] at hlookup
          exact hlookup rfl
        refine .inl ⟨x, ?_⟩
        rw [(same_page hsame).2, Mem.entryAt, Mem.userEntry_eq_filter, hword, Option.filter_some,
          if_pos (by simpa using hp)]

/-- The first chunk goes to page zero: the copy is right only if it is found out later and has
changed nothing. -/
theorem copiesRight_iff_alreadyThere (h : CopyInput dir dest src size s)
    (hzero : ZeroEntries dir dest size s.mem) (hno : ¬ StopsUnmapped dir dest size s.mem) :
    CopiesRight dir dest src size s ↔ AlreadyThere dir dest src size s := by
  obtain ⟨hsize, hnone, hfirst⟩ := stray_start hzero hno
  have hunmapped : ¬ (s.mem.walk dir (dest + 0)).isSome := by
    rw [Nat.add_zero, hnone]
    exact Bool.false_ne_true
  obtain ⟨N, hN, hgood, hend⟩ := exists_prefix
    (fun k => k = 0 ∨ (dest + k) % memPageSize = 0 → s.mem.lookup dir (dest + k) ≠ 0) size
  have hland := stray_lands hzero hN hfirst hgood
  have hrun := (h.landing hN hland).copy h.dest_end h.src_end h.src_ne hN hgood
    (hend.imp_right fun ⟨hlt, hbad⟩ => by
      push Not at hbad
      exact ⟨hlt, hbad⟩)
  have hself := Mem.transfer_eq_self (m := s.mem) (a := fun k => (s.phys (src + k)).getD 0)
    (h.place_injective hN hland)
  constructor
  · rintro ⟨r, s', hr, -, hall, -, hothers⟩
    rw [hrun] at hr
    obtain ⟨rfl, rfl⟩ := Prod.mk.inj (Option.some.inj hr)
    have hlt : N < size := by
      refine lt_of_le_of_ne hN fun hs => ?_
      exact hunmapped (hall.mp (if_pos hs) 0 hsize)
    have hbad := (hend.resolve_left (by omega)).2
    push Not at hbad
    have hsame := hself.mp (funext fun x => hothers x fun k _ hk => absurd (hk 0 (by omega)) hunmapped)
    refine ⟨N, hlt, hbad.1, hbad.2, fun k hk => ⟨hgood k hk, fun q hq => ?_⟩⟩
    have := hsame k hk
    rwa [hq] at this
  · rintro ⟨M, hM, hchunk, hlookup, hbefore⟩
    obtain rfl : N = M := by
      rcases lt_trichotomy N M with hlt | he | hgt
      · exact absurd (hbefore N hlt).1 (hend.resolve_left (by omega)).2
      · exact he
      · exact absurd hlookup (hgood M hgt hchunk)
    have hmem : s.mem.transfer (fun k => s.mem.lookup dir (dest + k))
        (fun k => (s.phys (src + k)).getD 0) N = s.mem := by
      refine hself.mpr fun k hk => ?_
      obtain ⟨q, hq, -⟩ := h.source k (by omega)
      rw [(hbefore k hk).2 q hq, hq]
      rfl
    rw [if_neg (by omega), moved, hmem] at hrun
    exact ⟨_, _, hrun, .inr rfl, ⟨fun h0 => absurd h0 (by decide), fun hall =>
      absurd (hall 0 hsize) hunmapped⟩, fun k _ hk => absurd (hk 0 (by omega)) hunmapped,
      fun x _ => rfl⟩

end CopyInput

/-- The loop ends, and the copy is right if `memory_get_paddr` gives zero at the first address that is
not mapped. Where entries that are not present are zero, it is right only then, or if the chunk that
went to page zero changed nothing and a later chunk stops the copy. -/
theorem copy_uvm_data (h : CopyInput dir dest src size s) :
    (∀ fuel ≥ size, memoryCopyUvmDataLoop dir fuel dest src size =
      memoryCopyUvmData dest dir src size) ∧
    (StopsUnmapped dir dest size s.mem → CopiesRight dir dest src size s) ∧
    (ZeroEntries dir dest size s.mem → (CopiesRight dir dest src size s ↔
      StopsUnmapped dir dest size s.mem ∨ AlreadyThere dir dest src size s)) := by
  refine ⟨fun fuel hfuel => copyUvmDataLoop_fuel hfuel, h.copiesRight, fun hzero => ?_⟩
  by_cases hstops : StopsUnmapped dir dest size s.mem
  · exact ⟨fun _ => .inl hstops, fun _ => h.copiesRight hstops⟩
  · rw [h.copiesRight_iff_alreadyThere hzero hstops]
    exact ⟨.inr, fun hor => hor.resolve_left hstops⟩

/-! ## Copies into the directory with one page -/

theorem onePage_entryAt {v e : ℕ} (hv : memoryTaskBase ≤ v) (hv' : v < 2 ^ 32)
    (he : onePageVm.mem.entryAt 0x200000 v = some e) :
    e = 0x202007 ∧ v / memPageSize = 0x80000 := by
  obtain ⟨hi, hi'⟩ := pdeIndex_user hv hv'
  have hentry : onePage.entry (pdeIndex v) (pteIndex v) = some e :=
    (onePage_owned.shape.userEntry_eq hi hi' (pteIndex_lt v)).symm.trans he
  by_cases hidx : pdeIndex v = 512 ∧ pteIndex v = 0
  · rw [hidx.1, hidx.2] at hentry
    refine ⟨(Option.some.inj hentry).symm, ?_⟩
    unfold pdeIndex pteIndex memPageSize at *
    omega
  · rw [onePage, Space.addEntry_entry_of_ne hidx] at hentry
    cases hentry

theorem onePage_copyInput (hdest : memoryTaskBase ≤ dest) (hend : dest + size ≤ 2 ^ 32)
    (hsrc : memExtStart ≤ src) (hsrc' : src + size ≤ 0x202000) :
    CopyInput 0x200000 dest src size onePageVm := by
  have htarget : ∀ p, TargetFrame onePageVm.mem 0x200000 dest size p → p = 0x202000 := by
    rintro p ⟨k, hk, e, he, rfl⟩
    rw [(onePage_entryAt (by omega) (by omega) he).1]
    rfl
  have hid : ∀ k < size, Identity (src + k) := by
    intro k hk
    refine .inr ⟨by omega, ?_⟩
    unfold memExtLimit
    omega
  unfold memExtStart at hsrc
  refine ⟨onePage_growable.directory, hend, by omega, by omega, fun p hp => ?_, ?_, fun k hk => ?_,
    fun k hk hk' => ?_⟩
  · rw [htarget p hp]
    have hframe := onePage_owned.shape.kernelPage (.frame 512 0) _ rfl
    refine ⟨hframe, by decide, fun i hi hpres => ?_⟩
    rw [(onePage_table hi hpres).2]
    decide
  · intro k hk l hl e e' he he' _
    rw [(onePage_entryAt (by omega) (by omega) he).2, (onePage_entryAt (by omega) (by omega) he').2]
  · refine ⟨src + k, phys_of_identity (hid k hk), fun p hp hin => ?_⟩
    rw [htarget p hp] at hin
    have := hin.1
    omega
  · have := (hid k hk).lt
    unfold memoryTaskBase at hk'
    omega

/-- Two bytes into the mapped page. -/
theorem copy_uvm_data_onePage : CopiesRight 0x200000 0x80000ffe 0x201000 2 onePageVm := by
  refine (copy_uvm_data (onePage_copyInput (by decide) (by decide) (by decide) (by decide))).2.1 ?_
  intro k hk _ hnone
  exfalso
  have hentry : onePageVm.mem.entryAt 0x200000 (0x80000ffe + k) = some 0x202007 := by
    have hi : pdeIndex (0x80000ffe + k) = 512 := by
      unfold pdeIndex
      omega
    have hj : pteIndex (0x80000ffe + k) = 0 := by
      unfold pteIndex
      omega
    rw [Mem.entryAt, hi, hj]
    exact onePage_owned.shape.userEntry_eq (by decide) (by decide) (by decide)
  have := walk_isSome_iff.mpr ⟨_, hentry⟩
  rw [hnone] at this
  cases this

/-- One byte to the second byte of the next page, which is not mapped: the result is zero, and the
byte is in physical page zero. -/
theorem copy_uvm_data_counterexample : ∃ s,
    CopyInput 0x200000 0x80001001 0x201000 1 onePageVm ∧
      onePageVm.mem.walk 0x200000 0x80001001 = none ∧
      memoryCopyUvmData 0x80001001 0x200000 0x201000 1 onePageVm = some (0, s) ∧
      onePageVm.mem 1 = 0 ∧ s.mem 1 = 7 ∧
      ¬ CopiesRight 0x200000 0x80001001 0x201000 1 onePageVm := by
  have h : CopyInput 0x200000 0x80001001 0x201000 1 onePageVm :=
    onePage_copyInput (by decide) (by decide) (by decide) (by decide)
  have hnone : onePageVm.mem.walk 0x200000 0x80001001 = none := by
    rw [← Option.not_isSome_iff_eq_none, walk_isSome_iff]
    rintro ⟨e, he⟩
    exact absurd (onePage_entryAt (by decide) (by decide) he).2 (by decide)
  have hword : onePageVm.mem.pteWord 0x200000 (pdeIndex 0x80001001) (pteIndex 0x80001001) = some 0 := by
    have hpte : onePageVm.mem.read32 (0x201000 + 4 * 1) = 0 :=
      onePage_owned.shape.pte 512 0x201000 rfl 1 (by decide)
    have hpde := onePage_pde (show 512 < pdeCnt by decide)
    rw [if_pos rfl] at hpde
    have hpres : Present (onePageVm.mem.pde 0x200000 512) := by
      rw [hpde]
      decide
    rw [show pdeIndex 0x80001001 = 512 by decide, show pteIndex 0x80001001 = 1 by decide, Mem.pteWord,
      if_pos hpres, (onePage_table (by decide) hpres).2, hpte]
  have hlookup : onePageVm.mem.lookup 0x200000 0x80001001 = 1 := by
    rw [Mem.lookup, hword]
    rfl
  have hland : ∀ k < 1, CopyInput.LandsAt onePageVm.mem 0x200000 0x80001001 k := by
    intro k hk
    obtain rfl : k = 0 := by omega
    exact .inr ⟨rfl, hword⟩
  have hrun := (h.landing le_rfl hland).copy h.dest_end h.src_end h.src_ne le_rfl
    (fun k hk _ => by
      obtain rfl : k = 0 := by omega
      show onePageVm.mem.lookup 0x200000 0x80001001 ≠ 0
      rw [hlookup]
      decide) (.inl rfl)
  rw [if_pos rfl] at hrun
  refine ⟨_, h, hnone, hrun, rfl, ?_, fun hright => ?_⟩
  · show (onePageVm.mem.write8 (onePageVm.mem.lookup 0x200000 0x80001001)
      (onePageVm.mem ((onePageVm.phys 0x201000).getD 0))) 1 = 7
    rw [hlookup, Mem.write8, Function.update_self]
    rfl
  · obtain ⟨r, s', hr, -, hall, -⟩ := hright
    rw [hrun] at hr
    obtain ⟨rfl, -⟩ := Prod.mk.inj (Option.some.inj hr)
    have := hall.mp rfl 0 (by decide)
    rw [Nat.add_zero, hnone] at this
    cases this

end X86Os
