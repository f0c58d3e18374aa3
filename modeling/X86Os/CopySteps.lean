import X86Os.Cut
import X86Os.Paging

/-!
# `memory_copy_uvm` in steps

Copying an address space takes the mutex of the allocator once for every page and every table. Between
two of these sections another task may run. A step goes up to the end of the next section, or over a
piece of the loops that takes none.
-/

namespace X86Os

/-- Where a call of `memory_copy_uvm` stands: `dir` is the directory that is copied and `dest` the
copy. -/
inductive CopyPc
  | create (dir : ℕ)
  | pde (dir dest i : ℕ)
  | pte (dir dest i table j : ℕ)
  | map (dir dest i table j perm page : ℕ)
  | destroyPde (dest i : ℕ)
  | destroyPte (dest i table j : ℕ)
  | free (page : ℕ) (next : CopyPc)
deriving DecidableEq, Repr

namespace CopyPc

/-- Once an allocation failed. -/
def failed (dest : ℕ) : CopyPc := .destroyPde dest userPdeStart

def step (L : Layout) (residue : ℕ) : Cut Vm CopyPc ℕ
  | .create dir => do
    let dest ← memoryCreateUvm L
    if dest = 0 then pure (.inr residue) else pure (.inl (.pde dir dest userPdeStart))
  | .pde dir dest i =>
    if i < pdeCnt then do
      let pde ← load32 (u32 (dir + 4 * i))
      if Present pde then pure (.inl (.pte dir dest i (entryPaddr pde) 0))
      else pure (.inl (.pde dir dest (i + 1)))
    else pure (.inr dest)
  | .pte dir dest i table j =>
    if j < pteCnt then do
      let pte ← load32 (u32 (table + 4 * j))
      if Present pte then
        let page ← allocPage
        if page = 0 then pure (.inl (failed dest))
        else pure (.inl (.map dir dest i table j (getPtePerm pte) page))
      else pure (.inl (.pte dir dest i table (j + 1)))
    else pure (.inl (.pde dir dest (i + 1)))
  | .map dir dest i table j perm page => do
    let vaddr := i * 2 ^ 22 + j * 2 ^ 12
    let err ← memoryCreateMap dest perm 1 vaddr page
    if err < 0 then pure (.inl (failed dest))
    else
      kernelMemcpy page vaddr memPageSize
      pure (.inl (.pte dir dest i table (j + 1)))
  | .destroyPde dest i =>
    if i < pdeCnt then do
      let pde ← load32 (u32 (dest + 4 * i))
      if Present pde then pure (.inl (.destroyPte dest i (entryPaddr pde) 0))
      else pure (.inl (.destroyPde dest (i + 1)))
    else pure (.inr residue)
  | .destroyPte dest i table j =>
    if j < pteCnt then do
      let pte ← load32 (u32 (table + 4 * j))
      if Present pte then pure (.inl (.free (entryPaddr pte) (.destroyPte dest i table (j + 1))))
      else pure (.inl (.destroyPte dest i table (j + 1)))
    else do
      let past ← load32 (u32 (table + 4 * pteCnt))
      pure (.inl (.free (entryPaddr past) (.free table (.destroyPde dest (i + 1)))))
  | .free page next => do
    freePages page 1
    pure (.inl next)

/-! ## What is left -/

/-- After the loop over the tables. -/
def afterTables (residue dest : ℕ) : Option Unit → Prog Vm ℕ
  | none => pure dest
  | some () => do
    memoryDestroyUvm dest
    pure residue

def restTable (residue dir dest i : ℕ) : Prog Vm ℕ :=
  Prog.loop (copyTable dir dest) (pdeCnt - i) i >>= afterTables residue dest

/-- After the loop over the pages of the table `i`. -/
def afterPages (residue dir dest i : ℕ) : Option Unit → Prog Vm ℕ
  | none => restTable residue dir dest (i + 1)
  | some () => afterTables residue dest (some ())

def restPage (residue dir dest i table j : ℕ) : Prog Vm ℕ :=
  Prog.loop (copyPage table dest i) (pteCnt - j) j >>= afterPages residue dir dest i

def restDestroyTable (residue dest i : ℕ) : Prog Vm ℕ := do
  let _ ← Prog.loop (destroyTable dest) (pdeCnt - i) i
  pure residue

def restDestroyPage (residue dest i table j : ℕ) : Prog Vm ℕ := do
  let _ ← Prog.loop (destroyPage table) (pteCnt - j) j
  let past ← load32 (u32 (table + 4 * pteCnt))
  freePages (entryPaddr past) 1
  freePages table 1
  restDestroyTable residue dest (i + 1)

def rest (L : Layout) (residue : ℕ) : CopyPc → Prog Vm ℕ
  | .create dir => memoryCopyUvm L residue dir
  | .pde dir dest i => restTable residue dir dest i
  | .pte dir dest i table j => restPage residue dir dest i table j
  | .map dir dest i table j perm page => do
    let vaddr := i * 2 ^ 22 + j * 2 ^ 12
    let err ← memoryCreateMap dest perm 1 vaddr page
    if err < 0 then afterTables residue dest (some ())
    else
      kernelMemcpy page vaddr memPageSize
      restPage residue dir dest i table (j + 1)
  | .destroyPde dest i => restDestroyTable residue dest i
  | .destroyPte dest i table j => restDestroyPage residue dest i table j
  | .free page next => do
    freePages page 1
    rest L residue next

variable {L : Layout} {residue : ℕ}

theorem restTable_succ {dir dest i : ℕ} (h : i < pdeCnt) : restTable residue dir dest i =
    copyTable dir dest i >>= fun r => r.elim (restTable residue dir dest (i + 1))
      fun u => afterTables residue dest (some u) := by
  obtain ⟨k, hk⟩ : ∃ k, pdeCnt - i = k + 1 := ⟨pdeCnt - i - 1, by omega⟩
  have hk' : pdeCnt - (i + 1) = k := by omega
  rw [restTable, restTable, hk, hk', Prog.loop, bind_assoc]
  refine congrArg (copyTable dir dest i >>= ·) (funext fun r => ?_)
  cases r with
  | none => rfl
  | some u => exact pure_bind _ _

theorem restPage_succ {dir dest i table j : ℕ} (h : j < pteCnt) :
    restPage residue dir dest i table j =
      copyPage table dest i j >>= fun r => r.elim (restPage residue dir dest i table (j + 1))
        fun u => afterTables residue dest (some u) := by
  obtain ⟨k, hk⟩ : ∃ k, pteCnt - j = k + 1 := ⟨pteCnt - j - 1, by omega⟩
  have hk' : pteCnt - (j + 1) = k := by omega
  rw [restPage, restPage, hk, hk', Prog.loop, bind_assoc]
  refine congrArg (copyPage table dest i j >>= ·) (funext fun r => ?_)
  cases r with
  | none => rfl
  | some u => exact pure_bind _ _

theorem restDestroyTable_succ {dest i : ℕ} (h : i < pdeCnt) :
    restDestroyTable residue dest i =
      destroyTable dest i >>= fun _ => restDestroyTable residue dest (i + 1) := by
  obtain ⟨k, hk⟩ : ∃ k, pdeCnt - i = k + 1 := ⟨pdeCnt - i - 1, by omega⟩
  have hk' : pdeCnt - (i + 1) = k := by omega
  simp only [restDestroyTable, hk, hk', Prog.loop, destroyTable, bind_assoc]
  refine congrArg (load32 _ >>= ·) (funext fun pde => ?_)
  split_ifs <;> simp only [bind_assoc, pure_bind]

theorem restDestroyPage_succ {dest i table j : ℕ} (h : j < pteCnt) :
    restDestroyPage residue dest i table j =
      destroyPage table j >>= fun _ => restDestroyPage residue dest i table (j + 1) := by
  obtain ⟨k, hk⟩ : ∃ k, pteCnt - j = k + 1 := ⟨pteCnt - j - 1, by omega⟩
  have hk' : pteCnt - (j + 1) = k := by omega
  simp only [restDestroyPage, hk, hk', Prog.loop, destroyPage, bind_assoc]
  refine congrArg (load32 _ >>= ·) (funext fun pte => ?_)
  split_ifs <;> simp only [bind_assoc, pure_bind]

theorem rest_failed (dest : ℕ) :
    rest L residue (failed dest) = afterTables residue dest (some ()) := by
  rw [failed, rest, restDestroyTable, afterTables, memoryDestroyUvm, bind_assoc]
  rfl

theorem splits (L : Layout) (residue : ℕ) : Cut.Splits (step L residue) (rest L residue) := by
  intro p
  cases p with
  | create dir =>
      simp only [rest, step, memoryCopyUvm, bind_assoc]
      refine congrArg (memoryCreateUvm L >>= ·) (funext fun dest => ?_)
      split_ifs
      · rfl
      · simp only [pure_bind, Sum.elim_inl, rest, restTable]
        refine congrArg (Prog.loop (copyTable dir dest) _ _ >>= ·) (funext fun r => ?_)
        cases r <;> rfl
  | pde dir dest i =>
      simp only [rest, step]
      split_ifs with h
      · rw [restTable_succ h, copyTable, bind_assoc, bind_assoc]
        refine congrArg (load32 _ >>= ·) (funext fun pde => ?_)
        split_ifs
        · simp only [pure_bind, Sum.elim_inl, rest, restPage]
          refine congrArg (Prog.loop (copyPage (entryPaddr pde) dest i) _ _ >>= ·) (funext fun r => ?_)
          cases r <;> rfl
        · simp only [pure_bind, Sum.elim_inl, rest]
          rfl
      · have h0 : pdeCnt - i = 0 := by omega
        rw [restTable, h0]
        rfl
  | pte dir dest i table j =>
      simp only [rest, step]
      split_ifs with h
      · rw [restPage_succ h, copyPage, bind_assoc, bind_assoc]
        refine congrArg (load32 _ >>= ·) (funext fun pte => ?_)
        split_ifs
        · rw [bind_assoc, bind_assoc]
          refine congrArg (allocPage >>= ·) (funext fun page => ?_)
          split_ifs
          · simp only [pure_bind, Sum.elim_inl, Option.elim_some, rest_failed]
          · simp only [pure_bind, Sum.elim_inl, rest, bind_assoc]
            refine congrArg (memoryCreateMap _ _ _ _ _ >>= ·) (funext fun err => ?_)
            split_ifs
            · simp only [pure_bind, Option.elim_some]
            · simp only [bind_assoc, pure_bind, Option.elim_none]
        · simp only [pure_bind, Option.elim_none, Sum.elim_inl, rest]
      · have h0 : pteCnt - j = 0 := by omega
        rw [restPage, h0]
        rfl
  | map dir dest i table j perm page =>
      simp only [rest, step, bind_assoc]
      refine congrArg (memoryCreateMap _ _ _ _ _ >>= ·) (funext fun err => ?_)
      split_ifs
      · simp only [pure_bind, Sum.elim_inl, rest_failed]
      · simp only [bind_assoc, pure_bind, Sum.elim_inl, rest]
  | destroyPde dest i =>
      simp only [rest, step]
      split_ifs with h
      · rw [restDestroyTable_succ h, destroyTable, bind_assoc, bind_assoc]
        refine congrArg (load32 _ >>= ·) (funext fun pde => ?_)
        split_ifs
        · simp only [bind_assoc, pure_bind, Sum.elim_inl, rest, restDestroyPage, Nat.sub_zero]
        · simp only [pure_bind, Sum.elim_inl, rest]
      · have h0 : pdeCnt - i = 0 := by omega
        rw [restDestroyTable, h0]
        rfl
  | destroyPte dest i table j =>
      simp only [rest, step]
      split_ifs with h
      · rw [restDestroyPage_succ h, destroyPage, bind_assoc, bind_assoc]
        refine congrArg (load32 _ >>= ·) (funext fun pte => ?_)
        split_ifs
        · simp only [bind_assoc, pure_bind, Sum.elim_inl, rest]
        · simp only [pure_bind, Sum.elim_inl, rest]
      · have h0 : pteCnt - j = 0 := by omega
        rw [restDestroyPage, h0, Prog.loop, pure_bind, bind_assoc]
        simp only [pure_bind, Sum.elim_inl, rest]
  | free page next =>
      simp only [rest, step, bind_assoc, pure_bind, Sum.elim_inl]

/-- A bound for the number of steps that are left. -/
def size : CopyPc → ℕ
  | .create _ => 10 ^ 8
  | .pde _ _ i => 10 ^ 7 + (pdeCnt - i) * 5000 + 1
  | .pte _ _ i _ j => 10 ^ 7 + (pdeCnt - (i + 1)) * 5000 + 2 + (pteCnt - j) * 2
  | .map _ _ i _ j _ _ => 10 ^ 7 + (pdeCnt - (i + 1)) * 5000 + 3 + (pteCnt - (j + 1)) * 2
  | .destroyPde _ i => (pdeCnt - i) * 5000 + 1
  | .destroyPte _ i _ j => (pdeCnt - (i + 1)) * 5000 + 4 + (pteCnt - j) * 2
  | .free _ next => next.size + 1

theorem size_failed (dest : ℕ) : (failed dest).size < 10 ^ 7 := by
  rw [failed, size]
  decide

theorem size_lt {p q : CopyPc} {s s' : Vm} (h : step L residue p s = some (.inl q, s')) :
    q.size < p.size := by
  cases p with
  | create dir =>
      obtain ⟨dest, s₁, -, h⟩ := Prog.bind_eq_some.mp h
      split_ifs at h
      · cases (Prog.pure_eq_some.mp h).1
      · obtain ⟨rfl⟩ := (Prog.pure_eq_some.mp h).1
        show 10 ^ 7 + (pdeCnt - userPdeStart) * 5000 + 1 < 10 ^ 8
        decide
  | pde dir dest i =>
      rw [step] at h
      split_ifs at h with hi
      · obtain ⟨pde, s₁, -, h⟩ := Prog.bind_eq_some.mp h
        split_ifs at h
        all_goals
          obtain ⟨rfl⟩ := (Prog.pure_eq_some.mp h).1
          simp only [size, pdeCnt, pteCnt] at *
          omega
      · cases (Prog.pure_eq_some.mp h).1
  | pte dir dest i table j =>
      rw [step] at h
      split_ifs at h with hj
      · obtain ⟨pte, s₁, -, h⟩ := Prog.bind_eq_some.mp h
        split_ifs at h
        · obtain ⟨page, s₂, -, h⟩ := Prog.bind_eq_some.mp h
          split_ifs at h
          · obtain ⟨rfl⟩ := (Prog.pure_eq_some.mp h).1
            refine (size_failed dest).trans_le ?_
            simp only [size]
            omega
          · obtain ⟨rfl⟩ := (Prog.pure_eq_some.mp h).1
            simp only [size]
            omega
        · obtain ⟨rfl⟩ := (Prog.pure_eq_some.mp h).1
          simp only [size]
          omega
      · obtain ⟨rfl⟩ := (Prog.pure_eq_some.mp h).1
        simp only [size]
        omega
  | map dir dest i table j perm page =>
      obtain ⟨err, s₁, -, h⟩ := Prog.bind_eq_some.mp h
      split_ifs at h
      · obtain ⟨rfl⟩ := (Prog.pure_eq_some.mp h).1
        refine (size_failed dest).trans_le ?_
        simp only [size]
        omega
      · obtain ⟨_, s₂, -, h⟩ := Prog.bind_eq_some.mp h
        obtain ⟨rfl⟩ := (Prog.pure_eq_some.mp h).1
        simp only [size]
        omega
  | destroyPde dest i =>
      rw [step] at h
      split_ifs at h with hi
      · obtain ⟨pde, s₁, -, h⟩ := Prog.bind_eq_some.mp h
        split_ifs at h
        all_goals
          obtain ⟨rfl⟩ := (Prog.pure_eq_some.mp h).1
          simp only [size, pdeCnt, pteCnt] at *
          omega
      · cases (Prog.pure_eq_some.mp h).1
  | destroyPte dest i table j =>
      rw [step] at h
      split_ifs at h with hj
      · obtain ⟨pte, s₁, -, h⟩ := Prog.bind_eq_some.mp h
        split_ifs at h
        all_goals
          obtain ⟨rfl⟩ := (Prog.pure_eq_some.mp h).1
          simp only [size]
          omega
      · obtain ⟨past, s₁, -, h⟩ := Prog.bind_eq_some.mp h
        obtain ⟨rfl⟩ := (Prog.pure_eq_some.mp h).1
        simp only [size]
        omega
  | free page next =>
      obtain ⟨_, s₁, -, h⟩ := Prog.bind_eq_some.mp h
      obtain ⟨rfl⟩ := (Prog.pure_eq_some.mp h).1
      exact Nat.lt_succ_self _

/-- Without anything between them, the steps are `memory_copy_uvm`. -/
theorem finishes_iff {dir dest : ℕ} {s s' : Vm} :
    Cut.Finishes (step L residue) (.create dir) s dest s' ↔
      memoryCopyUvm L residue dir s = some (dest, s') :=
  (splits L residue).finishes_iff size fun _ _ _ _ => size_lt

end CopyPc

end X86Os
