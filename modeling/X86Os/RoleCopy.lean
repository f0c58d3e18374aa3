import X86Os.CopySteps
import X86Os.RoleWrites

/-!
# Copying an address space keeps the roles

While a page is left whenever one is asked for, the steps of `memory_copy_uvm` build a directory and
never give it up. Giving pages back only reads the tables, and it keeps the roles as long as no bit of the
allocator that is set gets cleared.
-/

namespace X86Os

open Kernel (PageUsed)

variable {L : Layout} {n c d i j p q t w a perm residue : ℕ} {m₀ : Mem} {role role' : RoleMap}
  {o : TaskId} {v v' : Vm}

/-! ## Pages that are given back -/

/-- `addr_free_page` takes the distance of the page in bytes for the number of the bit. The bit does not
lie before the bitmap, and it is not set. -/
structure Spares (v : Vm) (page : ℕ) : Prop where
  inside : 0 ≤ i32 (u32Sub page memExtStart)
  clear : ∀ i : ℕ, (i : ℤ) < v.alloc.bitmap.bitCount → v.alloc.bitmap.bitAt i = true →
    i32 (u32Sub page memExtStart) ≠ i

theorem Roles.freePage {u : Unit} (h : Roles L n m₀ c role v) (hspare : Spares v p)
    (hrun : X86Os.freePages p 1 v = some (u, v')) : Roles L n m₀ c role v' := by
  refine h.freePages hrun fun i hi => keepsTaken_free (hspare.clear i ?_ hi.bit) v u v' hrun hi
  rw [h.managed.bitCount]
  exact Int.ofNat_lt.mpr hi.lt

namespace CopyPc

/-- Only reading tables and giving back pages is left. -/
inductive Destroying : CopyPc → Prop
  | pde (dest i : ℕ) : Destroying (.destroyPde dest i)
  | pte (dest i table j : ℕ) : Destroying (.destroyPte dest i table j)
  | free (page : ℕ) {next : CopyPc} (h : Destroying next) : Destroying (.free page next)

/-- The page that the next step gives back. -/
def frees : CopyPc → Option ℕ
  | .free page _ => some page
  | _ => none

theorem Destroying.step {pc : CopyPc} {r : CopyPc ⊕ ℕ} (h : pc.Destroying)
    (hr : Roles L n m₀ c role v) (hspare : ∀ page, pc.frees = some page → Spares v page)
    (hrun : pc.step L residue v = some (r, v')) :
    Roles L n m₀ c role v' ∧ ∀ next, r = .inl next → next.Destroying := by
  cases h with
  | pde dest i =>
      rw [CopyPc.step] at hrun
      split_ifs at hrun with hi
      · obtain ⟨pde, v₁, hload, hrun⟩ := Prog.bind_eq_some.mp hrun
        obtain rfl : v = v₁ := load32_along _ _ _ _ hload
        split_ifs at hrun
        · obtain ⟨rfl, rfl⟩ := Prog.pure_eq_some.mp hrun
          refine ⟨hr, fun next hnext => ?_⟩
          obtain rfl := Sum.inl.inj hnext
          exact .pte ..
        · obtain ⟨rfl, rfl⟩ := Prog.pure_eq_some.mp hrun
          refine ⟨hr, fun next hnext => ?_⟩
          obtain rfl := Sum.inl.inj hnext
          exact .pde ..
      · obtain ⟨rfl, rfl⟩ := Prog.pure_eq_some.mp hrun
        exact ⟨hr, fun next hnext => by cases hnext⟩
  | pte dest i table j =>
      rw [CopyPc.step] at hrun
      split_ifs at hrun with hj
      · obtain ⟨pte, v₁, hload, hrun⟩ := Prog.bind_eq_some.mp hrun
        obtain rfl : v = v₁ := load32_along _ _ _ _ hload
        split_ifs at hrun
        · obtain ⟨rfl, rfl⟩ := Prog.pure_eq_some.mp hrun
          refine ⟨hr, fun next hnext => ?_⟩
          obtain rfl := Sum.inl.inj hnext
          exact .free _ (.pte ..)
        · obtain ⟨rfl, rfl⟩ := Prog.pure_eq_some.mp hrun
          refine ⟨hr, fun next hnext => ?_⟩
          obtain rfl := Sum.inl.inj hnext
          exact .pte ..
      · obtain ⟨past, v₁, hload, hrun⟩ := Prog.bind_eq_some.mp hrun
        obtain rfl : v = v₁ := load32_along _ _ _ _ hload
        obtain ⟨rfl, rfl⟩ := Prog.pure_eq_some.mp hrun
        refine ⟨hr, fun next hnext => ?_⟩
        obtain rfl := Sum.inl.inj hnext
        exact .free _ (.free _ (.pde ..))
  | free page hnext =>
      obtain ⟨u, v₁, hfree, hrun⟩ := Prog.bind_eq_some.mp hrun
      obtain ⟨rfl, rfl⟩ := Prog.pure_eq_some.mp hrun
      refine ⟨hr.freePage (hspare page rfl) hfree, fun next he => ?_⟩
      obtain rfl := Sum.inl.inj he
      exact hnext

end CopyPc

/-! ## Pages that are asked for -/

theorem Roles.findPte_ne_zero (h : Roles L n m₀ c role v) (hd : role d = some (.dir o)) (hw : UserAddr w)
    (hfree : Present (v.mem.pde d (pdeIndex w)) ∨ v.alloc.clearPages.Nonempty)
    (hrun : findPte d w true v = some (a, v')) : a ≠ 0 := by
  have hdp := h.dirPage hd
  obtain ⟨hi, hi'⟩ := hw.indices
  by_cases hpres : Present (v.mem.pde d (pdeIndex w))
  · rcases (h.dir d o hd).user _ hi hi' with hzero | ⟨t, ht, hword⟩
    · rw [hzero] at hpres
      cases hpres
    · have htp := h.tablePage ht
      have htable : v.mem.table d (pdeIndex w) = t := by
        rw [Mem.table, hword, entryPaddr_add htp.aligned (by decide)]
      have hfind := findPte_present hdp hw.2 hpres (htable.symm ▸ htp) true
      obtain ⟨rfl, -⟩ := Prog.result_unique hrun hfind
      rw [htable]
      have := htp.ne_zero
      omega
  · rw [findPte, Prog.bind_of_eq (hdp.load32 hi')] at hrun
    have hpres' : ¬ Present (v.mem.read32 (d + 4 * pdeIndex w)) := hpres
    rw [if_neg hpres', if_pos rfl] at hrun
    obtain ⟨p, v₁, halloc, hrun⟩ := Prog.bind_eq_some.mp hrun
    have hp := h.allocPage_ne_zero (hfree.resolve_left hpres) halloc
    obtain ⟨-, hused⟩ := (h.allocPage halloc).2.2 hp
    obtain ⟨-, -, htop⟩ := hused.bounds h.ready.top
    rw [if_neg hp] at hrun
    obtain ⟨_, v₂, -, hrun⟩ := Prog.bind_eq_some.mp hrun
    obtain ⟨_, v₃, -, hrun⟩ := Prog.bind_eq_some.mp hrun
    obtain ⟨rfl, -⟩ := Prog.pure_eq_some.mp hrun
    have hlt := pteIndex_lt w
    rw [u32_of_lt (by unfold memPageSize memoryTaskBase at htop; omega)]
    omega

theorem Roles.createMap_result {err : ℤ} (h : Roles L n m₀ c role v) (hd : role d = some (.dir o))
    (hw : UserAddr w) (hfree : Present (v.mem.pde d (pdeIndex w)) ∨ v.alloc.clearPages.Nonempty)
    (hrun : memoryCreateMap d perm 1 w p v = some (err, v')) : err = 0 := by
  obtain ⟨a, v₁, hfind, hrun⟩ := Prog.bind_eq_some.mp hrun
  rw [if_neg (h.findPte_ne_zero hd hw hfree hfind)] at hrun
  obtain ⟨_, v₂, -, hrun⟩ := Prog.bind_eq_some.mp hrun
  obtain ⟨_, v₃, -, hrun⟩ := Prog.bind_eq_some.mp hrun
  obtain ⟨_, v₄, -, hrun⟩ := Prog.bind_eq_some.mp hrun
  exact (Prog.pure_eq_some.mp hrun).1

theorem Roles.createUvm_ne_zero (h : Roles L n m₀ c role v) (hfree : v.alloc.clearPages.Nonempty)
    (hrun : memoryCreateUvm L v = some (d, v')) : d ≠ 0 := by
  obtain ⟨p, v₁, halloc, hrun⟩ := Prog.bind_eq_some.mp hrun
  have hp := h.allocPage_ne_zero hfree halloc
  rw [if_neg hp] at hrun
  obtain ⟨_, v₂, -, hrun⟩ := Prog.bind_eq_some.mp hrun
  obtain ⟨_, v₃, -, hrun⟩ := Prog.bind_eq_some.mp hrun
  rwa [(Prog.pure_eq_some.mp hrun).1]

/-! ## Building the copy -/

namespace CopyPc

/-- The next step asks the allocator for a page. -/
def asks (v : Vm) : CopyPc → Prop
  | .create _ => True
  | .pte _ _ _ table j => j < pteCnt ∧
    ∃ pte v', load32 (u32 (table + 4 * j)) v = some (pte, v') ∧ Present pte
  | .map _ dest i _ _ _ _ => ¬ Present (v.mem.pde dest i)
  | _ => False

/-- The copy is a directory of the task `o`, and a page on its way to it belongs there. -/
def Building (role : RoleMap) (o : TaskId) : CopyPc → Prop
  | .create _ => True
  | .pde _ dest i => role dest = some (.dir o) ∧ userPdeStart ≤ i
  | .pte _ dest i _ _ => role dest = some (.dir o) ∧ userPdeStart ≤ i ∧ i < pdeCnt
  | .map _ dest i _ j perm page => role dest = some (.dir o) ∧ userPdeStart ≤ i ∧ i < pdeCnt ∧
    j < pteCnt ∧ perm < memPageSize ∧ role page = some (.frame dest (pteCnt * i + j))
  | _ => False

/-- The directory that a call has in a variable. -/
def dest : CopyPc → Option ℕ
  | .pde _ dest _ => some dest
  | .pte _ dest _ _ _ => some dest
  | .map _ dest _ _ _ _ _ => some dest
  | _ => none

variable {pc : CopyPc} {r : CopyPc ⊕ ℕ}

theorem Building.keep (h : pc.Building role o)
    (hdir : ∀ d, pc.dest = some d → role d = some (.dir o) → role' d = some (.dir o))
    (hplain : ∀ p k, k.Plain → role p = some k → role' p = some k) : pc.Building role' o := by
  cases pc with
  | create dir => exact trivial
  | pde dir dest i => exact ⟨hdir dest rfl h.1, h.2⟩
  | pte dir dest i table j => exact ⟨hdir dest rfl h.1, h.2⟩
  | map dir dest i table j perm page =>
      obtain ⟨hd, hi, hi', hj, hperm, hp⟩ := h
      exact ⟨hdir dest rfl hd, hi, hi', hj, hperm, hplain page _ trivial hp⟩
  | _ => exact h

/-- What the next step of a copy leaves. -/
def Built (role : RoleMap) (o : TaskId) : CopyPc ⊕ ℕ → Prop
  | .inl next => next.Building role o
  | .inr dest => role dest = some (.dir o)

theorem Building.step (h : pc.Building role o) (hr : Roles L n m₀ c role v)
    (hroom : pc.asks v → v.alloc.clearPages.Nonempty)
    (hrun : pc.step L residue v = some (r, v')) :
    ∃ role', role ≤ role' ∧ Roles L n m₀ c role' v' ∧ CopyPc.Built role' o r := by
  cases pc with
  | create dir =>
      obtain ⟨d, v₁, hcreate, hrun⟩ := Prog.bind_eq_some.mp hrun
      have hd := hr.createUvm_ne_zero (hroom trivial) hcreate
      obtain ⟨role', hle, hr', hdir⟩ := keepsRoles_createUvm o role le_rfl v d v₁ hr hcreate
      rw [if_neg hd] at hrun
      obtain ⟨rfl, rfl⟩ := Prog.pure_eq_some.mp hrun
      exact ⟨role', hle, hr', hdir hd, le_rfl⟩
  | pde dir dest i =>
      rw [CopyPc.step] at hrun
      split_ifs at hrun with hi
      · obtain ⟨pde, v₁, hload, hrun⟩ := Prog.bind_eq_some.mp hrun
        obtain rfl : v = v₁ := load32_along _ _ _ _ hload
        split_ifs at hrun
        · obtain ⟨rfl, rfl⟩ := Prog.pure_eq_some.mp hrun
          exact ⟨role, le_rfl, hr, h.1, h.2, hi⟩
        · obtain ⟨rfl, rfl⟩ := Prog.pure_eq_some.mp hrun
          exact ⟨role, le_rfl, hr, h.1, Nat.le_succ_of_le h.2⟩
      · obtain ⟨rfl, rfl⟩ := Prog.pure_eq_some.mp hrun
        exact ⟨role, le_rfl, hr, h.1⟩
  | pte dir dest i table j =>
      obtain ⟨hd, hi, hi'⟩ := h
      rw [CopyPc.step] at hrun
      split_ifs at hrun with hj
      · obtain ⟨pte, v₁, hload, hrun⟩ := Prog.bind_eq_some.mp hrun
        obtain rfl : v = v₁ := load32_along _ _ _ _ hload
        split_ifs at hrun with hpres
        · obtain ⟨page, v₂, halloc, hrun⟩ := Prog.bind_eq_some.mp hrun
          have hpage := hr.allocPage_ne_zero (hroom ⟨hj, pte, v, hload, hpres⟩) halloc
          have hplain : (PageRole.frame dest (pteCnt * i + j)).Plain := trivial
          obtain ⟨role', hle, hr', hframe⟩ := keepsRoles_allocPlain hplain role le_rfl v page v₂ hr halloc
          rw [if_neg hpage] at hrun
          obtain ⟨rfl, rfl⟩ := Prog.pure_eq_some.mp hrun
          have hperm : getPtePerm pte < memPageSize :=
            (Nat.and_le_right (n := pte) (m := 0x1FF)).trans_lt (by decide)
          exact ⟨role', hle, hr', hle _ _ hd, hi, hi', hj, hperm, hframe hpage⟩
        · obtain ⟨rfl, rfl⟩ := Prog.pure_eq_some.mp hrun
          exact ⟨role, le_rfl, hr, hd, hi, hi'⟩
      · obtain ⟨rfl, rfl⟩ := Prog.pure_eq_some.mp hrun
        exact ⟨role, le_rfl, hr, hd, Nat.le_succ_of_le hi⟩
  | map dir dest i table j perm page =>
      obtain ⟨hd, hi, hi', hj, hperm, hp⟩ := h
      have hw : UserAddr (i * 2 ^ 22 + j * 2 ^ 12) ∧ pdeIndex (i * 2 ^ 22 + j * 2 ^ 12) = i ∧
          (i * 2 ^ 22 + j * 2 ^ 12) / memPageSize = pteCnt * i + j := by
        unfold UserAddr userPdeStart pdeCnt pteCnt pdeIndex memoryTaskBase memPageSize at *
        omega
      obtain ⟨err, v₁, hmap, hrun⟩ := Prog.bind_eq_some.mp hrun
      have herr := hr.createMap_result hd hw.1 (by rw [hw.2.1]; exact or_iff_not_imp_left.mpr hroom) hmap
      rw [if_neg (by omega)] at hrun
      obtain ⟨role₁, hle₁, hr₁, -⟩ := 
        keepsRoles_createMap hd hw.1 (hw.2.2.symm ▸ hp) hperm role le_rfl v err v₁ hr hmap
      obtain ⟨u, v₂, hcopy, hrun⟩ := Prog.bind_eq_some.mp hrun
      obtain ⟨rfl, rfl⟩ := Prog.pure_eq_some.mp hrun
      have hframe := hr₁.scratchPage (hle₁ _ _ hp) trivial
      obtain ⟨role₂, hle₂, hr₂, -⟩ := keepsRoles_memcpy hframe le_rfl le_rfl role₁ le_rfl v₁ u v' hr₁ hcopy
      have hle := hle₁.trans hle₂
      exact ⟨role₂, hle, hr₂, hle _ _ hd, hi, hi'⟩
  | _ => exact h.elim

end CopyPc

end X86Os
