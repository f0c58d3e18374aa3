import X86Os.PageRoles

/-!
# Building tables keeps the roles

Mapping a page of the user half takes a page for a table at most, and writes to the directory and to one
of its tables. A page of the kernel half that the kernel has mapped stops it. So an address space can be
built without touching the kernel's tables.
-/

namespace X86Os

open Kernel (PageUsed)

variable {L : Layout} {n c d i j p q t w e perm size : ℕ} {m₀ m : Mem} {role role' : RoleMap}
  {o : TaskId} {v v' : Vm}

/-- The number of a page, from the indices of its entries. -/
theorem page_number (w : ℕ) : pteCnt * pdeIndex w + pteIndex w = w / memPageSize := by
  unfold pteCnt pdeIndex pteIndex memPageSize
  omega

/-! ## Memory that can be written to -/

theorem store8_identity {a : ℕ} {b : BitVec 8} {u : Unit} (hrun : store8 a b v = some (u, v'))
    (ha : a < memoryTaskBase) : Identity a := by
  obtain ⟨x, hx, -⟩ := Option.map_eq_some_iff.mp hrun
  rw [Vm.phys, if_pos ha] at hx
  by_contra hid
  rw [if_neg hid] at hx
  cases hx

/-- A page that could be filled is one of the kernel's. -/
theorem memset_kernelPage {b : BitVec 8} {u : Unit} (hrun : memset p b memPageSize v = some (u, v'))
    (hal : p % memPageSize = 0) (h0 : p ≠ 0) (hp : p < memoryTaskBase) :
    KernelPage p ∧ v' = { v with mem := v.mem.fill p b memPageSize } := by
  have hloop : memsetLoop b (4095 + 1) p v = some (u, v') := by
    rwa [memset, if_neg (by unfold memPageSize; omega)] at hrun
  obtain ⟨_, v₁, hstore, -⟩ := Prog.bind_eq_some.mp hloop
  have hpage : KernelPage p := ⟨hal, store8_identity hstore hp, h0⟩
  have hfill := memset_page (s := v) hpage.identity hal h0 b
  exact ⟨hpage, (Prog.result_unique hrun hfill).2⟩

theorem Mem.fill_write32 {b : BitVec 8} {a x s : ℕ} (h : a + 4 ≤ p ∨ p + s ≤ a) :
    (m.write32 a x).fill p b s = (m.fill p b s).write32 a x := by
  funext y
  by_cases hy : p ≤ y ∧ y < p + s
  · rw [write32_apply_of_out y (by omega), fill, fill, if_pos hy, if_pos hy]
  · rw [fill, if_neg hy]
    simp only [write32, fill, if_neg hy]

theorem Mem.read32_write32 {a x b : ℕ} (hx : x < 2 ^ 32) (h : b = a ∨ b + 4 ≤ a ∨ a + 4 ≤ b) :
    (m.write32 a x).read32 b = if b = a then x else m.read32 b := by
  split_ifs with he
  · rw [he, read32_write32_self hx]
  · exact read32_write32_of_apart (h.resolve_left he)

namespace Roles

/-! ## New entries -/

/-- A table is entered in the user half of a directory. -/
theorem enterTable (h : Roles L n m₀ c role v) (hd : role d = some (.dir o)) (hi : userPdeStart ≤ i)
    (hi' : i < pdeCnt) (ht : role t = some (.table d i)) :
    Roles L n m₀ c role { v with mem := v.mem.write32 (d + 4 * i) (t + 7) } := by
  have hlt : t + 7 < 2 ^ 32 := by
    have := (h.tablePage ht).identity.lt
    omega
  have hword : ∀ j < pdeCnt, (v.mem.write32 (d + 4 * i) (t + 7)).pde d j =
      if d + 4 * j = d + 4 * i then t + 7 else v.mem.pde d j := fun j _ =>
    Mem.read32_write32 hlt (by omega)
  refine h.rewrite hd (by simp) (by simp) rfl rfl (fun x hx => ?_) (fun _ _ => ?_) fun _ _ hk => by cases hk
  · apply Mem.write32_apply_of_out
    unfold InPage memPageSize pdeCnt at *
    omega
  · refine ⟨(h.dir d o hd).identity, fun j hj => ?_, fun j hj hj' => ?_⟩
    · rw [hword j (hj.trans (by decide)), if_neg (by omega)]
      exact (h.dir d o hd).kernel j hj
    · rw [hword j hj']
      split_ifs with he
      · obtain rfl : j = i := by omega
        exact .inr ⟨t, ht, rfl⟩
      · exact (h.dir d o hd).user j hj hj'

/-- A frame is entered in a table of the user half. -/
theorem enterFrame (h : Roles L n m₀ c role v) (ht : role t = some (.table d i)) (hj : j < pteCnt)
    (he : e < 2 ^ 32) (hpres : Present e) (hf : role (entryPaddr e) = some (.frame d (pteCnt * i + j))) :
    Roles L n m₀ c role { v with mem := v.mem.write32 (t + 4 * j) e } := by
  refine h.rewrite ht (by simp) (by simp) rfl rfl (fun x hx => ?_) (fun _ hk => by cases hk) fun _ _ hk => ?_
  · apply Mem.write32_apply_of_out
    unfold InPage memPageSize pteCnt at *
    omega
  · obtain ⟨rfl, rfl⟩ := PageRole.table.inj hk
    refine ⟨(h.table t d i ht).identity, fun k hk => ?_⟩
    rw [Mem.read32_write32 he (by omega)]
    split_ifs with hkj
    · obtain rfl : k = j := by omega
      exact .inr ⟨hpres, hf⟩
    · exact (h.table t d i ht).word k hk

/-- A new page is filled with zeros and becomes a table. -/
theorem newTable (h : Roles L n m₀ c role v) (hp : role p = none) (hu : PageUsed n v p)
    (hpage : KernelPage p) :
    Roles L n m₀ c (role.assign p (.table d i)) { v with mem := v.mem.fill p 0 memPageSize } := by
  have hout : ∀ x, ¬ InPage p x → v.mem.fill p 0 memPageSize x = v.mem x := fun x hx => by
    apply Mem.fill_apply_of_out
    unfold InPage at hx
    omega
  have hfill : Roles L n m₀ c role { v with mem := v.mem.fill p 0 memPageSize } := by
    refine h.congr rfl rfl (fun x hx => hout x fun hpx => ?_) fun q k hq _ x hx => hout x fun hpx => ?_
    · have hend := h.ready.dir_end
      have hge := (hu.bounds h.ready.top).2.1
      unfold InPage at hx hpx
      omega
    · have hqp := InPage.unique (h.bounds hq).1 hpage.aligned hx hpx
      rw [hqp, hp] at hq
      cases hq
  refine hfill.assign hp (hu.congr rfl) (by simp) (by simp) (fun _ hk => by cases hk) fun _ _ _ =>
    ⟨hpage.identity, fun j hj => .inl ?_⟩
  apply Mem.read32_fill_zero (by omega)
  unfold pteCnt at hj
  unfold memPageSize
  omega

/-- Pages in use stay in use when pages are given back. -/
theorem freePages {a k : ℕ} {u : Unit} (h : Roles L n m₀ c role v)
    (hrun : X86Os.freePages a k v = some (u, v')) (hkeep : ∀ i, Taken n i v → Taken n i v') : Roles L n m₀ c role v' := by
  have hused : ∀ p, PageUsed n v p → PageUsed n v' p := fun p hp => hp.keep fun i hi _ _ => hkeep i hi
  obtain ⟨-, rfl⟩ := freePages_eq_some.mp hrun
  exact h.of_alloc rfl rfl (h.managed.freePage a k) h.start hused

/-! ## The kernel half -/

theorem pteWord_kernel (h : Roles L n m₀ c role v) (hd : role d = some (.dir o)) (hi : i < userPdeStart)
    (hj : j < pteCnt) : v.mem.pteWord d i j = m₀.pteWord L.kernelPageDir i j := by
  have hpde := (h.dir d o hd).kernel i hi
  have hi' : i < pdeCnt := hi.trans (by decide)
  by_cases hp : Present (m₀.pde L.kernelPageDir i)
  · have hword : v.mem.read32 (m₀.table L.kernelPageDir i + 4 * j) =
        m₀.read32 (m₀.table L.kernelPageDir i + 4 * j) := Mem.read32_congr fun x hx hx' =>
      h.kernelTable _ (h.kernel i hi' hp) x (inPage_word hj hx hx')
    rw [Mem.pteWord, Mem.pteWord, Mem.table, hpde, if_pos hp, if_pos hp]
    exact congrArg some hword
  · rw [Mem.pteWord, Mem.pteWord, hpde, if_neg hp, if_neg hp]

/-- The entry of a page of the kernel half, for an address that the kernel maps to itself. -/
theorem identity_entry (h : Roles L n m₀ c role v) (hd : role d = some (.dir o)) (hw : Identity w) :
    ∃ t e, KernelPage t ∧ (∀ alloc, findPte d w alloc v = some (t + 4 * pteIndex w, v)) ∧
      v.mem.read32 (t + 4 * pteIndex w) = e ∧ Present e ∧ entryPaddr e + w % memPageSize = w := by
  have hlt := hw.lt
  have hi : pdeIndex w < userPdeStart := by
    unfold pdeIndex userPdeStart memoryTaskBase pdeIndex
    omega
  have hi' : pdeIndex w < pdeCnt := hi.trans (by decide)
  have hpde := (h.dir d o hd).kernel _ hi
  have hwalk := h.ready.identity w (by omega)
  rw [if_pos hw, walk_eq, Option.map_eq_some_iff] at hwalk
  obtain ⟨e, he, hew⟩ := hwalk
  obtain ⟨hp, hword, hpres⟩ := userEntry_eq_some.mp he
  have ht := (h.ready.table _ hi' hp).1
  have hp' : Present (v.mem.pde d (pdeIndex w)) := hpde.symm ▸ hp
  have htable : v.mem.table d (pdeIndex w) = m₀.table L.kernelPageDir (pdeIndex w) := by
    rw [Mem.table, hpde]
  refine ⟨m₀.table L.kernelPageDir (pdeIndex w), e, ht, fun alloc => ?_, ?_, hpres, hew⟩
  · rw [findPte_present (h.dirPage hd) (by omega) hp' (htable.symm ▸ ht), htable]
  · rw [← hword]
    exact Mem.read32_congr fun x hx hx' =>
      h.kernelTable _ (h.kernel _ hi' hp) x (inPage_word (pteIndex_lt w) hx hx')

/-- An address that the kernel has mapped is not mapped again. -/
theorem createMap_halts (h : Roles L n m₀ c role v) (hd : role d = some (.dir o)) (hw : Identity w) :
    memoryCreateMap d perm 1 w p v = none := by
  obtain ⟨t, e, ht, hfind, hword, hpres, -⟩ := h.identity_entry hd hw
  have hload := ht.load32 (s := v) (pteIndex_lt w)
  rw [(ht.word (pteIndex_lt w)).2.2, hword] at hload
  rw [memoryCreateMap, Prog.bind_of_eq (hfind true), if_neg (by have := ht.ne_zero; omega),
    Prog.bind_of_eq hload]
  apply Prog.bind_of_none
  rw [Prog.require, if_neg (not_not.mpr hpres)]
  rfl

/-- The lookup of an address of the user half: no entry, an empty one, or a frame. -/
theorem getPaddr_user {a : ℕ} (h : Roles L n m₀ c role v) (hd : role d = some (.dir o)) (hw : UserAddr w)
    (hrun : memoryGetPaddr d w v = some (a, v')) :
    a = 0 ∨ ∃ q, Scratch role q ∧ q % memPageSize = 0 ∧ q + memPageSize ≤ memoryTaskBase ∧
      a = q + w % memPageSize := by
  obtain ⟨hi, hi'⟩ := hw.indices
  have hdp := h.dirPage hd
  rw [memoryGetPaddr, findPte] at hrun
  rcases (h.dir d o hd).user _ hi hi' with hzero | ⟨t, ht, hword⟩
  · have hfind : findPte d w false v = some (0, v) := by
      rw [findPte, Prog.bind_of_eq (hdp.load32 hi'),
        show v.mem.read32 (d + 4 * pdeIndex w) = 0 from hzero]
      rfl
    rw [← findPte, Prog.bind_of_eq hfind, if_pos rfl] at hrun
    exact .inl (Prog.pure_eq_some.mp hrun).1
  · have htp := h.tablePage ht
    have hpres : Present (v.mem.pde d (pdeIndex w)) := by
      have := htp.aligned
      rw [hword]
      unfold Present memPageSize at *
      omega
    have htable : v.mem.table d (pdeIndex w) = t := by
      rw [Mem.table, hword, entryPaddr_add htp.aligned (by decide)]
    have hfind := findPte_present hdp hw.2 hpres (htable.symm ▸ htp) false
    have hload := htp.load32 (s := v) (pteIndex_lt w)
    rw [(htp.word (pteIndex_lt w)).2.2] at hload
    rw [← findPte, Prog.bind_of_eq hfind, htable, if_neg (by have := htp.ne_zero; omega),
      Prog.bind_of_eq hload] at hrun
    obtain ⟨rfl, -⟩ := Prog.pure_eq_some.mp hrun
    have hoff : w % memPageSize < memPageSize := Nat.mod_lt _ (by decide)
    rcases (h.table t d _ ht).word _ (pteIndex_lt w) with hz | ⟨-, hf⟩
    · refine .inr ⟨0, .inl rfl, rfl, by decide, ?_⟩
      rw [hz]
      exact u32_of_lt (by unfold entryPaddr memPageSize at *; omega)
    · obtain ⟨hal, -, htop⟩ := h.bounds hf
      refine .inr ⟨_, .inr ⟨_, hf, trivial⟩, hal, htop, u32_of_lt ?_⟩
      unfold memPageSize memoryTaskBase at *
      omega

/-- The first address is its own place. -/
theorem getPaddr_zero {a : ℕ} (h : Roles L n m₀ c role v) (hd : role d = some (.dir o))
    (hrun : memoryGetPaddr d 0 v = some (a, v')) : a = 0 := by
  obtain ⟨t, e, ht, hfind, hword, -, he⟩ := h.identity_entry hd (show Identity 0 by decide)
  have hload := ht.load32 (s := v) (pteIndex_lt 0)
  rw [(ht.word (pteIndex_lt 0)).2.2, hword] at hload
  rw [memoryGetPaddr, Prog.bind_of_eq (hfind false), if_neg (by have := ht.ne_zero; omega),
    Prog.bind_of_eq hload, he] at hrun
  exact (Prog.pure_eq_some.mp hrun).1

end Roles

/-! ## Programs -/

/-- The program keeps what the pages are used for and gives roles to new ones at most. -/
abbrev KeepsRoles {A : Type} (L : Layout) (n : ℕ) (m₀ : Mem) (c : ℕ) (role : RoleMap) (f : Prog Vm A)
    (post : RoleMap → A → Prop) : Prop := Prog.Ensures (Roles L n m₀ c) role f post

theorem keepsRoles_allocPage : KeepsRoles L n m₀ c role allocPage fun _ _ => True := by
  intro role' _ v p v' hr hrun
  exact ⟨role', le_rfl, (hr.allocPage hrun).1, trivial⟩

/-- A page without a table. -/
theorem keepsRoles_allocPlain {k : PageRole} (hk : k.Plain) :
    KeepsRoles L n m₀ c role allocPage fun role' p => p ≠ 0 → role' p = some k := by
  intro role' _ v p v' hr hrun
  obtain ⟨hr', -, hpage⟩ := hr.allocPage hrun
  by_cases hp : p = 0
  · exact ⟨role', le_rfl, hr', fun h => absurd hp h⟩
  · obtain ⟨hnone, hused⟩ := hpage hp
    exact ⟨role'.assign p k, RoleMap.le_assign hnone, hr'.assign_plain hnone hused hk,
      fun _ => RoleMap.assign_self⟩

/-- The entry for an address of the user half. -/
theorem keepsRoles_findPte (hd : role d = some (.dir o)) (hw : UserAddr w) :
    KeepsRoles L n m₀ c role (findPte d w true) fun role' a =>
      a = 0 ∨ ∃ t, role' t = some (.table d (pdeIndex w)) ∧ a = t + 4 * pteIndex w := by
  intro role' hle v a v' hr hrun
  have hd' := hle _ _ hd
  have hdp := hr.dirPage hd'
  obtain ⟨hi, hi'⟩ := hw.indices
  rw [findPte, Prog.bind_of_eq (hdp.load32 hi')] at hrun
  rcases (hr.dir d o hd').user _ hi hi' with hzero | ⟨t, ht, hword⟩
  · rw [show v.mem.read32 (d + 4 * pdeIndex w) = 0 from hzero, if_neg (by decide), if_pos rfl] at hrun
    obtain ⟨p, v₁, halloc, hrun⟩ := Prog.bind_eq_some.mp hrun
    obtain ⟨hr₁, -, hpage⟩ := hr.allocPage halloc
    by_cases hp : p = 0
    · rw [if_pos hp] at hrun
      obtain ⟨rfl, rfl⟩ := Prog.pure_eq_some.mp hrun
      exact ⟨role', le_rfl, hr₁, .inl rfl⟩
    · obtain ⟨hnone, hused⟩ := hpage hp
      obtain ⟨hal, -, htop⟩ := hused.bounds hr.ready.top
      rw [if_neg hp, Prog.bind_of_eq (hdp.store32 hi' _)] at hrun
      obtain ⟨u, v₂, hset, hrun⟩ := Prog.bind_eq_some.mp hrun
      obtain ⟨hpp, rfl⟩ := memset_kernelPage hset hal hp (by unfold memPageSize at htop; omega)
      rw [(hpp.word (pteIndex_lt w)).2.2] at hrun
      obtain ⟨rfl, rfl⟩ := Prog.pure_eq_some.mp hrun
      have hor : p ||| pteP ||| pteW ||| pdeU = p + 7 := by
        rw [Nat.or_assoc, Nat.or_assoc]
        exact or_eq_add hal (by decide)
      have hapart : d + 4 * pdeIndex w + 4 ≤ p ∨ p + memPageSize ≤ d + 4 * pdeIndex w := by
        have hne : d ≠ p := fun he => by
          rw [he, hnone] at hd'
          cases hd'
        have hdal := hdp.aligned
        unfold pdeCnt at hi'
        unfold memPageSize at *
        omega
      have hself : role'.assign p (.table d (pdeIndex w)) p = some (.table d (pdeIndex w)) :=
        RoleMap.assign_self
      have hnew := (hr₁.newTable hnone hused hpp).enterTable (RoleMap.le_assign hnone _ _ hd') hi hi' hself
      refine ⟨role'.assign p (.table d (pdeIndex w)), RoleMap.le_assign hnone, ?_, .inr ⟨p, hself, rfl⟩⟩
      rw [hor]
      dsimp only at hnew ⊢
      rw [Mem.fill_write32 hapart]
      exact hnew
  · have htp := hr.tablePage ht
    have hpres : Present (t + 7) := by
      have := htp.aligned
      unfold Present memPageSize at *
      omega
    rw [show v.mem.read32 (d + 4 * pdeIndex w) = t + 7 from hword, if_pos hpres,
      entryPaddr_add htp.aligned (by decide), (htp.word (pteIndex_lt w)).2.2] at hrun
    obtain ⟨rfl, rfl⟩ := Prog.pure_eq_some.mp hrun
    exact ⟨role', le_rfl, hr, .inr ⟨t, ht, rfl⟩⟩

/-- A frame is mapped where it belongs. -/
theorem keepsRoles_createMap (hd : role d = some (.dir o)) (hw : UserAddr w)
    (hp : role p = some (.frame d (w / memPageSize))) (hperm : perm < memPageSize) :
    KeepsRoles L n m₀ c role (memoryCreateMap d perm 1 w p) fun _ _ => True := by
  refine (keepsRoles_findPte hd hw).bind fun role₁ hle a ha => ?_
  refine Prog.Ensures.ite (fun _ => Prog.keeps_pure _) fun ha0 => ?_
  obtain ⟨t, ht, rfl⟩ := ha.resolve_left ha0
  have hj := pteIndex_lt w
  refine (Prog.keeps_of_eq (load32_along _)).bind fun e => (Prog.keeps_require _).keeps.bind fun _ => ?_
  refine Prog.Keeps.bind (fun role₂ hle₂ v u v' hr hrun => ?_) fun _ => Prog.keeps_pure _
  have ht₂ := hle₂ _ _ ht
  have hp₂ := hle₂ _ _ (hle _ _ hp)
  obtain ⟨hal, -, htop⟩ := hr.bounds hp₂
  have hor : p ||| perm ||| pteP = p + (perm ||| pteP) := by
    rw [Nat.or_assoc]
    exact or_eq_add hal (Nat.or_lt_two_pow (n := 12) hperm (by decide))
  have hlt : perm ||| pteP < memPageSize := Nat.or_lt_two_pow (n := 12) hperm (by decide)
  have hpaddr : entryPaddr (p ||| perm ||| pteP) = p := by rw [hor, entryPaddr_add hal hlt]
  have hstore := (hr.tablePage ht₂).store32 (s := v) hj (p ||| perm ||| pteP)
  rw [((hr.tablePage ht₂).word hj).2.2] at hstore
  obtain ⟨-, rfl⟩ := Prog.result_unique hrun hstore
  refine ⟨role₂, le_rfl, hr.enterFrame ht₂ hj ?_ (present_or_pteP _) ?_, trivial⟩
  swap
  · rw [hpaddr, page_number w]
    exact hp₂
  rw [hor]
  unfold memPageSize memoryTaskBase at *
  omega

/-- Pages for a range that starts in the user half. Past the end of the address space it meets the first
page, which the kernel has mapped. -/
theorem keepsRoles_allocForPageDir (hd : role d = some (.dir o)) (hw : UserAddr w) (hal : w % memPageSize = 0)
    (hperm : perm < memPageSize) :
    KeepsRoles L n m₀ c role (memoryAllocForPageDir d w size perm) fun _ _ => True := by
  have hbound := hw.1
  have hend := hw.2
  have hdown : down2 w memPageSize = w := Nat.div_mul_cancel (Nat.dvd_of_mod_eq_zero hal)
  refine Prog.Keeps.bind (Prog.keeps_loop (P := fun j => w + j * memPageSize ≤ 2 ^ 32) _ 0 (by omega)
    fun j hj => ?_) fun r => Prog.keeps_pure _
  have hplain : (PageRole.frame d (u32 (w + j * memPageSize) / memPageSize)).Plain := trivial
  refine (keepsRoles_allocPlain hplain).bind fun role₁ hle p hp => ?_
  refine (Prog.keeps_require (p ≠ 0)).bind fun role₂ hle₂ _ hp0 => ?_
  have hd₂ := hle₂ _ _ (hle _ _ hd)
  have hp₂ := hle₂ _ _ (hp hp0)
  by_cases hin : w + j * memPageSize < 2 ^ 32
  · have hwj : UserAddr (u32 (w + j * memPageSize)) := by
      rw [u32_of_lt hin]
      exact ⟨by omega, hin⟩
    refine (keepsRoles_createMap hd₂ hwj hp₂ hperm).bind fun role₃ hle₃ err _ => ?_
    refine Prog.Ensures.ite (fun _ => ?_) fun _ => Prog.ensures_pure fun _ _ _ => ?_
    · have hfree : Prog.Keeps (Roles L n m₀ c) role₃ (freePages (down2 w memPageSize) (j + 1)) := by
        intro role₄ _ v u v' hr hrun
        rw [hdown] at hrun
        have hcount : j + 1 ≤ 2 ^ 20 := by
          unfold memPageSize memoryTaskBase at *
          omega
        have hkeep : ∀ i, Prog.Along (KeepsTaken n i) (freePages w (j + 1)) := fun i =>
          keepsTaken_freeUser hbound hend hal hcount
        exact ⟨role₄, le_rfl, hr.freePages hrun fun i => hkeep i v u v' hrun, trivial⟩
      exact hfree.bind fun _ => Prog.ensures_pure fun _ _ hr => by cases hr
    · show w + (j + 1) * memPageSize ≤ 2 ^ 32
      unfold memPageSize at hal hin ⊢
      omega
  · have hwrap : u32 (w + j * memPageSize) = 0 := by
      have he : w + j * memPageSize = 2 ^ 32 := by omega
      rw [he]
      rfl
    refine Prog.ensures_of_none fun role₃ hle₃ v hr => Prog.bind_of_none ?_
    rw [hwrap]
    exact hr.createMap_halts (hle₃ _ _ hd₂) (by decide)

/-- A range that starts at an address of the kernel half that is mapped. -/
theorem allocForPageDir_identity (hd : role d = some (.dir o)) (hw : Identity w) :
    KeepsRoles L n m₀ c role (memoryAllocForPageDir d w size perm) fun _ _ => True := by
  have hu : u32 (w + 0 * memPageSize) = w := by
    rw [Nat.zero_mul, Nat.add_zero]
    exact u32_of_lt (by have := hw.lt; omega)
  refine Prog.Keeps.bind (Prog.keeps_loop (P := fun j => j = 0) _ 0 rfl fun j hj => ?_)
    fun r => Prog.keeps_pure _
  subst hj
  refine keepsRoles_allocPage.bind fun role₁ hle p _ => ?_
  refine (Prog.keeps_require (p ≠ 0)).bind fun role₂ hle₂ _ _ => ?_
  refine Prog.ensures_of_none fun role₃ hle₃ v hr => Prog.bind_of_none ?_
  rw [hu]
  exact hr.createMap_halts (hle₃ _ _ (hle₂ _ _ (hle _ _ hd))) hw

/-- A new directory has the kernel's half and an empty user half. -/
theorem keepsRoles_createUvm (o : TaskId) :
    KeepsRoles L n m₀ c role (memoryCreateUvm L) fun role' d => d ≠ 0 → role' d = some (.dir o) := by
  intro role' _ v d v' hr hrun
  obtain ⟨p, v₁, halloc, hrun⟩ := Prog.bind_eq_some.mp hrun
  obtain ⟨hr₁, hmem₁, hpage⟩ := hr.allocPage halloc
  by_cases hp : p = 0
  · rw [if_pos hp] at hrun
    obtain ⟨rfl, rfl⟩ := Prog.pure_eq_some.mp hrun
    exact ⟨role', le_rfl, hr₁, fun h => absurd rfl h⟩
  · obtain ⟨hnone, hused⟩ := hpage hp
    obtain ⟨hal, hge, htop⟩ := hused.bounds hr.ready.top
    rw [if_neg hp] at hrun
    obtain ⟨u, v₂, hset, hrun⟩ := Prog.bind_eq_some.mp hrun
    obtain ⟨hpp, rfl⟩ := memset_kernelPage hset hal hp (by unfold memPageSize at htop; omega)
    have hne : L.kernelPageDir ≠ p := by
      have hend := hr.ready.dir_end
      unfold memPageSize at hend
      omega
    have hinit : Created L v v₁ p 0 { v₁ with mem := v₁.mem.fill p 0 memPageSize } := by
      refine ⟨rfl, rfl, fun x hx => ?_, fun k hk => ?_⟩
      · rw [← hmem₁]
        apply Mem.fill_apply_of_out
        unfold InPage at hx
        omega
      · rw [if_neg (by omega)]
        apply Mem.read32_fill_zero (by omega)
        unfold memPageSize pdeCnt at *
        omega
    obtain ⟨v₃, hloop, hc⟩ := Prog.loop_total (n := userPdeStart)
      (fun k s _ hk hs => hs.round (by unfold userPdeStart pdeIndex memoryTaskBase pdeCnt at *; omega)
        hpp hr.ready.dirPage hne) hinit
    rw [Prog.bind_of_eq hloop] at hrun
    obtain ⟨rfl, rfl⟩ := Prog.pure_eq_some.mp hrun
    have hout : ∀ q, q ≠ d → q % memPageSize = 0 → ∀ x, InPage q x → v'.mem x = v₁.mem x := by
      intro q hq hqal x hx
      rw [hc.out x fun hpx => hq (InPage.unique hqal hal hx hpx), hmem₁]
    have hr₃ : Roles L n m₀ c role' v' := by
      refine hr₁.congr hc.alloc hc.cr3 (hout _ hne hr.ready.dirPage.aligned) fun q k hq _ =>
        hout q (fun he => ?_) (hr.bounds hq).1
      rw [he, hnone] at hq
      cases hq
    have hkernel : ∀ i < pdeCnt, v.mem.pde L.kernelPageDir i = m₀.pde L.kernelPageDir i := fun i hi =>
      Mem.read32_congr fun x hx hx' => hr.kernelDir x (inPage_word hi hx hx')
    refine ⟨role'.assign d (.dir o), RoleMap.le_assign hnone, hr₃.assign hnone (hused.congr hc.alloc)
      (by simp) (by simp) (fun _ _ => ⟨hpp.identity, fun i hi => ?_, fun i hi hi' => .inl ?_⟩)
      (fun _ _ hk => by cases hk), fun _ => RoleMap.assign_self⟩
    · have hi' : i < pdeCnt := hi.trans (by decide)
      have hword := hc.word i hi'
      rw [if_pos (by omega)] at hword
      rw [← hkernel i hi']
      exact hword
    · have hword := hc.word i hi'
      rwa [if_neg (by omega)] at hword

end X86Os
