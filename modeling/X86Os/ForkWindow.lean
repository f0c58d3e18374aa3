import X86Os.ForkInv

/-!
# While a slot is found and not named

The steps of a call of `sys_fork` from the search for a slot to the moment the slot has its name, and of
a call that fails. While no other call is there, each of them keeps the invariant.
-/

namespace X86Os

namespace Kernel

variable {L : Layout} {n i residue sel esp0 eip esp pageDir kernelStack x : ℕ} {v v' : Vm}
  {r r' : ForkRun} {s : Kernel} {p q t u : TaskId} {c : Resource} {pc pc' : ForkPc} {next : ForkPc ⊕ ℤ}

/-! ## Steps and claims -/

theorem ForkPc.quiet_of_found (h : pc.claim = some (t, .found)) : pc.inserts = none ∧ pc.starts = none := by
  cases pc with
  | named t => cases h
  | copied t => cases h
  | _ => exact ⟨rfl, rfl⟩

/-- The claims after a step. -/
theorem record_claims {o : Option (TaskId × Stage)} {named : Set TaskId} {listed started : List TaskId}
    (hclaim : next.getLeft?.bind ForkPc.claim = o) (hname : ∀ t, (s.task t).name 0 ≠ 0 ↔ t ∈ named)
    (hi : (r.pc p).inserts.toList ++ r.listed = listed)
    (hs : (r.pc p).starts.toList ++ r.started = started) :
    (r.record p next s).claims =
      { claim := Function.update r.claims.claim p o, named := named, listed := listed,
        started := started } := by
  ext1
  · rw [ForkRun.record_claim, hclaim]
  · exact Set.ext hname
  · exact hi
  · exact hs

/-- A step that leaves the claim of the call where it is. -/
theorem record_quiet (hclaim : next.getLeft?.bind ForkPc.claim = (r.pc p).claim)
    (hname : ∀ t, (s.task t).name 0 ≠ 0 ↔ t ∈ r.claims.named)
    (hi : (r.pc p).inserts = none) (hs : (r.pc p).starts = none) :
    (r.record p next s).claims = r.claims := by
  have hclaims : (r.record p next s).claims =
      { r.claims with claim := Function.update r.claims.claim p (r.pc p).claim } :=
    record_claims hclaim hname (by rw [hi]; rfl) (by rw [hs]; rfl)
  rwa [← r.claim_pc p, Function.update_eq_self] at hclaims

theorem record_schedRun (hsched : s.sched = r.kernel.sched) (hi : (r.pc p).inserts = none)
    (hs : (r.pc p).starts = none) : (r.record p next s).schedRun = r.schedRun := by
  rw [ForkRun.schedRun, ForkRun.record, hi, hs, hsched]
  rfl

namespace ForkInv

/-- The idle task has a stack, so the allocator is in order. -/
theorem managed (h : ForkInv L n r) :
    r.kernel.vm.alloc.Managed n ∧ r.kernel.vm.alloc.start = memExtStart := by
  obtain ⟨q, hq⟩ := h.tracks
  have hn := h.sound.inOrder.named .idle hq.idle_initialised
  obtain ⟨i, hi, -⟩ := h.kernelStacks.marked .idle _ (.inl ⟨hn, rfl⟩)
  exact ⟨hi.managed, hi.start⟩

theorem selFree_zero (h : Ledger (Resource.sel.Held r) (SelUsed r.kernel.gdt)) : SelFree r 0 := by
  intro t x hx
  obtain ⟨j, rfl, hj, -⟩ := h.marked t x hx
  omega

/-- A selector in use differs from the others by its descriptor. -/
theorem sel_div_ne (h : ForkInv L n r) (ht : Resource.sel.Held r t sel)
    (hu : Resource.sel.Held r u x) (hne : u ≠ t) : x / 8 ≠ sel / 8 := by
  obtain ⟨j, rfl, -⟩ := h.sels.marked t sel ht
  obtain ⟨k, rfl, -⟩ := h.sels.marked u x hu
  intro heq
  have hkj : k = j := by omega
  exact hne (h.sels.exclusive u t _ hu (hkj ▸ ht))

theorem window_record (h : ForkInv L n r) (hp : (r.pc p).claim = some (t, .found))
    (htask : ∀ u, u ≠ t → s.task u = r.kernel.task u)
    (hnext : ∀ pc, next = .inl pc → ∃ a, pc.claim = some (t, a)) :
    Window p t next.getLeft? r (r.record p next s) where
  call := rfl
  claim pc hpc := hnext pc (Sum.getLeft?_eq_some_iff.mp hpc)
  task := htask
  slot := h.slot p t ((r.claim_pc p).trans hp)
  own u a hu := by
    rw [r.claim_pc p, hp] at hu
    exact (Prod.mk.inj (Option.some.inj hu)).1.symm
  other q hq u hu := hq (h.sound.single q p u t hu ((r.claim_pc p).trans hp))

theorem window_next (h : ForkInv L n r) (hp : (r.pc p).claim = some (t, .found)) (pc' : ForkPc)
    {a : Stage} (hpc' : pc'.claim = some (t, a)) (htask : ∀ u, u ≠ t → s.task u = r.kernel.task u) :
    Window p t (some pc') r (r.record p (.inl pc') s) :=
  h.window_record hp htask fun _ hpc => ⟨a, Sum.inl.inj hpc ▸ hpc'⟩

/-- A step that stays in the window. -/
theorem stay (h : ForkInv L n r) (hp : (r.pc p).claim = some (t, .found))
    (hpc' : pc'.claim = some (t, .found)) (htask : ∀ u, u ≠ t → s.task u = r.kernel.task u)
    (hname : (s.task t).name 0 = 0) (hsched : s.sched = r.kernel.sched)
    (hfresh : Fresh (r.record p (.inl pc') s) pc')
    (hsels : Ledger (Resource.sel.Held (r.record p (.inl pc') s)) (SelUsed s.gdt))
    (hstacks : Ledger (Resource.kernelStack.Held (r.record p (.inl pc') s)) (PageUsed n s.vm)) :
    ForkInv L n (r.record p (.inl pc') s) := by
  have hw := h.window_next hp pc' hpc' htask
  obtain ⟨hi, hs⟩ := ForkPc.quiet_of_found hp
  have hclaims : (r.record p (.inl pc') s).claims = r.claims := by
    refine record_quiet (hpc'.trans hp.symm) (fun u => ?_) hi hs
    by_cases hu : u = t
    · rw [hu]
      exact iff_of_false (not_not.mpr hname) hw.unnamed
    · exact hw.named_of_ne hu
  refine h.window hw ?_ ?_ ?_ (fun hn => absurd hname hn) (by simp) ?_ hsels hstacks
  · rw [record_schedRun hsched hi hs]
    exact h.tracks
  · rw [hclaims]
    exact h.sound
  · exact congrArg Claims.listed hclaims
  · intro pc hpc
    rwa [← Option.some.inj hpc]

end ForkInv

/-! ## Steps in the window -/

/-- A call that holds nothing any more. -/
theorem Window.dropped {o : Option ForkPc} (hw : Window p t o r r')
    (hname : (r'.kernel.task t).name 0 = 0)
    (hof : ∀ pc, o = some pc → c.ofCall (r'.kernel.task t) pc = none) (h : c.Held r' u x) :
    u ≠ t ∧ c.Held r u x := by
  have hu : u ≠ t := by
    rintro rfl
    rcases hw.held_self h with ⟨hn, -⟩ | ⟨pc, hpc, hx⟩
    · exact hn hname
    · rw [hof pc hpc] at hx
      cases hx
  exact ⟨hu, hw.held_of_ne hu h⟩

/-- What is held for a slot without a name is held by the call. -/
theorem Window.held_call (hw : Window p t (some pc) r r') (hname : (r'.kernel.task t).name 0 = 0)
    (h : c.Held r' t x) : c.ofCall (r'.kernel.task t) pc = some x := by
  rcases hw.held_self h with ⟨hn, -⟩ | ⟨pc', hpc', hx⟩
  · exact absurd hname hn
  · rwa [← Option.some.inj hpc'] at hx

/-- What the call of `p` holds for its slot. -/
theorem held_of_call (hp : (r.pc p).claim = some (t, .found))
    (hof : c.ofCall (r.kernel.task t) (r.pc p) = some x) : c.Held r t x :=
  .inr ⟨p, r.pc p, .found, ForkRun.call_eq (by rw [hp]; simp), hp, hof⟩

theorem PageUsed.congr (h : PageUsed n v x) (halloc : v'.alloc = v.alloc) : PageUsed n v' x :=
  h.keep fun _ _ _ ht => ht.of_alloc halloc

theorem PageUsed.lt (h : PageUsed n v x) : x < 2 ^ 32 := by
  obtain ⟨i, hi, rfl⟩ := h
  exact u32_lt _

namespace ForkInv

/-- The slot of a call in the window has no name. -/
theorem name_of_found (h : ForkInv L n r) (hp : (r.pc p).claim = some (t, .found)) :
    (r.kernel.task t).name 0 = 0 :=
  not_not.mp (h.sound.fits p t .found ((r.claim_pc p).trans hp))

theorem fresh_pc (h : ForkInv L n r) (hp : (r.pc p).claim = some (t, .found)) : Fresh r (r.pc p) :=
  h.fresh p _ (ForkRun.call_eq (by rw [hp]; simp))

/-- A step that fails or gives something back. -/
theorem undo (h : ForkInv L n r) (hp : (r.pc p).claim = some (t, .found))
    (hpc' : pc'.claim = some (t, .found)) (htask : ∀ u, u ≠ t → s.task u = r.kernel.task u)
    (hname : (s.task t).name 0 = 0) (hsched : s.sched = r.kernel.sched)
    (hsel : Resource.sel.ofCall (s.task t) pc' = none)
    (hstack : Resource.kernelStack.ofCall (s.task t) pc' = none)
    (hused : ∀ u x, u ≠ t → Resource.sel.Held r u x → SelUsed r.kernel.gdt x → SelUsed s.gdt x)
    (hpage : ∀ u x, u ≠ t → Resource.kernelStack.Held r u x → PageUsed n r.kernel.vm x →
      PageUsed n s.vm x)
    (hfresh : (∀ u x, Resource.sel.Held (r.record p (.inl pc') s) u x → u ≠ t ∧ Resource.sel.Held r u x) →
      SelFree (r.record p (.inl pc') s) 0 → Fresh (r.record p (.inl pc') s) pc') :
    ForkInv L n (r.record p (.inl pc') s) := by
  have hw := h.window_next hp pc' hpc' htask
  have hdrop : ∀ c : Resource, c.ofCall (s.task t) pc' = none → ∀ u x,
      c.Held (r.record p (.inl pc') s) u x → u ≠ t ∧ c.Held r u x := fun c hof u x hx =>
    hw.dropped hname (fun pc hpc => by rwa [← Option.some.inj hpc]) hx
  have hsels : Ledger (Resource.sel.Held (r.record p (.inl pc') s)) (SelUsed s.gdt) :=
    h.sels.keep (fun u x hx => (hdrop _ hsel u x hx).2) fun u x hx =>
      hused u x (hdrop _ hsel u x hx).1 (hdrop _ hsel u x hx).2
  refine h.stay hp hpc' htask hname hsched (hfresh (hdrop _ hsel) (selFree_zero hsels)) hsels ?_
  exact h.kernelStacks.keep (fun u x hx => (hdrop _ hstack u x hx).2) fun u x hx =>
    hpage u x (hdrop _ hstack u x hx).1 (hdrop _ hstack u x hx).2

theorem step_found (h : ForkInv L n r) (hpc : r.pc p = .found t)
    (hstep : ForkPc.step L residue p (.found t) r.kernel = some (next, s)) :
    ForkInv L n (r.record p next s) := by
  have hp : (r.pc p).claim = some (t, .found) := by rw [hpc]; rfl
  have hname := h.name_of_found hp
  have hsel : (r.kernel.task t).tssSel = 0 := by
    have hf := h.fresh_pc hp
    rwa [hpc] at hf
  rcases ForkPc.step_found hstep with ⟨-, rfl, rfl⟩ | ⟨esp0, eip, esp, i, hfree, rfl, rfl⟩
  · refine h.undo hp rfl (fun _ _ => rfl) hname rfl rfl rfl (fun _ _ _ _ hu => hu)
      (fun _ _ _ _ hu => hu) fun _ hzero => ?_
    show SelFree _ (r.kernel.task t).tssSel
    rw [hsel]
    exact hzero
  · let s : Kernel := { r.kernel with
      gdt := Function.update r.kernel.gdt i { r.kernel.gdt i with attr := segPPresent } }
    have hw : Window p t _ r (r.record p _ s) :=
      h.window_next hp (.desc t esp0 eip esp (8 * i)) rfl fun _ _ => rfl
    obtain ⟨hnew, hnew'⟩ := selUsed_alloc hfree
    refine h.stay hp rfl (fun _ _ => rfl) hname rfl hsel ?_ ?_
    · refine h.sels.take (h := t) hnew hnew' (fun u hu x => hw.held_of_ne hu) (fun x hx => ?_)
        fun x hx => hx.alloc i
      exact .inr (Option.some.inj (hw.held_call hname hx)).symm
    · refine h.kernelStacks.keep (fun u x hx => ?_) fun _ _ _ hu => hu
      exact (hw.dropped hname (fun pc hpc' => by rw [← Option.some.inj hpc']; rfl) hx).2

theorem pageUsed_keepsAlloc (h : PageUsed n v x) :
    PageUsed n { v with alloc := (addrAllocPage v.alloc 1).2 } x :=
  h.keep fun _ _ _ => keepsTaken_allocPage v _ _ rfl

/-- The selector that a call gives up is free afterwards. -/
theorem selFree_own (h : ForkInv L n r) (ht : Resource.sel.Held r t sel)
    (hdrop : ∀ u x, Resource.sel.Held r' u x → u ≠ t ∧ Resource.sel.Held r u x) : SelFree r' sel :=
  fun u x hx => h.sel_div_ne ht (hdrop u x hx).2 (hdrop u x hx).1

theorem step_desc (h : ForkInv L n r) (hpc : r.pc p = .desc t esp0 eip esp sel)
    (hstep : ForkPc.step L residue p (.desc t esp0 eip esp sel) r.kernel = some (next, s)) :
    ForkInv L n (r.record p next s) := by
  have hp : (r.pc p).claim = some (t, .found) := by rw [hpc]; rfl
  have hzero : (r.kernel.task t).tssSel = 0 := by
    have hf := h.fresh_pc hp
    rwa [hpc] at hf
  have hheld : Resource.sel.Held r t sel := held_of_call hp (by rw [hpc]; rfl)
  have hattr : segPPresent ||| segDpl0 ||| segTypeTss ≠ 0 := by decide
  obtain ⟨hs, hcases⟩ := ForkPc.step_desc hstep
  have htask : ∀ u, u ≠ t → s.task u = r.kernel.task u := fun u hu => by
    rw [hs, ForkPc.putTask_of_ne hu]
  have hself : s.task t = (r.kernel.task t).withTss .zero := by rw [hs, ForkPc.putTask_self]
  have hname : (s.task t).name 0 = 0 := by
    rw [hself]
    exact h.name_of_found hp
  have hsched : s.sched = r.kernel.sched := by rw [hs]; rfl
  have hused : ∀ x, SelUsed r.kernel.gdt x → SelUsed s.gdt x := fun x hx => by
    rw [hs]
    exact hx.set hattr _ _ _
  have hvm : s.vm = { r.kernel.vm with alloc := (addrAllocPage r.kernel.vm.alloc 1).2 } := by
    rw [hs]
    rfl
  have hpage : ∀ x, PageUsed n r.kernel.vm x → PageUsed n s.vm x := fun x hx => by
    rw [hvm]
    exact pageUsed_keepsAlloc hx
  rcases hcases with ⟨-, rfl⟩ | ⟨hne, rfl⟩
  · refine h.undo hp rfl htask hname hsched rfl rfl (fun _ x _ _ => hused x) (fun _ x _ _ => hpage x)
      fun hdrop hzero' => ⟨h.selFree_own hheld hdrop, ?_⟩
    show SelFree _ (s.task t).tssSel
    rw [hself]
    exact hzero.symm ▸ hzero'
  · obtain ⟨hm, hstart⟩ := h.managed
    obtain ⟨hnew, hnew'⟩ := pageUsed_alloc hm hstart hne
    have hw := h.window_next hp (.stack t esp0 eip esp sel (addrAllocPage r.kernel.vm.alloc 1).1) rfl
      htask
    have hfresh : (s.task t).tssSel = 0 := by rw [hself]; exact hzero
    refine h.stay hp rfl htask hname hsched hfresh ?_ ?_
    · refine h.sels.keep (fun u x => hw.held fun x hx => ?_) fun _ x _ => hused x
      rwa [← Option.some.inj (hw.held_call hname hx)]
    · refine h.kernelStacks.take (h := t) hnew (hvm ▸ hnew') (fun u hu x => hw.held_of_ne hu)
        (fun x hx => ?_) hpage
      exact .inr (Option.some.inj (hw.held_call hname hx)).symm

theorem step_stack (h : ForkInv L n r) (hpc : r.pc p = .stack t esp0 eip esp sel kernelStack)
    (hstep : ForkPc.step L residue p (.stack t esp0 eip esp sel kernelStack) r.kernel =
      some (next, s)) : ForkInv L n (r.record p next s) := by
  have hp : (r.pc p).claim = some (t, .found) := by rw [hpc]; rfl
  have hheld : Resource.sel.Held r t sel := held_of_call hp (by rw [hpc]; rfl)
  have hstack : Resource.kernelStack.Held r t kernelStack := held_of_call hp (by rw [hpc]; rfl)
  obtain ⟨tss, dir, v, hesp0, hcreate, hs, hcases⟩ := ForkPc.step_stack hstep
  have hmod : sel % 2 ^ 16 = sel := Nat.mod_eq_of_lt (h.sels.marked t sel hheld).lt
  have hlt := (h.kernelStacks.marked t kernelStack hstack).lt
  have htask : ∀ u, u ≠ t → s.task u = r.kernel.task u := fun u hu => by
    rw [hs, ForkPc.putTask_of_ne hu]
  have hself : s.task t = { r.kernel.task t with tss := tss, tssSel := sel % 2 ^ 16 } := by
    rw [hs, ForkPc.putTask_self]
  have hname : (s.task t).name 0 = 0 := by
    rw [hself]
    exact h.name_of_found hp
  have hsched : s.sched = r.kernel.sched := by rw [hs]; rfl
  have hgdt : s.gdt = r.kernel.gdt := by rw [hs]; rfl
  have hvm : s.vm = v := by rw [hs]; rfl
  have hpage : ∀ x, PageUsed n r.kernel.vm x → PageUsed n s.vm x := fun x hx => by
    rw [hvm]
    exact hx.keep fun _ _ _ => keepsTaken_createUvm L _ _ _ hcreate
  have hsel : (s.task t).tssSel = sel := by rw [hself]; exact hmod
  rcases hcases with ⟨-, rfl⟩ | ⟨-, rfl⟩
  · refine h.undo hp rfl htask hname hsched rfl rfl (fun _ x _ _ hx => hgdt ▸ hx)
      (fun _ x _ _ => hpage x) fun hdrop _ => ⟨h.selFree_own hheld hdrop, ?_⟩
    show SelFree _ (s.task t).tssSel
    rw [hsel]
    exact h.selFree_own hheld hdrop
  · have hw := h.window_next hp (.dir t esp0 dir) rfl htask
    have hfield : u32Sub (s.task t).tss.esp0 memPageSize = kernelStack := by
      rw [hself, hesp0]
      unfold u32Sub u32 memPageSize
      omega
    refine h.stay hp rfl htask hname hsched trivial ?_ ?_
    · refine h.sels.keep (fun u x => hw.held fun x hx => ?_) fun _ x _ hx => hgdt ▸ hx
      have hof : some (s.task t).tssSel = some x := hw.held_call (c := .sel) hname hx
      rw [hsel] at hof
      exact Option.some.inj hof ▸ hheld
    · refine h.kernelStacks.keep (fun u x => hw.held fun x hx => ?_) fun _ x _ => hpage x
      have hof : some (u32Sub (s.task t).tss.esp0 memPageSize) = some x :=
        hw.held_call (c := .kernelStack) hname hx
      rw [hfield] at hof
      exact Option.some.inj hof ▸ hstack

/-! ### A call that fails -/

theorem step_undo (h : ForkInv L n r) (hpc : r.pc p = .undo t sel kernelStack)
    (hstep : ForkPc.step L residue p (.undo t sel kernelStack) r.kernel = some (next, s)) :
    ForkInv L n (r.record p next s) := by
  have hp : (r.pc p).claim = some (t, .found) := by rw [hpc]; rfl
  have hfree : SelFree r sel ∧ SelFree r (r.kernel.task t).tssSel := by
    have hf := h.fresh_pc hp
    rwa [hpc] at hf
  obtain ⟨rfl, rfl⟩ := ForkPc.step_undo hstep
  exact h.undo hp rfl (fun _ _ => rfl) (h.name_of_found hp) rfl rfl rfl
    (fun u x _ hx hm => hm.free (hfree.1 u x hx)) (fun _ _ _ _ hx => hx)
    fun hdrop _ u x hx => hfree.2 u x (hdrop u x hx).2

/-- A page that is given back is not a kernel stack of another task. -/
theorem pageUsed_free {page : ℕ} (hspare : SparesStacks r p)
    (hrel : (r.pc p).releases r.kernel = some page)
    (hfree : freePages page 1 r.kernel.vm = some ((), v)) (halloc : v'.alloc = v.alloc) :
    ∀ u x, Resource.kernelStack.Held r u x → PageUsed n r.kernel.vm x → PageUsed n v' x :=
  fun u x hx hm => (hm.free ((hspare page hrel).2 u x hx) hfree).congr halloc

theorem step_undoStack (h : ForkInv L n r) (hpc : r.pc p = .undoStack t kernelStack)
    (hspare : SparesStacks r p)
    (hstep : ForkPc.step L residue p (.undoStack t kernelStack) r.kernel = some (next, s)) :
    ForkInv L n (r.record p next s) := by
  have hp : (r.pc p).claim = some (t, .found) := by rw [hpc]; rfl
  have hfree : SelFree r (r.kernel.task t).tssSel := by
    have hf := h.fresh_pc hp
    rwa [hpc] at hf
  obtain ⟨rfl, ⟨-, rfl⟩ | ⟨h0, v, v₁, hpage, halloc, rfl⟩⟩ := ForkPc.step_undoStack hstep
  · exact h.undo hp rfl (fun _ _ => rfl) (h.name_of_found hp) rfl rfl rfl (fun _ _ _ _ hx => hx)
      (fun _ _ _ _ hx => hx) fun hdrop _ u x hx => hfree u x (hdrop u x hx).2
  · have hrel : (r.pc p).releases r.kernel = some (ForkPc.freedPage r.kernel.vm kernelStack) := by
      rw [hpc, ForkPc.releases, if_pos h0]
    exact h.undo hp rfl (fun _ _ => rfl) (h.name_of_found hp) rfl rfl rfl (fun _ _ _ _ hx => hx)
      (fun u x _ => pageUsed_free hspare hrel hpage halloc u x)
      fun hdrop _ u x hx => hfree u x (hdrop u x hx).2

theorem step_failed (h : ForkInv L n r) (hpc : r.pc p = .failed t)
    (hstep : ForkPc.step L residue p (.failed t) r.kernel = some (next, s)) :
    ForkInv L n (r.record p next s) := by
  have hp : (r.pc p).claim = some (t, .found) := by rw [hpc]; rfl
  have hfree : SelFree r (r.kernel.task t).tssSel := by
    have hf := h.fresh_pc hp
    rwa [hpc] at hf
  obtain ⟨hs, rfl⟩ := ForkPc.step_failed hstep
  have htask : ∀ u, u ≠ t → s.task u = r.kernel.task u := fun u hu => by
    rw [hs, ForkPc.putTask_of_ne hu]
  have hself : s.task t = { r.kernel.task t with
      name := Function.update (r.kernel.task t).name 0 0 } := by rw [hs, ForkPc.putTask_self]
  have hname : (s.task t).name 0 = 0 := by
    rw [hself]
    show Function.update (r.kernel.task t).name 0 0 0 = 0
    rw [Function.update_self]
  have hsame : s.sched = r.kernel.sched ∧ s.gdt = r.kernel.gdt ∧ s.vm = r.kernel.vm := by
    rw [hs]
    exact ⟨rfl, rfl, rfl⟩
  refine h.undo hp rfl htask hname hsame.1 rfl rfl (fun _ _ _ _ hx => hsame.2.1 ▸ hx)
    (fun _ _ _ _ hx => hsame.2.2 ▸ hx) fun hdrop _ => ?_
  show SelFree _ (s.task t).tssSel
  rw [hself]
  exact fun u x hx => hfree u x (hdrop u x hx).2

theorem step_uninitSel (h : ForkInv L n r) (hpc : r.pc p = .uninitSel t)
    (hstep : ForkPc.step L residue p (.uninitSel t) r.kernel = some (next, s)) :
    ForkInv L n (r.record p next s) := by
  have hp : (r.pc p).claim = some (t, .found) := by rw [hpc]; rfl
  have hfree : SelFree r (r.kernel.task t).tssSel := by
    have hf := h.fresh_pc hp
    rwa [hpc] at hf
  obtain ⟨rfl, ⟨-, rfl⟩ | ⟨-, rfl⟩⟩ := ForkPc.step_uninitSel hstep
  · exact h.undo hp rfl (fun _ _ => rfl) (h.name_of_found hp) rfl rfl rfl (fun _ _ _ _ hx => hx)
      (fun _ _ _ _ hx => hx) fun _ _ => trivial
  · exact h.undo hp rfl (fun _ _ => rfl) (h.name_of_found hp) rfl rfl rfl
      (fun u x _ hx hm => hm.free (hfree u x hx)) (fun _ _ _ _ hx => hx) fun _ _ => trivial

theorem step_uninitStack (h : ForkInv L n r) (hpc : r.pc p = .uninitStack t)
    (hspare : SparesStacks r p)
    (hstep : ForkPc.step L residue p (.uninitStack t) r.kernel = some (next, s)) :
    ForkInv L n (r.record p next s) := by
  have hp : (r.pc p).claim = some (t, .found) := by rw [hpc]; rfl
  obtain ⟨rfl, ⟨-, rfl⟩ | ⟨h0, v, v₁, hpage, halloc, rfl⟩⟩ := ForkPc.step_uninitStack hstep
  · exact h.undo hp rfl (fun _ _ => rfl) (h.name_of_found hp) rfl rfl rfl (fun _ _ _ _ hx => hx)
      (fun _ _ _ _ hx => hx) fun _ _ => trivial
  · have hrel : (r.pc p).releases r.kernel =
        some (ForkPc.freedPage r.kernel.vm (u32Sub (r.kernel.task t).tss.esp0 memPageSize)) := by
      rw [hpc]
      exact if_pos h0
    exact h.undo hp rfl (fun _ _ => rfl) (h.name_of_found hp) rfl rfl rfl (fun _ _ _ _ hx => hx)
      (fun u x _ => pageUsed_free hspare hrel hpage halloc u x) fun _ _ => trivial

/-- The slot is cleared and the call is over. -/
theorem step_clear (h : ForkInv L n r) (hpc : r.pc p = .clear t)
    (hstep : ForkPc.step L residue p (.clear t) r.kernel = some (next, s)) :
    ForkInv L n (r.record p next s) := by
  have hp : (r.pc p).claim = some (t, .found) := by rw [hpc]; rfl
  obtain ⟨hi, hstarts⟩ := ForkPc.quiet_of_found hp
  obtain ⟨hs, rfl⟩ := ForkPc.step_clear hstep
  have htask : ∀ u, u ≠ t → s.task u = r.kernel.task u := fun u hu => by
    rw [hs, ForkPc.putTask_of_ne hu]
  have hself : s.task t = .zero := by rw [hs, ForkPc.putTask_self]
  have hname : (s.task t).name 0 = 0 := by rw [hself]; rfl
  have hsame : s.sched = r.kernel.sched.clearTask t ∧ s.gdt = r.kernel.gdt ∧ s.vm = r.kernel.vm := by
    rw [hs]
    exact ⟨rfl, rfl, rfl⟩
  have hlast : Window p t (Sum.getLeft? (.inr (-1) : ForkPc ⊕ ℤ)) r (r.record p (.inr (-1)) s) :=
    h.window_record hp htask fun pc hpc' => by cases hpc'
  have hw : Window p t none r (r.record p (.inr (-1)) s) := hlast
  have hdrop : ∀ (c : Resource) u x, c.Held (r.record p (.inr (-1)) s) u x → c.Held r u x :=
    fun c u x hx => (hw.dropped hname (fun pc hpc' => by cases hpc') hx).2
  have hunlisted : t ∉ r.listed := fun hl => hw.unnamed (h.sound.inOrder.named t hl)
  have hclaims : (r.record p (.inr (-1)) s).claims =
      { r.claims with claim := Function.update r.claims.claim p none } := by
    refine record_claims rfl (fun u => ?_) (by rw [hi]; rfl) (by rw [hstarts]; rfl)
    by_cases hu : u = t
    · rw [hu]
      exact iff_of_false (not_not.mpr hname) hw.unnamed
    · exact hw.named_of_ne hu
  refine h.window hw ?_ ?_ (congrArg Claims.listed hclaims) (fun hn => absurd hname hn)
    (fun _ => ?_) (fun pc hpc' => by cases hpc') ?_ ?_
  · obtain ⟨q, hq⟩ := h.tracks
    have hrun : (r.record p (.inr (-1)) s).schedRun =
        { r.schedRun with sched := r.schedRun.sched.clearTask t } := by
      rw [ForkRun.schedRun, ForkRun.record, hi, hstarts, hsame.1]
      rfl
    rw [hrun]
    exact ⟨_, hq.clearTask hunlisted⟩
  · rw [hclaims]
    exact h.sound.step (.drop t ((r.claim_pc p).trans hp))
  · show (s.task t).tssSel = 0
    rw [hself]
    rfl
  · exact h.sels.keep (hdrop _) fun _ _ _ hx => hsame.2.1 ▸ hx
  · exact h.kernelStacks.keep (hdrop _) fun _ _ _ hx => hsame.2.2 ▸ hx

/-! ### The ends of the window -/

/-- The current task has a name. -/
theorem named_of_curr (h : ForkInv L n r) (hcurr : r.kernel.sched.currTask = some p)
    (hidle : p ≠ .idle) : p ∈ r.claims.named := by
  obtain ⟨q, hq⟩ := h.tracks
  obtain rfl : q.curr = p := Option.some.inj (hq.rep.curr.symm.trans hcurr)
  exact h.sound.inOrder.named _ (hq.started _ (hq.curr_started hidle))

theorem step_dir (h : ForkInv L n r) (hpc : r.pc p = .dir t esp0 pageDir)
    (hcurr : r.kernel.sched.currTask = some p) (hidle : p ≠ .idle)
    (hstep : ForkPc.step L residue p (.dir t esp0 pageDir) r.kernel = some (next, s)) :
    ForkInv L n (r.record p next s) := by
  have hp : (r.pc p).claim = some (t, .found) := by rw [hpc]; rfl
  obtain ⟨hi, hstarts⟩ := ForkPc.quiet_of_found hp
  obtain ⟨task, hhold, hpid, hname, hs, rfl⟩ := ForkPc.step_dir hstep
  have htask : ∀ u, u ≠ t → s.task u = r.kernel.task u := fun u hu => by
    rw [hs, ForkPc.putTask_of_ne hu]
  have hself : s.task t = task := by rw [hs, ForkPc.putTask_self]
  have hsame : s.sched = r.kernel.sched ∧ s.gdt = r.kernel.gdt ∧ s.vm = r.kernel.vm := by
    rw [hs]
    exact ⟨rfl, rfl, rfl⟩
  have hn : t ∈ (r.record p (.inl (.named t esp0)) s).claims.named := by
    show (s.task t).name 0 ≠ 0
    rw [hself]
    exact hname (h.named_of_curr hcurr hidle)
  have hw := h.window_next hp (.named t esp0) rfl htask
  have hheld : ∀ (c : Resource) x, c.var (.named t esp0) = none →
      c.field task = c.field (r.kernel.task t) →
      c.Held (r.record p (.inl (.named t esp0)) s) t x → c.Held r t x := by
    intro c x hvar hfield hx
    rcases hw.held_self hx with ⟨-, hx⟩ | ⟨pc, hpc', hof⟩
    · refine held_of_call hp ?_
      rw [hpc]
      refine congrArg some (hfield.symm.trans ?_)
      rw [← hself]
      exact hx
    · rw [← Option.some.inj hpc'] at hof
      exact absurd (hvar.symm.trans hof) (by simp)
  have hclaims : (r.record p (.inl (.named t esp0)) s).claims =
      { r.claims with
        claim := Function.update r.claims.claim p (some (t, .named))
        named := insert t r.claims.named } := by
    refine record_claims rfl (fun u => ?_) (by rw [hi]; rfl) (by rw [hstarts]; rfl)
    by_cases hu : u = t
    · rw [hu]
      exact iff_of_true hn (Set.mem_insert t _)
    · rw [Set.mem_insert_iff, or_iff_right hu]
      exact hw.named_of_ne hu
  refine h.window hw ?_ ?_ (congrArg Claims.listed hclaims) (fun _ => ⟨?_, ?_⟩) (by simp) ?_ ?_ ?_
  · rw [record_schedRun hsame.1 hi hstarts]
    exact h.tracks
  · rw [hclaims]
    exact h.sound.step (.name t ((r.claim_pc p).trans hp))
  · show (s.task t).pid = _
    rw [hself]
    exact hpid
  · intro pc hpc' u
    rw [← Option.some.inj hpc', ForkPc.claim]
    simp
  · intro pc hpc'
    rw [← Option.some.inj hpc']
    trivial
  · exact h.sels.keep (fun u x => hw.held fun x => hheld .sel x rfl hhold.tssSel)
      fun _ _ _ hx => hsame.2.1 ▸ hx
  · exact h.kernelStacks.keep (fun u x => hw.held fun x => hheld .kernelStack x rfl
      (congrArg (fun esp0 => u32Sub esp0 memPageSize) hhold.esp0)) fun _ _ _ hx => hsame.2.2 ▸ hx

theorem step_search (h : ForkInv L n r) (hpc : r.pc p = .search) (halone : Alone r p)
    (hstep : ForkPc.step L residue p .search r.kernel = some (next, s)) :
    ForkInv L n (r.record p next s) := by
  have hp : r.claims.claim p = none := by
    rw [r.claim_pc p, hpc]
    rfl
  have hfree := halone hpc
  have hi : (r.pc p).inserts = none := by rw [hpc]; rfl
  have hstarts : (r.pc p).starts = none := by rw [hpc]; rfl
  obtain ⟨rfl, ⟨-, rfl⟩ | ⟨i, hslot, rfl⟩⟩ := ForkPc.step_search hstep
  · have hclaims : (r.record p (.inr (-1)) r.kernel).claims = r.claims :=
      record_quiet (by rw [hpc]; rfl) (fun _ => .rfl) hi hstarts
    refine h.keep ⟨fun _ => .rfl, fun _ => rfl, fun _ => ⟨rfl, rfl⟩, fun q => ?_, fun q u a hq => ?_,
      rfl, fun _ _ _ hx => hx⟩ ?_ ?_ ?_
    · rw [hclaims]
      by_cases hq : q = p
      · rw [hq, hp]
        exact .inr ⟨fun _ => by simp, fun _ => by simp⟩
      · exact .inl (ForkRun.record_of_ne hq _ _)
    · rw [hclaims] at hq
      exact ⟨a, hq⟩
    · rw [record_schedRun rfl hi hstarts]
      exact h.tracks
    · rw [hclaims]
      exact h.sound
    · rw [show (r.record p (.inr (-1)) r.kernel).listed = r.listed from congrArg Claims.listed hclaims]
      exact h.listed
  · have hw : Window p (.slot i) (some (.found (.slot i))) r
        (r.record p (.inl (.found (.slot i))) r.kernel) :=
      { call := rfl
        claim := fun pc hpc' => ⟨.found, by rw [← Option.some.inj hpc']; rfl⟩
        task := fun _ _ => rfl
        slot := by rw [hslot]; rfl
        own := fun u a hu => by
          rw [hp] at hu
          cases hu
        other := fun q _ u => hfree q u }
    have hname : (r.kernel.task (.slot i)).name 0 = 0 := (freeSlot_eq_some hslot).2
    have hclaims : (r.record p (.inl (.found (.slot i))) r.kernel).claims =
        { r.claims with claim := Function.update r.claims.claim p (some (.slot i, .found)) } :=
      record_claims rfl (fun _ => .rfl) (by rw [hi]; rfl) (by rw [hstarts]; rfl)
    have hdrop : ∀ (c : Resource) u x, c.ofCall (r.kernel.task (.slot i)) (.found (.slot i)) = none →
        c.Held (r.record p (.inl (.found (.slot i))) r.kernel) u x → c.Held r u x :=
      fun c u x hof hx => (hw.dropped hname (fun pc hpc' => by
        rw [← Option.some.inj hpc']
        exact hof) hx).2
    refine h.window hw ?_ ?_ (congrArg Claims.listed hclaims) (fun hn => absurd hname hn) (by simp)
      ?_ ?_ ?_
    · rw [record_schedRun rfl hi hstarts]
      exact h.tracks
    · rw [hclaims]
      exact h.sound.step (.find _ hp hw.unnamed hfree)
    · intro pc hpc'
      rw [← Option.some.inj hpc']
      refine h.clear _ hw.unnamed fun q a hq => hfree q (.slot i) ?_
      rwa [h.sound.stage_of_notMem hq hw.unnamed] at hq
    · exact h.sels.keep (fun u x => hdrop _ u x rfl) fun _ _ _ hx => hx
    · exact h.kernelStacks.keep (fun u x => hdrop _ u x rfl) fun _ _ _ hx => hx

end ForkInv

end Kernel

end X86Os
