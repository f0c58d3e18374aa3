import X86Os.LinkedChain

/-!
# The intrusive list of `tools/list.c`

A node is embedded in the structure it queues, so the links of all nodes form one heap and a
`list_t` only holds its two ends and a counter. The operations below write the links in the order
of the source; none of them checks whether a node is on the list. `IsList h l xs` says that the
header `l` describes the duplicate-free sequence `xs` in the heap `h`. A list holds at most as many
nodes as fit in memory, so its counter is a plain integer.
-/

set_option linter.unusedSectionVars false

namespace X86Os

open LinkedChain

structure ListT (N : Type*) where
  first : Option N
  last : Option N
  count : ℤ
deriving DecidableEq, Repr

section Operations

variable {N : Type*}

def listInit : ListT N := { first := none, last := none, count := 0 }

def listIsEmpty (l : ListT N) : Bool := l.count == 0

def listCount (l : ListT N) : ℤ := l.count

def listFirst (l : ListT N) : Option N := l.first

def listNodeNext (h : Heap N) (node : N) : Option N := (h node).next

variable [DecidableEq N]

def listNodeInit (node : N) (h : Heap N) : Heap N :=
  Function.update h node { pre := none, next := none }

def listInsertFirst (l : ListT N) (node : N) (h : Heap N) : ListT N × Heap N :=
  let h := Function.update h node { pre := none, next := l.first }
  if listIsEmpty l then
    ({ first := some node, last := some node, count := l.count + 1 }, h)
  else
    ({ l with first := some node, count := l.count + 1 }, setPre h l.first (some node))

def listInsertLast (l : ListT N) (node : N) (h : Heap N) : ListT N × Heap N :=
  let h := Function.update h node { pre := l.last, next := none }
  if listIsEmpty l then
    ({ first := some node, last := some node, count := l.count + 1 }, h)
  else
    ({ l with last := some node, count := l.count + 1 }, setNext h l.last (some node))

def listRemoveFirst (l : ListT N) (h : Heap N) : Option N × ListT N × Heap N :=
  if listIsEmpty l then
    (none, l, h)
  else
    match l.first with
    | none => (none, { l with count := l.count - 1 }, h)
    | some node =>
      let first := (h node).next
      let last := if first = none then none else l.last
      let h := if first = none then h else setPre h (h node).next none
      let h := Function.update h node { pre := none, next := none }
      (some node, { first := first, last := last, count := l.count - 1 }, h)

def listRemove (l : ListT N) (node : N) (h : Heap N) : ListT N × Heap N :=
  let first := if some node = l.first then (h node).next else l.first
  let last := if some node = l.last then (h node).pre else l.last
  let h := setNext h (h node).pre (h node).next
  let h := setPre h (h node).next (h node).pre
  let h := Function.update h node { pre := none, next := none }
  ({ first := first, last := last, count := l.count - 1 }, h)

end Operations

/-- The nodes of a list in order, read off its forward links. -/
def listNodes {N : Type*} (h : Heap N) (l : ListT N) : List N := walk h l.count.toNat l.first

/-- The header `l` describes the sequence `xs` in the heap `h`. -/
structure IsList {N : Type*} (h : Heap N) (l : ListT N) (xs : List N) : Prop where
  first_eq : l.first = xs.head?
  last_eq : l.last = xs.getLast?
  count_eq : l.count = xs.length
  chain : Chain h none xs none
  nodup : xs.Nodup

namespace IsList

variable {N : Type*} [DecidableEq N] {h h' : Heap N} {l : ListT N} {xs : List N}

theorem init (h : Heap N) : IsList h listInit [] :=
  ⟨rfl, rfl, rfl, chain_nil _ _ _, List.nodup_nil⟩

theorem congr (hl : IsList h l xs) (hh : ∀ x ∈ xs, h' x = h x) : IsList h' l xs :=
  { hl with chain := (chain_congr hh _ _).mpr hl.chain }

theorem isEmpty_iff (hl : IsList h l xs) : listIsEmpty l = true ↔ xs = [] := by
  simp [listIsEmpty, hl.count_eq]

theorem listNodes_eq (hl : IsList h l xs) : listNodes h l = xs := by
  rw [listNodes, hl.count_eq, Int.toNat_natCast, hl.first_eq, hl.chain.walk_eq]

theorem insertLast (hl : IsList h l xs) {node : N} (hn : node ∉ xs) :
    IsList (listInsertLast l node h).2 (listInsertLast l node h).1 (xs ++ [node]) := by
  rcases List.eq_nil_or_concat xs with rfl | ⟨ys, z, rfl⟩
  · have hlast := hl.last_eq
    have hcount := hl.count_eq
    simp only [List.getLast?_nil, List.length_nil, Nat.cast_zero] at hlast hcount
    simp only [listInsertLast, listIsEmpty, hcount, hlast, BEq.rfl, if_true]
    exact ⟨rfl, rfl, rfl, by simp [Chain], List.nodup_singleton _⟩
  · rw [List.concat_eq_append] at hl hn ⊢
    have hz : node ≠ z := fun he => hn (by simp [he])
    have hzy : z ∉ ys := by
      have := List.nodup_append.mp hl.nodup
      exact fun hm => this.2.2 z hm z (by simp) rfl
    have hne : listIsEmpty l = false := by
      rw [Bool.eq_false_iff, Ne, hl.isEmpty_iff]
      simp
    have hlast : l.last = some z := by rw [hl.last_eq]; simp
    simp only [listInsertLast, hne, hlast, Bool.false_eq_true, if_false]
    refine ⟨?_, by simp, by rw [List.length_append, Nat.cast_add, ← hl.count_eq]; rfl, ?_, ?_⟩
    · rw [hl.first_eq]
      cases ys <;> simp
    · rw [chain_append, chain_singleton]
      constructor
      · refine chain_concat_next hl.chain (by simp) ?_ ?_
        · simp [Function.update_of_ne hz.symm]
        · intro y hy
          have hyz : z ≠ y := fun he => hzy (he ▸ hy)
          have hyn : y ≠ node := fun he => hn (by simp [← he, hy])
          rw [setNext_of_ne _ _ _ (by simpa using hyz), Function.update_of_ne hyn]
      · rw [setNext_of_ne _ _ _ (by simpa using hz.symm)]
        simp
    · exact List.Nodup.append hl.nodup (List.nodup_singleton _) (by simpa using hn)

theorem insertFirst (hl : IsList h l xs) {node : N} (hn : node ∉ xs) :
    IsList (listInsertFirst l node h).2 (listInsertFirst l node h).1 (node :: xs) := by
  cases xs with
  | nil =>
      have hfirst := hl.first_eq
      have hcount := hl.count_eq
      simp only [List.head?_nil, List.length_nil, Nat.cast_zero] at hfirst hcount
      simp only [listInsertFirst, listIsEmpty, hcount, hfirst, BEq.rfl, if_true]
      exact ⟨rfl, rfl, rfl, by simp [Chain], List.nodup_singleton _⟩
  | cons z zs =>
      have hz : z ≠ node := fun he => hn (by simp [he])
      have hzs : z ∉ zs := (List.nodup_cons.mp hl.nodup).1
      have hne : listIsEmpty l = false := by
        rw [Bool.eq_false_iff, Ne, hl.isEmpty_iff]
        simp
      have hfirst : l.first = some z := hl.first_eq
      simp only [listInsertFirst, hne, hfirst, Bool.false_eq_true, if_false]
      refine ⟨rfl, ?_, by simp [hl.count_eq], ⟨?_, ?_, ?_⟩, List.nodup_cons.mpr ⟨hn, hl.nodup⟩⟩
      · simpa using hl.last_eq
      · rw [setPre_of_ne _ _ _ (by simpa using hz)]
        simp
      · rw [setPre_of_ne _ _ _ (by simpa using hz)]
        simp
      · refine chain_cons_pre hl.chain (by simp) ?_ ?_
        · simp [Function.update_of_ne hz]
        · intro y hy
          have hyz : z ≠ y := fun he => hzs (he ▸ hy)
          have hyn : y ≠ node := fun he => hn (by simp [← he, hy])
          rw [setPre_of_ne _ _ _ (by simpa using hyz), Function.update_of_ne hyn]

theorem insertLast_frame (hl : IsList h l xs) {node y : N} (hy : y ∉ xs) (hne : y ≠ node) :
    (listInsertLast l node h).2 y = h y := by
  have hlast : l.last ≠ some y := by
    rw [hl.last_eq]
    exact fun he => hy (List.mem_of_getLast? he)
  cases he : listIsEmpty l
  · simp only [listInsertLast, he, Bool.false_eq_true, if_false]
    rw [setNext_of_ne _ _ _ hlast, Function.update_of_ne hne]
  · simp only [listInsertLast, he, if_true]
    exact Function.update_of_ne hne _ _

theorem insertFirst_frame (hl : IsList h l xs) {node y : N} (hy : y ∉ xs) (hne : y ≠ node) :
    (listInsertFirst l node h).2 y = h y := by
  have hfirst : l.first ≠ some y := by
    rw [hl.first_eq]
    exact fun he => hy (List.mem_of_head? he)
  cases he : listIsEmpty l
  · simp only [listInsertFirst, he, Bool.false_eq_true, if_false]
    rw [setPre_of_ne _ _ _ hfirst, Function.update_of_ne hne]
  · simp only [listInsertFirst, he, if_true]
    exact Function.update_of_ne hne _ _

theorem removeFirst_nil (hl : IsList h l []) : listRemoveFirst l h = (none, l, h) := by
  simp only [listRemoveFirst, hl.isEmpty_iff.mpr rfl, if_true]

theorem removeFirst_cons {x : N} (hl : IsList h l (x :: xs)) :
    (listRemoveFirst l h).1 = some x ∧
      IsList (listRemoveFirst l h).2.2 (listRemoveFirst l h).2.1 xs := by
  have hne : listIsEmpty l = false := by
    rw [Bool.eq_false_iff, Ne, hl.isEmpty_iff]
    simp
  have hfirst : l.first = some x := hl.first_eq
  have hnext : (h x).next = xs.head? := by simpa using hl.chain.2.1
  have hcount : l.count - 1 = xs.length := by
    rw [hl.count_eq, List.length_cons, Nat.cast_succ, add_sub_cancel_right]
  have hx : x ∉ xs := (List.nodup_cons.mp hl.nodup).1
  simp only [listRemoveFirst, hne, hfirst, hnext, Bool.false_eq_true, if_false]
  refine ⟨trivial, rfl, ?_, hcount, ?_, (List.nodup_cons.mp hl.nodup).2⟩
  · cases xs with
    | nil => rfl
    | cons z zs => simpa using hl.last_eq
  · cases xs with
    | nil => exact chain_nil _ _ _
    | cons z zs =>
        have hzx : z ≠ x := fun he => hx (by simp [he])
        have hzs : z ∉ zs := (List.nodup_cons.mp (List.nodup_cons.mp hl.nodup).2).1
        simp only [List.head?_cons, reduceCtorEq, if_false]
        refine chain_cons_pre hl.chain.2.2 ?_ ?_ ?_
        · simp [Function.update_of_ne hzx]
        · simp [Function.update_of_ne hzx]
        · intro y hy
          have hyz : z ≠ y := fun he => hzs (he ▸ hy)
          have hyx : y ≠ x := fun he => hx (by simp [← he, hy])
          rw [Function.update_of_ne hyx, setPre_of_ne _ _ _ (by simpa using hyz)]

theorem removeFirst (hl : IsList h l xs) :
    (listRemoveFirst l h).1 = xs.head? ∧
      IsList (listRemoveFirst l h).2.2 (listRemoveFirst l h).2.1 xs.tail := by
  cases xs with
  | nil =>
      rw [hl.removeFirst_nil]
      exact ⟨rfl, hl⟩
  | cons x xs => exact hl.removeFirst_cons

/-- The node that was taken off the front has null links. -/
theorem removeFirst_links (hl : IsList h l xs) {x : N}
    (hx : (listRemoveFirst l h).1 = some x) :
    (listRemoveFirst l h).2.2 x = { pre := none, next := none } := by
  cases xs with
  | nil =>
      rw [hl.removeFirst_nil] at hx
      cases hx
  | cons y ys =>
      obtain rfl : y = x := Option.some.inj (hl.removeFirst_cons.1.symm.trans hx)
      have hne : listIsEmpty l = false := by
        rw [Bool.eq_false_iff, Ne, hl.isEmpty_iff]
        simp
      have hfirst : l.first = some y := hl.first_eq
      simp only [listRemoveFirst, hne, hfirst, Bool.false_eq_true, if_false]
      exact Function.update_self ..

theorem removeFirst_frame (hl : IsList h l xs) {y : N} (hy : y ∉ xs) :
    (listRemoveFirst l h).2.2 y = h y := by
  cases xs with
  | nil => rw [hl.removeFirst_nil]
  | cons x zs =>
      have hne : listIsEmpty l = false := by
        rw [Bool.eq_false_iff, Ne, hl.isEmpty_iff]
        simp
      have hfirst : l.first = some x := hl.first_eq
      have hnext : (h x).next = zs.head? := by simpa using hl.chain.2.1
      have hyx : y ≠ x := fun he => hy (by simp [he])
      have hyz : zs.head? ≠ some y := fun he =>
        hy (List.mem_cons_of_mem _ (List.mem_of_head? he))
      simp only [listRemoveFirst, hne, hfirst, hnext, Bool.false_eq_true, if_false]
      rw [Function.update_of_ne hyx]
      split_ifs
      · rfl
      · exact setPre_of_ne _ _ _ hyz

theorem listRemove_eq (l : ListT N) {r : N} (hpr : (h r).pre ≠ some r) :
    listRemove l r h =
      ({ first := if some r = l.first then (h r).next else l.first
         last := if some r = l.last then (h r).pre else l.last
         count := l.count - 1 },
        Function.update (setPre (setNext h (h r).pre (h r).next) (h r).next (h r).pre) r
          { pre := none, next := none }) := by
  simp only [listRemove, setNext_of_ne h _ _ hpr]

/-- Unlinking a node that is on the list closes the gap it leaves. -/
theorem remove_append {ys zs : List N} {r : N} (hl : IsList h l (ys ++ r :: zs)) :
    IsList (listRemove l r h).2 (listRemove l r h).1 (ys ++ zs) := by
  obtain ⟨hys, hrzs, hdisj⟩ := List.nodup_append.mp hl.nodup
  obtain ⟨hr, hzs⟩ := List.nodup_cons.mp hrzs
  have hry : r ∉ ys := fun hm => hdisj r hm r List.mem_cons_self rfl
  have hpre : (h r).pre = ys.getLast? := by simpa using hl.chain.pre_eq
  have hnext : (h r).next = zs.head? := by simpa using hl.chain.next_eq
  have hyz : ∀ y ∈ ys, y ∉ zs := fun y hy hz => hdisj y hy y (List.mem_cons_of_mem _ hz) rfl
  have hpr : ys.getLast? ≠ some r := fun he => hry (List.mem_of_getLast? he)
  obtain ⟨hcy, hcr⟩ := (chain_append h ys (r :: zs) none none).mp hl.chain
  have hcz : Chain h (some r) zs none := hcr.2.2
  rw [listRemove_eq l (hpre ▸ hpr), hpre, hnext]
  dsimp only
  refine ⟨?_, ?_, ?_, ?_, ?_⟩
  · rw [hl.first_eq]
    cases ys with
    | nil => simp
    | cons y ys => simp [show r ≠ y from fun he => hry (by simp [he])]
  · rw [hl.last_eq]
    rcases List.eq_nil_or_concat zs with rfl | ⟨zs, z, rfl⟩
    · simp
    · have hrz : r ≠ z := fun he => hr (by simp [he])
      simp [List.getLast?_cons, hrz]
  · rw [hl.count_eq]
    simp only [List.length_append, List.length_cons, Nat.cast_add, Nat.cast_succ]
    ring
  · rw [chain_append]
    have hz : ∀ z ∈ zs, z ≠ r := fun z hz he => hr (he ▸ hz)
    constructor
    · rcases List.eq_nil_or_concat ys with rfl | ⟨ys, a, rfl⟩
      · exact chain_nil _ _ _
      · rw [List.concat_eq_append] at *
        have ha : a ≠ r := fun he => hry (by simp [he])
        have hazs : zs.head? ≠ some a := fun he =>
          hyz a (by simp) (List.mem_of_head? he)
        refine chain_concat_next hcy ?_ ?_ ?_
        · rw [Function.update_of_ne ha, setPre_of_ne _ _ _ hazs]
          simp
        · rw [Function.update_of_ne ha, setPre_of_ne _ _ _ hazs]
          simp
        · intro y hy
          have hya : a ≠ y := fun he => by
            have := (List.nodup_append.mp hys).2.2 y hy a (by simp)
            exact this he.symm
          have hyr : y ≠ r := fun he => hry (by simp [← he, hy])
          have hyzs : zs.head? ≠ some y := fun he =>
            hyz y (by simp [hy]) (List.mem_of_head? he)
          rw [Function.update_of_ne hyr, setPre_of_ne _ _ _ hyzs,
            setNext_of_ne _ _ _ (by simpa using hya)]
    · cases zs with
      | nil => exact chain_nil _ _ _
      | cons b zs =>
          have hb : b ≠ r := hz b List.mem_cons_self
          have hyb : ys.getLast? ≠ some b := fun he =>
            hyz b (List.mem_of_getLast? he) List.mem_cons_self
          refine chain_cons_pre hcz ?_ ?_ ?_
          · simp [Function.update_of_ne hb]
          · simp [Function.update_of_ne hb, setNext_of_ne _ _ _ hyb]
          · intro y hy
            have hby : b ≠ y := fun he => (List.nodup_cons.mp hzs).1 (he ▸ hy)
            have hyr : y ≠ r := hz y (List.mem_cons_of_mem _ hy)
            have hyy : ys.getLast? ≠ some y := fun he =>
              hyz y (List.mem_of_getLast? he) (List.mem_cons_of_mem _ hy)
            rw [Function.update_of_ne hyr, List.head?_cons,
              setPre_of_ne _ _ _ (by simpa using hby), setNext_of_ne _ _ _ hyy]
  · exact List.nodup_append.mpr ⟨hys, hzs, fun a ha b hb =>
      hdisj a ha b (List.mem_cons_of_mem _ hb)⟩

theorem remove (hl : IsList h l xs) {r : N} (hr : r ∈ xs) :
    IsList (listRemove l r h).2 (listRemove l r h).1 (xs.erase r) := by
  obtain ⟨ys, zs, hys, rfl, he⟩ := List.exists_erase_eq hr
  rw [he]
  exact hl.remove_append

theorem remove_frame (hl : IsList h l xs) {r y : N} (hr : r ∈ xs) (hy : y ∉ xs) :
    (listRemove l r h).2 y = h y := by
  obtain ⟨ys, zs, rfl⟩ := List.append_of_mem hr
  have hpre : (h r).pre = ys.getLast? := by simpa using hl.chain.pre_eq
  have hnext : (h r).next = zs.head? := by simpa using hl.chain.next_eq
  have hyr : y ≠ r := fun he => hy (by simp [he])
  have hpy : ys.getLast? ≠ some y := fun he => hy (by simp [List.mem_of_getLast? he])
  have hzy : zs.head? ≠ some y := fun he => hy (by simp [List.mem_of_head? he])
  have hpr : ys.getLast? ≠ some r := fun he =>
    (List.nodup_append.mp hl.nodup).2.2 r (List.mem_of_getLast? he) r List.mem_cons_self rfl
  rw [listRemove_eq l (hpre ▸ hpr), hpre, hnext]
  dsimp only
  rw [Function.update_of_ne hyr, setPre_of_ne _ _ _ hzy, setNext_of_ne _ _ _ hpy]

theorem removed_links (l : ListT N) (r : N) (h : Heap N) :
    (listRemove l r h).2 r = { pre := none, next := none } := Function.update_self ..

end IsList

end X86Os
