import X86Os.List

/-!
# Families of intrusive lists

All lists of the kernel link their nodes in one heap. A family gives every list of an index type its
sequence, and no node is on two of them. Each operation rewrites the sequence of its own list only:
the other lists stay as they are, and so does every link outside.
-/

set_option linter.unusedSectionVars false

namespace X86Os

open LinkedChain

variable {N I : Type*} [DecidableEq N] [DecidableEq I]

/-- The headers `l` describe the sequences `s`, and no node is on two lists. -/
structure ListFamily (h : Heap N) (l : I → ListT N) (s : I → List N) : Prop where
  lists : ∀ i, IsList h (l i) (s i)
  apart : ∀ i j x, x ∈ s i → x ∈ s j → i = j

/-- An operation on the list `i` left the sequence `xs`, the other lists and all links outside. -/
structure ListFamily.Updated (h : Heap N) (l : I → ListT N) (s : I → List N) (i : I)
    (r : ListT N × Heap N) (xs : List N) : Prop where
  family : ListFamily r.2 (Function.update l i r.1) (Function.update s i xs)
  frame : ∀ y, y ∉ s i → y ∉ xs → r.2 y = h y

namespace ListFamily

variable {h : Heap N} {l : I → ListT N} {s : I → List N}

theorem init (h : Heap N) : ListFamily h (fun _ : I => listInit) fun _ => [] where
  lists _ := .init h
  apart _ _ _ hx := by cases hx

/-- A new sequence of one list, with nodes of its own, does not disturb the others. -/
theorem update (hf : ListFamily h l s) {i : I} {r : ListT N × Heap N} {xs : List N}
    (hl : IsList r.2 r.1 xs) (hnew : ∀ x ∈ xs, x ∈ s i ∨ ∀ j, x ∉ s j)
    (hframe : ∀ y, y ∉ s i → y ∉ xs → r.2 y = h y) : Updated h l s i r xs := by
  have hown : ∀ j x, j ≠ i → x ∈ s j → x ∉ s i ∧ x ∉ xs := by
    intro j x hj hx
    have hi : x ∉ s i := fun hm => hj (hf.apart j i x hx hm)
    exact ⟨hi, fun hm => (hnew x hm).elim hi fun hno => hno j hx⟩
  refine ⟨⟨fun j => ?_, fun j k x hj hk => ?_⟩, hframe⟩
  · by_cases hj : j = i
    · subst j
      simpa using hl
    · rw [Function.update_of_ne hj, Function.update_of_ne hj]
      exact (hf.lists j).congr fun x hx => hframe x (hown j x hj hx).1 (hown j x hj hx).2
  · by_cases hji : j = i
    · by_cases hki : k = i
      · rw [hji, hki]
      · rw [hji, Function.update_self] at hj
        rw [Function.update_of_ne hki] at hk
        exact absurd hj (hown k x hki hk).2
    · rw [Function.update_of_ne hji] at hj
      by_cases hki : k = i
      · rw [hki, Function.update_self] at hk
        exact absurd hk (hown j x hji hj).2
      · rw [Function.update_of_ne hki] at hk
        exact hf.apart j k x hj hk

theorem insertFirst (hf : ListFamily h l s) (i : I) {node : N} (hn : ∀ j, node ∉ s j) :
    Updated h l s i (listInsertFirst (l i) node h) (node :: s i) := by
  apply hf.update ((hf.lists i).insertFirst (hn i))
  · intro x hx
    rcases List.mem_cons.mp hx with rfl | hx
    · exact .inr hn
    · exact .inl hx
  · intro y hy hxs
    exact (hf.lists i).insertFirst_frame hy fun he => hxs (he ▸ List.mem_cons_self)

theorem insertLast (hf : ListFamily h l s) (i : I) {node : N} (hn : ∀ j, node ∉ s j) :
    Updated h l s i (listInsertLast (l i) node h) (s i ++ [node]) := by
  apply hf.update ((hf.lists i).insertLast (hn i))
  · intro x hx
    rcases List.mem_append.mp hx with hx | hx
    · exact .inl hx
    · rw [List.mem_singleton.mp hx]
      exact .inr hn
  · intro y hy hxs
    exact (hf.lists i).insertLast_frame hy fun he => hxs (by simp [he])

theorem removeFirst (hf : ListFamily h l s) (i : I) :
    Updated h l s i (listRemoveFirst (l i) h).2 (s i).tail := by
  apply hf.update (hf.lists i).removeFirst.2
  · exact fun x hx => .inl (List.mem_of_mem_tail hx)
  · exact fun y hy _ => (hf.lists i).removeFirst_frame hy

theorem remove (hf : ListFamily h l s) (i : I) {node : N} (hn : node ∈ s i) :
    Updated h l s i (listRemove (l i) node h) ((s i).erase node) := by
  apply hf.update ((hf.lists i).remove hn)
  · exact fun x hx => .inl (List.mem_of_mem_erase hx)
  · exact fun y hy _ => (hf.lists i).remove_frame hn hy

end ListFamily

/-! ## Whole runs of one operation -/

def listInsertFirsts (ns : List N) (r : ListT N × Heap N) : ListT N × Heap N :=
  ns.foldl (fun r node => listInsertFirst r.1 node r.2) r

def listInsertLasts (ns : List N) (r : ListT N × Heap N) : ListT N × Heap N :=
  ns.foldl (fun r node => listInsertLast r.1 node r.2) r

def listRemoves (ns : List N) (r : ListT N × Heap N) : ListT N × Heap N :=
  ns.foldl (fun r node => listRemove r.1 node r.2) r

/-- `n` calls of `list_remove_first` and what they return. -/
def listRemoveFirsts : ℕ → ListT N × Heap N → List (Option N) × ListT N × Heap N
  | 0, r => ([], r)
  | n + 1, r =>
      let q := listRemoveFirst r.1 r.2
      let rest := listRemoveFirsts n q.2
      (q.1 :: rest.1, rest.2)

/-- The headers and the removed nodes that `list_test` logs; its array `nodes` has five nodes. -/
def listTest (nodes : List N) (h : Heap N) : List (ListT N) × List (Option N) :=
  let r₁ := listInsertFirsts nodes (listInit, h)
  let r₂ := listInsertLasts nodes (listInit, r₁.2)
  let r₃ := listRemoveFirsts nodes.length r₂
  let r₄ := listInsertLasts nodes r₃.2
  let r₅ := listRemoves nodes r₄
  ([listInit, r₁.1, r₂.1, r₃.2.1, r₄.1, r₅.1], r₃.1)

namespace IsList

variable {r : ListT N × Heap N} {xs ns : List N}

theorem insertFirsts (hl : IsList r.2 r.1 xs) (hn : (ns ++ xs).Nodup) :
    IsList (listInsertFirsts ns r).2 (listInsertFirsts ns r).1 (ns.reverse ++ xs) := by
  induction ns generalizing r xs with
  | nil => exact hl
  | cons n ns ih =>
      have hperm : (ns ++ n :: xs).Nodup := (List.perm_middle.nodup_iff).mpr hn
      have hnot : n ∉ xs := fun hm => (List.nodup_cons.mp hn).1 (List.mem_append_right _ hm)
      rw [List.reverse_cons, List.append_assoc]
      exact ih (hl.insertFirst hnot) hperm

theorem insertLasts (hl : IsList r.2 r.1 xs) (hn : (xs ++ ns).Nodup) :
    IsList (listInsertLasts ns r).2 (listInsertLasts ns r).1 (xs ++ ns) := by
  induction ns generalizing r xs with
  | nil =>
      rw [List.append_nil]
      exact hl
  | cons n ns ih =>
      rw [List.append_cons] at hn ⊢
      have hnot : n ∉ xs := fun hm =>
        (List.nodup_append.mp (List.nodup_append.mp hn).1).2.2 n hm n (by simp) rfl
      exact ih (hl.insertLast hnot) hn

theorem removeFirsts (hl : IsList r.2 r.1 (ns ++ xs)) :
    (listRemoveFirsts ns.length r).1 = ns.map some ∧
      IsList (listRemoveFirsts ns.length r).2.2 (listRemoveFirsts ns.length r).2.1 xs := by
  induction ns generalizing r with
  | nil => exact ⟨rfl, hl⟩
  | cons n ns ih =>
      obtain ⟨hret, hrest⟩ := hl.removeFirst
      obtain ⟨hrets, hrests⟩ := ih hrest
      refine ⟨?_, hrests⟩
      rw [List.length_cons, listRemoveFirsts, hrets, hret]
      rfl

theorem removes (hl : IsList r.2 r.1 (ns ++ xs)) :
    IsList (listRemoves ns r).2 (listRemoves ns r).1 xs := by
  induction ns generalizing r with
  | nil => exact hl
  | cons n ns ih =>
      have hone : IsList (listRemove r.1 n r.2).2 (listRemove r.1 n r.2).1 ([] ++ (ns ++ xs)) :=
        hl.remove_append
      exact ih hone

theorem header_eq {h : Heap N} {l : ListT N} (hl : IsList h l xs) :
    l = { first := xs.head?, last := xs.getLast?, count := xs.length } := by
  rw [← hl.first_eq, ← hl.last_eq, ← hl.count_eq]

end IsList

/-- What `list_test` logs does not depend on the links its nodes start with. -/
theorem listTest_eq {nodes : List N} (hn : nodes.Nodup) (h : Heap N) :
    listTest nodes h =
      ([listInit, { first := nodes.getLast?, last := nodes.head?, count := nodes.length },
        { first := nodes.head?, last := nodes.getLast?, count := nodes.length }, listInit,
        { first := nodes.head?, last := nodes.getLast?, count := nodes.length }, listInit],
      nodes.map some) := by
  have hn' : (nodes ++ []).Nodup := by rwa [List.append_nil]
  simp only [listTest]
  have h₁ := IsList.insertFirsts (r := (listInit, h)) (.init h) hn'
  generalize listInsertFirsts nodes (listInit, h) = r₁ at h₁ ⊢
  have h₂ := IsList.insertLasts (r := (listInit, r₁.2)) (.init _) hn
  generalize listInsertLasts nodes (listInit, r₁.2) = r₂ at h₂ ⊢
  rw [List.nil_append, ← List.append_nil nodes] at h₂
  obtain ⟨hret, h₃⟩ := h₂.removeFirsts
  generalize listRemoveFirsts nodes.length r₂ = r₃ at hret h₃ ⊢
  have h₄ := h₃.insertLasts hn
  generalize listInsertLasts nodes r₃.2 = r₄ at h₄ ⊢
  rw [List.nil_append, ← List.append_nil nodes] at h₄
  have h₅ := h₄.removes
  rw [h₁.header_eq, h₂.header_eq, h₃.header_eq, h₄.header_eq, h₅.header_eq, hret]
  simp [listInit]

/-- Every operation keeps the family, changes the sequence of its own list as it should and no link
outside of it, and clears the links of what it removes. -/
theorem list_operations {h : Heap N} {l : I → ListT N} {s : I → List N} (hf : ListFamily h l s)
    (i : I) :
    (∀ node, (∀ j, node ∉ s j) →
      ListFamily.Updated h l s i (listInsertFirst (l i) node h) (node :: s i) ∧
      ListFamily.Updated h l s i (listInsertLast (l i) node h) (s i ++ [node])) ∧
    (ListFamily.Updated h l s i (listRemoveFirst (l i) h).2 (s i).tail ∧
      (listRemoveFirst (l i) h).1 = (s i).head? ∧
      ((listRemoveFirst (l i) h).1 = none ↔ s i = []) ∧
      ∀ node, (listRemoveFirst (l i) h).1 = some node →
        (listRemoveFirst (l i) h).2.2 node = { pre := none, next := none }) ∧
    (∀ node ∈ s i, ListFamily.Updated h l s i (listRemove (l i) node h) ((s i).erase node) ∧
      (listRemove (l i) node h).2 node = { pre := none, next := none }) ∧
    ∀ nodes : List N, nodes.Nodup → ∀ h : Heap N, listTest nodes h =
      ([listInit, { first := nodes.getLast?, last := nodes.head?, count := nodes.length },
        { first := nodes.head?, last := nodes.getLast?, count := nodes.length }, listInit,
        { first := nodes.head?, last := nodes.getLast?, count := nodes.length }, listInit],
      nodes.map some) := by
  have hl := hf.lists i
  refine ⟨fun node hn => ⟨hf.insertFirst i hn, hf.insertLast i hn⟩, ⟨hf.removeFirst i,
    hl.removeFirst.1, ?_, fun node hx => hl.removeFirst_links hx⟩, fun node hn =>
    ⟨hf.remove i hn, IsList.removed_links _ _ _⟩, fun nodes hn h => listTest_eq hn h⟩
  rw [hl.removeFirst.1, List.head?_eq_none_iff]

/-- Two lists, of which one holds the nodes 1 and 2 and the other the node 3. -/
theorem list_operations_twoLists : ∃ (h : Heap ℕ) (l : Bool → ListT ℕ),
    IsList h (l true) [1, 2] ∧ IsList h (l false) [3] ∧
      (listRemoveFirst (l true) h).1 = some 1 ∧
      IsList (listRemoveFirst (l true) h).2.2 (l false) [3] := by
  let s : Bool → List ℕ := fun b => if b then [1, 2] else [3]
  let r := listInsertLasts [1, 2] (listInit, fun _ => { pre := none, next := none })
  let q := listInsertLast listInit 3 r.2
  have hr : IsList r.2 r.1 ([] ++ [1, 2]) := IsList.insertLasts (.init _) (by decide)
  have hrq : IsList q.2 r.1 [1, 2] := hr.congr fun x hx =>
    (IsList.init r.2).insertLast_frame (by simp) (by rintro rfl; simp at hx)
  have hq : IsList q.2 q.1 [3] := (IsList.init r.2).insertLast (by simp)
  let l : Bool → ListT ℕ := fun b => if b then r.1 else q.1
  have hf : ListFamily q.2 l s := by
    refine ⟨fun b => ?_, fun b c x hb hc => ?_⟩
    · cases b
      · exact hq
      · exact hrq
    · cases b <;> cases c <;> simp_all [s]
  obtain ⟨-, ⟨hupdated, hhead, -⟩, -⟩ := list_operations hf true
  exact ⟨q.2, l, hrq, hq, hhead, hupdated.family.lists false⟩

end X86Os
