import Mathlib.Data.List.Nodup
import Mathlib.Tactic

/-!
# Doubly linked chains in a heap of nodes

A heap gives every node address its two links. `Chain h p xs q` says that the nodes `xs` are
linked consecutively, that the first one points back to `p` and that the last one points on to
`q`. The lemmas below split a chain, replace its two outer links, and change the heap at nodes
that are not on it.
-/

set_option linter.unusedSectionVars false

namespace X86Os.LinkedChain

structure Links (N : Type*) where
  pre : Option N
  next : Option N
deriving DecidableEq, Repr

abbrev Heap (N : Type*) := N → Links N

variable {N : Type*} [DecidableEq N]

/-- Store `v` in the forward link of the node `x` points to; nothing is stored through null. -/
def setNext (h : Heap N) : Option N → Option N → Heap N
  | none, _ => h
  | some x, v => Function.update h x { h x with next := v }

def setPre (h : Heap N) : Option N → Option N → Heap N
  | none, _ => h
  | some x, v => Function.update h x { h x with pre := v }

def Chain (h : Heap N) : Option N → List N → Option N → Prop
  | _, [], _ => True
  | p, x :: xs, q => (h x).pre = p ∧ (h x).next = xs.head?.or q ∧ Chain h (some x) xs q

@[simp] theorem setNext_none (h : Heap N) (v : Option N) : setNext h none v = h := rfl

@[simp] theorem setPre_none (h : Heap N) (v : Option N) : setPre h none v = h := rfl

theorem setNext_of_ne (h : Heap N) (p v : Option N) {x : N} (hx : p ≠ some x) :
    setNext h p v x = h x := by
  cases p with
  | none => rfl
  | some y => exact Function.update_of_ne (fun he => hx (congrArg some he.symm)) _ _

theorem setPre_of_ne (h : Heap N) (p v : Option N) {x : N} (hx : p ≠ some x) :
    setPre h p v x = h x := by
  cases p with
  | none => rfl
  | some y => exact Function.update_of_ne (fun he => hx (congrArg some he.symm)) _ _

@[simp] theorem setNext_self (h : Heap N) (x : N) (v : Option N) :
    setNext h (some x) v x = { h x with next := v } := Function.update_self ..

@[simp] theorem setPre_self (h : Heap N) (x : N) (v : Option N) :
    setPre h (some x) v x = { h x with pre := v } := Function.update_self ..

@[simp] theorem chain_nil (h : Heap N) (p q : Option N) : Chain h p [] q := trivial

theorem chain_congr {h h' : Heap N} {xs : List N} (hh : ∀ x ∈ xs, h' x = h x) (p q : Option N) :
    Chain h' p xs q ↔ Chain h p xs q := by
  induction xs generalizing p with
  | nil => rfl
  | cons x xs ih =>
      simp only [Chain, hh x List.mem_cons_self]
      exact and_congr_right fun _ =>
        and_congr_right fun _ => ih (fun y hy => hh y (List.mem_cons_of_mem x hy)) _

/-- A chain splits where two consecutive nodes meet. -/
theorem chain_append (h : Heap N) (xs ys : List N) (p q : Option N) :
    Chain h p (xs ++ ys) q ↔ Chain h p xs (ys.head?.or q) ∧ Chain h (xs.getLast?.or p) ys q := by
  induction xs generalizing p with
  | nil => simp [Chain]
  | cons x xs ih =>
      have hlast : (x :: xs).getLast?.or p = xs.getLast?.or (some x) := by
        cases xs with
        | nil => rfl
        | cons y xs => simp [List.getLast?_cons]
      simp only [List.cons_append, Chain, ih, hlast, and_assoc]
      cases xs <;> simp

theorem chain_singleton (h : Heap N) (x : N) (p q : Option N) :
    Chain h p [x] q ↔ (h x).pre = p ∧ (h x).next = q := by
  simp [Chain]

/-- Only the first node knows what comes before the chain. -/
theorem chain_cons_pre {h h' : Heap N} {x : N} {xs : List N} {p p' q : Option N}
    (hc : Chain h p (x :: xs) q) (hpre : (h' x).pre = p') (hnext : (h' x).next = (h x).next)
    (hrest : ∀ y ∈ xs, h' y = h y) : Chain h' p' (x :: xs) q :=
  ⟨hpre, hnext.trans hc.2.1, (chain_congr hrest _ _).mpr hc.2.2⟩

/-- Only the last node knows what comes after the chain. -/
theorem chain_concat_next {h h' : Heap N} {x : N} {xs : List N} {p q q' : Option N}
    (hc : Chain h p (xs ++ [x]) q) (hnext : (h' x).next = q') (hpre : (h' x).pre = (h x).pre)
    (hrest : ∀ y ∈ xs, h' y = h y) : Chain h' p (xs ++ [x]) q' := by
  rw [chain_append, chain_singleton] at hc ⊢
  refine ⟨?_, hpre.trans hc.2.1, hnext⟩
  simpa using (chain_congr hrest _ _).mpr hc.1

theorem Chain.next_eq {h : Heap N} {x : N} {xs ys : List N} {p q : Option N}
    (hc : Chain h p (xs ++ x :: ys) q) : (h x).next = ys.head?.or q :=
  (((chain_append h xs (x :: ys) p q).mp hc).2).2.1

theorem Chain.pre_eq {h : Heap N} {x : N} {xs ys : List N} {p q : Option N}
    (hc : Chain h p (xs ++ x :: ys) q) : (h x).pre = xs.getLast?.or p :=
  (((chain_append h xs (x :: ys) p q).mp hc).2).1

/-- The nodes reached by following at most `n` forward links. -/
def walk (h : Heap N) : ℕ → Option N → List N
  | 0, _ => []
  | _ + 1, none => []
  | n + 1, some x => x :: walk h n (h x).next

theorem Chain.walk_eq {h : Heap N} {p : Option N} {xs : List N} (hc : Chain h p xs none) :
    walk h xs.length xs.head? = xs := by
  induction xs generalizing p with
  | nil => rfl
  | cons x xs ih =>
      have hnext : (h x).next = xs.head? := by simpa using hc.2.1
      rw [List.length_cons, List.head?_cons, walk, hnext, ih hc.2.2]

end X86Os.LinkedChain
