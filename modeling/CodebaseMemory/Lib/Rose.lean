import Mathlib.Data.List.Basic

/-!
# Trees with addresses

A tree whose nodes have any number of children.  The address of a node is the list
of the indexes on the way from the root.  A node keeps its address when children are
added behind those that it has, so that addresses can stand for pointers into a tree
that grows.
-/

namespace CodebaseMemory
namespace Lib

universe u

/-- A tree with a label at each node. -/
inductive Rose (α : Type u) where
  | node (label : α) (children : List (Rose α))

namespace Rose

variable {α : Type u}

def label : Rose α → α
  | .node a _ => a

def children : Rose α → List (Rose α)
  | .node _ ts => ts

/-- A node without children. -/
def leaf (a : α) : Rose α :=
  .node a []

/-- Add children behind those that are there. -/
def addAll (ts : List (Rose α)) : Rose α → Rose α
  | .node a us => .node a (us ++ ts)

/-- The node at an address. -/
@[simp] def at? : Rose α → List Nat → Option (Rose α)
  | t, [] => some t
  | .node _ ts, i :: path => ts[i]?.bind fun t => t.at? path

/-- Change the node at an address. -/
@[simp] def modifyAt (f : Rose α → Rose α) : List Nat → Rose α → Rose α
  | [], t => f t
  | i :: path, .node a ts => .node a (ts.modify i (modifyAt f path))

variable {f g : Rose α → Rose α}

theorem addAll_nil (t : Rose α) : t.addAll [] = t := by
  cases t with
  | node a us => rw [addAll, List.append_nil]

theorem addAll_addAll (ts us : List (Rose α)) (t : Rose α) :
    (t.addAll ts).addAll us = t.addAll (ts ++ us) := by
  cases t with
  | node a vs => rw [addAll, addAll, addAll, List.append_assoc]

@[simp] theorem label_addAll (ts : List (Rose α)) (t : Rose α) :
    (t.addAll ts).label = t.label := by
  cases t with
  | node a us => rfl

@[simp] theorem children_addAll (ts : List (Rose α)) (t : Rose α) :
    (t.addAll ts).children = t.children ++ ts := by
  cases t with
  | node a us => rfl

theorem modifyAt_id (path : List Nat) (t : Rose α) : t.modifyAt id path = t := by
  induction path generalizing t with
  | nil => rfl
  | cons i path ih =>
      obtain ⟨a, ts⟩ := t
      have hid : modifyAt id path = (id : Rose α → Rose α) := funext ih
      rw [modifyAt, hid, List.modify_id]

theorem at?_modifyAt (path : List Nat) (t : Rose α) :
    (t.modifyAt f path).at? path = (t.at? path).map f := by
  induction path generalizing t with
  | nil => rfl
  | cons i path ih =>
      obtain ⟨a, ts⟩ := t
      rw [modifyAt, at?, at?, List.getElem?_modify_eq]
      cases ts[i]? with
      | none => rfl
      | some u => exact ih u

theorem modifyAt_modifyAt (path : List Nat) (t : Rose α) :
    (t.modifyAt f path).modifyAt g path = t.modifyAt (g ∘ f) path := by
  induction path generalizing t with
  | nil => rfl
  | cons i path ih =>
      obtain ⟨a, ts⟩ := t
      rw [modifyAt, modifyAt, modifyAt, List.modify_modify_eq]
      congr 2
      exact funext ih

theorem modifyAt_append (path path' : List Nat) (t : Rose α) :
    t.modifyAt f (path ++ path') = t.modifyAt (fun u => u.modifyAt f path') path := by
  induction path generalizing t with
  | nil => rfl
  | cons i path ih =>
      obtain ⟨a, ts⟩ := t
      rw [List.cons_append, modifyAt, modifyAt]
      congr 2
      exact funext ih

theorem at?_append (path path' : List Nat) (t : Rose α) :
    t.at? (path ++ path') = (t.at? path).bind fun u => u.at? path' := by
  induction path generalizing t with
  | nil => rfl
  | cons i path ih =>
      obtain ⟨a, ts⟩ := t
      rw [List.cons_append, at?, at?]
      cases ts[i]? with
      | none => rfl
      | some u => exact ih u

theorem modifyAt_congr {path : List Nat} {t u : Rose α} (ht : t.at? path = some u)
    (h : f u = g u) : t.modifyAt f path = t.modifyAt g path := by
  induction path generalizing t with
  | nil =>
      obtain rfl := Option.some.inj ht
      exact h
  | cons i path ih =>
      obtain ⟨a, ts⟩ := t
      rw [at?] at ht
      obtain ⟨v, hv, hu⟩ := Option.bind_eq_some_iff.mp ht
      obtain ⟨hi, rfl⟩ := List.getElem?_eq_some_iff.mp hv
      rw [modifyAt, modifyAt, List.modify_eq_set_getElem?, List.modify_eq_set_getElem?, hv]
      exact congrArg (fun w => node a (ts.set i w)) (ih hu)

theorem modifyAt_last (a : α) (ts : List (Rose α)) (u : Rose α) :
    (node a (ts ++ [u])).modifyAt f [ts.length] = node a (ts ++ [f u]) := by
  rw [modifyAt, List.modify_eq_take_cons_drop (by simp)]
  simp [modifyAt]

theorem at?_last (a : α) (ts : List (Rose α)) (u : Rose α) :
    (node a (ts ++ [u])).at? [ts.length] = some u := by
  simp [at?]

end Rose

end Lib
end CodebaseMemory
