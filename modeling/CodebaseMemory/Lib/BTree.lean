import Mathlib.Data.List.Forall2
import Mathlib.Order.Lattice

/-!
# Reading a B-tree through its pages

A reader sees a page as a `Node`: the items of a leaf, or the cells (left
child, key) of an interior page with its right child.  `walk` is the in-order
traversal; whether the key of an interior cell is an item of its own is the
parameter `emit` (an index tree stores entries in its interior cells, a table
tree only separators).  `descend` is the search for one item.

`IsTree leafOk nodeOk emit d p k items` says what a writer establishes: page
`p` roots a tree of depth `d` that stores `items`, with separator key `k`.
The two predicates say what single pages hold.
-/

namespace CodebaseMemory
namespace Lib

universe u v w x

/-- A page as a reader sees it. -/
inductive Node (α : Type u) (κ : Type v) where
  | leaf (items : List α)
  | interior (cells : List (Nat × κ)) (right : Nat)

namespace BTree

section Reader

variable {α : Type u} {κ : Type v}

/-- Traverse the children of an interior page with `visit`. -/
def walkCells (visit : Nat → Option (List α)) (emit : κ → List α) :
    List (Nat × κ) → Nat → Option (List α)
  | [], right => visit right
  | (child, key) :: cells, right =>
      match visit child, walkCells visit emit cells right with
      | some front, some back => some (front ++ emit key ++ back)
      | _, _ => none

/-- In-order traversal from page `p`; `fuel` bounds the depth. -/
def walk (view : Nat → Option (Node α κ)) (emit : κ → List α) :
    Nat → Nat → Option (List α)
  | 0, _ => none
  | fuel + 1, p =>
      match view p with
      | none => none
      | some (.leaf items) => some items
      | some (.interior cells right) => walkCells (walk view emit fuel) emit cells right

/-- The child under the first key that `goes`, else the right child. -/
def route (goes : κ → Bool) : List (Nat × κ) → Nat → Nat
  | [], right => right
  | (child, key) :: cells, right => if goes key then child else route goes cells right

/-- Search from page `p` for an item that `hits`. -/
def descend (view : Nat → Option (Node α κ)) (goes : κ → Bool) (hits : α → Bool) :
    Nat → Nat → Option (Option α)
  | 0, _ => none
  | fuel + 1, p =>
      match view p with
      | none => none
      | some (.leaf items) => some (items.find? hits)
      | some (.interior cells right) => descend view goes hits fuel (route goes cells right)

end Reader

section Spec

variable {ι : Type u} {κ : Type v}

/-- The children of one interior page, each a subtree `T page key items`, with
the items of the cells between them. -/
def Spine (T : Nat → κ → List ι → Prop) (emit : κ → List ι) :
    List (Nat × κ) → Nat → κ → List ι → Prop
  | [], right, key, items => T right key items
  | (child, k) :: cells, right, key, items =>
      ∃ front back, T child k front ∧ Spine T emit cells right key back ∧
        items = front ++ emit k ++ back

/-- Page `p` roots a tree of depth `d` with separator `k` that stores `items`. -/
def IsTree (leafOk : Nat → κ → List ι → Prop)
    (nodeOk : Nat → List (Nat × κ) → Nat → Prop) (emit : κ → List ι) :
    Nat → Nat → κ → List ι → Prop
  | 0, p, k, items => leafOk p k items
  | d + 1, p, k, items =>
      ∃ cells right, nodeOk p cells right ∧
        Spine (IsTree leafOk nodeOk emit d) emit cells right k items

/-- Neighbouring subtrees that are not under a common page yet.  The key of
the last one separates it from nothing. -/
def Forest (T : Nat → κ → List ι → Prop) (emit : κ → List ι) :
    List (Nat × κ) → List ι → Prop
  | [], _ => False
  | [(p, k)], items => T p k items
  | (p, k) :: q :: refs, items =>
      ∃ front back, T p k front ∧ Forest T emit (q :: refs) back ∧
        items = front ++ emit k ++ back

variable {T T' : Nat → κ → List ι → Prop} {emit : κ → List ι}

theorem Spine.mono (h : ∀ p k items, T p k items → T' p k items) :
    ∀ {cells : List (Nat × κ)} {right : Nat} {key : κ} {items : List ι},
      Spine T emit cells right key items → Spine T' emit cells right key items
  | [], _, _, _, hs => h _ _ _ hs
  | (_, _) :: _, _, _, _, hs => by
      obtain ⟨front, back, hf, hb, rfl⟩ := hs
      exact ⟨front, back, h _ _ _ hf, Spine.mono h hb, rfl⟩

theorem IsTree.mono {leafOk leafOk' : Nat → κ → List ι → Prop}
    {nodeOk nodeOk' : Nat → List (Nat × κ) → Nat → Prop}
    (hl : ∀ p k items, leafOk p k items → leafOk' p k items)
    (hn : ∀ p cells right, nodeOk p cells right → nodeOk' p cells right) :
    ∀ {d p : Nat} {k : κ} {items : List ι},
      IsTree leafOk nodeOk emit d p k items → IsTree leafOk' nodeOk' emit d p k items
  | 0, _, _, _, h => hl _ _ _ h
  | _ + 1, _, _, _, h => by
      obtain ⟨cells, right, hok, hs⟩ := h
      exact ⟨cells, right, hn _ _ _ hok, hs.mono (fun _ _ _ ht => IsTree.mono hl hn ht)⟩

theorem Forest.mono (h : ∀ p k items, T p k items → T' p k items) :
    ∀ {refs : List (Nat × κ)} {items : List ι},
      Forest T emit refs items → Forest T' emit refs items
  | [], _, hf => hf
  | [(_, _)], _, hf => h _ _ _ hf
  | (_, _) :: _ :: _, _, hf => by
      obtain ⟨front, back, hfront, hback, rfl⟩ := hf
      exact ⟨front, back, h _ _ _ hfront, Forest.mono h hback, rfl⟩

theorem Forest.snoc :
    ∀ (refs : List (Nat × κ)) {items more : List ι} {p q : Nat} {k k' : κ},
      Forest T emit (refs ++ [(p, k)]) items → T q k' more →
      Forest T emit (refs ++ [(p, k)] ++ [(q, k')]) (items ++ emit k ++ more)
  | [], _, _, _, _, _, _, hf, ht => ⟨_, _, hf, ht, rfl⟩
  | [(a, ka)], _, _, _, _, _, _, hf, ht => by
      obtain ⟨front, back, hfront, hback, rfl⟩ := hf
      exact ⟨front, _, hfront, Forest.snoc [] hback ht, by simp⟩
  | (a, ka) :: b :: refs, _, _, _, _, _, _, hf, ht => by
      obtain ⟨front, back, hfront, hback, rfl⟩ := hf
      exact ⟨front, _, hfront, Forest.snoc (b :: refs) hback ht, by simp⟩

theorem Forest.split :
    ∀ {cells : List (Nat × κ)} {r : Nat} {k : κ} {rest : List (Nat × κ)} {items : List ι},
      rest ≠ [] → Forest T emit (cells ++ (r, k) :: rest) items →
      ∃ front back, Spine T emit cells r k front ∧ Forest T emit rest back ∧
        items = front ++ emit k ++ back
  | [], _, _, q :: rest, _, _, hf => by
      obtain ⟨front, back, hfront, hback, rfl⟩ := hf
      exact ⟨front, back, hfront, hback, rfl⟩
  | (a, ka) :: cells, r, k, rest, items, hne, hf => by
      have hf' : ∃ front back, T a ka front ∧
          Forest T emit (cells ++ (r, k) :: rest) back ∧
          items = front ++ emit ka ++ back := by
        cases cells with
        | nil => exact hf
        | cons c cells => exact hf
      obtain ⟨front, back, hfront, hback, rfl⟩ := hf'
      obtain ⟨mid, back', hmid, hback', rfl⟩ := Forest.split hne hback
      exact ⟨front ++ emit ka ++ mid, back', ⟨front, mid, hfront, hmid, rfl⟩, hback', by simp⟩

theorem Forest.spine :
    ∀ {cells : List (Nat × κ)} {r : Nat} {k : κ} {items : List ι},
      Forest T emit (cells ++ [(r, k)]) items → Spine T emit cells r k items
  | [], _, _, _, hf => hf
  | [(a, ka)], _, _, _, hf => by
      obtain ⟨front, back, hfront, hback, rfl⟩ := hf
      exact ⟨front, back, hfront, hback, rfl⟩
  | (a, ka) :: c :: cells, _, _, _, hf => by
      obtain ⟨front, back, hfront, hback, rfl⟩ := hf
      exact ⟨front, back, hfront, Forest.spine hback, rfl⟩

end Spec

section Correctness

variable {ι : Type u} {κ : Type v} {α : Type w} {κ' : Type x}
variable {view : Nat → Option (Node α κ')} {emit : κ → List ι} {emit' : κ' → List α}
variable {R : ι → α → Prop} {Rk : κ → κ' → Prop}

/-- What a reader must find on single pages: `items` up to the relation `R`,
keys up to `Rk`. -/
structure Shows (view : Nat → Option (Node α κ')) (R : ι → α → Prop) (Rk : κ → κ' → Prop)
    (leafOk : Nat → κ → List ι → Prop)
    (nodeOk : Nat → List (Nat × κ) → Nat → Prop) : Prop where
  leaf : ∀ p k items, leafOk p k items →
    ∃ xs, view p = some (.leaf xs) ∧ List.Forall₂ R items xs
  node : ∀ p cells right, nodeOk p cells right →
    ∃ cells', view p = some (.interior cells' right) ∧
      List.Forall₂ (fun c c' => c.1 = c'.1 ∧ Rk c.2 c'.2) cells cells'

theorem exists_walkCells {T : Nat → κ → List ι → Prop} {visit : Nat → Option (List α)}
    (hemit : ∀ k k', Rk k k' → List.Forall₂ R (emit k) (emit' k'))
    (hT : ∀ p k items, T p k items → ∃ xs, visit p = some xs ∧ List.Forall₂ R items xs) :
    ∀ {cells : List (Nat × κ)} {cells' : List (Nat × κ')} {right : Nat} {key : κ}
      {items : List ι},
      List.Forall₂ (fun c c' => c.1 = c'.1 ∧ Rk c.2 c'.2) cells cells' →
      Spine T emit cells right key items →
      ∃ xs, walkCells visit emit' cells' right = some xs ∧ List.Forall₂ R items xs := by
  intro cells cells' right key items hcells
  induction hcells generalizing items with
  | nil =>
      intro hs
      exact hT _ _ _ hs
  | @cons c c' cells cells' hc _ ih =>
      intro hs
      obtain ⟨child, k⟩ := c
      obtain ⟨child', k'⟩ := c'
      obtain ⟨rfl, hk⟩ := hc
      obtain ⟨front, back, hf, hb, rfl⟩ := hs
      obtain ⟨xs, hvisit, hxs⟩ := hT _ _ _ hf
      obtain ⟨ys, hwalk, hys⟩ := ih hb
      refine ⟨xs ++ emit' k' ++ ys, ?_, ?_⟩
      · simp only [walkCells, hvisit, hwalk]
      · exact List.rel_append (List.rel_append hxs (hemit _ _ hk)) hys

theorem exists_walk {leafOk : Nat → κ → List ι → Prop}
    {nodeOk : Nat → List (Nat × κ) → Nat → Prop}
    (hshow : Shows view R Rk leafOk nodeOk)
    (hemit : ∀ k k', Rk k k' → List.Forall₂ R (emit k) (emit' k')) :
    ∀ {d fuel p : Nat} {k : κ} {items : List ι}, d < fuel →
      IsTree leafOk nodeOk emit d p k items →
      ∃ xs, walk view emit' fuel p = some xs ∧ List.Forall₂ R items xs := by
  intro d
  induction d with
  | zero =>
      intro fuel p k items hfuel ht
      obtain ⟨fuel, rfl⟩ : ∃ m, fuel = m + 1 := ⟨fuel - 1, by omega⟩
      obtain ⟨xs, hview, hxs⟩ := hshow.leaf p k items ht
      exact ⟨xs, by simp only [walk, hview], hxs⟩
  | succ d ih =>
      intro fuel p k items hfuel ht
      obtain ⟨fuel, rfl⟩ : ∃ m, fuel = m + 1 := ⟨fuel - 1, by omega⟩
      obtain ⟨cells, right, hok, hs⟩ := ht
      obtain ⟨cells', hview, hcells⟩ := hshow.node p cells right hok
      obtain ⟨xs, hwalk, hxs⟩ :=
        exists_walkCells hemit (fun q k' its hq => ih (show d < fuel by omega) hq) hcells hs
      exact ⟨xs, by simp only [walk, hview, hwalk], hxs⟩

end Correctness

section Search

variable {ι : Type u} {α : Type w} {K : Type v} [LinearOrder K]
variable {view : Nat → Option (Node α K)}
variable {R : ι → α → Prop} {leafOk : Nat → K → List ι → Prop}
variable {nodeOk : Nat → List (Nat × K) → Nat → Prop}

/-- The greatest key of `items` is `k`. -/
def Topped (key : ι → K) (k : K) (items : List ι) : Prop :=
  (∀ i, i ∈ items → key i ≤ k) ∧ ∃ i, i ∈ items ∧ key i = k

theorem IsTree.topped (key : ι → K)
    (hleaf : ∀ p k items, leafOk p k items → Topped key k items) :
    ∀ {d p : Nat} {k : K} {items : List ι},
      IsTree leafOk nodeOk (fun _ => []) d p k items →
      items.Pairwise (fun a b => key a < key b) → Topped key k items := by
  intro d
  induction d with
  | zero =>
      intro p k items ht _
      exact hleaf p k items ht
  | succ d ih =>
      intro p k items ht hsort
      obtain ⟨cells, right, -, hs⟩ := ht
      clear p
      induction cells generalizing items with
      | nil => exact ih hs hsort
      | cons c cells ihc =>
          obtain ⟨child, kc⟩ := c
          obtain ⟨front, back, hf, hb, rfl⟩ := hs
          rw [List.append_nil, List.pairwise_append] at hsort
          obtain ⟨hsf, hsb, hlt⟩ := hsort
          obtain ⟨hle, i, hi, hik⟩ := ihc hsb hb
          refine ⟨fun j hj => ?_, i, by simp [hi], hik⟩
          rcases List.mem_append.mp (by simpa using hj) with hj | hj
          · exact le_of_lt (lt_of_lt_of_le (hlt j hj i hi) (le_of_eq hik))
          · exact hle j hj

theorem find?_append_of_left_miss {hits : α → Bool} {xs ys : List α}
    (h : ∀ a, a ∈ xs → hits a = false) : (xs ++ ys).find? hits = ys.find? hits := by
  have hnone : xs.find? hits = none := List.find?_eq_none.mpr (fun a ha => by simp [h a ha])
  rw [List.find?_append, hnone, Option.none_or]

theorem find?_append_of_right_miss {hits : α → Bool} {xs ys : List α}
    (h : ∀ a, a ∈ ys → hits a = false) : (xs ++ ys).find? hits = xs.find? hits := by
  have hnone : ys.find? hits = none := List.find?_eq_none.mpr (fun a ha => by simp [h a ha])
  rw [List.find?_append, hnone, Option.or_none]

theorem exists_of_forall₂_right {items : List ι} {xs : List α}
    (h : List.Forall₂ R items xs) {a : α} (ha : a ∈ xs) : ∃ i, i ∈ items ∧ R i a := by
  induction h with
  | nil => simp at ha
  | cons hr _ ih =>
      rcases List.mem_cons.mp ha with rfl | ha
      · exact ⟨_, by simp, hr⟩
      · obtain ⟨i, hi, hia⟩ := ih ha
        exact ⟨i, List.mem_cons_of_mem _ hi, hia⟩

theorem exists_walk_descend (key : ι → K) (t : K) {hits : α → Bool}
    (hshow : Shows view R Eq leafOk nodeOk)
    (hhits : ∀ i a, R i a → (hits a = true ↔ key i = t))
    (hleaf : ∀ p k items, leafOk p k items → Topped key k items) :
    ∀ {d fuel p : Nat} {k : K} {items : List ι}, d < fuel →
      IsTree leafOk nodeOk (fun _ => []) d p k items →
      items.Pairwise (fun a b => key a < key b) →
      ∃ xs, walk view (fun _ => []) fuel p = some xs ∧ List.Forall₂ R items xs ∧
        descend view (fun k' => decide (t ≤ k')) hits fuel p = some (xs.find? hits) := by
  intro d
  induction d with
  | zero =>
      intro fuel p k items hfuel ht _
      obtain ⟨fuel, rfl⟩ : ∃ m, fuel = m + 1 := ⟨fuel - 1, by omega⟩
      obtain ⟨xs, hview, hxs⟩ := hshow.leaf p k items ht
      exact ⟨xs, by simp only [walk, hview], hxs, by simp only [descend, hview]⟩
  | succ d ih =>
      intro fuel p k items hfuel ht hsort
      obtain ⟨fuel, rfl⟩ : ∃ m, fuel = m + 1 := ⟨fuel - 1, by omega⟩
      obtain ⟨cells, right, hok, hs⟩ := ht
      obtain ⟨cells', hview, hcells⟩ := hshow.node p cells right hok
      have heq : cells' = cells := by
        clear hs hok hview
        induction hcells with
        | nil => rfl
        | cons hc _ ihc => rw [ihc, Prod.ext hc.1 hc.2]
      subst heq
      have hspine : ∃ xs,
          walkCells (walk view (fun _ => []) fuel) (fun _ => []) cells' right = some xs ∧
          List.Forall₂ R items xs ∧
          descend view (fun k' => decide (t ≤ k')) hits fuel
            (route (fun k' => decide (t ≤ k')) cells' right) = some (xs.find? hits) := by
        clear hok hview hcells
        induction cells' generalizing items with
        | nil => exact ih (by omega) hs hsort
        | cons c cells ihc =>
            obtain ⟨child, kc⟩ := c
            obtain ⟨front, back, hf, hb, rfl⟩ := hs
            rw [List.append_nil] at hsort ⊢
            obtain ⟨hsf, hsb, hlt⟩ := List.pairwise_append.mp hsort
            obtain ⟨xs, hwx, hxs, hdx⟩ := ih (show d < fuel by omega) hf hsf
            obtain ⟨ys, hwy, hys, hdy⟩ := ihc hsb hb
            obtain ⟨hle, m, hm, hmk⟩ := IsTree.topped key hleaf hf hsf
            refine ⟨xs ++ ys, by simp only [walkCells, hwx, hwy, List.append_nil],
              List.rel_append hxs hys, ?_⟩
            by_cases ht : t ≤ kc
            · -- every key to the right exceeds `kc`
              rw [find?_append_of_right_miss, ← hdx]
              · simp only [route, ht, decide_true, if_true]
              · intro a ha
                obtain ⟨i, hi, hia⟩ := exists_of_forall₂_right hys ha
                have hgt : t < key i := lt_of_le_of_lt (hmk ▸ ht) (hlt m hm i hi)
                exact Bool.eq_false_iff.mpr (fun hh => hgt.ne' ((hhits i a hia).mp hh))
            · -- every key on the left is at most `kc`
              rw [find?_append_of_left_miss, ← hdy]
              · simp only [route, ht, decide_false, Bool.false_eq_true, if_false]
              · intro a ha
                obtain ⟨i, hi, hia⟩ := exists_of_forall₂_right hxs ha
                have hgt : key i < t := lt_of_le_of_lt (hle i hi) (not_le.mp ht)
                exact Bool.eq_false_iff.mpr (fun hh => hgt.ne ((hhits i a hia).mp hh))
      obtain ⟨xs, hw, hxs, hd⟩ := hspine
      exact ⟨xs, by simp only [walk, hview, hw], hxs, by simp only [descend, hview, hd]⟩

end Search

end BTree
end Lib
end CodebaseMemory
