import Mathlib.Data.List.Basic
import Mathlib.Data.List.Induction

/-!
# Loops that stop at a cap

A loop that appends what it finds to an array, as long as the array has room.
A cap of `none` is no cap.
-/

namespace CodebaseMemory
namespace Lib

universe u v w

section Capped

variable {α : Type u}
variable {β : Type v}
variable {ι : Type w}

/-- There is room for one more entry. -/
def hasRoom (cap : Option Nat) (count : Nat) : Bool :=
  match cap with
  | none => true
  | some k => count < k

def takeRoom (cap : Option Nat) (count : Nat) (l : List β) : List β :=
  match cap with
  | none => l
  | some k => l.take (k - count)

/-- The loop; `acc` is the array. -/
def collect (cap : Option Nat) (f : α → Option β) : List α → List β → List β
  | [], acc => acc
  | x :: xs, acc =>
      if hasRoom cap acc.length then collect cap f xs (acc ++ (f x).toList) else acc

@[simp] theorem takeRoom_nil (cap : Option Nat) (count : Nat) :
    takeRoom cap count ([] : List β) = [] := by
  cases cap with
  | none => rfl
  | some k => exact List.take_nil

theorem mem_of_mem_takeRoom {cap : Option Nat} {count : Nat} {l : List β} {x : β}
    (hx : x ∈ takeRoom cap count l) : x ∈ l := by
  cases cap with
  | none => exact hx
  | some k => exact List.mem_of_mem_take hx

theorem takeRoom_append (cap : Option Nat) (acc l l' : List β) :
    (acc ++ takeRoom cap acc.length l) ++
        takeRoom cap (acc ++ takeRoom cap acc.length l).length l' =
      acc ++ takeRoom cap acc.length (l ++ l') := by
  cases cap with
  | none => simp [takeRoom]
  | some k =>
      have hlen : k - (acc ++ l.take (k - acc.length)).length = k - acc.length - l.length := by
        rw [List.length_append, List.length_take]
        omega
      change (acc ++ l.take (k - acc.length)) ++
        l'.take (k - (acc ++ l.take (k - acc.length)).length) = acc ++ (l ++ l').take _
      rw [hlen, List.take_append, List.append_assoc]

theorem collect_eq (cap : Option Nat) (f : α → Option β) (xs : List α) :
    ∀ acc, collect cap f xs acc = acc ++ takeRoom cap acc.length (xs.filterMap f) := by
  induction xs with
  | nil =>
      intro acc
      rw [collect, List.filterMap_nil, takeRoom_nil, List.append_nil]
  | cons x xs ih =>
      intro acc
      have hcons : (x :: xs).filterMap f = (f x).toList ++ xs.filterMap f := by
        rw [List.filterMap_cons]
        cases f x <;> rfl
      rw [collect, hcons, ← takeRoom_append]
      by_cases hroom : hasRoom cap acc.length = true
      · have hone : takeRoom cap acc.length (f x).toList = (f x).toList := by
          cases cap with
          | none => rfl
          | some k =>
              refine List.take_of_length_le ?_
              have hlt : acc.length < k := of_decide_eq_true hroom
              have hle : (f x).toList.length ≤ 1 := by cases f x <;> simp
              omega
        rw [if_pos hroom, ih, hone]
      · rw [if_neg hroom]
        cases cap with
        | none => exact absurd rfl hroom
        | some k =>
            have hfull : k - acc.length = 0 := by
              have hlt : ¬ acc.length < k := fun h => hroom (decide_eq_true h)
              omega
            simp [takeRoom, hfull]

theorem foldl_takeRoom (cap : Option Nat) {f : List β → α → List β} {g : α → List β}
    (hf : ∀ acc x, f acc x = acc ++ takeRoom cap acc.length (g x)) (xs : List α) :
    ∀ acc, xs.foldl f acc = acc ++ takeRoom cap acc.length (xs.flatMap g) := by
  induction xs with
  | nil =>
      intro acc
      rw [List.foldl_nil, List.flatMap_nil, takeRoom_nil, List.append_nil]
  | cons x xs ih =>
      intro acc
      rw [List.foldl_cons, ih, hf, List.flatMap_cons, takeRoom_append]

theorem foldl_collect (cap : Option Nat) (f : ι → α → Option β) (parts : List (ι × List α)) :
    ∀ acc, parts.foldl (fun acc part => collect cap (f part.1) part.2 acc) acc =
      acc ++ takeRoom cap acc.length
        (parts.flatMap fun part => part.2.filterMap (f part.1)) :=
  foldl_takeRoom cap (fun acc part => collect_eq cap (f part.1) part.2 acc) parts

end Capped

section Stateful

variable {σ σ' α β : Type}

/-- The loop with a state, which may look at the elements that are left; `acc` is the array. -/
def collectWith (cap : Nat) (next : σ → α → σ) (out : σ → α → List α → Option β) :
    List α → σ → List β → List β
  | [], _, acc => acc
  | x :: xs, s, acc =>
      if acc.length < cap then
        collectWith cap next out xs (next s x) (acc ++ (out s x xs).toList)
      else acc

/-- What the loop finds. -/
def emitted (next : σ → α → σ) (out : σ → α → List α → Option β) : σ → List α → List β
  | _, [] => []
  | s, x :: xs => (out s x xs).toList ++ emitted next out (next s x) xs

theorem collectWith_eq (cap : Nat) (next : σ → α → σ) (out : σ → α → List α → Option β)
    (xs : List α) (s : σ) (acc : List β) :
    collectWith cap next out xs s acc =
      acc ++ (emitted next out s xs).take (cap - acc.length) := by
  induction xs generalizing s acc with
  | nil => rw [collectWith, emitted, List.take_nil, List.append_nil]
  | cons x xs ih =>
      rw [collectWith, emitted]
      split
      · next hroom =>
          have hone : (out s x xs).toList.length ≤ 1 := by
            cases out s x xs <;> simp
          rw [ih, List.append_assoc, List.take_append,
            List.take_of_length_le (l := (out s x xs).toList) (by omega), List.length_append,
            Nat.sub_sub]
      · next hfull =>
          rw [Nat.sub_eq_zero_of_le (Nat.le_of_not_lt hfull), List.take_zero, List.append_nil]

variable {next : σ → α → σ} {next' : σ' → α → σ'} {out : σ → α → Option β}
  {out' : σ' → α → Option β}

theorem emitted_concat (s : σ) (xs : List α) (x : α) :
    emitted next (fun s x _ => out s x) s (xs ++ [x]) =
      emitted next (fun s x _ => out s x) s xs ++ (out (xs.foldl next s) x).toList := by
  induction xs generalizing s with
  | nil => exact List.append_nil _
  | cons y ys ih =>
      rw [List.cons_append, emitted, emitted, ih, List.append_assoc, List.foldl_cons]

theorem toList_injective {a b : Option β} (h : a.toList = b.toList) : a = b := by
  cases a <;> cases b <;> simp_all

theorem forall_emitted_eq_iff {s : σ} {s' : σ'} {xs : List α} :
    (∀ front, front <+: xs → emitted next (fun s x _ => out s x) s front =
        emitted next' (fun s x _ => out' s x) s' front) ↔
      ∀ front x, front ++ [x] <+: xs →
        out (front.foldl next s) x = out' (front.foldl next' s') x := by
  constructor
  · intro h front x hx
    have hlast := h (front ++ [x]) hx
    rw [emitted_concat, emitted_concat, h front ((List.prefix_append front [x]).trans hx)] at hlast
    exact toList_injective (List.append_cancel_left hlast)
  · intro h front hfront
    induction front using List.reverseRecOn with
    | nil => rfl
    | append_singleton front x ih =>
        rw [emitted_concat, emitted_concat, h front x hfront,
          ih ((List.prefix_append front [x]).trans hfront)]

theorem forall_filterMap_eq_iff {f g : α → Option β} {xs : List α} :
    (∀ front, front <+: xs → front.filterMap f = front.filterMap g) ↔ ∀ x ∈ xs, f x = g x := by
  constructor
  · intro h x hx
    obtain ⟨front, back, rfl⟩ := List.append_of_mem hx
    have hfront := h front (List.prefix_append front _)
    have hlast := h (front ++ [x]) ⟨back, by rw [List.append_assoc]; rfl⟩
    rw [List.filterMap_append, List.filterMap_append, hfront] at hlast
    have hone : ∀ k : α → Option β, [x].filterMap k = (k x).toList := by
      intro k
      rw [List.filterMap_cons]
      cases k x <;> rfl
    have hsame := List.append_cancel_left hlast
    rw [hone, hone] at hsame
    exact toList_injective hsame
  · intro h front hfront
    exact List.filterMap_congr fun x hx => h x (hfront.subset hx)

end Stateful

end Lib
end CodebaseMemory
