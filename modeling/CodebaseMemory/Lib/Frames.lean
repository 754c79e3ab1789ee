import Mathlib.Data.List.Range

/-!
# Arrays whose elements are written before they are read

A function declares an array of a fixed size and fills it item by item.  An access is good if its
index is inside and, for a read, the element was written before.
-/

namespace CodebaseMemory
namespace Lib

universe u

/-- An access to an element of an array. -/
inductive Access where
  | write (index : Nat)
  | read (index : Nat)
deriving DecidableEq

/-- The accesses are good, where the elements in `known` were written before. -/
def Proper (size : Nat) : List Nat → List Access → Prop
  | _, [] => True
  | known, .write i :: more => i < size ∧ Proper size (i :: known) more
  | known, .read i :: more => i < size ∧ i ∈ known ∧ Proper size known more

/-- The elements written afterwards. -/
def written : List Nat → List Access → List Nat
  | known, [] => known
  | known, .write i :: more => written (i :: known) more
  | known, .read _ :: more => written known more

/-- The accesses of a loop over items, from the index `ci` on. -/
def eachItem {α : Type u} (body : Nat → α → List Access) : Nat → List α → List Access
  | _, [] => []
  | ci, item :: items => body ci item ++ eachItem body (ci + 1) items

/-- Writing an element for each item. -/
def fill {α : Type u} : List α → List Access :=
  eachItem (fun ci _ => [.write ci]) 0

/-- Reading the first elements. -/
def copy (count : Nat) : List Access :=
  (List.range count).map .read

section Accesses

variable {α : Type u}
variable {size : Nat}
variable {known : List Nat}

theorem proper_append (before after : List Access) :
    Proper size known (before ++ after) ↔
      Proper size known before ∧ Proper size (written known before) after := by
  induction before generalizing known with
  | nil => rw [List.nil_append, Proper, true_and, written]
  | cons a before ih =>
      cases a with
      | write i => rw [List.cons_append, Proper, Proper, written, ih, and_assoc]
      | read i => rw [List.cons_append, Proper, Proper, written, ih, and_assoc, and_assoc]

theorem written_append (before after : List Access) :
    written known (before ++ after) = written (written known before) after := by
  induction before generalizing known with
  | nil => rfl
  | cons a before ih =>
      cases a with
      | write i => exact ih
      | read i => exact ih

theorem mem_written_of_mem {i : Nat} (h : i ∈ known) (trace : List Access) :
    i ∈ written known trace := by
  induction trace generalizing known with
  | nil => exact h
  | cons a trace ih =>
      cases a with
      | write j => exact ih (List.mem_cons_of_mem j h)
      | read j => exact ih h

theorem proper_reads_iff (indices : List Nat) :
    Proper size known (indices.map .read) ↔ ∀ i ∈ indices, i < size ∧ i ∈ known := by
  induction indices with
  | nil => simp [Proper]
  | cons i indices ih => rw [List.map_cons, Proper, ih, List.forall_mem_cons, and_assoc]

theorem proper_copy_iff (count : Nat) :
    Proper size known (copy count) ↔ ∀ i < count, i < size ∧ i ∈ known := by
  rw [copy, proper_reads_iff]
  exact forall_congr' fun i => by rw [List.mem_range]

variable {body : Nat → α → List Access}

theorem proper_eachItem_of_known
    (hbody : ∀ ci item known, ci < size → ci ∈ known → Proper size known (body ci item)) {ci : Nat}
    {items : List α} (h : ci + items.length ≤ size)
    (hknown : ∀ i, ci ≤ i → i < ci + items.length → i ∈ known) :
    Proper size known (eachItem body ci items) := by
  induction items generalizing ci known with
  | nil => trivial
  | cons item items ih =>
      rw [List.length_cons] at h hknown
      rw [eachItem, proper_append]
      refine ⟨hbody ci item known (by omega) (hknown ci (Nat.le_refl ci) (by omega)),
        ih (by omega) fun i hfrom hto => ?_⟩
      exact mem_written_of_mem (hknown i (by omega) (by omega)) _

theorem proper_eachItem
    (hbody : ∀ ci item known, ci < size → Proper size known (body ci item)) {ci : Nat}
    {items : List α} (h : ci + items.length ≤ size) :
    Proper size known (eachItem body ci items) := by
  induction items generalizing ci known with
  | nil => trivial
  | cons item items ih =>
      rw [List.length_cons] at h
      rw [eachItem, proper_append]
      exact ⟨hbody ci item known (by omega), ih (by omega)⟩

theorem mem_written_eachItem (hbody : ∀ ci item known, ci ∈ written known (body ci item))
    {ci i : Nat} {items : List α} (hfrom : ci ≤ i) (hto : i < ci + items.length) :
    i ∈ written known (eachItem body ci items) := by
  induction items generalizing ci known with
  | nil => exact absurd hto (by rw [List.length_nil]; omega)
  | cons item items ih =>
      rw [List.length_cons] at hto
      rw [eachItem, written_append]
      rcases Nat.eq_or_lt_of_le hfrom with rfl | hlater
      · exact mem_written_of_mem (hbody ci item known) _
      · exact ih hlater (by omega)

theorem proper_eachItem_copy
    (hbody : ∀ ci item known, ci < size → Proper size known (body ci item))
    (hwrites : ∀ ci item known, ci ∈ written known (body ci item)) {items : List α}
    (h : items.length ≤ size) :
    Proper size known (eachItem body 0 items ++ copy items.length) := by
  rw [proper_append, proper_copy_iff]
  refine ⟨proper_eachItem hbody (by omega), fun i hi => ⟨by omega, ?_⟩⟩
  exact mem_written_eachItem hwrites (Nat.zero_le i) (by omega)

theorem proper_fill {items : List α} (h : items.length ≤ size) : Proper size known (fill items) :=
  proper_eachItem (fun _ _ _ hci => by exact ⟨hci, trivial⟩) (by omega)

theorem mem_written_fill {items : List α} {i : Nat} (h : i < items.length) :
    i ∈ written known (fill items) :=
  mem_written_eachItem (fun _ _ _ => List.mem_cons_self) (Nat.zero_le i) (by omega)

theorem proper_fill_copy {items : List α} (h : items.length ≤ size) :
    Proper size known (fill items ++ copy items.length) :=
  proper_eachItem_copy (fun _ _ _ hci => by exact ⟨hci, trivial⟩)
    (fun _ _ _ => List.mem_cons_self) h

end Accesses

end Lib
end CodebaseMemory
