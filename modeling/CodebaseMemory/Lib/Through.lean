import Mathlib.Algebra.Order.BigOperators.Group.List
import Mathlib.Algebra.Ring.Nat
import Mathlib.Data.List.Infix

/-!
# Relations one after the other

A list of elements, each of which stands for a relation, leads from a state to
another through states in between.
-/

namespace CodebaseMemory
namespace Lib

section Through

variable {ε σ : Type} {R S : ε → σ → σ → Prop}

/-- The elements, one after the other, lead from the first state to the second. -/
@[simp] def Through (R : ε → σ → σ → Prop) : List ε → σ → σ → Prop
  | [], s, t => s = t
  | e :: es, s, t => ∃ m, R e s m ∧ Through R es m t

theorem through_singleton {e : ε} {s t : σ} : Through R [e] s t ↔ R e s t :=
  ⟨fun ⟨_, h, heq⟩ => heq ▸ h, fun h => ⟨t, h, rfl⟩⟩

theorem through_append (es : List ε) {fs : List ε} {t : σ} :
    ∀ {s : σ}, Through R (es ++ fs) s t ↔ ∃ m, Through R es s m ∧ Through R fs m t := by
  induction es with
  | nil =>
      intro s
      exact ⟨fun h => ⟨s, rfl, h⟩, fun ⟨_, heq, h⟩ => heq ▸ h⟩
  | cons e es ih =>
      intro s
      constructor
      · rintro ⟨m, he, h⟩
        obtain ⟨n, hes, hfs⟩ := ih.mp h
        exact ⟨n, ⟨m, he, hes⟩, hfs⟩
      · rintro ⟨n, ⟨m, he, hes⟩, hfs⟩
        exact ⟨m, he, ih.mpr ⟨n, hes, hfs⟩⟩

theorem through_congr {Q : σ → Prop} (es : List ε) {t : σ}
    (hkeep : ∀ e ∈ es, ∀ s t, S e s t → Q t → Q s)
    (h : ∀ e ∈ es, ∀ s t, Q t → (R e s t ↔ S e s t)) (ht : Q t) :
    ∀ {s : σ}, (Through R es s t ↔ Through S es s t) ∧ (Through S es s t → Q s) := by
  induction es with
  | nil => exact fun {s} => ⟨Iff.rfl, fun heq => heq ▸ ht⟩
  | cons e es ih =>
      intro s
      have hih := fun {m} => @ih (fun e he => hkeep e (List.mem_cons_of_mem _ he))
        (fun e he => h e (List.mem_cons_of_mem _ he)) m
      refine ⟨exists_congr fun m => ?_, ?_⟩
      · rw [(@hih m).1]
        exact and_congr_left fun hm => h e List.mem_cons_self s m (hih.2 hm)
      · rintro ⟨m, hs, hm⟩
        exact hkeep e List.mem_cons_self s m hs (hih.2 hm)

theorem Through.cost_le {μ : σ → Nat} {cost : ε → Nat} {es : List ε}
    (h : ∀ e ∈ es, ∀ s t, R e s t → μ t + cost e ≤ μ s) :
    ∀ {s t : σ}, Through R es s t → μ t + (es.map cost).sum ≤ μ s := by
  induction es with
  | nil =>
      rintro s t rfl
      exact Nat.le_refl _
  | cons e es ih =>
      rintro s t ⟨m, hs, hm⟩
      have hrest := ih (fun e he => h e (List.mem_cons_of_mem _ he)) hm
      have hfirst := h e List.mem_cons_self s m hs
      rw [List.map_cons, List.sum_cons]
      omega

theorem Through.cost_eq {μ : σ → Nat} {cost : ε → Nat} {es : List ε}
    (h : ∀ e ∈ es, ∀ s t, R e s t → μ s = μ t + cost e) :
    ∀ {s t : σ}, Through R es s t → μ s = μ t + (es.map cost).sum := by
  induction es with
  | nil =>
      rintro s t rfl
      rfl
  | cons e es ih =>
      rintro s t ⟨m, hs, hm⟩
      have hrest := ih (fun e he => h e (List.mem_cons_of_mem _ he)) hm
      have hfirst := h e List.mem_cons_self s m hs
      rw [List.map_cons, List.sum_cons]
      omega

theorem exists_through {P : σ → Prop} {μ : σ → Nat} {cost : ε → Nat} {es : List ε}
    (h : ∀ e ∈ es, ∀ t, P t → ∃ s, R e s t ∧ P s ∧ μ s = μ t + cost e) {t : σ} (ht : P t) :
    ∃ s, Through R es s t ∧ P s ∧ μ s = μ t + (es.map cost).sum := by
  induction es with
  | nil => exact ⟨t, rfl, ht, rfl⟩
  | cons e es ih =>
      obtain ⟨m, hm, hPm, hμm⟩ := ih fun e he => h e (List.mem_cons_of_mem _ he)
      obtain ⟨s, hs, hPs, hμs⟩ := h e List.mem_cons_self m hPm
      refine ⟨s, ⟨m, hs, hm⟩, hPs, ?_⟩
      rw [List.map_cons, List.sum_cons]
      omega

end Through

section Suffix

variable {ε α : Type} {R : ε → List α → List α → Prop}

theorem Through.suffix {es : List ε} (h : ∀ e ∈ es, ∀ s t, R e s t → t <:+ s) :
    ∀ {s t : List α}, Through R es s t → t <:+ s := by
  induction es with
  | nil =>
      rintro s t rfl
      exact List.suffix_rfl
  | cons e es ih =>
      rintro s t ⟨m, hs, hm⟩
      exact (ih (fun e he => h e (List.mem_cons_of_mem _ he)) hm).trans
        (h e List.mem_cons_self s m hs)

theorem suffix_eq_of_count [DecidableEq α] {a : α} {s t w : List α} (hs : a :: s <:+ w)
    (ht : a :: t <:+ w) (hcount : s.count a = t.count a) : s = t := by
  wlog h : a :: s <:+ a :: t generalizing s t
  · exact (this ht hs hcount.symm ((List.suffix_or_suffix_of_suffix hs ht).resolve_left h)).symm
  rcases List.suffix_cons_iff.mp h with heq | hsuffix
  · exact (List.cons.inj heq).2
  · have hle := hsuffix.sublist.count_le a
    rw [List.count_cons_self] at hle
    omega

end Suffix

end Lib
end CodebaseMemory
