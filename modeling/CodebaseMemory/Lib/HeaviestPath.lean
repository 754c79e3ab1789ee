import Mathlib.Data.List.Chain

/-!
# The heaviest path from a node

The weight of a path is the sum of the weights of its nodes.
-/

namespace CodebaseMemory
namespace Lib

section HeaviestPath

variable {α : Type} (r : α → α → Prop) (weight : α → Int)

def pathWeight : List α → Int
  | [] => 0
  | a :: l => weight a + pathWeight l

/-- `s` is the weight of a path that begins at `a`. -/
def PathSum (a : α) (s : Int) : Prop :=
  ∃ l, (a :: l).IsChain r ∧ pathWeight weight (a :: l) = s

/-- `d` is the weight of the heaviest path that begins at `a`. -/
structure Heaviest (a : α) (d : Int) : Prop where
  attained : PathSum r weight a d
  bound : ∀ s, PathSum r weight a s → s ≤ d

/-- `b` is the weight of the heaviest path that begins at one of the nodes, at least 0. -/
structure Best (cs : List α) (b : Int) : Prop where
  nonneg : 0 ≤ b
  attained : b = 0 ∨ ∃ c ∈ cs, Heaviest r weight c b
  bound : ∀ c ∈ cs, ∃ d, Heaviest r weight c d ∧ d ≤ b

variable {r weight} {a c : α} {cs : List α} {b d s : Int}

theorem pathSum_iff : PathSum r weight a s ↔
    s = weight a ∨ ∃ c, r a c ∧ ∃ t, PathSum r weight c t ∧ s = weight a + t := by
  constructor
  · rintro ⟨l, hchain, rfl⟩
    cases l with
    | nil => exact Or.inl (Int.add_zero _)
    | cons c l =>
        obtain ⟨hc, hrest⟩ := List.isChain_cons_cons.mp hchain
        exact Or.inr ⟨c, hc, _, ⟨l, hrest, rfl⟩, rfl⟩
  · rintro (rfl | ⟨c, hc, _, ⟨l, hrest, rfl⟩, rfl⟩)
    · exact ⟨[], List.isChain_singleton a, Int.add_zero _⟩
    · exact ⟨c :: l, List.isChain_cons_cons.mpr ⟨hc, hrest⟩, rfl⟩

theorem best_nil : Best r weight [] 0 :=
  ⟨Int.le_refl 0, Or.inl rfl, fun _ hc => absurd hc List.not_mem_nil⟩

theorem Best.concat (h : Best r weight cs b) (hd : Heaviest r weight c d) :
    Best r weight (cs ++ [c]) (if b < d then d else b) := by
  have hle : b ≤ (if b < d then d else b) ∧ d ≤ (if b < d then d else b) := by
    split <;> omega
  refine ⟨Int.le_trans h.nonneg hle.1, ?_, fun x hx => ?_⟩
  · split
    · exact Or.inr ⟨c, List.mem_append_right _ List.mem_cons_self, hd⟩
    · refine h.attained.imp_right fun ⟨x, hx, hbest⟩ => ?_
      exact ⟨x, List.mem_append_left _ hx, hbest⟩
  · rcases List.mem_append.mp hx with hx | hx
    · obtain ⟨t, ht, htb⟩ := h.bound x hx
      exact ⟨t, ht, Int.le_trans htb hle.1⟩
    · rw [List.mem_singleton.mp hx]
      exact ⟨d, hd, hle.2⟩

theorem Best.heaviest (h : Best r weight cs b) (hcs : ∀ c, r a c ↔ c ∈ cs) :
    Heaviest r weight a (weight a + b) := by
  refine ⟨pathSum_iff.mpr ?_, fun s hs => ?_⟩
  · rcases h.attained with rfl | ⟨c, hc, hbest⟩
    · exact Or.inl (Int.add_zero _)
    · exact Or.inr ⟨c, (hcs c).mpr hc, b, hbest.attained, rfl⟩
  · have hnonneg := h.nonneg
    rcases pathSum_iff.mp hs with rfl | ⟨c, hc, t, ht, rfl⟩
    · omega
    · obtain ⟨d, hd, hdb⟩ := h.bound c ((hcs c).mp hc)
      have htd := hd.bound t ht
      omega

end HeaviestPath

end Lib
end CodebaseMemory
