import CodebaseMemory.Ac.Trie
import Mathlib.Data.List.Perm.Subperm

/-!
# Failure links and the completed table

`ac_build_failure` goes through the states by depth.  A cell that has been
visited leads to the state of the longest suffix that is a word of the trie; a
state that has come into the queue has its failure state and all its outputs.

The invariant is stated for a set of cells that are done and for the list of
all states that have ever been in the queue.  It holds between any two cells,
so that the inner loop is an induction over the symbols and the outer one over
the states.
-/

namespace CodebaseMemory
namespace Ac

open Lib

/-- A cell that is done leads to the longest suffix. -/
def DoneCell (words : List (List Nat)) (go : Option Nat) (s c : Nat) : Prop :=
  ∀ w, words[s]? = some w →
    ∃ t, go = some t ∧ words[t]? = some (longestSuffix words (w ++ [c]))

/-- The length of the word of a state. -/
def depth (words : List (List Nat)) (s : Nat) : Nat :=
  (words[s]?.getD []).length

theorem depth_eq {words : List (List Nat)} {s : Nat} {w : List Nat} (hs : words[s]? = some w) :
    depth words s = w.length := by
  rw [depth, hs, Option.getD_some]

/-- What holds between two cells: `Done` are the cells that have been visited, and `order` the
states that have come into the queue. -/
structure Inv (alphaSize : Nat) (words images : List (List Nat)) (Done : Nat → Nat → Prop)
    (order : List Nat) (b : Bfs) : Prop where
  alphaSize_eq : b.ac.alphaSize = alphaSize
  done_cell : ∀ s c, c < alphaSize → Done s c →
    DoneCell words (b.ac.goTable (cell alphaSize s c)) s c
  trie_cell : ∀ s c, c < alphaSize → ¬ Done s c →
    TrieCell words (b.ac.goTable (cell alphaSize s c)) s c
  mem_order : ∀ s, s ∈ order ↔
    ∃ w c x, words[s]? = some (w ++ [c]) ∧ words[x]? = some w ∧ Done x c
  fail_eq : ∀ s ∈ order, ∀ w, words[s]? = some w →
    ∃ f, b.fail s = some f ∧ words[f]? = some (longestSuffix words w.tail)
  out_done : ∀ s, s = 0 ∨ s ∈ order → ∀ w, words[s]? = some w → ∀ p,
    (b.ac.output s).getLsbD p = true ↔ p < 64 ∧ ∃ u, images[p]? = some u ∧ u <:+ w
  out_trie : ∀ s, s ≠ 0 → s ∉ order → ∀ w, words[s]? = some w → ∀ p,
    (b.ac.output s).getLsbD p = true ↔ p < 64 ∧ images[p]? = some w
  next_eq : ∀ s f, b.ac.outputNext s = some f → ∀ w, words[s]? = some w →
    w ≠ [] ∧ words[f]? = some (longestSuffix words w.tail)
  nodup : order.Nodup
  sorted : order.Pairwise fun x y => depth words x ≤ depth words y

def WithCell (Done : Nat → Nat → Prop) (r c : Nat) (x d : Nat) : Prop :=
  Done x d ∨ (x = r ∧ d = c)

section Cell

variable {alphaSize : Nat} {words images : List (List Nat)} {Done : Nat → Nat → Prop}
variable {order : List Nat} {b : Bfs} {r c : Nat} {v : List Nat}

theorem Inv.congr {Done' : Nat → Nat → Prop} (h : Inv alphaSize words images Done order b)
    (hDone : ∀ x d, Done x d ↔ Done' x d) : Inv alphaSize words images Done' order b := by
  obtain rfl : Done = Done' := funext fun x => funext fun d => propext (hDone x d)
  exact h

theorem Inv.ne_nil_of_mem (h : Inv alphaSize words images Done order b) (hr : r ∈ order)
    (hrv : words[r]? = some v) : v ≠ [] := by
  obtain ⟨w, d, _, hw, _, _⟩ := (h.mem_order r).mp hr
  obtain rfl : w ++ [d] = v := Option.some.inj (hw.symm.trans hrv)
  simp

/-- What is known when a cell of `r` is visited: the rows above `r` are done, and no state in the
queue is more than one level below it. -/
structure AtState (alphaSize : Nat) (words : List (List Nat)) (Done : Nat → Nat → Prop)
    (order : List Nat) (r : Nat) (v : List Nat) : Prop where
  mem : r ∈ order
  word : words[r]? = some v
  shallow : ∀ x w, words[x]? = some w → w.length < v.length → ∀ d, d < alphaSize → Done x d
  bound : ∀ x ∈ order, depth words x ≤ v.length + 1

variable (hw : Words alphaSize words)
include hw

/-- The transition from the failure state leads to the longest proper suffix of the word with `c`. -/
theorem Inv.viaFail_eq (h : Inv alphaSize words images Done order b)
    (hr : AtState alphaSize words Done order r v) (hc : c < alphaSize) :
    ∃ y, b.viaFail r c = some y ∧ words[y]? = some (longestSuffix words (v ++ [c]).tail) := by
  have hv : v ≠ [] := h.ne_nil_of_mem hr.mem hr.word
  obtain ⟨f, hf, hfw⟩ := h.fail_eq r hr.mem v hr.word
  have hlen : (longestSuffix words v.tail).length < v.length := by
    have hle := (@longestSuffix_suffix _ _ words v.tail).length_le
    have hpos : 0 < v.length := List.length_pos_of_ne_nil hv
    rw [List.length_tail] at hle
    omega
  obtain ⟨y, hy, hyw⟩ := h.done_cell f c hc (hr.shallow f _ hfw hlen c hc) _ hfw
  refine ⟨y, ?_, ?_⟩
  · rw [Bfs.viaFail, hf, h.alphaSize_eq]
    exact hy
  · rw [hyw, ← longestSuffix_append_singleton hw.prefixClosed, List.tail_append_of_ne_nil hv]

theorem Inv.mem_of_length_le (h : Inv alphaSize words images Done order b)
    (hr : AtState alphaSize words Done order r v) {y : Nat} {yw : List Nat}
    (hy : words[y]? = some yw) (hle : yw.length ≤ v.length) : y = 0 ∨ y ∈ order := by
  rcases List.eq_nil_or_concat yw with rfl | ⟨u, d, rfl⟩
  · exact Or.inl ((hw.eq_zero_iff hy).mpr rfl)
  · rw [List.concat_eq_append] at hy hle
    have hmem : u ++ [d] ∈ words := List.mem_of_getElem? hy
    have hd : d < alphaSize := hw.lt_alphaSize _ hmem d (by simp)
    obtain ⟨x, hx⟩ := List.mem_iff_getElem?.mp (hw.of_append u d hmem)
    have hlen : u.length < v.length := by
      rw [List.length_append, List.length_singleton] at hle
      omega
    exact Or.inr ((h.mem_order y).mpr ⟨u, d, x, hy, hx, hr.shallow x u hx hlen d hd⟩)

/-- A cell of `r` whose word is not in the trie: it takes over the transition of the failure
state. -/
theorem Inv.failCell_none (h : Inv alphaSize words images Done order b)
    (hr : AtState alphaSize words Done order r v) (hc : c < alphaSize) (hnot : ¬ Done r c)
    (hgo : b.ac.goTable (cell alphaSize r c) = none) :
    Inv alphaSize words images (WithCell Done r c) order (failCell r b c) := by
  obtain ⟨y, hy, hyw⟩ := h.viaFail_eq hw hr hc
  have hnew : v ++ [c] ∉ words := by
    intro hmem
    obtain ⟨t, ht⟩ := List.mem_iff_getElem?.mp hmem
    have hsome := (h.trie_cell r c hc hnot t).mpr ⟨v, hr.word, ht⟩
    exact absurd (hgo.symm.trans hsome) (by simp)
  have hstep : failCell r b c =
      { b with ac := { b.ac with
          goTable := Function.update b.ac.goTable (cell alphaSize r c) (some y) } } := by
    rw [failCell, h.alphaSize_eq, hgo, hy]
  have hother : ∀ x d, d < alphaSize → ¬ (x = r ∧ d = c) →
      Function.update b.ac.goTable (cell alphaSize r c) (some y) (cell alphaSize x d) =
        b.ac.goTable (cell alphaSize x d) :=
    fun x d hd hne => Function.update_of_ne (fun heq => hne ((cell_inj hd hc).mp heq)) _ _
  rw [hstep]
  exact
    { alphaSize_eq := h.alphaSize_eq
      done_cell := by
        intro x d hd hDone
        by_cases hcell : x = r ∧ d = c
        · obtain ⟨rfl, rfl⟩ := hcell
          intro w hxw
          obtain rfl : v = w := Option.some.inj (hr.word.symm.trans hxw)
          refine ⟨y, Function.update_self _ _ _, ?_⟩
          rw [hyw, longestSuffix_of_notMem hnew]
        · have hold := h.done_cell x d hd (hDone.resolve_right hcell)
          simp only [hother x d hd hcell]
          exact hold
      trie_cell := by
        intro x d hd hDone
        have hcell : ¬ (x = r ∧ d = c) := fun heq => hDone (Or.inr heq)
        have hold := h.trie_cell x d hd fun hin => hDone (Or.inl hin)
        simp only [hother x d hd hcell]
        exact hold
      mem_order := by
        intro s
        rw [h.mem_order s]
        constructor
        · rintro ⟨w, d, x, hsw, hxw, hDone⟩
          exact ⟨w, d, x, hsw, hxw, Or.inl hDone⟩
        · rintro ⟨w, d, x, hsw, hxw, hDone | ⟨rfl, rfl⟩⟩
          · exact ⟨w, d, x, hsw, hxw, hDone⟩
          · obtain rfl : v = w := Option.some.inj (hr.word.symm.trans hxw)
            exact absurd (List.mem_of_getElem? hsw) hnew
      fail_eq := h.fail_eq
      out_done := h.out_done
      out_trie := h.out_trie
      next_eq := h.next_eq
      nodup := h.nodup
      sorted := h.sorted }

omit hw in
theorem output_or_iff {s y : Nat} {output : Nat → BitVec 64} (himages : ∀ u ∈ images, u ∈ words)
    {w : List Nat} (hw' : w ≠ [])
    (hown : ∀ p, (output s).getLsbD p = true ↔ p < 64 ∧ images[p]? = some w)
    (hvia : ∀ p, (output y).getLsbD p = true ↔
      p < 64 ∧ ∃ u, images[p]? = some u ∧ u <:+ longestSuffix words w.tail) (p : Nat) :
    (output s ||| output y).getLsbD p = true ↔ p < 64 ∧ ∃ u, images[p]? = some u ∧ u <:+ w := by
  rw [BitVec.getLsbD_or, Bool.or_eq_true, hown, hvia, ← and_or_left]
  refine and_congr_right fun _ => ?_
  have hsuffix : ∀ u, u <:+ w ↔ u = w ∨ u <:+ w.tail := by
    intro u
    obtain ⟨a, w, rfl⟩ := List.exists_cons_of_ne_nil hw'
    exact List.suffix_cons_iff
  constructor
  · rintro (hp | ⟨u, hp, hu⟩)
    · exact ⟨w, hp, List.suffix_rfl⟩
    · have hmem := himages u (List.mem_of_getElem? hp)
      exact ⟨u, hp, (hsuffix u).mpr (Or.inr ((suffix_longestSuffix_iff hmem).mp hu))⟩
  · rintro ⟨u, hp, hu⟩
    have hmem := himages u (List.mem_of_getElem? hp)
    rcases (hsuffix u).mp hu with rfl | htail
    · exact Or.inl hp
    · exact Or.inr ⟨u, hp, (suffix_longestSuffix_iff hmem).mpr htail⟩

theorem Inv.failCell_some (h : Inv alphaSize words images Done order b)
    (himages : ∀ u ∈ images, u ∈ words)
    (hr : AtState alphaSize words Done order r v) (hc : c < alphaSize) (hnot : ¬ Done r c) {s : Nat}
    (hgo : b.ac.goTable (cell alphaSize r c) = some s) :
    Inv alphaSize words images (WithCell Done r c) (order ++ [s]) (failCell r b c) ∧
      depth words s = v.length + 1 := by
  obtain ⟨y, hy, hyw⟩ := h.viaFail_eq hw hr hc
  have hsw : words[s]? = some (v ++ [c]) := by
    obtain ⟨w, hrw, hsw⟩ := (h.trie_cell r c hc hnot s).mp hgo
    obtain rfl : v = w := Option.some.inj (hr.word.symm.trans hrw)
    exact hsw
  have hs0 : s ≠ 0 := fun hzero => absurd ((hw.eq_zero_iff hsw).mp hzero) (by simp)
  have hsorder : s ∉ order := by
    intro hmem
    obtain ⟨w, d, x, hsw', hxw, hDone⟩ := (h.mem_order s).mp hmem
    obtain ⟨rfl, hd⟩ := List.append_inj' (Option.some.inj (hsw'.symm.trans hsw)) rfl
    obtain rfl : x = r := hw.state_unique hxw hr.word
    exact hnot ((List.cons.inj hd).1 ▸ hDone)
  -- the failure state is no deeper than `r`, so its outputs are there
  have hyle : (longestSuffix words (v ++ [c]).tail).length ≤ v.length := by
    refine (longestSuffix_suffix _).length_le.trans ?_
    simp
  have hyorder : y = 0 ∨ y ∈ order := h.mem_of_length_le hw hr hyw hyle
  have hys : y ≠ s := by
    rintro rfl
    exact hyorder.elim hs0 hsorder
  have hdepth : depth words s = v.length + 1 := by
    rw [depth_eq hsw, List.length_append, List.length_singleton]
  refine ⟨?_, hdepth⟩
  have hgoTable : (failCell r b c).ac.goTable = b.ac.goTable := by
    rw [failCell, h.alphaSize_eq, hgo]
  have houtput : (failCell r b c).ac.output =
      Function.update b.ac.output s (b.ac.output s ||| b.ac.output y) := by
    rw [failCell, h.alphaSize_eq, hgo, hy]
    rfl
  have hfail : (failCell r b c).fail = Function.update b.fail s (some y) := by
    rw [failCell, h.alphaSize_eq, hgo, hy]
  have hnext : ∀ t f, (failCell r b c).ac.outputNext t = some f →
      b.ac.outputNext t = some f ∨ (t = s ∧ f = y) := by
    intro t f hf
    rw [failCell, h.alphaSize_eq, hgo, hy] at hf
    dsimp only at hf
    split at hf
    · by_cases hts : t = s
      · subst hts
        rw [Function.update_self] at hf
        exact Or.inr ⟨rfl, (Option.some.inj hf).symm⟩
      · rw [Function.update_of_ne hts] at hf
        exact Or.inl hf
    · exact Or.inl hf
  exact
    { alphaSize_eq := by
        rw [failCell, h.alphaSize_eq, hgo]
        exact h.alphaSize_eq
      done_cell := by
        intro x d hd hDone
        rw [hgoTable]
        rcases hDone with hin | ⟨rfl, rfl⟩
        · exact h.done_cell x d hd hin
        · intro w hxw
          obtain rfl : v = w := Option.some.inj (hr.word.symm.trans hxw)
          exact ⟨s, hgo, by rw [longestSuffix_of_mem (List.mem_of_getElem? hsw)]; exact hsw⟩
      trie_cell := by
        intro x d hd hDone
        rw [hgoTable]
        exact h.trie_cell x d hd fun hin => hDone (Or.inl hin)
      mem_order := by
        intro t
        rw [List.mem_append, List.mem_singleton, h.mem_order t]
        constructor
        · rintro (⟨w, d, x, htw, hxw, hDone⟩ | rfl)
          · exact ⟨w, d, x, htw, hxw, Or.inl hDone⟩
          · exact ⟨v, c, r, hsw, hr.word, Or.inr ⟨rfl, rfl⟩⟩
        · rintro ⟨w, d, x, htw, hxw, hDone | ⟨rfl, rfl⟩⟩
          · exact Or.inl ⟨w, d, x, htw, hxw, hDone⟩
          · obtain rfl : v = w := Option.some.inj (hr.word.symm.trans hxw)
            exact Or.inr (hw.state_unique htw hsw)
      fail_eq := by
        intro t ht w htw
        rw [hfail]
        by_cases hts : t = s
        · subst hts
          obtain rfl : v ++ [c] = w := Option.some.inj (hsw.symm.trans htw)
          exact ⟨y, Function.update_self _ _ _, hyw⟩
        · rw [Function.update_of_ne hts]
          exact h.fail_eq t ((List.mem_append.mp ht).resolve_right (by simpa using hts)) w htw
      out_done := by
        intro t ht w htw p
        rw [houtput]
        by_cases hts : t = s
        · subst hts
          obtain rfl : v ++ [c] = w := Option.some.inj (hsw.symm.trans htw)
          rw [Function.update_self]
          exact output_or_iff himages (by simp) (h.out_trie t hs0 hsorder _ hsw)
            (h.out_done y hyorder _ hyw) p
        · rw [Function.update_of_ne hts]
          refine h.out_done t (ht.imp_right fun hmem => ?_) w htw p
          exact (List.mem_append.mp hmem).resolve_right (by simpa using hts)
      out_trie := by
        intro t ht0 ht w htw p
        rw [List.mem_append, not_or, List.mem_singleton] at ht
        rw [houtput, Function.update_of_ne ht.2]
        exact h.out_trie t ht0 ht.1 w htw p
      next_eq := by
        intro t f hf w htw
        rcases hnext t f hf with hold | ⟨rfl, rfl⟩
        · exact h.next_eq t f hold w htw
        · obtain rfl : v ++ [c] = w := Option.some.inj (hsw.symm.trans htw)
          exact ⟨by simp, hyw⟩
      nodup := by
        rw [List.nodup_append]
        refine ⟨h.nodup, List.nodup_singleton s, fun x hx x' hx' heq => ?_⟩
        exact hsorder (List.mem_singleton.mp hx' ▸ heq ▸ hx)
      sorted := by
        rw [List.pairwise_append]
        refine ⟨h.sorted, List.pairwise_singleton _ _, fun x hx x' hx' => ?_⟩
        rw [List.mem_singleton.mp hx', hdepth]
        exact hr.bound x hx }

theorem Inv.failCell (h : Inv alphaSize words images Done order b)
    (himages : ∀ u ∈ images, u ∈ words)
    (hr : AtState alphaSize words Done order r v) (hc : c < alphaSize) (hnot : ¬ Done r c) :
    ∃ new, Inv alphaSize words images (WithCell Done r c) (order ++ new) (Ac.failCell r b c) ∧
      (Ac.failCell r b c).queue = b.queue ++ new ∧ ∀ x ∈ new, depth words x = v.length + 1 := by
  cases hgo : b.ac.goTable (cell alphaSize r c) with
  | none =>
      refine ⟨[], ?_, ?_, fun x hx => absurd hx (by simp)⟩
      · rw [List.append_nil]
        exact h.failCell_none hw hr hc hnot hgo
      · rw [Ac.failCell, h.alphaSize_eq, hgo, List.append_nil]
  | some s =>
      obtain ⟨hinv, hdepth⟩ := h.failCell_some hw himages hr hc hnot hgo
      refine ⟨[s], hinv, ?_, fun x hx => ?_⟩
      · rw [Ac.failCell, h.alphaSize_eq, hgo]
      · rw [List.mem_singleton.mp hx, hdepth]

end Cell

/-- The rows of the root and of the states in `popped` are done. -/
def RowsDone (alphaSize : Nat) (popped : List Nat) (x d : Nat) : Prop :=
  d < alphaSize ∧ (x = 0 ∨ x ∈ popped)

/-- And of `r` the cells below `k`. -/
def RowsDoneTo (alphaSize : Nat) (popped : List Nat) (r k x d : Nat) : Prop :=
  RowsDone alphaSize popped x d ∨ (x = r ∧ d < k)

section Loops

variable {alphaSize : Nat} {words images : List (List Nat)} {popped rest : List Nat} {b : Bfs}
variable {r : Nat} {v : List Nat}

theorem Inv.shallow_popped
    (h : Inv alphaSize words images (RowsDone alphaSize popped) (popped ++ r :: rest) b)
    (hw : Words alphaSize words) (hrv : words[r]? = some v) (w : List Nat) :
    ∀ x, words[x]? = some w → w.length < v.length → x = 0 ∨ x ∈ popped := by
  induction w using List.reverseRecOn with
  | nil => exact fun x hx _ => Or.inl ((hw.eq_zero_iff hx).mpr rfl)
  | append_singleton w d ih =>
      intro x hx hlen
      have hmem : w ++ [d] ∈ words := List.mem_of_getElem? hx
      obtain ⟨x', hx'⟩ := List.mem_iff_getElem?.mp (hw.of_append w d hmem)
      have hlen' : w.length < v.length := by
        rw [List.length_append] at hlen
        omega
      have hd : d < alphaSize := hw.lt_alphaSize _ hmem d (by simp)
      have hin : x ∈ popped ++ r :: rest :=
        (h.mem_order x).mpr ⟨w, d, x', hx, hx', hd, ih x' hx' hlen'⟩
      rcases List.mem_append.mp hin with hpopped | hqueue
      · exact Or.inr hpopped
      · -- a state of the queue is at least as deep as its head
        exfalso
        have hsorted := (List.pairwise_append.mp h.sorted).2.1
        rcases List.mem_cons.mp hqueue with rfl | hrest
        · obtain rfl : w ++ [d] = v := Option.some.inj (hx.symm.trans hrv)
          exact Nat.lt_irrefl _ hlen
        · have hle := (List.pairwise_cons.mp hsorted).1 x hrest
          rw [depth_eq hrv, depth_eq hx] at hle
          omega

theorem Inv.atState
    (h : Inv alphaSize words images (RowsDone alphaSize popped) (popped ++ r :: rest) b)
    (hw : Words alphaSize words) (hrv : words[r]? = some v) :
    AtState alphaSize words (RowsDone alphaSize popped) (popped ++ r :: rest) r v where
  mem := by simp
  word := hrv
  shallow := fun x w hx hlen d hd => ⟨hd, h.shallow_popped hw hrv w x hx hlen⟩
  bound := by
    intro x hx
    obtain ⟨w, d, x', hxw, hx'w, _, hx'⟩ := (h.mem_order x).mp hx
    rw [depth_eq hxw, List.length_append, List.length_singleton]
    have hle : w.length ≤ v.length := by
      rcases hx' with rfl | hpopped
      · obtain rfl : w = [] := (hw.eq_zero_iff hx'w).mp rfl
        exact Nat.zero_le _
      · have hle := (List.pairwise_append.mp h.sorted).2.2 x' hpopped r List.mem_cons_self
        rwa [depth_eq hx'w, depth_eq hrv] at hle
    omega

theorem Inv.notMem_popped
    (h : Inv alphaSize words images (RowsDone alphaSize popped) (popped ++ r :: rest) b) :
    r ∉ popped := by
  intro hmem
  exact (List.nodup_append.mp h.nodup).2.2 r hmem r List.mem_cons_self rfl

theorem Inv.row (h : Inv alphaSize words images (RowsDone alphaSize popped) (popped ++ r :: rest) b)
    (hw : Words alphaSize words) (himages : ∀ u ∈ images, u ∈ words) (hrv : words[r]? = some v)
    (k : Nat) (hk : k ≤ alphaSize) :
    ∃ new, Inv alphaSize words images (RowsDoneTo alphaSize popped r k)
        ((popped ++ r :: rest) ++ new) ((List.range k).foldl (Ac.failCell r) b) ∧
      ((List.range k).foldl (Ac.failCell r) b).queue = b.queue ++ new ∧
      ∀ x ∈ new, depth words x = v.length + 1 := by
  have hr := h.atState hw hrv
  induction k with
  | zero =>
      refine ⟨[], ?_, (List.append_nil _).symm, fun x hx => absurd hx (by simp)⟩
      rw [List.append_nil]
      refine h.congr fun x d => ?_
      simp [RowsDoneTo]
  | succ k ih =>
      obtain ⟨new, hinv, hqueue, hdepth⟩ := ih (by omega)
      have hnot : ¬ RowsDoneTo alphaSize popped r k r k := by
        rintro (⟨_, hzero | hmem⟩ | ⟨_, hlt⟩)
        · exact h.ne_nil_of_mem hr.mem hrv ((hw.eq_zero_iff hrv).mp hzero)
        · exact h.notMem_popped hmem
        · exact Nat.lt_irrefl _ hlt
      have hr' : AtState alphaSize words (RowsDoneTo alphaSize popped r k)
          ((popped ++ r :: rest) ++ new) r v :=
        { mem := List.mem_append_left _ hr.mem
          word := hrv
          shallow := fun x w hx hlen d hd => Or.inl (hr.shallow x w hx hlen d hd)
          bound := by
            intro x hx
            rcases List.mem_append.mp hx with hold | hnew
            · exact hr.bound x hold
            · exact Nat.le_of_eq (hdepth x hnew) }
      obtain ⟨more, hinv', hqueue', hdepth'⟩ := hinv.failCell hw himages hr' (by omega) hnot
      rw [List.range_succ, List.foldl_append, List.foldl_cons, List.foldl_nil]
      refine ⟨new ++ more, ?_, ?_, ?_⟩
      · rw [← List.append_assoc]
        refine hinv'.congr fun x d => ?_
        simp only [WithCell, RowsDoneTo, Nat.lt_succ_iff_lt_or_eq]
        tauto
      · rw [hqueue', hqueue, List.append_assoc]
      · intro x hx
        rcases List.mem_append.mp hx with hold | hnew
        · exact hdepth x hold
        · exact hdepth' x hnew

theorem Inv.length_lt {Done : Nat → Nat → Prop} {order : List Nat}
    (h : Inv alphaSize words images Done order b) (hw : Words alphaSize words) :
    order.length < words.length := by
  have hzero : 0 ∉ order := by
    intro hmem
    obtain ⟨w, c, _, hzero, _, _⟩ := (h.mem_order 0).mp hmem
    exact absurd (Option.some.inj (hw.root.symm.trans hzero)) (by simp)
  have hsubset : 0 :: order ⊆ List.range words.length := by
    intro x hx
    rw [List.mem_range]
    rcases List.mem_cons.mp hx with rfl | hmem
    · exact (List.getElem?_eq_some_iff.mp hw.root).1
    · obtain ⟨w, c, _, hxw, _, _⟩ := (h.mem_order x).mp hmem
      exact (List.getElem?_eq_some_iff.mp hxw).1
  have hle := ((List.nodup_cons.mpr ⟨hzero, h.nodup⟩).subperm hsubset).length_le
  rwa [List.length_cons, List.length_range] at hle

theorem Inv.drain (hw : Words alphaSize words) (himages : ∀ u ∈ images, u ∈ words) (fuel : Nat) :
    ∀ (popped queue : List Nat) (b : Bfs),
      Inv alphaSize words images (RowsDone alphaSize popped) (popped ++ queue) b →
      b.queue = queue → words.length ≤ fuel + popped.length →
      ∃ all, Inv alphaSize words images (RowsDone alphaSize all) all (Ac.drain fuel b) := by
  induction fuel with
  | zero =>
      intro popped queue b h _ hfuel
      have hlt := h.length_lt hw
      rw [List.length_append] at hlt
      omega
  | succ fuel ih =>
      intro popped queue b h hqueue hfuel
      cases queue with
      | nil =>
          refine ⟨popped, ?_⟩
          rw [Ac.drain, hqueue]
          rwa [List.append_nil] at h
      | cons r rest =>
          obtain ⟨w, c, _, hrv, _, _⟩ := (h.mem_order r).mp (by simp)
          have hpopped : Inv alphaSize words images (RowsDone alphaSize popped)
              (popped ++ r :: rest) { b with queue := rest } :=
            ⟨h.alphaSize_eq, h.done_cell, h.trie_cell, h.mem_order, h.fail_eq, h.out_done,
              h.out_trie, h.next_eq, h.nodup, h.sorted⟩
          obtain ⟨new, hinv, hnewqueue, _⟩ :=
            hpopped.row hw himages hrv alphaSize (Nat.le_refl _)
          have hnext : Inv alphaSize words images (RowsDone alphaSize (popped ++ [r]))
              ((popped ++ [r]) ++ (rest ++ new))
              ((List.range alphaSize).foldl (Ac.failCell r) { b with queue := rest }) := by
            have hassoc : (popped ++ [r]) ++ (rest ++ new) = (popped ++ r :: rest) ++ new := by simp
            rw [hassoc]
            refine hinv.congr fun x d => ?_
            simp only [RowsDoneTo, RowsDone, List.mem_append, List.mem_singleton]
            tauto
          rw [Ac.drain, hqueue, h.alphaSize_eq]
          refine ih _ _ _ hnext hnewqueue ?_
          rw [List.length_append, List.length_singleton]
          omega

theorem Inv.all_popped {all : List Nat}
    (h : Inv alphaSize words images (RowsDone alphaSize all) all b) (hw : Words alphaSize words)
    (w : List Nat) : ∀ x, words[x]? = some w → x = 0 ∨ x ∈ all := by
  induction w using List.reverseRecOn with
  | nil => exact fun x hx => Or.inl ((hw.eq_zero_iff hx).mpr rfl)
  | append_singleton w d ih =>
      intro x hx
      have hmem : w ++ [d] ∈ words := List.mem_of_getElem? hx
      obtain ⟨x', hx'⟩ := List.mem_iff_getElem?.mp (hw.of_append w d hmem)
      have hd : d < alphaSize := hw.lt_alphaSize _ hmem d (by simp)
      exact Or.inr ((h.mem_order x).mpr ⟨w, d, x', hx, hx', hd, ih x' hx'⟩)

end Loops

end Ac
end CodebaseMemory
