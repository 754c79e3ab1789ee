import CodebaseMemory.Sqlite.Overflow
import CodebaseMemory.Sqlite.Pieces

/-!
# Building the interior pages

`pb_build_interior` puts level after level of interior pages over the leaves.
`Level f n d refs items` is its invariant: the pages of `refs` root trees of
depth `d` that store `items` from left to right, and the separator kept with
each of them is what the interior cell written for it will say.

* `fillInteriorPage_split`, `fillInteriorPage_laid`: one page takes the next
  children, as many as fit.
* `buildLevel_spec`: one level over a level is a level.
* `pbBuildInterior_spec`: the root stores what the leaves store.

The results are stated once for index and table trees: `F` is the format, `R`
and `Rk` relate what is stored to what a reader finds, `top` relates the
separator of a leaf to its items.
-/

namespace CodebaseMemory
namespace Sqlite

open Lib BTree

theorem cbmSkipPendingByte_le (p : Nat) : p ≤ cbmSkipPendingByte p := by
  unfold cbmSkipPendingByte
  split <;> omega

theorem composes_le : Composes fun _ n _ m => n ≤ m where
  refl _ _ := le_rfl
  trans := le_trans
  page _ n _ _ _ := le_trans (cbmSkipPendingByte_le n) (Nat.le_succ _)
  overflow := le_writeOverflowPages

theorem fillInteriorPage_split (isIndex : Bool) :
    ∀ (children : List PageRef) (a : CellArea), children ≠ [] →
      ∃ taken, children = taken ++ (fillInteriorPage isIndex a children).2 ∧
        (fillInteriorPage isIndex a children).2 ≠ [] ∧
        (fillInteriorPage isIndex a children).1.cellCount = a.cellCount + taken.length ∧
        (2 ≤ children.length → a.cellCount = 0 → taken ≠ [])
  | [], _, h => absurd rfl h
  | [c], a, _ => ⟨[], by simp [fillInteriorPage], by simp [fillInteriorPage],
      by simp [fillInteriorPage], by simp⟩
  | child :: next :: rest, a, _ => by
      unfold fillInteriorPage
      dsimp only
      split
      · next h => exact ⟨[], rfl, by simp, by simp, fun _ h0 => absurd h0 (by omega)⟩
      · obtain ⟨taken, hsplit, hne, hcount, -⟩ := fillInteriorPage_split isIndex (next :: rest)
          (a.add (buildInteriorCell child isIndex)) (by simp)
        refine ⟨child :: taken, by rw [List.cons_append, ← hsplit], hne, ?_, by simp⟩
        rw [hcount]
        simp only [CellArea.add, List.length_cons]
        omega

theorem length_buildInteriorCell_pos (child : PageRef) (isIndex : Bool) :
    0 < (buildInteriorCell child isIndex).length := by
  unfold buildInteriorCell
  split <;> simp

theorem Laid.fits_of_not_full {a : CellArea} {cells : List (List UInt8)} {cell : List UInt8}
    (h : Laid a 12 cells) (hc : cell.length ≤ 65522)
    (hfull : ¬ ((cell.length : Int) > a.available ∧ a.cellCount > 0)) :
    (cell.length : Int) ≤ a.available := by
  have h₁ := h.count
  have h₂ := h.pointers
  have h₃ := h.content
  cases cells with
  | nil =>
      simp only [cellsSize_nil, List.length_nil] at h₂ h₃
      unfold CellArea.available
      omega
  | cons d ds =>
      simp only [List.length_cons] at h₁
      by_contra hbig
      exact hfull ⟨by omega, by omega⟩

theorem fillInteriorPage_laid (isIndex : Bool) :
    ∀ (children : List PageRef) (a : CellArea) (cells : List (List UInt8)),
      Laid a 12 cells →
      (∀ c, c ∈ children → (buildInteriorCell c isIndex).length ≤ 65522) →
      ∃ taken, children = taken ++ (fillInteriorPage isIndex a children).2 ∧
        Laid (fillInteriorPage isIndex a children).1 12
          (cells ++ taken.map (fun c => buildInteriorCell c isIndex))
  | [], a, cells, h, _ => ⟨[], rfl, by simpa [fillInteriorPage] using h⟩
  | [c], a, cells, h, _ => ⟨[], rfl, by simpa [fillInteriorPage] using h⟩
  | child :: next :: rest, a, cells, h, hlen => by
      unfold fillInteriorPage
      dsimp only
      split
      · exact ⟨[], rfl, by simpa using h⟩
      · next hfull =>
          have hpos := length_buildInteriorCell_pos child isIndex
          have hfit := h.fits_of_not_full (hlen child (by simp)) hfull
          obtain ⟨taken, hsplit, hlaid⟩ := fillInteriorPage_laid isIndex (next :: rest) _ _
            (h.add hpos hfit) (fun c hc => hlen c (List.mem_cons_of_mem _ hc))
          refine ⟨child :: taken, by rw [List.cons_append, ← hsplit], ?_⟩
          simpa [List.append_assoc] using hlaid

@[simp] theorem buildLevel_nil (isIndex : Bool) (fuel : Nat) (pb : PageBuilder) :
    buildLevel isIndex fuel pb [] = (pb, []) := by
  cases fuel <;> simp [buildLevel, fillInteriorPage]

theorem buildLevel_step (isIndex : Bool) (fuel : Nat) (pb : PageBuilder)
    {children : List PageRef} (hne : children ≠ []) :
    ∃ taken right rest, children = taken ++ right :: rest ∧
      (fillInteriorPage isIndex (CellArea.empty 12) children).2 = right :: rest ∧
      (fillInteriorPage isIndex (CellArea.empty 12) children).1.cellCount = taken.length ∧
      (2 ≤ children.length → taken ≠ []) ∧
      buildLevel isIndex (fuel + 1) pb children =
        ((buildLevel isIndex fuel
            (writeInteriorPage pb
              (fillInteriorPage isIndex (CellArea.empty 12) children).1 right isIndex).1
            rest).1,
          (writeInteriorPage pb
            (fillInteriorPage isIndex (CellArea.empty 12) children).1 right isIndex).2 ::
          (buildLevel isIndex fuel
            (writeInteriorPage pb
              (fillInteriorPage isIndex (CellArea.empty 12) children).1 right isIndex).1
            rest).2) := by
  obtain ⟨taken, hsplit, hrem, hcount, htwo⟩ :=
    fillInteriorPage_split isIndex children (CellArea.empty 12) hne
  obtain ⟨right, rest, hrr⟩ := List.exists_cons_of_ne_nil hrem
  refine ⟨taken, right, rest, by rw [← hrr]; exact hsplit, hrr, ?_,
    fun h => htwo h rfl, ?_⟩
  · rw [hcount]
    simp [CellArea.empty]
  · rw [buildLevel]
    simp only [hrr]

theorem length_buildLevel_le (isIndex : Bool) :
    ∀ (fuel : Nat) (pb : PageBuilder) (children : List PageRef),
      2 * (buildLevel isIndex fuel pb children).2.length ≤ children.length + 1 := by
  intro fuel
  induction fuel with
  | zero => simp [buildLevel]
  | succ fuel ih =>
      intro pb children
      by_cases hne : children = []
      · subst hne
        simp
      · obtain ⟨taken, right, rest, hsplit, -, -, htwo, hstep⟩ :=
          buildLevel_step isIndex fuel pb hne
        have hrec := ih (writeInteriorPage pb
          (fillInteriorPage isIndex (CellArea.empty 12) children).1 right isIndex).1 rest
        have hlen := congrArg List.length hsplit
        rw [List.length_append, List.length_cons] at hlen
        rw [hstep, List.length_cons]
        by_cases h2 : 2 ≤ children.length
        · have := List.length_pos_iff.mpr (htwo h2)
          omega
        · have : rest = [] := List.length_eq_zero_iff.mp (by omega)
          subst this
          simp only [buildLevel_nil, List.length_nil] at hrec ⊢
          omega

section Trees

variable {ι α κ κ' : Type} (F : Format α κ') (R : ι → α → Prop) (Rk : κ → κ' → Prop)
variable (top : κ → List ι → Prop) (emit : κ → List ι) (isIndex : Bool)

/-- The trees a reader finds in a file. -/
def TreeIn (f : File) (n d : Nat) : Nat → κ → List ι → Prop :=
  IsTree (fun p k items => top k items ∧ LeafStored F R f n p items)
    (fun p cells right => NodeStored F Rk f n p cells right) emit d

/-- The separator kept with `ref` reads as `key`, under every page number. -/
def KeyOk (f : File) (n : Nat) (ref : PageRef) (key : κ) : Prop :=
  (buildInteriorCell ref isIndex).length ≤ 65522 ∧
    ∀ p, p < 2 ^ 32 →
      CellOk F.interiorCell f n (fun x => p = x.1 ∧ Rk key x.2)
        (buildInteriorCell { ref with pageNum := p } isIndex)

/-- The pages of `refs` root trees of depth `d` that store `items`. -/
def Level (f : File) (n d : Nat) (refs : List PageRef) (items : List ι) : Prop :=
  ∃ rks : List (PageRef × κ), rks.map Prod.fst = refs ∧
    (∀ x, x ∈ rks → KeyOk F Rk isIndex f n x.1 x.2 ∧ x.1.pageNum < n) ∧
    Forest (TreeIn F R Rk top emit f n d) emit (rks.map (fun x => (x.1.pageNum, x.2))) items

variable {F R Rk top emit isIndex}
variable {items : List ι}

theorem TreeIn.mono {f g : File} {n m d p : Nat} {k : κ} (hfg : Agree n f g) (hnm : n ≤ m)
    (h : TreeIn F R Rk top emit f n d p k items) : TreeIn F R Rk top emit g m d p k items :=
  IsTree.mono (fun _ _ _ hl => ⟨hl.1, hl.2.mono hfg hnm⟩)
    (fun _ _ _ hn => hn.mono hfg hnm) h

theorem KeyOk.mono {f g : File} {n m : Nat} {ref : PageRef} {key : κ}
    (hfg : Agree n f g) (hnm : n ≤ m) (h : KeyOk F Rk isIndex f n ref key) :
    KeyOk F Rk isIndex g m ref key :=
  ⟨h.1, fun p hp => (h.2 p hp).mono hfg hnm⟩

theorem forest_cons {T : Nat → κ → List ι → Prop} {p : Nat} {k : κ}
    {refs : List (Nat × κ)} {front back : List ι} (hne : refs ≠ []) (hfront : T p k front)
    (hback : Forest T emit refs back) :
    Forest T emit ((p, k) :: refs) (front ++ emit k ++ back) := by
  cases refs with
  | nil => exact absurd rfl hne
  | cons q refs => exact ⟨front, back, hfront, hback, rfl⟩

theorem writeInteriorPage_tree {pb : PageBuilder} {d : Nat} {children : List PageRef}
    (taken : List (PageRef × κ)) (right : PageRef × κ) {rest : List PageRef}
    (hflag : F.interiorFlag = if isIndex then 0x02 else 0x05) (hflags : F.interiorFlag ≠ F.leafFlag)
    (hnext : 2 ≤ pb.nextPage) (hbound : pb.nextPage ≤ 2 ^ 32)
    (hrem : (fillInteriorPage isIndex (CellArea.empty 12) children).2 = rest)
    (hchildren : children = taken.map Prod.fst ++ rest)
    (hlen : ∀ c, c ∈ children → (buildInteriorCell c isIndex).length ≤ 65522)
    (htaken : ∀ x, x ∈ taken → KeyOk F Rk isIndex pb.fp pb.nextPage x.1 x.2 ∧
      x.1.pageNum < pb.nextPage) (hright : KeyOk F Rk isIndex pb.fp pb.nextPage right.1 right.2 ∧
      right.1.pageNum < pb.nextPage)
    (hspine : Spine (TreeIn F R Rk top emit pb.fp pb.nextPage d) emit
      (taken.map (fun x => (x.1.pageNum, x.2))) right.1.pageNum right.2 items) :
    let w := writeInteriorPage pb
      (fillInteriorPage isIndex (CellArea.empty 12) children).1 right.1 isIndex
    Agree pb.nextPage pb.fp w.1.fp ∧ pb.nextPage < w.1.nextPage ∧
      KeyOk F Rk isIndex w.1.fp w.1.nextPage w.2 right.2 ∧
      w.2.pageNum < w.1.nextPage ∧
      TreeIn F R Rk top emit w.1.fp w.1.nextPage (d + 1) w.2.pageNum right.2 items := by
  intro w
  have hskip := cbmSkipPendingByte_le pb.nextPage
  obtain ⟨taken', hsplit, hlaid⟩ := fillInteriorPage_laid isIndex children
    (CellArea.empty 12) [] (laid_empty (by omega)) hlen
  have heq : taken' = taken.map Prod.fst := by
    rw [hrem, hchildren] at hsplit
    exact (List.append_cancel_right hsplit).symm
  rw [heq, List.nil_append] at hlaid
  have hagree : Agree pb.nextPage pb.fp w.1.fp := agree_writePage _ _ _ hskip
  have hlt : pb.nextPage < w.1.nextPage := Nat.lt_succ_of_le hskip
  refine ⟨hagree, hlt, ?_, Nat.lt_succ_self _, ?_⟩
  · -- the parent keeps the separator of its right child
    have hcell : ∀ p, buildInteriorCell { w.2 with pageNum := p } isIndex =
        buildInteriorCell { right.1 with pageNum := p } isIndex := by
      intro p
      cases isIndex <;> rfl
    have hsize : (buildInteriorCell w.2 isIndex).length =
        (buildInteriorCell right.1 isIndex).length := by
      cases isIndex <;> simp [buildInteriorCell, w, writeInteriorPage]
    refine ⟨by rw [hsize]; exact hright.1.1, fun p hp => ?_⟩
    rw [hcell]
    exact (hright.1.2 p hp).mono hagree hlt.le
  · refine ⟨taken.map (fun x => (x.1.pageNum, x.2)), right.1.pageNum, ?_,
      hspine.mono (fun _ _ _ ht => ht.mono hagree hlt.le)⟩
    have hcells : List.Forall₂ (fun (r : Nat × κ) c => CellOk F.interiorCell pb.fp pb.nextPage
        (fun x => r.1 = x.1 ∧ Rk r.2 x.2) c) (taken.map (fun x => (x.1.pageNum, x.2)))
        ((taken.map Prod.fst).map (fun c => buildInteriorCell c isIndex)) := by
      rw [List.forall₂_map_left_iff, List.map_map, List.forall₂_map_right_iff]
      apply List.forall₂_same.mpr
      intro x hx
      exact (htaken x hx).1.2 x.1.pageNum (by have := (htaken x hx).2; omega)
    have hnode := nodeStored_writePage hlaid (le_trans hnext hskip) hskip
      (show right.1.pageNum < 2 ^ 32 by have := hright.2; omega) hflags hcells
    rw [hflag] at hnode
    exact hnode

theorem buildLevel_spec (hflag : F.interiorFlag = if isIndex then 0x02 else 0x05)
    (hflags : F.interiorFlag ≠ F.leafFlag) (d : Nat) :
    ∀ (fuel : Nat) (pb : PageBuilder) (children : List PageRef) (items : List ι),
      children.length ≤ fuel → 2 ≤ pb.nextPage →
      (buildLevel isIndex fuel pb children).1.nextPage ≤ 2 ^ 32 →
      Level F R Rk top emit isIndex pb.fp pb.nextPage d children items →
      Agree pb.nextPage pb.fp (buildLevel isIndex fuel pb children).1.fp ∧
      Level F R Rk top emit isIndex (buildLevel isIndex fuel pb children).1.fp
        (buildLevel isIndex fuel pb children).1.nextPage (d + 1)
        (buildLevel isIndex fuel pb children).2 items := by
  intro fuel
  induction fuel with
  | zero =>
      intro pb children items hfuel _ _ hlevel
      obtain ⟨rks, hmap, -, hforest⟩ := hlevel
      have hnil : rks = [] := by
        have := List.length_eq_zero_iff.mp (Nat.le_zero.mp hfuel)
        rw [this] at hmap
        exact List.map_eq_nil_iff.mp hmap
      subst hnil
      exact absurd hforest (by simp [Forest])
  | succ fuel ih =>
      intro pb children items hfuel hnext hbound hlevel
      obtain ⟨rks, hmap, hkeys, hforest⟩ := hlevel
      have hne : children ≠ [] := by
        intro h
        rw [h] at hmap
        rw [List.map_eq_nil_iff.mp hmap] at hforest
        exact hforest
      obtain ⟨taken, right, rest, hsplit, hrem, -, -, hstep⟩ :=
        buildLevel_step isIndex fuel pb hne
      -- split the references with their keys the same way
      rw [hsplit] at hmap
      obtain ⟨tks, rks', hrks, htk, hrk⟩ := List.map_eq_append_iff.mp hmap
      obtain ⟨⟨right', kr⟩, restk, hrks', hright', hrest'⟩ := List.map_eq_cons_iff.mp hrk
      simp only at hright'
      subst hright' hrks' hrks
      have hlen : ∀ c, c ∈ children → (buildInteriorCell c isIndex).length ≤ 65522 := by
        intro c hc
        rw [hsplit, ← htk, ← hrest'] at hc
        have hc' : c ∈ (tks ++ (right', kr) :: restk).map Prod.fst := by simpa using hc
        obtain ⟨x, hx, rfl⟩ := List.mem_map.mp hc'
        exact (hkeys x hx).1.1
      rw [hstep] at hbound ⊢
      simp only at hbound ⊢
      have hmono := composes_le.level isIndex fuel (writeInteriorPage pb
        (fillInteriorPage isIndex (CellArea.empty 12) children).1 right' isIndex).1 rest
      dsimp only [Between] at hmono
      have hskip := cbmSkipPendingByte_le pb.nextPage
      have hnp : pb.nextPage ≤ 2 ^ 32 := by
        simp only [writeInteriorPage] at hmono hbound
        omega
      rw [List.map_append, List.map_cons] at hforest
      by_cases hlast : rest = []
      · -- the last page of the level
        have hrestk : restk = [] := by
          rw [hlast] at hrest'
          exact List.map_eq_nil_iff.mp hrest'
        subst hlast hrestk
        obtain ⟨hagree, -, hkey, hpage, htree⟩ := writeInteriorPage_tree tks (right', kr)
          hflag hflags hnext hnp hrem (by rw [htk]; exact hsplit) hlen
          (fun x hx => hkeys x (by simp [hx])) (hkeys _ (by simp)) hforest.spine
        simp only [buildLevel_nil]
        refine ⟨hagree, [(_, kr)], rfl, ?_, htree⟩
        intro x hx
        rw [List.mem_singleton] at hx
        subst hx
        exact ⟨hkey, hpage⟩
      · have hrestk : restk.map (fun x => (x.1.pageNum, x.2)) ≠ [] := by
          intro h
          rw [List.map_eq_nil_iff.mp h] at hrest'
          exact hlast hrest'.symm
        obtain ⟨front, back, hspine, hback, rfl⟩ := hforest.split hrestk
        obtain ⟨hagree, hlt, hkey, hpage, htree⟩ := writeInteriorPage_tree tks (right', kr)
          hflag hflags hnext hnp hrem (by rw [htk]; exact hsplit) hlen
          (fun x hx => hkeys x (by simp [hx])) (hkeys _ (by simp)) hspine
        have hlenrest := congrArg List.length hsplit
        rw [List.length_append, List.length_cons] at hlenrest
        obtain ⟨hagree', rks₂, hmap₂, hkeys₂, hforest₂⟩ := ih _ rest back (by omega)
          (le_trans hnext hlt.le) hbound ⟨restk, hrest',
            fun x hx => ⟨(hkeys x (by simp [hx])).1.mono hagree hlt.le,
              lt_trans (hkeys x (by simp [hx])).2 hlt⟩,
            hback.mono (fun _ _ _ ht => ht.mono hagree hlt.le)⟩
        refine ⟨hagree.trans (hagree'.mono hlt.le), (_, kr) :: rks₂, by rw [List.map_cons, hmap₂],
          ?_, ?_⟩
        · intro x hx
          rcases List.mem_cons.mp hx with rfl | hx
          · exact ⟨hkey.mono hagree' hmono, lt_of_lt_of_le hpage hmono⟩
          · exact hkeys₂ x hx
        · rw [List.map_cons]
          refine forest_cons ?_ (htree.mono hagree' hmono) hforest₂
          intro h
          rw [h] at hforest₂
          exact hforest₂

theorem buildLevels_spec (hflag : F.interiorFlag = if isIndex then 0x02 else 0x05)
    (hflags : F.interiorFlag ≠ F.leafFlag) :
    ∀ (fuel : Nat) (pb : PageBuilder) (children : List PageRef) (items : List ι) (d : Nat),
      children.length ≤ fuel + 1 → 2 ≤ pb.nextPage →
      (buildLevels isIndex fuel pb children).1.nextPage ≤ 2 ^ 32 →
      Level F R Rk top emit isIndex pb.fp pb.nextPage d children items →
      ∃ d' k, TreeIn F R Rk top emit (buildLevels isIndex fuel pb children).1.fp
        (buildLevels isIndex fuel pb children).1.nextPage d'
        (rootOf (buildLevels isIndex fuel pb children).2) k items := by
  have hroot : ∀ (f : File) (n d : Nat) (children : List PageRef) (items : List ι),
      children.length ≤ 1 → Level F R Rk top emit isIndex f n d children items →
      ∃ k, TreeIn F R Rk top emit f n d (rootOf children) k items := by
    intro f n d children items hlen hlevel
    obtain ⟨rks, rfl, -, hforest⟩ := hlevel
    match rks with
    | [] => exact absurd hforest (by simp [Forest])
    | [x] => exact ⟨x.2, hforest⟩
    | _ :: _ :: _ => simp at hlen
  intro fuel
  induction fuel with
  | zero =>
      intro pb children items d hfuel _ _ hlevel
      obtain ⟨k, hk⟩ := hroot _ _ d children items (by omega) hlevel
      exact ⟨d, k, hk⟩
  | succ fuel ih =>
      intro pb children items d hfuel hnext hbound hlevel
      unfold buildLevels at hbound ⊢
      split
      · next hlen =>
          rw [if_pos hlen] at hbound
          have hhalf := length_buildLevel_le isIndex children.length pb children
          have hle := composes_le.levels isIndex fuel
            (buildLevel isIndex children.length pb children).1
            (buildLevel isIndex children.length pb children).2
          have hle' := composes_le.level isIndex children.length pb children
          obtain ⟨-, hlevel'⟩ := buildLevel_spec hflag hflags d children.length pb children
            items le_rfl hnext (le_trans hle hbound) hlevel
          exact ih _ _ items (d + 1) (by omega) (le_trans hnext hle') hbound hlevel'
      · next hlen =>
          obtain ⟨k, hk⟩ := hroot _ _ d children items (by omega) hlevel
          exact ⟨d, k, hk⟩

theorem pbBuildInterior_spec (hflag : F.interiorFlag = if isIndex then 0x02 else 0x05)
    (hflags : F.interiorFlag ≠ F.leafFlag) {pb : PageBuilder} (hnext : 2 ≤ pb.nextPage)
    (hbound : (pbBuildInterior pb isIndex).2.nextPage ≤ 2 ^ 32)
    (hlevel : Level F R Rk top emit isIndex pb.fp pb.nextPage 0 pb.leaves items) :
    ∃ d k, TreeIn F R Rk top emit (pbBuildInterior pb isIndex).2.fp
      (pbBuildInterior pb isIndex).2.nextPage d (pbBuildInterior pb isIndex).1 k items :=
  buildLevels_spec hflag hflags pb.leaves.length pb pb.leaves items 0 (by omega) hnext hbound
    hlevel

end Trees

end Sqlite
end CodebaseMemory
