import CodebaseMemory.Sqlite.Interior

/-!
# Filling and flushing leaves

The loops of both tree writers add cells to one leaf until the next cell does
not fit, then flush it.  `Before f n refs items` describes the leaves flushed
so far: they store `items`, the entry that the separator of the last of them
carries included.  `Growing pb items` adds the leaf under construction.

`pbFlushLeaf_spec` is the one lemma about `pb_flush_leaf`; the tree writers
differ only in which separator they hand to it.
-/

namespace CodebaseMemory
namespace Sqlite

open Lib BTree

theorem forall₂_snoc_right {α β : Type} {R : α → β → Prop} {b : β} :
    ∀ {bs : List β} {as : List α}, List.Forall₂ R as (bs ++ [b]) →
      ∃ as' a, as = as' ++ [a] ∧ List.Forall₂ R as' bs ∧ R a b
  | [], _, h => by
      obtain ⟨a, as, hab, hnil, rfl⟩ := List.forall₂_cons_right_iff.mp h
      rw [List.forall₂_nil_right_iff.mp hnil]
      exact ⟨[], a, rfl, List.Forall₂.nil, hab⟩
  | _ :: bs, _, h => by
      obtain ⟨a, as, hab, hrest, rfl⟩ := List.forall₂_cons_right_iff.mp h
      obtain ⟨as', a', rfl, has, ha⟩ := forall₂_snoc_right hrest
      exact ⟨a :: as', a', rfl, List.Forall₂.cons hab has, ha⟩

section Leaves

variable {ι α κ κ' : Type} (F : Format α κ') (R : ι → α → Prop) (Rk : κ → κ' → Prop)
variable (top : κ → List ι → Prop) (emit : κ → List ι) (isIndex : Bool)

/-- The flushed leaves `refs` store `items`, the last separator included. -/
def Before (f : File) (n : Nat) (refs : List PageRef) (items : List ι) : Prop :=
  (refs = [] ∧ items = []) ∨
    ∃ (rks : List (PageRef × κ)) (r : PageRef) (k : κ) (front : List ι),
      refs = (rks ++ [(r, k)]).map Prod.fst ∧
      (∀ x, x ∈ rks ++ [(r, k)] → KeyOk F Rk isIndex f n x.1 x.2 ∧ x.1.pageNum < n) ∧
      Forest (TreeIn F R Rk top emit f n 0) emit
        ((rks ++ [(r, k)]).map (fun x => (x.1.pageNum, x.2))) front ∧
      items = front ++ emit k

/-- The builder holds `items`: those of the flushed leaves, then those whose
cells `cells` stand on the page under construction. -/
structure Growing (pb : PageBuilder) (cells : List (List UInt8)) (items : List ι) :
    Prop where
  kind : pb.isIndex = isIndex
  plain : pb.page1Offset = 0
  next : 2 ≤ pb.nextPage
  laid : Laid pb.area 8 cells
  split : ∃ before cur, items = before ++ cur ∧
    Before F R Rk top emit isIndex pb.fp pb.nextPage pb.leaves before ∧
    List.Forall₂ (fun item c => CellOk F.leafCell pb.fp pb.nextPage (R item) c) cur cells

variable {F R Rk top emit isIndex}
variable {cells : List (List UInt8)}
variable {pb : PageBuilder}
variable {n : Nat}
variable {f : File}
variable {items : List ι}

theorem Before.mono {g : File} {m : Nat} {refs : List PageRef} (hfg : Agree n f g) (hnm : n ≤ m)
    (h : Before F R Rk top emit isIndex f n refs items) :
    Before F R Rk top emit isIndex g m refs items := by
  rcases h with h | ⟨rks, r, k, front, hrefs, hkeys, hforest, hitems⟩
  · exact Or.inl h
  · refine Or.inr ⟨rks, r, k, front, hrefs, fun x hx => ?_,
      hforest.mono (fun _ _ _ ht => ht.mono hfg hnm), hitems⟩
    exact ⟨(hkeys x hx).1.mono hfg hnm, lt_of_lt_of_le (hkeys x hx).2 hnm⟩

theorem Before.snoc {refs : List PageRef} {before cur : List ι} {r : PageRef} {k : κ}
    (h : Before F R Rk top emit isIndex f n refs before) (hkey : KeyOk F Rk isIndex f n r k)
    (hpage : r.pageNum < n) (htree : TreeIn F R Rk top emit f n 0 r.pageNum k cur) :
    Before F R Rk top emit isIndex f n (refs ++ [r]) (before ++ cur ++ emit k) ∧
      Level F R Rk top emit isIndex f n 0 (refs ++ [r]) (before ++ cur) := by
  rcases h with ⟨rfl, rfl⟩ | ⟨rks, r', k', front, rfl, hkeys, hforest, rfl⟩
  · refine ⟨Or.inr ⟨[], r, k, cur, rfl, ?_, htree, rfl⟩, [(r, k)], rfl, ?_, htree⟩ <;>
      · intro x hx
        simp only [List.nil_append, List.mem_singleton] at hx
        subst hx
        exact ⟨hkey, hpage⟩
  · rw [List.map_append, List.map_singleton] at hforest
    have hforest' := hforest.snoc _ htree
    have hkeys' : ∀ x, x ∈ (rks ++ [(r', k')]) ++ [(r, k)] →
        KeyOk F Rk isIndex f n x.1 x.2 ∧ x.1.pageNum < n := by
      intro x hx
      rcases List.mem_append.mp hx with hx | hx
      · exact hkeys x hx
      · rw [List.mem_singleton] at hx
        subst hx
        exact ⟨hkey, hpage⟩
    refine ⟨Or.inr ⟨rks ++ [(r', k')], r, k, front ++ emit k' ++ cur, by simp, hkeys', ?_, rfl⟩,
      rks ++ [(r', k')] ++ [(r, k)], by simp, hkeys', ?_⟩
    · simpa using hforest'
    · simpa using hforest'

/-- `pb_flush_leaf` on a page with cells: the leaf joins the others, and the
builder starts an empty page. -/
theorem pbFlushLeaf_spec (pb : PageBuilder) (maxKey : Int) (sep : Option (List UInt8))
    {before cur : List ι} {k : κ} (hflag : F.leafFlag = if isIndex then 0x0A else 0x0D)
    (hkind : pb.isIndex = isIndex) (hplain : pb.page1Offset = 0) (hnext : 2 ≤ pb.nextPage)
    (hlaid : Laid pb.area 8 cells) (hne : cells ≠ [])
    (hbefore : Before F R Rk top emit isIndex pb.fp pb.nextPage pb.leaves before)
    (hcur : List.Forall₂ (fun item c => CellOk F.leafCell pb.fp pb.nextPage (R item) c)
      cur cells) (htop : top k cur)
    (hkey : ∀ p, KeyOk F Rk isIndex pb.fp pb.nextPage ⟨p, maxKey, sep⟩ k) :
    Agree pb.nextPage pb.fp (pbFlushLeaf pb maxKey sep).fp ∧
      pb.nextPage < (pbFlushLeaf pb maxKey sep).nextPage ∧
      Growing F R Rk top emit isIndex (pbFlushLeaf pb maxKey sep) []
        (before ++ cur ++ emit k) ∧
      Level F R Rk top emit isIndex (pbFlushLeaf pb maxKey sep).fp
        (pbFlushLeaf pb maxKey sep).nextPage 0 (pbFlushLeaf pb maxKey sep).leaves
        (before ++ cur) := by
  have hcount : ¬ pb.area.cellCount = 0 := by
    rw [hlaid.count]
    exact fun h => hne (List.length_eq_zero_iff.mp h)
  have hskip := cbmSkipPendingByte_le pb.nextPage
  have hflush : pbFlushLeaf pb maxKey sep =
      { fp := pb.fp.writePage .leaf (cbmSkipPendingByte pb.nextPage)
          (pb.area.finish 0 F.leafFlag)
        nextPage := cbmSkipPendingByte pb.nextPage + 1
        page1Offset := 0
        isIndex := isIndex
        area := CellArea.empty 8
        leaves := pb.leaves ++ [⟨cbmSkipPendingByte pb.nextPage, maxKey, sep⟩] } := by
    rw [pbFlushLeaf, if_neg hcount, hplain, hkind, hflag]
  have hagree : Agree pb.nextPage pb.fp (pb.fp.writePage .leaf
      (cbmSkipPendingByte pb.nextPage) (pb.area.finish 0 F.leafFlag)) :=
    agree_writePage _ _ _ hskip
  have hlt : pb.nextPage ≤ cbmSkipPendingByte pb.nextPage + 1 := by omega
  have hleaf := leafStored_writePage (F := F) (R := R) hlaid (le_trans hnext hskip) hskip hcur
  have htree : TreeIn F R Rk top emit _ (cbmSkipPendingByte pb.nextPage + 1) 0
      (cbmSkipPendingByte pb.nextPage) k cur := ⟨htop, hleaf⟩
  obtain ⟨hb, hl⟩ := (hbefore.mono hagree hlt).snoc
    ((hkey (cbmSkipPendingByte pb.nextPage)).mono hagree hlt) (Nat.lt_succ_self _) htree
  rw [hflush]
  exact ⟨hagree, by simp only; omega,
    ⟨rfl, rfl, by simp only; omega, laid_empty (by omega),
      before ++ cur ++ emit k, [], by simp, hb, List.Forall₂.nil⟩, hl⟩

theorem Growing.spill (h : Growing F R Rk top emit isIndex pb cells items)
    (hagree : Agree pb.nextPage pb.fp f) (hle : pb.nextPage ≤ n) :
    Growing F R Rk top emit isIndex { pb with fp := f, nextPage := n } cells items := by
  obtain ⟨before, cur, hitems, hbefore, hcur⟩ := h.split
  exact ⟨h.kind, h.plain, le_trans h.next hle, h.laid, before, cur, hitems,
    hbefore.mono hagree hle, hcur.imp (fun _ _ hc => hc.mono hagree hle)⟩

theorem Growing.add {item : ι} {c : List UInt8} (h : Growing F R Rk top emit isIndex pb cells items)
    (hpos : 0 < c.length) (hfit : pbCellFits pb c.length = true)
    (hc : CellOk F.leafCell pb.fp pb.nextPage (R item) c) :
    Growing F R Rk top emit isIndex (pbAddCell pb c) (cells ++ [c]) (items ++ [item]) := by
  obtain ⟨before, cur, hitems, hbefore, hcur⟩ := h.split
  refine ⟨h.kind, h.plain, h.next, h.laid.add hpos (by simpa [pbCellFits] using hfit),
    before, cur ++ [item], by rw [hitems, List.append_assoc], hbefore, ?_⟩
  exact List.rel_append hcur (List.Forall₂.cons hc List.Forall₂.nil)

theorem pbCellFits_of_nil {len : Nat} (h : Laid pb.area 8 []) (hlen : len ≤ 65526) :
    pbCellFits pb len = true := by
  have h₁ := h.pointers
  have h₂ := h.content
  simp only [cellsSize_nil, List.length_nil] at h₁ h₂
  refine decide_eq_true ?_
  unfold CellArea.available
  omega

theorem growing_init (hkind : pb.isIndex = isIndex) (hplain : pb.page1Offset = 0)
    (hnext : 2 ≤ pb.nextPage) (harea : pb.area = CellArea.empty 8) (hleaves : pb.leaves = []) :
    Growing F R Rk top emit isIndex pb [] [] :=
  ⟨hkind, hplain, hnext, by rw [harea]; exact laid_empty (by omega),
    [], [], rfl, Or.inl ⟨hleaves, rfl⟩, List.Forall₂.nil⟩

theorem pbRoot_spec (hflag : F.interiorFlag = if isIndex then 0x02 else 0x05)
    (hflags : F.interiorFlag ≠ F.leafFlag) (hnext : 2 ≤ pb.nextPage)
    (hbound : (pbRoot pb isIndex).2.nextPage ≤ 2 ^ 32)
    (hlevel : Level F R Rk top emit isIndex pb.fp pb.nextPage 0 pb.leaves items) :
    ∃ d k, TreeIn F R Rk top emit (pbRoot pb isIndex).2.fp (pbRoot pb isIndex).2.nextPage d
      (pbRoot pb isIndex).1 k items := by
  obtain ⟨rks, hmap, -, hforest⟩ := id hlevel
  match rks with
  | [] => exact absurd hforest (by simp [Forest])
  | [(r, k)] =>
      have hleaves : pb.leaves = [r] := hmap.symm
      refine ⟨0, k, ?_⟩
      simp only [pbRoot, hleaves]
      exact hforest
  | x :: y :: rest =>
      have hroot : pbRoot pb isIndex = pbBuildInterior pb isIndex := by
        unfold pbRoot
        rw [← hmap]
        rfl
      rw [hroot] at hbound ⊢
      exact pbBuildInterior_spec hflag hflags hnext hbound hlevel

end Leaves

end Sqlite
end CodebaseMemory
