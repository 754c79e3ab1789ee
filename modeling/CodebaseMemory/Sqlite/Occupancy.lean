import CodebaseMemory.Sqlite.Overlap

/-!
# Cells per page

How many cells a page gets depends on the sizes of the cells only.  This
module computes it for the interior pages: `cellsThatFit room sizes` is the
number of children that get a cell on a page, one more becomes the right child,
and the level above is built over the separators of the right children.

An interior page is left without a cell exactly when one single child remains
for it.  Only the last page of a level can be hit: `lastPageChildren` is the
number of children that remain for it.
-/

namespace CodebaseMemory
namespace Sqlite

open Lib

/-- Children that get a cell on a page with `room` bytes left: as many as fit,
never the last. -/
def cellsThatFit : Nat → List Nat → Nat
  | room, size :: next :: rest =>
      if size + 2 ≤ room then cellsThatFit (room - (size + 2)) (next :: rest) + 1 else 0
  | _, _ => 0

/-- The pages of a level over separators of these sizes: cells on the page, and
the size of the separator of its right child. -/
def levelPages : Nat → List Nat → List (Nat × Nat)
  | 0, _ => []
  | fuel + 1, sizes =>
      match sizes.drop (cellsThatFit 65524 sizes) with
      | [] => []
      | right :: rest => (cellsThatFit 65524 sizes, right) :: levelPages fuel rest

def lastPageChildren : Nat → List Nat → Nat
  | 0, sizes => sizes.length
  | fuel + 1, sizes =>
      match sizes.drop (cellsThatFit 65524 sizes + 1) with
      | [] => sizes.length
      | size :: rest => lastPageChildren fuel (size :: rest)

/-- The levels below the root, each as the list of its separator sizes. -/
def levelsOf : Nat → List Nat → List (List Nat)
  | 0, _ => []
  | fuel + 1, sizes =>
      if sizes.length > 1 then
        sizes :: levelsOf fuel ((levelPages sizes.length sizes).map Prod.snd)
      else []

/-- No level leaves one child for its last page. -/
def NoLoneChild (sizes : List Nat) : Prop :=
  ∀ level, level ∈ levelsOf sizes.length sizes → lastPageChildren level.length level ≠ 1

instance (sizes : List Nat) : Decidable (NoLoneChild sizes) :=
  inferInstanceAs (Decidable (∀ level, level ∈ _ → _))

variable {len next : Nat}
variable {pb : PageBuilder}
variable {cell : List UInt8}
variable {sizes : List Nat}

theorem cellsThatFit_lt (hne : sizes ≠ []) : ∀ room, cellsThatFit room sizes < sizes.length := by
  intro room
  induction sizes generalizing room with
  | nil => exact absurd rfl hne
  | cons size rest ih =>
      cases rest with
      | nil => simp [cellsThatFit]
      | cons next rest =>
          unfold cellsThatFit
          split
          · have := ih (by simp) (room - (size + 2))
            simp only [List.length_cons] at this ⊢
            omega
          · simp

theorem cellsThatFit_eq_zero_iff (hne : sizes ≠ []) (hsizes : ∀ s, s ∈ sizes → s ≤ 65522) :
    cellsThatFit 65524 sizes = 0 ↔ sizes.length = 1 := by
  match sizes with
  | [] => exact absurd rfl hne
  | [s] => simp [cellsThatFit]
  | s :: next :: rest =>
      have hs := hsizes s (by simp)
      simp only [cellsThatFit, if_pos (show s + 2 ≤ 65524 by omega), List.length_cons]
      omega

theorem levelPages_nonempty_iff :
    ∀ (fuel : Nat) (sizes : List Nat), sizes ≠ [] → sizes.length ≤ fuel →
      (∀ s, s ∈ sizes → s ≤ 65522) →
      ((∀ page, page ∈ levelPages fuel sizes → 1 ≤ page.1) ↔
        lastPageChildren fuel sizes ≠ 1) := by
  intro fuel
  induction fuel with
  | zero =>
      intro sizes hne hlen _
      exact absurd (List.length_eq_zero_iff.mp (Nat.le_zero.mp hlen)) hne
  | succ fuel ih =>
      intro sizes hne hlen hsizes
      have hlt := cellsThatFit_lt hne 65524
      have hzero := cellsThatFit_eq_zero_iff hne hsizes
      obtain ⟨right, rest, hdrop⟩ := List.exists_cons_of_ne_nil
        (show sizes.drop (cellsThatFit 65524 sizes) ≠ [] by
          rw [← List.length_pos_iff, List.length_drop]
          omega)
      have hrest : sizes.drop (cellsThatFit 65524 sizes + 1) = rest := by
        rw [← List.drop_drop, hdrop]
        rfl
      have hlenrest := congrArg List.length hdrop
      rw [List.length_drop, List.length_cons] at hlenrest
      simp only [levelPages, hdrop, lastPageChildren, hrest]
      cases rest with
      | nil =>
          have hnil : levelPages fuel [] = [] := by
            cases fuel <;> simp [levelPages]
          simp only [hnil, List.mem_singleton, forall_eq]
          omega
      | cons size rest =>
          have hrestne : (size :: rest).length ≤ fuel := by omega
          have hmem : ∀ s, s ∈ size :: rest → s ≤ 65522 := by
            intro s hs
            apply hsizes s
            have : s ∈ sizes.drop (cellsThatFit 65524 sizes) := by
              rw [hdrop]
              exact List.mem_cons_of_mem _ hs
            exact List.mem_of_mem_drop this
          rw [← ih (size :: rest) (by simp) hrestne hmem]
          simp only [List.length_cons] at hlenrest
          constructor
          · intro h page hpage
            exact h page (List.mem_cons_of_mem _ hpage)
          · intro h page hpage
            rcases List.mem_cons.mp hpage with rfl | hpage
            · simp only
              omega
            · exact h page hpage

theorem mem_of_mem_levelPages :
    ∀ (fuel : Nat) (sizes : List Nat) (s : Nat),
      s ∈ (levelPages fuel sizes).map Prod.snd → s ∈ sizes := by
  intro fuel
  induction fuel with
  | zero =>
      intro sizes s hs
      simp [levelPages] at hs
  | succ fuel ih =>
      intro sizes s hs
      unfold levelPages at hs
      split at hs
      · simp at hs
      · next right rest hdrop =>
          have hsub : ∀ x, x ∈ right :: rest → x ∈ sizes := by
            intro x hx
            rw [← hdrop] at hx
            exact List.mem_of_mem_drop hx
          rw [List.map_cons, List.mem_cons] at hs
          rcases hs with rfl | hs
          · exact hsub _ (by simp)
          · exact hsub s (List.mem_cons_of_mem _ (ih rest s hs))

theorem mem_levelsOf :
    ∀ (fuel : Nat) (sizes level : List Nat), level ∈ levelsOf fuel sizes →
      2 ≤ level.length ∧ ∀ s, s ∈ level → s ∈ sizes := by
  intro fuel
  induction fuel with
  | zero =>
      intro sizes level hlevel
      simp [levelsOf] at hlevel
  | succ fuel ih =>
      intro sizes level hlevel
      unfold levelsOf at hlevel
      split at hlevel
      · next hlen =>
          rcases List.mem_cons.mp hlevel with rfl | hlevel
          · exact ⟨hlen, fun s hs => hs⟩
          · obtain ⟨htwo, hsub⟩ := ih _ level hlevel
            exact ⟨htwo, fun s hs => mem_of_mem_levelPages _ _ s (hsub s hs)⟩
      · simp at hlevel

theorem level_nonempty_iff {fuel : Nat} {level : List Nat} (hsizes : ∀ s, s ∈ sizes → s ≤ 65522)
    (hlevel : level ∈ levelsOf fuel sizes) :
    (∀ page, page ∈ levelPages level.length level → 1 ≤ page.1) ↔
      lastPageChildren level.length level ≠ 1 := by
  obtain ⟨htwo, hsub⟩ := mem_levelsOf _ _ level hlevel
  exact levelPages_nonempty_iff level.length level (List.ne_nil_of_length_pos (by omega)) le_rfl
    (fun s hs => hsizes s (hsub s hs))

theorem fillInteriorPage_sizes (isIndex : Bool) :
    ∀ (children : List PageRef) (a : CellArea),
      a.ptrOffset ≤ a.contentOffset →
      (a.cellCount = 0 → 65524 ≤ a.contentOffset - a.ptrOffset) →
      (∀ c, c ∈ children → sepSize isIndex c ≤ 65522) →
      (fillInteriorPage isIndex a children).1.cellCount = a.cellCount +
          cellsThatFit (a.contentOffset - a.ptrOffset) (children.map (sepSize isIndex)) ∧
        (fillInteriorPage isIndex a children).2 = children.drop
          (cellsThatFit (a.contentOffset - a.ptrOffset) (children.map (sepSize isIndex)))
  | [], a, _, _, _ => by simp [fillInteriorPage, cellsThatFit]
  | [c], a, _, _, _ => by simp [fillInteriorPage, cellsThatFit]
  | child :: next :: rest, a, hroom, hempty, hsizes => by
      have hsize : (buildInteriorCell child isIndex).length ≤ 65522 := hsizes child (by simp)
      have hstop : ((buildInteriorCell child isIndex).length : Int) > a.available ∧
            a.cellCount > 0 ↔
          ¬ sepSize isIndex child + 2 ≤ a.contentOffset - a.ptrOffset := by
        unfold CellArea.available sepSize
        omega
      unfold fillInteriorPage
      dsimp only
      simp only [List.map_cons, cellsThatFit, hstop]
      split
      · exact ⟨rfl, rfl⟩
      · next hfits =>
          rw [not_not] at hfits
          have hlen : sepSize isIndex child = (buildInteriorCell child isIndex).length := rfl
          obtain ⟨hcount, hdrop⟩ := fillInteriorPage_sizes isIndex (next :: rest)
            (a.add (buildInteriorCell child isIndex))
            (by simp only [CellArea.add]; omega) (by simp [CellArea.add])
            (fun c hc => hsizes c (List.mem_cons_of_mem _ hc))
          have hleft : (a.add (buildInteriorCell child isIndex)).contentOffset -
              (a.add (buildInteriorCell child isIndex)).ptrOffset =
              a.contentOffset - a.ptrOffset - (sepSize isIndex child + 2) := by
            simp only [CellArea.add]
            omega
          rw [hleft, List.map_cons] at hcount hdrop
          rw [if_pos hfits, hcount, hdrop]
          refine ⟨?_, rfl⟩
          simp only [CellArea.add]
          omega

theorem cellCount_interior {a : CellArea} {cells : List (List UInt8)} (h : Laid a 12 cells)
    (flag : UInt8) (right : Nat) {kind : WriteKind} {off : Nat} :
    Write.cellCount ⟨kind, off, len, (a.finish 0 flag).memcpy 8 (bigEndian 4 right)⟩ =
      a.cellCount := by
  have hlt := h.count_lt
  have hcount := h.count
  have hheader : ((a.finish 0 flag).memcpy 8 (bigEndian 4 right)).Holds 0
      (btreeHeader flag a.cellCount a.contentOffset) := by
    apply (Memory.holds_memcpy a.page 0 _).memcpy
    left
    rw [length_btreeHeader]
  have hfield := (holds_btreeHeader hheader).2
  rw [Nat.zero_add] at hfield
  exact hfield.getBe_eq (by omega)

theorem buildLevel_counts (isIndex : Bool) :
    ∀ (fuel : Nat) (pb : PageBuilder) (children : List PageRef),
      (∀ c, c ∈ children → sepSize isIndex c ≤ 65522) →
      ∃ new, (buildLevel isIndex fuel pb children).1.fp.writes = new ++ pb.fp.writes ∧
        (∀ w, w ∈ new → w.kind = .interior) ∧
        new.map Write.cellCount =
          ((levelPages fuel (children.map (sepSize isIndex))).map Prod.fst).reverse ∧
        (buildLevel isIndex fuel pb children).2.map (sepSize isIndex) =
          (levelPages fuel (children.map (sepSize isIndex))).map Prod.snd := by
  intro fuel
  induction fuel with
  | zero =>
      intro pb children _
      exact ⟨[], rfl, by simp, rfl, rfl⟩
  | succ fuel ih =>
      intro pb children hsizes
      obtain ⟨hcount, hdrop⟩ := fillInteriorPage_sizes isIndex children (CellArea.empty 12)
        (by simp [CellArea.empty]) (by simp [CellArea.empty]) hsizes
      have hroom : (CellArea.empty 12).contentOffset - (CellArea.empty 12).ptrOffset = 65524 :=
        rfl
      rw [hroom] at hcount hdrop
      by_cases hne : children = []
      · subst hne
        exact ⟨[], by simp, by simp, by simp [levelPages], by simp [levelPages]⟩
      · obtain ⟨taken, right, rest, hsplit, hrem, -, -, hstep⟩ :=
          buildLevel_step isIndex fuel pb hne
        obtain ⟨taken', -, hlaid⟩ := fillInteriorPage_laid isIndex children (CellArea.empty 12) []
          (laid_empty (by omega)) hsizes
        have hrest : ∀ c, c ∈ rest → sepSize isIndex c ≤ 65522 := by
          intro c hc
          exact hsizes c (by rw [hsplit]; simp [hc])
        obtain ⟨new, hwrites, hkind, hcounts, hparents⟩ := ih (writeInteriorPage pb
          (fillInteriorPage isIndex (CellArea.empty 12) children).1 right isIndex).1 rest hrest
        have hpages : levelPages (fuel + 1) (children.map (sepSize isIndex)) =
            (cellsThatFit 65524 (children.map (sepSize isIndex)), sepSize isIndex right) ::
              levelPages fuel (rest.map (sepSize isIndex)) := by
          rw [hrem] at hdrop
          simp only [levelPages, ← List.map_drop, ← hdrop, List.map_cons]
        rw [hstep, hpages]
        refine ⟨new ++ [_], by rw [hwrites, List.append_assoc]; rfl, ?_, ?_, ?_⟩
        · intro w hw
          rcases List.mem_append.mp hw with hw | hw
          · exact hkind w hw
          · rw [List.mem_singleton.mp hw]
        · rw [List.map_append, hcounts, List.map_singleton, cellCount_interior hlaid, hcount]
          simp [CellArea.empty]
        · rw [List.map_cons, hparents, sepSize_writeInteriorPage, List.map_cons]

theorem buildLevels_counts (isIndex : Bool) :
    ∀ (fuel : Nat) (pb : PageBuilder) (children : List PageRef),
      (∀ c, c ∈ children → sepSize isIndex c ≤ 65522) →
      ∃ new, (buildLevels isIndex fuel pb children).1.fp.writes = new ++ pb.fp.writes ∧
        (∀ w, w ∈ new → w.kind = .interior) ∧
        ∀ count, count ∈ new.map Write.cellCount ↔
          ∃ level, level ∈ levelsOf fuel (children.map (sepSize isIndex)) ∧
            count ∈ (levelPages level.length level).map Prod.fst := by
  intro fuel
  induction fuel with
  | zero =>
      intro pb children _
      exact ⟨[], rfl, by simp, by simp [levelsOf]⟩
  | succ fuel ih =>
      intro pb children hsizes
      by_cases hlen : children.length > 1
      · obtain ⟨new, hwrites, hkind, hcounts, hparents⟩ :=
          buildLevel_counts isIndex children.length pb children hsizes
        -- the separators of the parents are separators of children
        have hup : ∀ c, c ∈ (buildLevel isIndex children.length pb children).2 →
            sepSize isIndex c ≤ 65522 := by
          intro c hc
          have hmem : sepSize isIndex c ∈
              (levelPages children.length (children.map (sepSize isIndex))).map Prod.snd := by
            rw [← hparents]
            exact List.mem_map_of_mem hc
          obtain ⟨d, hd, hdc⟩ := List.mem_map.mp (mem_of_mem_levelPages _ _ _ hmem)
          rw [← hdc]
          exact hsizes d hd
        obtain ⟨new', hwrites', hkind', hcounts'⟩ := ih
          (buildLevel isIndex children.length pb children).1
          (buildLevel isIndex children.length pb children).2 hup
        have hdef : buildLevels isIndex (fuel + 1) pb children =
            buildLevels isIndex fuel (buildLevel isIndex children.length pb children).1
              (buildLevel isIndex children.length pb children).2 := by
          rw [buildLevels, if_pos hlen]
        have hlevels : levelsOf (fuel + 1) (children.map (sepSize isIndex)) =
            children.map (sepSize isIndex) :: levelsOf fuel
              ((buildLevel isIndex children.length pb children).2.map (sepSize isIndex)) := by
          rw [levelsOf, List.length_map, if_pos hlen, hparents]
        rw [hdef, hlevels]
        refine ⟨new' ++ new, by rw [hwrites', hwrites, List.append_assoc], ?_, ?_⟩
        · intro w hw
          rcases List.mem_append.mp hw with hw | hw
          · exact hkind' w hw
          · exact hkind w hw
        · intro count
          rw [List.map_append, List.mem_append, hcounts' count, hcounts, List.mem_reverse]
          simp only [List.mem_cons, exists_eq_or_imp, List.length_map]
          exact or_comm
      · refine ⟨[], ?_, by simp, ?_⟩
        · rw [buildLevels, if_neg hlen]
          rfl
        · rw [levelsOf, List.length_map, if_neg hlen]
          simp

/-- Every interior page that `pb_build_interior` writes has a cell. -/
def InteriorNonempty (pb : PageBuilder) (isIndex : Bool) : Prop :=
  Extends (fun w => 1 ≤ w.cellCount) pb.fp (pbBuildInterior pb isIndex).2.fp

theorem interior_nonempty_iff (pb : PageBuilder) (isIndex : Bool)
    (hsizes : ∀ c, c ∈ pb.leaves → sepSize isIndex c ≤ 65522) :
    InteriorNonempty pb isIndex ↔ NoLoneChild (pb.leaves.map (sepSize isIndex)) := by
  obtain ⟨new, hwrites, -, hcounts⟩ :=
    buildLevels_counts isIndex pb.leaves.length pb pb.leaves hsizes
  have hnew : (pbBuildInterior pb isIndex).2.fp.writes = new ++ pb.fp.writes := hwrites
  rw [InteriorNonempty, extends_iff hnew, NoLoneChild, List.length_map]
  have hbound : ∀ s, s ∈ pb.leaves.map (sepSize isIndex) → s ≤ 65522 := by
    intro s hs
    obtain ⟨c, hc, rfl⟩ := List.mem_map.mp hs
    exact hsizes c hc
  constructor
  · intro h level hlevel
    refine (level_nonempty_iff hbound hlevel).mp fun page hpage => ?_
    obtain ⟨w, hw, hwc⟩ := List.mem_map.mp
      ((hcounts page.1).mpr ⟨level, hlevel, List.mem_map_of_mem hpage⟩)
    rw [← hwc]
    exact h w hw
  · intro h w hw
    obtain ⟨level, hlevel, hmem⟩ := (hcounts w.cellCount).mp (List.mem_map_of_mem hw)
    obtain ⟨page, hpage, hpc⟩ := List.mem_map.mp hmem
    rw [← hpc]
    exact (level_nonempty_iff hbound hlevel).mpr (h level hlevel) page hpage

theorem extends_leaf_writeRows (f : File) (hnext : 2 ≤ next) {rows : List (Int × List UInt8)}
    (hrows : ∀ row, row ∈ rows → RowOk False row) :
    Extends LeafNonempty f (writeRows f next rows).2.fp := by
  obtain ⟨-, hlays⟩ := tableWrites_lays (C := fun _ => True) f hnext hrows fun _ _ => trivial
  exact hlays.pages.mono fun _ hw => hw.2

theorem extends_leaf_writeIndexBtree (f : File) (hnext : 2 ≤ next) {payloads : List (List UInt8)}
    (hne : payloads ≠ []) (hlen : ∀ p, p ∈ payloads → p.length < 2 ^ 31) :
    Extends LeafNonempty f (writeIndexBtree f next (payloads.map indexCell)).2.1 := by
  obtain ⟨-, hlays⟩ := indexWrites_lays (C := fun _ => True) f hnext hlen fun _ _ => trivial
  simp only [writeIndexBtree, List.map_eq_nil_iff, if_neg hne]
  exact hlays.pages.mono fun _ hw => hw.2

/-- No interior page is empty if and only if no level leaves one child for its
last page; the leaves of a table or index tree are never empty. -/
theorem no_empty_page_iff (pb : PageBuilder) (isIndex : Bool)
    (hsizes : ∀ c, c ∈ pb.leaves → sepSize isIndex c ≤ 65522) :
    (InteriorNonempty pb isIndex ↔ NoLoneChild (pb.leaves.map (sepSize isIndex))) ∧
      (∀ (f : File) (next : Nat) (rows : List (Int × List UInt8)), 2 ≤ next →
        (∀ row, row ∈ rows → RowOk False row) →
        Extends LeafNonempty f (writeRows f next rows).2.fp) ∧
      ∀ (f : File) (next : Nat) (payloads : List (List UInt8)), 2 ≤ next → payloads ≠ [] →
        (∀ p, p ∈ payloads → p.length < 2 ^ 31) →
        Extends LeafNonempty f (writeIndexBtree f next (payloads.map indexCell)).2.1 :=
  ⟨interior_nonempty_iff pb isIndex hsizes,
    fun f _ _ hnext hrows => extends_leaf_writeRows f hnext hrows,
    fun f _ _ hnext hne hlen => extends_leaf_writeIndexBtree f hnext hne hlen⟩

def wideSeparator : List UInt8 :=
  List.replicate 16000 0

theorem length_wideSeparator : wideSeparator.length = 16000 :=
  List.length_replicate

/-- A builder of an index tree with `n` leaves and wide separators. -/
def wideLeaves (n : Nat) : PageBuilder :=
  { pbInit File.empty (n + 2) true with
    leaves := (List.range n).map (fun i => ⟨i + 2, 0, some wideSeparator⟩) }

theorem sepSize_wideLeaves (n : Nat) :
    (wideLeaves n).leaves.map (sepSize true) = List.replicate n 16004 := by
  rw [wideLeaves, List.map_map, List.eq_replicate_iff]
  refine ⟨by simp, fun s hs => ?_⟩
  obtain ⟨i, -, rfl⟩ := List.mem_map.mp hs
  simp [sepSize, buildInteriorCell, length_wideSeparator]

theorem wideLeaves_small (n : Nat) :
    ∀ c, c ∈ (wideLeaves n).leaves → sepSize true c ≤ 65522 := by
  intro c hc
  have hmem := List.mem_map_of_mem (f := sepSize true) hc
  rw [sepSize_wideLeaves] at hmem
  rw [List.eq_of_mem_replicate hmem]
  omega

/-- Seven children: five for the first page, two for the second. -/
theorem interior_nonempty_seven : InteriorNonempty (wideLeaves 7) true := by
  refine (no_empty_page_iff (wideLeaves 7) true (wideLeaves_small 7)).1.mpr ?_
  rw [sepSize_wideLeaves]
  decide

/-- Six children: one page takes five, and the sixth gets a page to itself. -/
theorem not_interior_nonempty_six :
    2 ≤ (wideLeaves 6).leaves.length ∧ ¬ InteriorNonempty (wideLeaves 6) true := by
  refine ⟨by simp [wideLeaves], fun h => ?_⟩
  rw [interior_nonempty_iff _ true (wideLeaves_small 6), sepSize_wideLeaves] at h
  exact absurd h (by decide)

end Sqlite
end CodebaseMemory
