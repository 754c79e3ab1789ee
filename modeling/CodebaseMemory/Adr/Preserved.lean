import CodebaseMemory.Adr.Update
import Mathlib.Algebra.Order.BigOperators.Group.List

/-!
# What an update leaves alone

The sections that an update does not list are to keep their texts.  Counting the characters
that are no blanks shows where they do not: a header line in a value is lost from the values.
-/

namespace CodebaseMemory
namespace Adr

open Lib
open Sqlite (CStr bytesOf strcmp)

section Property

def lastValue (updates : Sections) (key : CStr) : Option CStr :=
  (updates.reverse.find? fun u => u.1 == key).map (·.2)

/-- The sections of a name after the update: the first one has the new value. -/
def sectionsAfter (old : CStr) (updates : Sections) (key : CStr) : Sections :=
  match lastValue updates key with
  | none => ofKey key ((documentSections old).map named)
  | some value => (key, trim isBlank value) :: (ofKey key ((documentSections old).map named)).tail

/-- The update changes the listed sections, and nothing else. -/
def SectionsUpdated (old : CStr) (updates : Sections) (new : CStr) : Prop :=
  preamble new = preamble old ∧
    ∃ parsed, cbmAdrParseSections new = some parsed ∧
      ∀ key, ofKey key parsed = sectionsAfter old updates key

/-- Some line of the text is a section header. -/
def HasHeader (text : CStr) : Prop :=
  ∃ line ∈ splitLines text, (adrTrySectionHeader line).isSome

instance (text : CStr) : Decidable (HasHeader text) :=
  inferInstanceAs (Decidable (∃ line ∈ splitLines text, (adrTrySectionHeader line).isSome))

/-- The old document has no text that the update loses. -/
structure UpdateFits (old : CStr) (updates : Sections) : Prop where
  noPreamble : preamble old = []
  room : (updatedParts old updates).length ≤ maxSections
  fits : ∀ key lines, (key, Part.kept lines) ∈ updatedParts old updates → KeepsLines lines
  noHeader : ∀ key lines, (key, Part.kept lines) ∈ updatedParts old updates →
    ¬ HasHeader (textOf lines)

theorem lastValue_append_singleton (updates : Sections) (u : CStr × CStr) (key : CStr) :
    lastValue (updates ++ [u]) key = if u.1 = key then some u.2 else lastValue updates key := by
  rw [lastValue, List.reverse_append, List.reverse_singleton, List.singleton_append,
    List.find?_cons]
  by_cases h : u.1 = key
  · rw [beq_iff_eq.mpr h, if_pos h]
    rfl
  · rw [beq_eq_false_iff_ne.mpr h, if_neg h, lastValue]

theorem ofKey_cons (key : CStr) (s : CStr × CStr) (l : Sections) :
    ofKey key (s :: l) = if s.1 = key then s :: ofKey key l else ofKey key l := by
  rw [ofKey, List.filter_cons]
  by_cases h : s.1 = key
  · rw [if_pos (beq_iff_eq.mpr h), if_pos h, ofKey]
  · rw [if_neg (mt beq_iff_eq.mp h), if_neg h, ofKey]

theorem ofKey_assign (key : CStr) (l : Sections) (u : CStr × CStr) :
    ofKey key (assign l u) = if u.1 = key then u :: (ofKey key l).tail else ofKey key l := by
  induction l with
  | nil => rw [assign, ofKey_cons]; rfl
  | cons x rest ih =>
      rw [assign]
      by_cases hx : x.1 = u.1
      · rw [if_pos hx, ofKey_cons, ofKey_cons, hx]
        by_cases hu : u.1 = key
        · rw [if_pos hu, if_pos hu, if_pos hu, List.tail_cons]
        · rw [if_neg hu, if_neg hu, if_neg hu]
      · rw [if_neg hx, ofKey_cons, ofKey_cons, ih]
        by_cases hu : u.1 = key
        · rw [if_pos hu, if_pos hu, if_neg fun h => hx (h.trans hu.symm),
            if_neg fun h => hx (h.trans hu.symm)]
        · rw [if_neg hu, if_neg hu]

theorem expected_updatedParts (old : CStr) (updates : Sections) :
    (updatedParts old updates).map expected =
      updates.foldl (fun l u => assign l (u.1, trim isBlank u.2))
        ((documentSections old).map named) := by
  rw [updatedParts]
  have hstart : (documentSections old).map named =
      ((documentSections old).map fun g => (g.1, Part.kept g.2)).map expected := by
    rw [List.map_map]
    rfl
  rw [hstart]
  generalize (documentSections old).map (fun g => (g.1, Part.kept g.2)) = parts
  induction updates generalizing parts with
  | nil => rfl
  | cons u updates ih =>
      rw [List.foldl_cons, List.foldl_cons, ih]
      congr 1
      exact assign_map Part.text parts (u.1, .given u.2)

theorem ofKey_expected (old : CStr) (updates : Sections) (key : CStr) :
    ofKey key ((updatedParts old updates).map expected) = sectionsAfter old updates key := by
  rw [expected_updatedParts]
  induction updates using List.reverseRecOn with
  | nil => rfl
  | append_singleton updates u ih =>
      rw [List.foldl_append, List.foldl_cons, List.foldl_nil, ofKey_assign, ih]
      by_cases hu : u.1 = key
      · rw [if_pos hu, sectionsAfter, sectionsAfter, lastValue_append_singleton, if_pos hu, hu]
        cases lastValue updates key with
        | none => rfl
        | some value => rfl
      · rw [if_neg hu, sectionsAfter, sectionsAfter, lastValue_append_singleton, if_neg hu]

theorem sectionsUpdated_def {old new : CStr} {updates : Sections} :
    SectionsUpdated old updates new ↔ preamble new = preamble old ∧
      ∃ parsed, cbmAdrParseSections new = some parsed ∧
        ∀ key, ofKey key parsed = ofKey key ((updatedParts old updates).map expected) := by
  simp only [SectionsUpdated, ofKey_expected]

end Property

section Headers

theorem documentSections_eq_nil {text : CStr} (h : ¬ HasHeader text) :
    documentSections text = [] ∧ preamble text = trim isBlank text := by
  have hlines : ∀ line ∈ splitLines text, adrTrySectionHeader line = none := fun line hline =>
    Option.not_isSome_iff_eq_none.mp fun hsome => h ⟨line, hline, hsome⟩
  have hgroup := groupLines_of_none hlines
  refine ⟨by rw [documentSections, hgroup], ?_⟩
  rw [preamble, hgroup]
  rcases splitLines_splitOn text with hsplit | hsplit
  · rw [hsplit, textOf, join_splitOn]
  · rw [← textOf_append_nil, hsplit, textOf, join_splitOn]

theorem groupLines_ne_nil {lines : List CStr}
    (h : ∃ line ∈ lines, (adrTrySectionHeader line).isSome) : (groupLines lines).2 ≠ [] := by
  induction lines with
  | nil =>
      obtain ⟨line, hline, -⟩ := h
      exact absurd hline List.not_mem_nil
  | cons line lines ih =>
      cases hline : adrTrySectionHeader line with
      | some key =>
          rw [groupLines_header hline]
          exact List.cons_ne_nil _ _
      | none =>
          rw [groupLines_line hline]
          refine ih ?_
          obtain ⟨l, hl, hsome⟩ := h
          rcases List.mem_cons.mp hl with rfl | hl
          · rw [hline] at hsome
            exact absurd hsome (by simp)
          · exact ⟨l, hl, hsome⟩

theorem pieces_eq {s : CStr × CStr} (h : ¬ HasHeader s.2) :
    pieces s = [(s.1, trim isBlank s.2)] := by
  rw [pieces, (documentSections_eq_nil h).1, (documentSections_eq_nil h).2, List.map_nil]

/-- The number of characters that are no blanks. -/
def ink (text : CStr) : Nat := text.countP fun c => !isBlank c

/-- The characters in the values of some sections that are no blanks. -/
def totalInk (sections : Sections) : Nat :=
  (sections.map fun s => ink s.2).sum

theorem totalInk_cons (s : CStr × CStr) (sections : Sections) :
    totalInk (s :: sections) = ink s.2 + totalInk sections := by
  rw [totalInk, List.map_cons, List.sum_cons, totalInk]

theorem ink_trim (text : CStr) : ink (trim isBlank text) = ink text :=
  countP_trim isBlank text

theorem ink_textOf_cons (line : CStr) (lines : List CStr) :
    ink (textOf (line :: lines)) = ink line + ink (textOf lines) := by
  rw [textOf, ink_trim, textOf, ink_trim]
  cases lines with
  | nil => rw [join, List.intercalate_singleton]; rfl
  | cons next lines =>
      rw [join, List.intercalate_cons_cons, ← join, ink, List.countP_append, List.countP_append]
      rfl

theorem ink_header {line key : CStr} (h : adrTrySectionHeader line = some key) :
    0 < ink line := by
  rw [adrTrySectionHeader] at h
  split at h
  · exact absurd h (by simp)
  · next hline =>
      rw [not_or, not_not] at hline
      refine List.countP_pos_iff.mpr ⟨35, List.mem_of_mem_take (i := 3) ?_, by decide⟩
      rw [hline.2]
      decide

theorem ink_groupLines (lines : List CStr) :
    ink (textOf (groupLines lines).1) + totalInk ((groupLines lines).2.map named) +
        (groupLines lines).2.length ≤ ink (textOf lines) := by
  induction lines with
  | nil => exact le_refl _
  | cons line lines ih =>
      rw [ink_textOf_cons]
      cases hline : adrTrySectionHeader line with
      | some key =>
          have hpos := ink_header hline
          have hnil : ink (textOf []) = 0 := rfl
          rw [groupLines_header hline, List.map_cons, totalInk_cons, List.length_cons, hnil, named]
          dsimp only
          omega
      | none =>
          rw [groupLines_line hline, ink_textOf_cons]
          dsimp only
          omega

theorem ink_pieces (s : CStr × CStr) :
    totalInk (pieces s) + (documentSections s.2).length ≤ ink s.2 := by
  have hle := ink_groupLines (splitLines s.2)
  have htext : ink (textOf (splitLines s.2)) = ink s.2 := by
    rcases splitLines_splitOn s.2 with hsplit | hsplit
    · rw [hsplit, textOf, join_splitOn, ink_trim]
    · rw [← textOf_append_nil, hsplit, textOf, join_splitOn, ink_trim]
  rw [htext] at hle
  rw [pieces, totalInk_cons]
  exact hle

end Headers

section Update

variable {old new : CStr} {updates : Sections}

theorem mem_updatedParts {x : CStr × Part} (hx : x ∈ updatedParts old updates) :
    (∃ g ∈ documentSections old, x = (g.1, .kept g.2)) ∨
      ∃ u ∈ updates, x = (u.1, .given u.2) := by
  have hfold : ∀ (us : Sections) (parts : List (CStr × Part)),
      x ∈ us.foldl (fun parts u => assign parts (u.1, .given u.2)) parts →
        x ∈ parts ∨ ∃ u ∈ us, x = (u.1, .given u.2) := by
    intro us
    induction us with
    | nil => exact fun parts h => Or.inl h
    | cons u us ih =>
        intro parts h
        rcases ih _ h with h | ⟨u', hu', rfl⟩
        · exact (mem_assign h).elim (fun heq => Or.inr ⟨u, List.mem_cons_self, heq⟩) Or.inl
        · exact Or.inr ⟨u', List.mem_cons_of_mem _ hu', rfl⟩
  refine (hfold updates _ hx).imp (fun h => ?_) id
  obtain ⟨g, hg, rfl⟩ := List.mem_map.mp h
  exact ⟨g, hg, rfl⟩

theorem isCanonical_of_mem_updatedParts
    (hkeys : ∀ u ∈ updates, isCanonicalSection u.1 = true) {x : CStr × Part}
    (hx : x ∈ updatedParts old updates) : isCanonicalSection x.1 = true := by
  rcases mem_updatedParts hx with ⟨g, hg, rfl⟩ | ⟨u, hu, rfl⟩
  · exact isCanonical_of_mem_groupLines hg
  · exact hkeys u hu

theorem ink_coded_le (part : Part) : ink part.coded ≤ ink part.text := by
  cases part with
  | kept lines =>
      rw [Part.coded, Part.text, textOf, ink_trim, ink_trim]
      exact (bufferOf_sublist_join lines).countP_le
  | given value =>
      rw [Part.coded, Part.text, ink_trim]

theorem trim_coded_sublist (part : Part) : (trim isBlank part.coded).Sublist part.text := by
  cases part with
  | kept lines =>
      rw [Part.coded, Part.text, textOf, trim_trim]
      exact trim_sublist_trim (bufferOf_sublist_join lines)
  | given value => exact List.Sublist.refl _

theorem fits_of_trim_coded {lines : List CStr}
    (h : trim isBlank (Part.kept lines).coded = (Part.kept lines).text) : KeepsLines lines := by
  rw [Part.coded, Part.text, trim_trim] at h
  exact (keepsLines_iff lines).mp h

theorem coded_of_fits {lines : List CStr} (h : KeepsLines lines) :
    (Part.kept lines).coded = textOf lines :=
  (keepsLines_iff lines).mpr h

/-- The document in the order in which it is rendered. -/
def order (old : CStr) (updates : Sections) : Sections :=
  renderOrder ((updatedParts old updates).map rendered)

theorem order_perm (old : CStr) (updates : Sections) :
    (order old updates).Perm ((updatedParts old updates).map rendered) :=
  renderOrder_perm _

theorem parse_updated (hkeys : ∀ u ∈ updates, isCanonicalSection u.1 = true)
    (hrun : cbmStoreAdrUpdateSections (some old) updates = some (.ok, some new))
    (hroom : (updatedParts old updates).length ≤ maxSections) :
    preamble new = [] ∧ cbmAdrParseSections new =
      some (((order old updates).flatMap pieces).take maxSections) := by
  obtain ⟨sections, hsections, hnew, hshort⟩ := update_ok hrun
  rw [merged_eq hsections hroom, ← order] at hnew
  have hcanonical : ∀ s ∈ order old updates, isCanonicalSection s.1 = true := fun s hs => by
    obtain ⟨x, hx, rfl⟩ := List.mem_map.mp ((order_perm old updates).mem_iff.mp hs)
    exact isCanonical_of_mem_updatedParts hkeys hx
  refine ⟨?_, reparse_eq hcanonical hnew hshort⟩
  rw [hnew]
  exact (documentSections_render hcanonical).1

theorem flatMap_pieces {l : Sections} (h : ∀ s ∈ l, ¬ HasHeader s.2) :
    l.flatMap pieces = l.map fun s => (s.1, trim isBlank s.2) := by
  induction l with
  | nil => rfl
  | cons s l ih =>
      rw [List.flatMap_cons, pieces_eq (h s List.mem_cons_self), List.map_cons,
        ih fun t ht => h t (List.mem_cons_of_mem _ ht), List.singleton_append]

theorem ofKey_map (key : CStr) (f : CStr → CStr) (l : Sections) :
    ofKey key (l.map fun s => (s.1, f s.2)) = (ofKey key l).map fun s => (s.1, f s.2) := by
  rw [ofKey, List.filter_map, ofKey]
  rfl

theorem sectionsUpdated_of_fits (hkeys : ∀ u ∈ updates, isCanonicalSection u.1 = true)
    (hvalues : ∀ u ∈ updates, ¬ HasHeader u.2)
    (hrun : cbmStoreAdrUpdateSections (some old) updates = some (.ok, some new))
    (hfits : UpdateFits old updates) : SectionsUpdated old updates new := by
  obtain ⟨hpre, hparse⟩ := parse_updated hkeys hrun hfits.room
  have hheaders : ∀ s ∈ order old updates, ¬ HasHeader s.2 := fun s hs => by
    obtain ⟨x, hx, rfl⟩ := List.mem_map.mp ((order_perm old updates).mem_iff.mp hs)
    obtain ⟨key, part⟩ := x
    cases part with
    | kept lines =>
        rw [rendered, coded_of_fits (hfits.fits key lines hx)]
        exact hfits.noHeader key lines hx
    | given value =>
        rcases mem_updatedParts hx with ⟨g, -, heq⟩ | ⟨u, hu, heq⟩
        · exact absurd (congrArg Prod.snd heq) (by simp)
        · obtain rfl : value = u.2 := Part.given.inj (congrArg Prod.snd heq)
          exact hvalues u hu
  rw [flatMap_pieces hheaders, List.take_of_length_le] at hparse
  · refine sectionsUpdated_def.mpr ⟨by rw [hpre, hfits.noPreamble], _, hparse, fun key => ?_⟩
    rw [ofKey_map, order, ofKey_renderOrder, ← ofKey_map, List.map_map]
    refine congrArg _ (List.map_congr_left fun x hx => ?_)
    obtain ⟨name, part⟩ := x
    cases part with
    | kept lines =>
        have hcoded := coded_of_fits (hfits.fits name lines hx)
        simp only [Function.comp_apply, rendered, expected, hcoded, Part.text, textOf, trim_trim]
    | given value => rfl
  · rw [List.length_map, (order_perm old updates).length_eq, List.length_map]
    exact hfits.room

theorem totalInk_perm {l l' : Sections} (h : l.Perm l') : totalInk l = totalInk l' :=
  (h.map _).sum_nat

theorem totalInk_pieces (l : Sections) :
    totalInk (l.flatMap pieces) + (l.map fun s => (documentSections s.2).length).sum ≤
      totalInk l := by
  induction l with
  | nil => exact le_refl _
  | cons s l ih =>
      have hs := ink_pieces s
      rw [List.flatMap_cons, totalInk, List.map_append, List.sum_append, ← totalInk, ← totalInk,
        List.map_cons, List.sum_cons, totalInk_cons]
      omega

theorem totalInk_rendered_le (parts : List (CStr × Part)) :
    totalInk (parts.map rendered) ≤ totalInk (parts.map expected) := by
  induction parts with
  | nil => exact le_refl _
  | cons x parts ih =>
      have hx := ink_coded_le x.2
      rw [List.map_cons, List.map_cons, totalInk_cons, totalInk_cons, rendered, expected]
      dsimp only
      omega

theorem eq_of_sum_eq {α : Type} {f g : α → Nat} {l : List α} (hle : ∀ x ∈ l, f x ≤ g x)
    (hsum : (l.map f).sum = (l.map g).sum) : ∀ x ∈ l, f x = g x := by
  induction l with
  | nil => exact fun x hx => absurd hx List.not_mem_nil
  | cons y l ih =>
      rw [List.map_cons, List.map_cons, List.sum_cons, List.sum_cons] at hsum
      have hy := hle y List.mem_cons_self
      have hl : (l.map f).sum ≤ (l.map g).sum :=
        List.sum_le_sum fun x hx => hle x (List.mem_cons_of_mem _ hx)
      intro x hx
      rcases List.mem_cons.mp hx with rfl | hx
      · omega
      · exact ih (fun z hz => hle z (List.mem_cons_of_mem _ hz)) (by omega) x hx

theorem fits_of_sectionsUpdated (hkeys : ∀ u ∈ updates, isCanonicalSection u.1 = true)
    (hrun : cbmStoreAdrUpdateSections (some old) updates = some (.ok, some new))
    (h : SectionsUpdated old updates new) : UpdateFits old updates := by
  obtain ⟨hpre, parsed, hparsed, hof⟩ := sectionsUpdated_def.mp h
  have hperm : parsed.Perm ((updatedParts old updates).map expected) := perm_of_ofKey hof
  have hroom : (updatedParts old updates).length ≤ maxSections := by
    have hlen := hperm.length_eq
    rw [List.length_map] at hlen
    rw [← hlen, parse_eq hparsed]
    exact List.length_take_le _ _
  obtain ⟨hnew, hparse⟩ := parse_updated hkeys hrun hroom
  obtain rfl := Option.some.inj (hparsed.symm.trans hparse)
  -- no character is missing, so no value has a header line
  have hheaders : ∀ s ∈ order old updates, ¬ HasHeader s.2 := by
    have htake : totalInk (((order old updates).flatMap pieces).take maxSections) ≤
        totalInk ((order old updates).flatMap pieces) :=
      ((List.take_sublist _ _).map _).sum_le_sum fun _ _ => Nat.zero_le _
    have hpieces := totalInk_pieces (order old updates)
    have hrendered := totalInk_rendered_le (updatedParts old updates)
    rw [totalInk_perm hperm] at htake
    rw [totalInk_perm (order_perm old updates)] at hpieces
    have hzero : ((order old updates).map fun s => (documentSections s.2).length).sum = 0 := by
      omega
    intro s hs hheader
    have hlen := List.sum_eq_zero_iff_forall_eq_nat.mp hzero _ (List.mem_map_of_mem hs)
    exact groupLines_ne_nil hheader (List.length_eq_zero_iff.mp hlen)
  -- so the values are those of the parts, and none is shorter than its text
  rw [flatMap_pieces hheaders, List.take_of_length_le (by
    rw [List.length_map, (order_perm old updates).length_eq, List.length_map]
    exact hroom)] at hperm
  have htexts : ∀ x ∈ updatedParts old updates, trim isBlank x.2.coded = x.2.text := by
    have hsum := ((((order_perm old updates).map _).symm.trans hperm).map
      fun s => s.2.length).sum_nat
    rw [List.map_map, List.map_map, List.map_map] at hsum
    intro x hx
    refine (trim_coded_sublist x.2).eq_of_length ?_
    exact eq_of_sum_eq (f := fun x : CStr × Part => (trim isBlank x.2.coded).length)
      (g := fun x => x.2.text.length) (fun y _ => (trim_coded_sublist y.2).length_le) hsum x hx
  have hfits : ∀ key lines, (key, Part.kept lines) ∈ updatedParts old updates →
      KeepsLines lines := fun key lines hx => fits_of_trim_coded (htexts _ hx)
  refine ⟨hpre ▸ hnew, hroom, hfits, fun key lines hx => ?_⟩
  rw [← coded_of_fits (hfits key lines hx)]
  exact hheaders (key, (Part.kept lines).coded)
    ((order_perm old updates).mem_iff.mpr (List.mem_map_of_mem hx))

/-- An update leaves the rest of the document alone exactly if nothing stands before the first
header, there is room for all sections, every section that is kept fits its buffer, and its
trimmed text has no header line. -/
theorem sectionsUpdated_iff (hkeys : ∀ u ∈ updates, isCanonicalSection u.1 = true)
    (hvalues : ∀ u ∈ updates, ¬ HasHeader u.2)
    (hrun : cbmStoreAdrUpdateSections (some old) updates = some (.ok, some new)) :
    SectionsUpdated old updates new ↔ UpdateFits old updates :=
  ⟨fits_of_sectionsUpdated hkeys hrun, sectionsUpdated_of_fits hkeys hvalues hrun⟩

/-- A document with two sections, and a third one is added. -/
theorem sectionsUpdated_patterns :
    SectionsUpdated (bytesOf "## PURPOSE\nOriginal purpose\n\n## STACK\n- Go")
      [(bytesOf "PATTERNS", bytesOf "- Pipeline pattern")]
      (bytesOf ("## PURPOSE\nOriginal purpose\n\n## STACK\n- Go\n\n" ++
        "## PATTERNS\n- Pipeline pattern")) := by
  refine (sectionsUpdated_iff (by decide) (by decide) (by decide)).mpr
    ⟨by decide, by decide, fun key lines hx => ?_, fun key lines hx => ?_⟩
  · rcases mem_updatedParts hx with ⟨g, hg, heq⟩ | ⟨u, -, heq⟩
    · obtain rfl : lines = g.2 := Part.kept.inj (congrArg Prod.snd heq)
      exact keepsLines_of_weight (lt_of_le_of_lt ((weight_groupLines _).2 g hg) (by decide))
    · exact absurd (congrArg Prod.snd heq) (by simp)
  · rcases mem_updatedParts hx with ⟨g, hg, heq⟩ | ⟨u, -, heq⟩
    · obtain rfl : lines = g.2 := Part.kept.inj (congrArg Prod.snd heq)
      have hall : ∀ g ∈ documentSections
          (bytesOf "## PURPOSE\nOriginal purpose\n\n## STACK\n- Go"),
          ¬ HasHeader (textOf g.2) := by
        decide
      exact hall g hg
    · exact absurd (congrArg Prod.snd heq) (by simp)

/-- The text of the first section begins with an indented header; once it is trimmed, it is
a section of its own. -/
theorem not_sectionsUpdated_indented :
    cbmStoreAdrUpdateSections (some (bytesOf "## PURPOSE\n  ## STACK\nfoo"))
        [(bytesOf "PATTERNS", bytesOf "x")] =
      some (.ok, some (bytesOf "## PURPOSE\n## STACK\nfoo\n\n## PATTERNS\nx")) ∧
    ¬ SectionsUpdated (bytesOf "## PURPOSE\n  ## STACK\nfoo")
      [(bytesOf "PATTERNS", bytesOf "x")]
      (bytesOf "## PURPOSE\n## STACK\nfoo\n\n## PATTERNS\nx") := by
  refine ⟨by decide, ?_⟩
  rintro ⟨-, parsed, hparsed, hsections⟩
  have hvalue : cbmAdrParseSections (bytesOf "## PURPOSE\n## STACK\nfoo\n\n## PATTERNS\nx") =
      some [(bytesOf "PURPOSE", []), (bytesOf "STACK", bytesOf "foo"),
        (bytesOf "PATTERNS", bytesOf "x")] := by
    decide
  obtain rfl := Option.some.inj (hparsed.symm.trans hvalue)
  exact absurd (hsections (bytesOf "PURPOSE")) (by decide)

end Update

end Adr
end CodebaseMemory
