import CodebaseMemory.Adr.Document

/-!
# The updated document

What `cbm_store_adr_update_sections` renders, and what its document is read as.
-/

namespace CodebaseMemory
namespace Adr

open Lib
open Sqlite (CStr bytesOf strcmp)

/-!
## Reading a rendered document

`cbm_adr_render` prints the sections in an order of its own, with a header line and an empty
line behind each.  A header line in a value begins a section of its own when the document is
read again.
-/

section Order

def ofKey (key : CStr) (sections : Sections) : Sections :=
  sections.filter fun s => s.1 == key

theorem strcmp_self (a : CStr) : strcmp a a = .eq := by
  induction a with
  | nil => rfl
  | cons c a ih =>
      rw [strcmp, ih, compare_eq_iff_eq.mpr rfl]
      rfl

theorem ofKey_append (key : CStr) (l l' : Sections) :
    ofKey key (l ++ l') = ofKey key l ++ ofKey key l' :=
  List.filter_append l l'

theorem ofKey_renderCanonical (key c : CStr) (done : Sections × Sections) :
    ofKey key ((renderCanonical done c).1 ++ (renderCanonical done c).2) =
      ofKey key (done.1 ++ done.2) := by
  rw [renderCanonical]
  cases hfind : done.2.find? (fun s => s.1 == c) with
  | none => rfl
  | some s =>
      dsimp only
      obtain ⟨hs, front, back, hsplit, hfront⟩ := List.find?_eq_some_iff_append.mp hfind
      have hsc : s.1 = c := beq_iff_eq.mp hs
      have herase : done.2.eraseP (fun s => s.1 == c) = front ++ back := by
        rw [hsplit, List.eraseP_append_right _ fun x hx => by simpa using hfront x hx,
          List.eraseP_cons, hs, cond_true]
      rw [herase, hsplit]
      simp only [ofKey_append, List.append_assoc]
      by_cases hkey : s.1 = key
      · -- no section of this name stands before the first one
        have hnil : ofKey key front = [] := by
          refine List.filter_eq_nil_iff.mpr fun x hx => ?_
          have hne := hfront x hx
          rw [← hsc, hkey] at hne
          simpa using hne
        rw [hnil, List.nil_append, List.nil_append, ← ofKey_append]
        rfl
      · have hnil : ofKey key [s] = [] :=
          List.filter_eq_nil_iff.mpr fun x hx => by simpa [List.mem_singleton.mp hx] using hkey
        have hcons : ofKey key (s :: back) = ofKey key back := by
          rw [← List.singleton_append, ofKey_append, hnil, List.nil_append]
        rw [hnil, hcons, List.nil_append]

theorem ofKey_insertExtra (key : CStr) (sorted : Sections) (s : CStr × CStr) :
    ofKey key (insertExtra sorted s) = ofKey key (sorted ++ [s]) := by
  rw [insertExtra]
  conv_rhs => rw [← List.rdropWhile_append_rtakeWhile (p := fun t => strcmp s.1 t.1 == .lt)
    (l := sorted)]
  rw [← List.singleton_append]
  simp only [ofKey_append, List.append_assoc]
  by_cases hkey : s.1 = key
  · have hnil : ofKey key (sorted.rtakeWhile fun t => strcmp s.1 t.1 == .lt) = [] := by
      refine List.filter_eq_nil_iff.mpr fun x hx => ?_
      have hlt := List.mem_rtakeWhile_imp hx
      intro heq
      rw [beq_iff_eq.mp heq, hkey, strcmp_self] at hlt
      exact absurd hlt (by decide)
    rw [hnil, List.append_nil, List.nil_append]
  · have hnil : ofKey key [s] = [] :=
      List.filter_eq_nil_iff.mpr fun x hx => by simpa [List.mem_singleton.mp hx] using hkey
    rw [hnil, List.append_nil, List.nil_append]

theorem ofKey_renderOrder (key : CStr) (sections : Sections) :
    ofKey key (renderOrder sections) = ofKey key sections := by
  have hcanonical : ∀ (names : List CStr) (done : Sections × Sections),
      ofKey key ((names.foldl renderCanonical done).1 ++ (names.foldl renderCanonical done).2) =
        ofKey key (done.1 ++ done.2) := by
    intro names
    induction names with
    | nil => exact fun done => rfl
    | cons c names ih =>
        intro done
        rw [List.foldl_cons, ih, ofKey_renderCanonical]
  have hextra : ∀ (rest sorted : Sections),
      ofKey key (rest.foldl insertExtra sorted) = ofKey key (sorted ++ rest) := by
    intro rest
    induction rest with
    | nil => exact fun sorted => by rw [List.append_nil]; rfl
    | cons s rest ih =>
        intro sorted
        rw [List.foldl_cons, ih, ofKey_append, ofKey_insertExtra, ← ofKey_append,
          List.append_assoc, List.singleton_append]
  rw [renderOrder, ofKey_append, hextra, List.nil_append, ← ofKey_append, hcanonical,
    List.nil_append]

theorem perm_of_ofKey {l l' : Sections} (h : ∀ key, ofKey key l = ofKey key l') : l.Perm l' := by
  rw [List.perm_iff_count]
  intro s
  have hcount : ∀ l : Sections, l.count s = (ofKey s.1 l).count s := fun l =>
    (List.count_filter (by simp)).symm
  rw [hcount l, hcount l', h]

theorem renderOrder_perm (sections : Sections) : (renderOrder sections).Perm sections :=
  perm_of_ofKey fun key => ofKey_renderOrder key sections

end Order

section Blocks

def headerLine (key : CStr) : CStr := bytesOf "## " ++ key

/-- The lines of a rendered section, with the empty line behind it. -/
def block (s : CStr × CStr) : List CStr :=
  headerLine s.1 :: (s.2.splitOn newline ++ [[]])

/-- The sections that a rendered section is read as: its own, and one for each header line in
its value. -/
def pieces (s : CStr × CStr) : Sections :=
  (s.1, preamble s.2) :: (documentSections s.2).map named

variable {key : CStr}
variable {order : Sections}

theorem mem_canonical (h : isCanonicalSection key = true) : key ∈ canonicalSections := by
  obtain ⟨name, hname, heq⟩ := List.any_eq_true.mp h
  exact beq_iff_eq.mp heq ▸ hname

theorem header_headerLine (h : isCanonicalSection key = true) :
    adrTrySectionHeader (headerLine key) = some key := by
  have hall : ∀ key ∈ canonicalSections, adrTrySectionHeader (headerLine key) = some key := by
    decide
  exact hall key (mem_canonical h)

theorem newline_notMem_headerLine (h : isCanonicalSection key = true) :
    newline ∉ headerLine key := by
  have hall : ∀ key ∈ canonicalSections, newline ∉ headerLine key := by decide
  exact hall key (mem_canonical h)

theorem splitOn_sectionText {text : CStr} {s : CStr × CStr}
    (hkey : isCanonicalSection s.1 = true) :
    (sectionText text s).splitOn newline ++ [[]] =
      (if text = [] then [] else text.splitOn newline ++ [[]]) ++ block s := by
  have hsection : (bytesOf "## " ++ s.1 ++ newline :: s.2).splitOn newline =
      headerLine s.1 :: s.2.splitOn newline := by
    rw [List.splitOn_append_cons_self, ← headerLine,
      List.splitOn_eq_singleton (newline_notMem_headerLine hkey), List.singleton_append]
  rw [sectionText, block]
  split
  · rw [List.nil_append, List.nil_append, hsection, List.cons_append]
  · have htext : text ++ bytesOf "\n\n" ++ bytesOf "## " ++ s.1 ++ newline :: s.2 =
        text ++ newline :: ([] ++ newline :: (bytesOf "## " ++ s.1 ++ newline :: s.2)) := by
      simp only [List.append_assoc]
      rfl
    rw [htext, List.splitOn_append_cons_self, List.splitOn_append_cons_self, hsection,
      List.splitOn_nil]
    simp only [List.append_assoc, List.cons_append, List.nil_append]

theorem sectionText_ne_nil (text : CStr) (s : CStr × CStr) : sectionText text s ≠ [] := by
  rw [sectionText]
  simp

theorem splitOn_foldl (hkeys : ∀ s ∈ order, isCanonicalSection s.1 = true) (hne : order ≠ []) :
    (order.foldl sectionText []).splitOn newline ++ [[]] = order.flatMap block := by
  induction order using List.reverseRecOn with
  | nil => exact absurd rfl hne
  | append_singleton order s ih =>
      rw [List.foldl_append, List.foldl_cons, List.foldl_nil,
        splitOn_sectionText (hkeys s (by simp)), List.flatMap_append, List.flatMap_singleton]
      congr 1
      split
      · next hnil =>
          cases order using List.reverseRecOn with
          | nil => rfl
          | append_singleton order t =>
              rw [List.foldl_append, List.foldl_cons, List.foldl_nil] at hnil
              exact absurd hnil (sectionText_ne_nil _ _)
      · next htext =>
          exact ih (fun t ht => hkeys t (List.mem_append_left _ ht))
            (fun hnil => htext (by rw [hnil]; rfl))

theorem groupLines_blocks (hkeys : ∀ s ∈ order, isCanonicalSection s.1 = true) :
    (groupLines (order.flatMap block)).1 = [] ∧
      (groupLines (order.flatMap block)).2.map named = order.flatMap pieces := by
  induction order with
  | nil => exact ⟨rfl, rfl⟩
  | cons s order ih =>
      obtain ⟨hpre, hsections⟩ := ih fun t ht => hkeys t (List.mem_cons_of_mem _ ht)
      rw [List.flatMap_cons, List.flatMap_cons, block, List.cons_append,
        groupLines_header (header_headerLine (hkeys s List.mem_cons_self)),
        groupLines_append hpre, List.map_cons, List.map_append, hsections, pieces,
        documentSections_splitOn, (groupLines_append_nil _).2, preamble_splitOn]
      refine ⟨rfl, ?_⟩
      rw [List.cons_append, named]
      congr 2
      rcases (groupLines_append_nil (s.2.splitOn newline)).1 with h | h
      · rw [h]
      · rw [h, textOf_append_nil]

theorem documentSections_render (hkeys : ∀ s ∈ order, isCanonicalSection s.1 = true) :
    preamble (order.foldl sectionText []) = [] ∧
      (documentSections (order.foldl sectionText [])).map named = order.flatMap pieces := by
  by_cases hne : order = []
  · rw [hne]
    exact ⟨rfl, rfl⟩
  · obtain ⟨hpre, hsections⟩ := groupLines_blocks hkeys
    rw [← splitOn_foldl hkeys hne] at hpre hsections
    rw [(groupLines_append_nil _).2] at hsections
    refine ⟨?_, by rw [documentSections_splitOn, hsections]⟩
    rw [preamble_splitOn]
    rcases (groupLines_append_nil ((order.foldl sectionText []).splitOn newline)).1 with h | h
    · rw [← h, hpre]
      rfl
    · rw [← textOf_append_nil, ← h, hpre]
      rfl

end Blocks

section Merge

/-- The value goes to the first entry with the key, or behind the last one. -/
def assign {β : Type} (l : List (CStr × β)) (u : CStr × β) : List (CStr × β) :=
  match l with
  | [] => [u]
  | x :: rest => if x.1 = u.1 then u :: rest else x :: assign rest u

/-- A section after the update. -/
inductive Part where
  /-- The lines that it has in the old document. -/
  | kept (lines : List CStr)
  /-- A new value. -/
  | given (value : CStr)

def Part.text : Part → CStr
  | .kept lines => textOf lines
  | .given value => trim isBlank value

/-- The value that the code renders. -/
def Part.coded : Part → CStr
  | .kept lines => trim isBlank (bufferOf [] lines)
  | .given value => value

/-- The document after the update, without any bounds. -/
def updatedParts (old : CStr) (updates : Sections) : List (CStr × Part) :=
  updates.foldl (fun parts u => assign parts (u.1, .given u.2))
    ((documentSections old).map fun g => (g.1, .kept g.2))

def expected (x : CStr × Part) : CStr × CStr := (x.1, x.2.text)

def rendered (x : CStr × Part) : CStr × CStr := (x.1, x.2.coded)

variable {β γ : Type}

theorem assign_map (f : β → γ) (l : List (CStr × β)) (u : CStr × β) :
    (assign l u).map (Prod.map id f) = assign (l.map (Prod.map id f)) (Prod.map id f u) := by
  induction l with
  | nil => rfl
  | cons x rest ih =>
      rw [assign, List.map_cons, assign]
      by_cases h : x.1 = u.1
      · rw [if_pos h, if_pos (show (Prod.map id f x).1 = (Prod.map id f u).1 from h),
          List.map_cons]
      · rw [if_neg h, if_neg (show ¬ (Prod.map id f x).1 = (Prod.map id f u).1 from h),
          List.map_cons, ih]

theorem length_le_assign (l : List (CStr × β)) (u : CStr × β) :
    l.length ≤ (assign l u).length := by
  induction l with
  | nil => exact Nat.zero_le _
  | cons x rest ih =>
      rw [assign]
      split
      · exact le_refl _
      · rw [List.length_cons, List.length_cons]
        omega

theorem mem_assign {l : List (CStr × β)} {u x : CStr × β} (hx : x ∈ assign l u) :
    x = u ∨ x ∈ l := by
  induction l with
  | nil => exact Or.inl (List.mem_singleton.mp hx)
  | cons y rest ih =>
      rw [assign] at hx
      split at hx
      · rcases List.mem_cons.mp hx with rfl | hx
        · exact Or.inl rfl
        · exact Or.inr (List.mem_cons_of_mem _ hx)
      · rcases List.mem_cons.mp hx with rfl | hx
        · exact Or.inr List.mem_cons_self
        · exact (ih hx).imp id (List.mem_cons_of_mem _)

theorem assign_eq (l : Sections) (u : CStr × CStr) :
    assign l u = match l.findIdx? (fun s => s.1 == u.1) with
      | some j => l.set j u
      | none => l ++ [u] := by
  induction l with
  | nil => rfl
  | cons x rest ih =>
      rw [assign, List.findIdx?_cons]
      by_cases h : x.1 = u.1
      · rw [if_pos h, if_pos (beq_iff_eq.mpr h)]
        rfl
      · rw [if_neg h, if_neg (mt beq_iff_eq.mp h), ih]
        cases rest.findIdx? (fun s => s.1 == u.1) with
        | none => rfl
        | some j => rfl

theorem mergeSection_eq {l : Sections} {u : CStr × CStr}
    (hroom : (assign l u).length ≤ maxSections) : mergeSection l u = assign l u := by
  rw [assign_eq] at hroom ⊢
  rw [mergeSection]
  cases hfind : l.findIdx? (fun s => s.1 == u.1) with
  | some j => rfl
  | none =>
      rw [hfind] at hroom
      dsimp only at hroom ⊢
      rw [List.length_append, List.length_singleton] at hroom
      rw [if_pos (by omega)]

theorem length_le_foldl_assign (updates : Sections) (parts : List (CStr × Part)) :
    parts.length ≤
      (updates.foldl (fun parts u => assign parts (u.1, .given u.2)) parts).length := by
  induction updates generalizing parts with
  | nil => exact le_refl _
  | cons u updates ih => exact (length_le_assign parts (u.1, .given u.2)).trans (ih _)

theorem foldl_mergeSection {updates : Sections} {parts : List (CStr × Part)}
    (hroom : (updates.foldl (fun parts u => assign parts (u.1, .given u.2)) parts).length ≤
      maxSections) :
    updates.foldl mergeSection (parts.map rendered) =
      (updates.foldl (fun parts u => assign parts (u.1, .given u.2)) parts).map rendered := by
  induction updates generalizing parts with
  | nil => rfl
  | cons u updates ih =>
      rw [List.foldl_cons] at hroom ⊢
      have hassign : assign (parts.map rendered) u =
          (assign parts (u.1, Part.given u.2)).map rendered :=
        (assign_map Part.coded parts (u.1, .given u.2)).symm
      rw [mergeSection_eq, hassign, ih hroom]
      · rfl
      · rw [hassign, List.length_map]
        exact (length_le_foldl_assign updates _).trans hroom

theorem merged_eq {old : CStr} {updates sections : Sections}
    (hparse : cbmAdrParseSections old = some sections)
    (hroom : (updatedParts old updates).length ≤ maxSections) :
    updates.foldl mergeSection sections = (updatedParts old updates).map rendered := by
  have hlen := length_le_foldl_assign updates
    ((documentSections old).map fun g => (g.1, Part.kept g.2))
  rw [List.length_map] at hlen
  rw [parse_eq hparse, List.take_of_length_le (by
    rw [List.length_map]
    exact hlen.trans hroom)]
  have hstored : (documentSections old).map stored =
      ((documentSections old).map fun g => (g.1, Part.kept g.2)).map rendered := by
    rw [List.map_map]
    rfl
  rw [hstored, foldl_mergeSection hroom]
  rfl

end Merge

section Reparse

/-- The bytes that some lines take with their newlines. -/
def weight (lines : List CStr) : Nat :=
  (lines.map fun line => line.length + 1).sum

theorem weight_cons (line : CStr) (lines : List CStr) :
    weight (line :: lines) = line.length + 1 + weight lines := by
  rw [weight, List.map_cons, List.sum_cons, weight]

theorem weight_append (lines lines' : List CStr) :
    weight (lines ++ lines') = weight lines + weight lines' := by
  rw [weight, List.map_append, List.sum_append, weight, weight]

theorem weight_splitLines (s : CStr) : weight (splitLines s) ≤ s.length + 1 := by
  induction s with
  | nil => exact Nat.zero_le _
  | cons c rest ih =>
      rw [splitLines, List.length_cons]
      split
      · rw [weight_cons, List.length_nil]
        omega
      · cases hrest : splitLines rest with
        | nil =>
            dsimp only
            rw [weight_cons]
            simp [weight]
        | cons line lines =>
            rw [hrest, weight_cons] at ih
            dsimp only
            rw [weight_cons, List.length_cons]
            omega

theorem weight_groupLines (lines : List CStr) :
    weight (groupLines lines).1 ≤ weight lines ∧
      ∀ g ∈ (groupLines lines).2, weight g.2 ≤ weight lines := by
  induction lines with
  | nil => exact ⟨le_refl _, fun g hg => absurd hg List.not_mem_nil⟩
  | cons line lines ih =>
      obtain ⟨hpre, hsections⟩ := ih
      rw [weight_cons]
      cases hline : adrTrySectionHeader line with
      | some key =>
          rw [groupLines_header hline]
          refine ⟨Nat.zero_le _, fun g hg => ?_⟩
          rcases List.mem_cons.mp hg with rfl | hg
          · exact hpre.trans (Nat.le_add_left _ _)
          · exact (hsections g hg).trans (Nat.le_add_left _ _)
      | none =>
          rw [groupLines_line hline]
          refine ⟨?_, fun g hg => (hsections g hg).trans (Nat.le_add_left _ _)⟩
          rw [weight_cons]
          omega

theorem usedBytes_le (lines : List CStr) : usedBytes lines ≤ weight lines := by
  rw [← length_bufferOf]
  induction lines using List.reverseRecOn with
  | nil => exact Nat.zero_le _
  | append_singleton lines line ih =>
      have hstore := length_storeLine_le (bufferOf [] lines) line
      rw [bufferOf_append_singleton, weight_append, weight_cons]
      omega

theorem keepsLines_of_weight {lines : List CStr} (h : weight lines < contentSize - 1) :
    KeepsLines lines := by
  rintro front line back rfl - - -
  have hused := usedBytes_le front
  rw [weight_append, weight_cons] at h
  have hstart : lineStart (usedBytes front) ≤ usedBytes front + 1 := by
    rw [lineStart]
    split
    · exact Nat.zero_le _
    · exact le_refl _
  omega

theorem parse_short {content : CStr} (h : content.length ≤ adrMaxLength) :
    cbmAdrParseSections content =
      some (((documentSections content).map named).take maxSections) := by
  have hweight : weight (splitLines content) ≤ adrMaxLength + 1 :=
    (weight_splitLines content).trans (Nat.add_le_add_right h 1)
  have hsome : (cbmAdrParseSections content).isSome := by
    rw [cbmAdrParseSections, Option.isSome_map]
    refine parse_isSome ?_
    rw [List.length_nil, Nat.zero_add, ← weight]
    exact hweight.trans (by decide)
  obtain ⟨sections, hsections⟩ := Option.isSome_iff_exists.mp hsome
  rw [hsections, parse_eq hsections]
  congr 2
  refine List.map_congr_left fun g hg => ?_
  have hg' := (weight_groupLines (splitLines content)).2 g hg
  rw [stored, named, (keepsLines_iff g.2).mpr (keepsLines_of_weight ?_)]
  exact lt_of_le_of_lt (hg'.trans hweight) (by decide)

theorem render_eq {order : Sections} {start text : CStr}
    (h : order.foldlM adrRenderSection start = some text) :
    text = order.foldl sectionText start := by
  induction order generalizing start with
  | nil => exact (Option.some.inj h).symm
  | cons s order ih =>
      rw [List.foldlM_cons, Option.bind_eq_bind, Option.bind_eq_some_iff] at h
      obtain ⟨next, hnext, h⟩ := h
      rw [adrRenderSection] at hnext
      split at hnext
      · exact absurd hnext (by simp)
      · split at hnext
        · exact absurd hnext (by simp)
        · rw [List.foldl_cons, Option.some.inj hnext]
          exact ih h

theorem update_ok {old new : CStr} {updates : Sections}
    (h : cbmStoreAdrUpdateSections (some old) updates = some (.ok, some new)) :
    ∃ sections, cbmAdrParseSections old = some sections ∧
      new = (renderOrder (updates.foldl mergeSection sections)).foldl sectionText [] ∧
      new.length ≤ adrMaxLength := by
  simp only [cbmStoreAdrUpdateSections, Option.bind_eq_bind, Option.bind_eq_some_iff] at h
  obtain ⟨sections, hsections, merged, hmerged, h⟩ := h
  split at h
  · exact absurd h (by simp)
  · next hshort =>
      simp only [Option.some.injEq, Prod.mk.injEq, true_and] at h
      rw [h] at hmerged hshort
      obtain ⟨text, htext, hcut⟩ := Option.map_eq_some_iff.mp hmerged
      refine ⟨sections, hsections, ?_, not_lt.mp hshort⟩
      rw [← render_eq htext, ← hcut, List.take_of_length_le]
      -- a text that is cut off is too long
      by_contra hlong
      rw [← hcut, List.length_take, min_eq_left (not_le.mp hlong).le] at hshort
      exact hshort (by decide)

theorem reparse_eq {order : Sections} {new : CStr}
    (hkeys : ∀ s ∈ order, isCanonicalSection s.1 = true)
    (hnew : new = order.foldl sectionText []) (hshort : new.length ≤ adrMaxLength) :
    cbmAdrParseSections new = some ((order.flatMap pieces).take maxSections) := by
  rw [parse_short hshort, hnew, (documentSections_render hkeys).2]

end Reparse

end Adr
end CodebaseMemory
