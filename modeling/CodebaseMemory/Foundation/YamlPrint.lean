import CodebaseMemory.Foundation.Yaml
import Mathlib.Data.List.Infix

/-!
# Printed YAML lines

Trees of maps, lists and scalars, the ways to print them, and what the parser sees in
each line of a printed tree.
-/

namespace CodebaseMemory
namespace Foundation

open Lib
open Sqlite (CStr)

/-- A tree of maps, lists and scalars. -/
inductive Yaml where
  | scalar (value : CStr)
  | list (items : List CStr)
  | map (entries : List (CStr × Yaml))

/-- The text has no white space at its ends. -/
def IsTrimmed (s : CStr) : Prop :=
  (∀ c ∈ s.head?, isSpace c = false) ∧ ∀ c ∈ s.getLast?, isSpace c = false

/-- A key that can be written as it stands. -/
structure PlainKey (k : CStr) : Prop where
  ne_nil : k ≠ []
  trimmed : IsTrimmed k
  no_colon : 58 ∉ k
  no_dot : 46 ∉ k
  no_hash : 35 ∉ k
  no_newline : 10 ∉ k
  head : k.head? ≠ some 45

/-- A scalar that can be written as it stands. -/
structure PlainScalar (v : CStr) : Prop where
  ne_nil : v ≠ []
  trimmed : IsTrimmed v
  no_newline : 10 ∉ v
  head : v.head? ≠ some 34 ∧ v.head? ≠ some 39 ∧ v.head? ≠ some 35
  no_comment : ¬ [32, 35] <:+: v

def indented (n : Nat) (content : CStr) : CStr :=
  List.replicate n 32 ++ content

/-- A line with spaces only, or a comment. -/
inductive IsNoise : CStr → Prop
  | blank (n : Nat) : IsNoise (indented n [])
  | comment (n : Nat) {text : CStr} (h : 10 ∉ text) : IsNoise (indented n (35 :: text))

/-- The lines of list items, each at the indentation `n` of the key or at a greater one. -/
inductive PrintsItems (n : Nat) : List CStr → List CStr → Prop
  | nil : PrintsItems n [] []
  | noise {items lines : List CStr} {line : CStr} (hline : IsNoise line)
      (h : PrintsItems n items lines) : PrintsItems n items (line :: lines)
  | item {items lines : List CStr} {m : Nat} {v : CStr} (hm : n ≤ m) (hv : PlainScalar v)
      (h : PrintsItems n items lines) :
      PrintsItems n (v :: items) (indented m (45 :: 32 :: v) :: lines)

/-- The lines of the entries of a map at the indentation `n`; the entries of a map in it are printed
at a greater one. -/
inductive PrintsEntries : Nat → List (CStr × Yaml) → List CStr → Prop
  | nil (n : Nat) : PrintsEntries n [] []
  | noise {n : Nat} {entries : List (CStr × Yaml)} {lines : List CStr} {line : CStr}
      (hline : IsNoise line) (h : PrintsEntries n entries lines) :
      PrintsEntries n entries (line :: lines)
  | scalar {n : Nat} {entries : List (CStr × Yaml)} {lines : List CStr} {k v : CStr}
      (hk : PlainKey k) (hv : PlainScalar v) (h : PrintsEntries n entries lines) :
      PrintsEntries n ((k, .scalar v) :: entries) (indented n (k ++ 58 :: 32 :: v) :: lines)
  | list {n : Nat} {entries : List (CStr × Yaml)} {items itemLines lines : List CStr} {k : CStr}
      (hk : PlainKey k) (hne : items ≠ []) (hitems : PrintsItems n items itemLines)
      (h : PrintsEntries n entries lines) :
      PrintsEntries n ((k, .list items) :: entries)
        (indented n (k ++ [58]) :: (itemLines ++ lines))
  | map {n m : Nat} {entries sub : List (CStr × Yaml)} {subLines lines : List CStr} {k : CStr}
      (hk : PlainKey k) (hne : sub ≠ []) (hm : n < m) (hsub : PrintsEntries m sub subLines)
      (h : PrintsEntries n entries lines) :
      PrintsEntries n ((k, .map sub) :: entries) (indented n (k ++ [58]) :: (subLines ++ lines))

/-- The trees that can be printed: each map in a map and each list has entries. -/
inductive PlainEntries : List (CStr × Yaml) → Prop
  | nil : PlainEntries []
  | scalar {entries : List (CStr × Yaml)} {k v : CStr} (hk : PlainKey k) (hv : PlainScalar v)
      (h : PlainEntries entries) : PlainEntries ((k, .scalar v) :: entries)
  | list {entries : List (CStr × Yaml)} {items : List CStr} {k : CStr} (hk : PlainKey k)
      (hne : items ≠ []) (hitems : ∀ v ∈ items, PlainScalar v) (h : PlainEntries entries) :
      PlainEntries ((k, .list items) :: entries)
  | map {entries sub : List (CStr × Yaml)} {k : CStr} (hk : PlainKey k) (hne : sub ≠ [])
      (hsub : PlainEntries sub) (h : PlainEntries entries) :
      PlainEntries ((k, .map sub) :: entries)

theorem exists_printsItems {items : List CStr} (h : ∀ v ∈ items, PlainScalar v) (n : Nat) :
    ∃ lines, PrintsItems n items lines := by
  induction items with
  | nil => exact ⟨[], .nil⟩
  | cons v items ih =>
      obtain ⟨hv, hrest⟩ := List.forall_mem_cons.mp h
      obtain ⟨lines, hlines⟩ := ih hrest
      exact ⟨_, .item (le_refl n) hv hlines⟩

theorem exists_printsEntries {entries : List (CStr × Yaml)} (h : PlainEntries entries) (n : Nat) :
    ∃ lines, PrintsEntries n entries lines := by
  induction h generalizing n with
  | nil => exact ⟨[], .nil n⟩
  | scalar hk hv _ ih =>
      obtain ⟨lines, hlines⟩ := ih n
      exact ⟨_, .scalar hk hv hlines⟩
  | list hk hne hitems _ ih =>
      obtain ⟨itemLines, hitemLines⟩ := exists_printsItems hitems n
      obtain ⟨lines, hlines⟩ := ih n
      exact ⟨_, .list hk hne hitemLines hlines⟩
  | map hk hne _ _ ihsub ih =>
      obtain ⟨subLines, hsubLines⟩ := ihsub (n + 1)
      obtain ⟨lines, hlines⟩ := ih n
      exact ⟨_, .map hk hne (Nat.lt_succ_self n) hsubLines hlines⟩

section Letters

variable {s : CStr} (h : ∀ c ∈ s, 97 ≤ c ∧ c ≤ 122)

include h

theorem not_mem_letters {c : UInt8} (hc : c < 97) : c ∉ s := by
  intro hin
  exact absurd (h c hin).1 (UInt8.not_le.mpr hc)

theorem isTrimmed_letters : IsTrimmed s := by
  have hspace : ∀ c ∈ s, isSpace c = false := by
    intro c hc
    have hlow := UInt8.le_iff_toNat_le.mp (h c hc).1
    rw [isSpace, Bool.or_eq_false_iff, Bool.and_eq_false_iff]
    refine ⟨decide_eq_false ?_, Or.inr (decide_eq_false ?_)⟩
    · rintro rfl
      exact absurd hlow (by decide)
    · rw [UInt8.le_iff_toNat_le]
      simp at hlow ⊢
      omega
  exact ⟨fun c hc => hspace c (List.mem_of_mem_head? hc),
    fun c hc => hspace c (List.mem_of_mem_getLast? hc)⟩

theorem PlainKey.of_letters (hne : s ≠ []) : PlainKey s where
  ne_nil := hne
  trimmed := isTrimmed_letters h
  no_colon := not_mem_letters h (by decide)
  no_dot := not_mem_letters h (by decide)
  no_hash := not_mem_letters h (by decide)
  no_newline := not_mem_letters h (by decide)
  head := fun hd => not_mem_letters h (by decide) (List.mem_of_mem_head? hd)

theorem PlainScalar.of_letters (hne : s ≠ []) : PlainScalar s where
  ne_nil := hne
  trimmed := isTrimmed_letters h
  no_newline := not_mem_letters h (by decide)
  head := ⟨fun hd => not_mem_letters h (by decide) (List.mem_of_mem_head? hd),
    fun hd => not_mem_letters h (by decide) (List.mem_of_mem_head? hd),
    fun hd => not_mem_letters h (by decide) (List.mem_of_mem_head? hd)⟩
  no_comment := fun hin => not_mem_letters h (c := 32) (by decide) (hin.subset (by simp))

end Letters

section Lines

variable {s v : CStr}

theorem IsTrimmed.dropWhile (h : IsTrimmed s) : s.dropWhile isSpace = s := by
  cases s with
  | nil => rfl
  | cons c s =>
      rw [List.dropWhile_cons_of_neg]
      rw [h.1 c rfl]
      exact Bool.false_ne_true

theorem trimDup_of_trimmed (h : IsTrimmed s) : trimDup s = s := by
  have hend : s.rdropWhile isSpace = s := by
    rw [List.rdropWhile_eq_self_iff]
    intro hne
    rw [h.2 _ (List.getLast?_eq_some_getLast hne)]
    exact Bool.false_ne_true
  rw [trimDup, trim, hend, h.dropWhile]

theorem IsTrimmed.getLast?_ne (h : IsTrimmed s) : s.getLast? ≠ some 13 := by
  intro hlast
  exact absurd (h.2 13 hlast) (by decide)

theorem IsTrimmed.head?_ne (h : IsTrimmed s) : ∀ c ∈ s.head?, c ≠ 32 := by
  rintro c hc rfl
  exact absurd (h.1 32 hc) (by decide)

theorem head?_append_of_ne_nil (h : s ≠ []) (t : CStr) : (s ++ t).head? = s.head? := by
  cases s with
  | nil => exact absurd rfl h
  | cons c s => rfl

theorem getLast?_append_cons (h : s ≠ []) (t : CStr) : (t ++ s).getLast? = s.getLast? := by
  rw [List.getLast?_append_of_ne_nil _ h]

theorem lineContent_indented {content : CStr} (hhead : ∀ c ∈ content.head?, c ≠ 32)
    (hlast : content.getLast? ≠ some 13) (n : Nat) :
    lineContent (indented n content) = content := by
  have hdrop : (indented n content).dropWhile (fun c => c = 32) = content := by
    rw [indented, List.dropWhile_append_of_pos fun c hc => by simp [List.eq_of_mem_replicate hc]]
    cases content with
    | nil => rfl
    | cons c content => rw [List.dropWhile_cons_of_neg (by simpa using hhead c rfl)]
  rw [lineContent, hdrop]
  exact if_neg hlast

theorem leadingSpaces_indented {content : CStr} (hhead : ∀ c ∈ content.head?, c ≠ 32) (n : Nat) :
    leadingSpaces (indented n content) = n := by
  have htake : (indented n content).takeWhile (fun c => c = 32) = List.replicate n 32 := by
    rw [indented, List.takeWhile_append_of_pos fun c hc => by simp [List.eq_of_mem_replicate hc]]
    cases content with
    | nil => simp
    | cons c content =>
        rw [List.takeWhile_cons_of_neg (by simpa using hhead c rfl), List.append_nil]
  rw [leadingSpaces, htake, List.length_replicate]

theorem PlainScalar.getLast?_line (hv : PlainScalar v) (k : CStr) :
    (k ++ 58 :: 32 :: v).getLast? ≠ some 13 := by
  have hsplit : k ++ 58 :: 32 :: v = (k ++ [58, 32]) ++ v := by simp
  rw [hsplit, getLast?_append_cons hv.ne_nil]
  exact hv.trimmed.getLast?_ne

theorem PlainKey.splitColon {k : CStr} (hk : PlainKey k) (rest : CStr) :
    splitColon (k ++ 58 :: rest) = some (k, rest) := by
  have hpass : ∀ c ∈ k, decide (c ≠ 58) = true := by
    rintro c hc
    exact decide_eq_true fun h => hk.no_colon (h ▸ hc)
  rw [Foundation.splitColon, if_pos (by simp), List.takeWhile_append_of_pos hpass,
    List.dropWhile_append_of_pos hpass]
  simp

theorem beforeComment_eq_none (h : ¬ [32, 35] <:+: v) : beforeComment v = none := by
  induction v with
  | nil => rfl
  | cons c v ih =>
      rw [beforeComment, if_neg, ih fun hin => h (hin.trans (List.suffix_cons c v).isInfix)]
      · rfl
      · rintro ⟨rfl, hhead⟩
        obtain ⟨rest, rfl⟩ := List.head?_eq_some_iff.mp hhead
        exact h ⟨[], rest, rfl⟩

theorem PlainScalar.stripInlineComment (hv : PlainScalar v) : stripInlineComment v = v := by
  rw [Foundation.stripInlineComment, if_neg, beforeComment_eq_none hv.no_comment]
  rintro (h | h)
  · exact hv.head.1 h
  · exact hv.head.2.1 h

end Lines

section Effects

variable {line : CStr} {rest : List CStr} {s : ParseState}

theorem isSkipped_noise (h : IsNoise line) : isSkipped (lineContent line) = true := by
  cases h with
  | blank n =>
      rw [lineContent_indented (by simp) (by simp)]
      rfl
  | @comment n text _ =>
      have hdrop : (indented n (35 :: text)).dropWhile (fun c => c = 32) = 35 :: text := by
        rw [indented, List.dropWhile_append_of_pos fun c hc => by
          simp [List.eq_of_mem_replicate hc]]
        rfl
      rw [lineContent, hdrop]
      cases text with
      | nil => rfl
      | cons c text => split <;> rfl

theorem parseLine_noise (h : IsNoise line) : parseLine line rest s = s := by
  rw [parseLine, if_pos (isSkipped_noise h)]

theorem peekIsList_noise (h : IsNoise line) : peekIsList (line :: rest) = peekIsList rest := by
  rw [peekIsList, if_pos (isSkipped_noise h)]

def topNode (stack : List StackEntry) : List Nat :=
  (stack.head?.map StackEntry.node).getD []

section Item

variable {v : CStr} (hv : PlainScalar v) (m : Nat)

include hv

theorem lineContent_item : lineContent (indented m (45 :: 32 :: v)) = 45 :: 32 :: v := by
  refine lineContent_indented (by simp) ?_ m
  have hlast : ([45, 32] ++ v).getLast? = v.getLast? := getLast?_append_cons hv.ne_nil _
  exact fun h => hv.trimmed.getLast?_ne (hlast.symm.trans h)

theorem peekIsList_item : peekIsList (indented m (45 :: 32 :: v) :: rest) = true := by
  rw [peekIsList, lineContent_item hv]
  rfl

theorem parseLine_item : parseLine (indented m (45 :: 32 :: v)) rest s =
    { root := nodeAddChild s.root
        (parseListItem.listParent s.root (topNode (popStack m s.stack)))
        (nodeNew .scalar none (some v))
      stack := popStack m s.stack } := by
  have hitem : trimDup ((List.drop 2 (45 :: 32 :: v)).dropWhile isSpace) = v := by
    rw [List.drop_succ_cons, List.drop_succ_cons, List.drop_zero, hv.trimmed.dropWhile,
      trimDup_of_trimmed hv.trimmed]
  rw [parseLine, lineContent_item hv, leadingSpaces_indented (by simp)]
  simp only [isSkipped, parseListItem, hitem, topNode]
  rfl

end Item

section Key

variable {k : CStr} (hk : PlainKey k) (n : Nat)

include hk

theorem key_head (t : CStr) : ∀ c ∈ (k ++ t).head?, c ≠ 32 ∧ c ≠ 35 ∧ c ≠ 45 := by
  rw [head?_append_of_ne_nil hk.ne_nil]
  intro c hc
  refine ⟨hk.trimmed.head?_ne c hc, ?_, ?_⟩
  · rintro rfl
    exact hk.no_hash (List.mem_of_mem_head? hc)
  · rintro rfl
    exact hk.head hc

theorem isSkipped_key (t : CStr) : isSkipped (k ++ t) = false := by
  have hne : k ++ t ≠ [] := List.append_ne_nil_of_left_ne_nil hk.ne_nil t
  rw [isSkipped, decide_eq_false hne, Bool.false_or]
  exact decide_eq_false fun h => (key_head hk t 35 h).2.1 rfl

theorem peekIsList_key {t : CStr} (hlast : (k ++ t).getLast? ≠ some 13) :
    peekIsList (indented n (k ++ t) :: rest) = false := by
  rw [peekIsList, lineContent_indented (fun c hc => (key_head hk t c hc).1) hlast,
    isSkipped_key hk, if_neg Bool.false_ne_true]
  exact decide_eq_false fun h => (key_head hk t 45 h).2.2 rfl

theorem parseLine_key {t : CStr} (hlast : (k ++ t).getLast? ≠ some 13) :
    parseLine (indented n (k ++ t)) rest s =
      parseKeyLine (k ++ t) n rest (topNode (popStack n s.stack))
        { s with stack := popStack n s.stack } := by
  have hhead := key_head hk t
  have hitem : ¬ [45, 32] <+: k ++ t := by
    rintro ⟨u, hu⟩
    exact (hhead 45 (by rw [← hu]; rfl)).2.2 rfl
  rw [parseLine, lineContent_indented (fun c hc => (hhead c hc).1) hlast,
    leadingSpaces_indented fun c hc => (hhead c hc).1]
  dsimp only
  rw [isSkipped_key hk, if_neg Bool.false_ne_true, if_neg hitem]
  rfl

theorem parseLine_scalar {v : CStr} (hv : PlainScalar v) :
    parseLine (indented n (k ++ 58 :: 32 :: v)) rest s =
      { root := nodeAddChild s.root (topNode (popStack n s.stack))
          (nodeNew .scalar (some k) (some v))
        stack := popStack n s.stack } := by
  have hafter : (32 :: v).dropWhile isSpace = v := by
    rw [List.dropWhile_cons_of_pos rfl, hv.trimmed.dropWhile]
  rw [parseLine_key hk n (hv.getLast?_line k), parseKeyLine, hk.splitColon]
  dsimp only
  rw [hafter, hv.stripInlineComment, if_pos hv.ne_nil, trimDup_of_trimmed hk.trimmed,
    trimDup_of_trimmed hv.trimmed]

theorem parseLine_open :
    parseLine (indented n (k ++ [58])) rest s =
      { root := nodeAddChild s.root (topNode (popStack n s.stack))
          (nodeNew (if peekIsList rest then .list else .map) (some k) none)
        stack :=
          if (popStack n s.stack).length < stackRoom then
            { node := nextChild s.root (topNode (popStack n s.stack)), indent := n } ::
              popStack n s.stack
          else popStack n s.stack } := by
  rw [parseLine_key hk n (by simp), parseKeyLine, hk.splitColon]
  dsimp only
  rw [trimDup_of_trimmed hk.trimmed]
  rfl

end Key

theorem peekIsList_items {n : Nat} {items lines : List CStr} (h : PrintsItems n items lines)
    (hne : items ≠ []) (after : List CStr) : peekIsList (lines ++ after) = true := by
  induction h with
  | nil => exact absurd rfl hne
  | noise hline _ ih => rw [List.cons_append, peekIsList_noise hline, ih hne]
  | item _ hv _ => rw [List.cons_append, peekIsList_item hv]

theorem peekIsList_entries {n : Nat} {entries : List (CStr × Yaml)} {lines : List CStr}
    (h : PrintsEntries n entries lines) (hne : entries ≠ []) (after : List CStr) :
    peekIsList (lines ++ after) = false := by
  induction h with
  | nil => exact absurd rfl hne
  | noise hline _ ih => rw [List.cons_append, peekIsList_noise hline, ih hne]
  | @scalar n _ _ k v hk hv _ => exact peekIsList_key hk n (hv.getLast?_line k)
  | @list n _ _ _ _ k hk => exact peekIsList_key hk n (by simp)
  | @map n _ _ _ _ _ k hk => exact peekIsList_key hk n (by simp)

end Effects

end Foundation
end CodebaseMemory
