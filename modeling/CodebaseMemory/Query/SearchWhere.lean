import CodebaseMemory.Query.Glob
import CodebaseMemory.Query.Pieces

/-!
# The WHERE clause of a search (`src/store/store.c`)

`cbm_store_search` prints the conditions of its parameters one after the other and collects the
values for their placeholders in an array.

Allocation failures are left out, and an `int` holds the number of values.
-/

namespace CodebaseMemory
namespace Query

open Lib
open Sqlite (CStr bytesOf)

section Search

/-- The fields of `cbm_search_params_t` that the clause is built from; `none` is NULL. -/
structure SearchParams where
  project : Option CStr
  label : Option CStr
  namePattern : Option CStr
  qnPattern : Option CStr
  caseSensitive : Bool
  filePattern : Option CStr
  relationship : Option CStr
  excludeEntryPoints : Bool
  excludeLabels : Option (List CStr)

/-- `ST_SEARCH_MAX_BINDS` -/
def searchMaxBinds : Nat := 32

/-- `ST_LIKE_POOL_MAX` -/
def likePoolMax : Nat := 12

/-- `ST_LIKE_HINT_MAX` -/
def likeHintMax : Nat := 2

/-- `sizeof(where)` -/
def whereSize : Nat := 2048

/-- The characters that end a literal segment. -/
def isMeta (c : UInt8) : Bool :=
  (bytesOf ".*+?^$()[]\x7b\x7d").contains c

/-- A character goes to the buffer of 256 bytes if it has room. -/
def pushHint (buf : CStr) (c : UInt8) : CStr :=
  if buf.length < 255 then buf ++ [c] else buf

/-- The end of a segment, which counts from three characters on. -/
def flushHint (maxOut : Nat) (out : List CStr) (buf : CStr) : List CStr :=
  if buf.length ≥ 3 ∧ out.length < maxOut then out ++ [buf] else out

/-- The loop of `cbm_extract_like_hints`. -/
def hintLoop (maxOut : Nat) : CStr → CStr → List CStr → List CStr
  | [], buf, out => flushHint maxOut out buf
  | c :: rest, buf, out =>
      if c = 92 then
        match rest with
        | [] => flushHint maxOut out buf
        | d :: rest => hintLoop maxOut rest (pushHint buf d) out
      else if isMeta c then hintLoop maxOut rest [] (flushHint maxOut out buf)
      else hintLoop maxOut rest (pushHint buf c) out

def cbmExtractLikeHints (pattern : CStr) (maxOut : Nat) : List CStr :=
  if 124 ∈ pattern then [] else hintLoop maxOut pattern [] []

def makeLikeHint (literal : CStr) : CStr :=
  37 :: literal ++ [37]

theorem length_hintLoop_le (maxOut : Nat) (pattern buf : CStr) (out : List CStr)
    (h : out.length ≤ maxOut) : (hintLoop maxOut pattern buf out).length ≤ maxOut := by
  have hflush : ∀ buf, (flushHint maxOut out buf).length ≤ maxOut := by
    intro buf
    rw [flushHint]
    split
    · next hroom =>
        rw [List.length_append, List.length_singleton]
        exact hroom.2
    · exact h
  fun_induction hintLoop maxOut pattern buf out with
  | case1 buf out => exact hflush buf
  | case2 buf out => exact hflush buf
  | case3 buf out d rest ih => exact ih h hflush
  | case4 c rest buf out hc hmeta ih =>
      have hout := hflush buf
      refine ih hout fun buf' => ?_
      rw [flushHint]
      split
      · next hroom =>
          rw [List.length_append, List.length_singleton]
          exact hroom.2
      · exact hout
  | case5 c rest buf out hc hmeta ih => exact ih h hflush

theorem length_hints_le (pattern : CStr) :
    (cbmExtractLikeHints pattern likeHintMax).length ≤ 2 := by
  rw [cbmExtractLikeHints]
  split
  · exact Nat.zero_le _
  · exact length_hintLoop_le likeHintMax pattern [] [] (Nat.zero_le _)

/-- What the builders share: `text` is what they would print with room, so that its length is
`wlen`, and `pool` is the number of texts in the pool. -/
structure Building where
  text : CStr
  nparams : Nat
  binds : List CStr
  pool : Nat

def whereAppend (b : Building) (cond : CStr) : Building :=
  { b with
    text := (if b.nparams > 0 then b.text ++ bytesOf " AND " else b.text) ++ cond
    nparams := b.nparams + 1 }

def whereBindText (b : Building) (val : CStr) : Building :=
  { b with binds := b.binds ++ [val] }

/-- A condition with one placeholder, which is printed into a buffer of `size` bytes first. -/
def whereAddParam (b : Building) (size : Nat) (before val after : CStr) : Building :=
  whereBindText (whereAppend b
    (snprintfAt size [] (before ++ param (b.binds.length + 1) ++ after))) val

def whereAddRegex (b : Building) (column pattern : CStr) (caseSensitive : Bool) : Building :=
  if caseSensitive then whereAddParam b 128 (column ++ bytesOf " REGEXP ") pattern []
  else whereAddParam b 128 (bytesOf "iregexp(") pattern (bytesOf ", " ++ column ++ bytesOf ")")

/-- A text goes to the pool, and its condition to the clause, unless the pool is full. -/
def whereAddLike (column : CStr) (b : Building) (like : CStr) : Building :=
  if b.pool ≥ likePoolMax then b
  else whereAddParam { b with pool := b.pool + 1 } 64 (column ++ bytesOf " LIKE ") like []

def whereAddLikeHints (b : Building) (column pattern : CStr) : Building :=
  ((cbmExtractLikeHints pattern likeHintMax).map makeLikeHint).foldl (whereAddLike column) b

/-- The hints and the regular expression of a pattern, if there is one. -/
def whereAddPattern (b : Building) (column : CStr) (pattern : Option CStr) (caseSensitive : Bool) :
    Building :=
  match pattern with
  | none => b
  | some pattern =>
      whereAddRegex (whereAddLikeHints b column pattern) column pattern caseSensitive

/-- The LIKE pattern of `file_pattern`: without a wildcard it may stand anywhere in the path. -/
def fileLike (pattern : CStr) : CStr :=
  if 42 ∉ pattern ∧ 63 ∉ pattern then makeLikeHint (cbmGlobToLike pattern)
  else cbmGlobToLike pattern

/-- A condition for a parameter that may be NULL. -/
def whereAddOption (b : Building) (size : Nat) (before : CStr) (val : Option CStr) (after : CStr) :
    Building :=
  match val with
  | none => b
  | some val => whereAddParam b size before val after

def searchWhereBasic (p : SearchParams) (b : Building) : Building :=
  let b := whereAddOption b 64 (bytesOf "n.project = ") p.project []
  let b := whereAddOption b 64 (bytesOf "n.label = ") p.label []
  let b := whereAddPattern b (bytesOf "n.name") p.namePattern p.caseSensitive
  let b := whereAddPattern b (bytesOf "n.qualified_name") p.qnPattern p.caseSensitive
  (p.filePattern.toList.map fileLike).foldl (whereAddLike (bytesOf "n.file_path")) b

/-- The condition of `relationship`, up to the type. -/
def linkedBy : CStr :=
  bytesOf ("EXISTS(SELECT 1 FROM edges e WHERE " ++
    "(e.source_id = n.id OR e.target_id = n.id) AND e.type = ")

/-- The condition of `exclude_entry_points`. -/
def noEntryPoint : CStr :=
  bytesOf ("NOT (NOT EXISTS(SELECT 1 FROM edges e WHERE e.target_id = n.id " ++
    "AND e.type = 'CALLS') AND EXISTS(SELECT 1 FROM edges e2 WHERE e2.source_id = n.id " ++
    "AND e2.type = 'CALLS'))")

/-- The loop of `search_build_exclude_labels`: the clause and the values. -/
def excludeLoop : Nat → List CStr → CStr × List CStr → CStr × List CStr
  | _, [], s => s
  | i, label :: labels, s =>
      let clause := if i > 0 then snprintfAt 512 s.1 (bytesOf ",") else s.1
      excludeLoop (i + 1) labels
        (snprintfAt 512 clause (param (s.2.length + 1)), s.2 ++ [label])

def searchBuildExcludeLabels (labels binds : List CStr) : CStr × List CStr :=
  let s := excludeLoop 0 labels (snprintfAt 512 [] (bytesOf "n.label NOT IN ("), binds)
  (snprintfAt 512 s.1 (bytesOf ")"), s.2)

def searchWhereAdvanced (p : SearchParams) (b : Building) : Building :=
  let b := whereAddOption b 256 linkedBy p.relationship (bytesOf ")")
  let b := if p.excludeEntryPoints then whereAppend b noEntryPoint else b
  match p.excludeLabels with
  | none => b
  | some labels =>
      let excl := searchBuildExcludeLabels labels b.binds
      whereAppend { b with binds := excl.2 } excl.1

def searchBuildWhere (p : SearchParams) : Building :=
  searchWhereAdvanced p (searchWhereBasic p ⟨[], 0, [], 0⟩)

end Search

section Conditions

def condition (before v after : CStr) : List Piece :=
  [.text before, .value v, .text after]

/-- The condition of a parameter, if it is given. -/
def optionConds (before : CStr) (val : Option CStr) (after : CStr) : List (List Piece) :=
  val.toList.map fun v => condition before v after

def likeConds (column : CStr) (likes : List CStr) : List (List Piece) :=
  likes.map fun like => condition (column ++ bytesOf " LIKE ") like []

/-- The condition that a column matches a pattern, behind those of its literal segments. -/
def patternConds (column : CStr) (pattern : Option CStr) (caseSensitive : Bool) :
    List (List Piece) :=
  match pattern with
  | none => []
  | some pattern =>
      likeConds column ((cbmExtractLikeHints pattern likeHintMax).map makeLikeHint) ++
        [if caseSensitive then condition (column ++ bytesOf " REGEXP ") pattern []
          else condition (bytesOf "iregexp(") pattern (bytesOf ", " ++ column ++ bytesOf ")")]

/-- The labels from the `i`-th on, with commas before all but the first. -/
def labelPieces : Nat → List CStr → List Piece
  | _, [] => []
  | i, label :: labels =>
      (if i > 0 then [.text (bytesOf ",")] else []) ++ .value label :: labelPieces (i + 1) labels

def excludeCond (labels : List CStr) : List Piece :=
  .text (bytesOf "n.label NOT IN (") :: (labelPieces 0 labels ++ [.text (bytesOf ")")])

/-- `search_where_basic` -/
def basicConds (p : SearchParams) : List (List Piece) :=
  optionConds (bytesOf "n.project = ") p.project [] ++
  optionConds (bytesOf "n.label = ") p.label [] ++
  patternConds (bytesOf "n.name") p.namePattern p.caseSensitive ++
  patternConds (bytesOf "n.qualified_name") p.qnPattern p.caseSensitive ++
  likeConds (bytesOf "n.file_path") (p.filePattern.toList.map fileLike)

/-- The conditions without the labels that are excluded. -/
def otherConds (p : SearchParams) : List (List Piece) :=
  basicConds p ++
  optionConds linkedBy p.relationship (bytesOf ")") ++
  if p.excludeEntryPoints then [[.text noEntryPoint]] else []

def conditions (p : SearchParams) : List (List Piece) :=
  otherConds p ++ (p.excludeLabels.toList.map excludeCond)

/-- The values of a pattern: its hints and itself. -/
def patternBinds : Option CStr → Nat
  | none => 0
  | some pattern => (cbmExtractLikeHints pattern likeHintMax).length + 1

/-- The number of values that the parameters ask to bind. -/
def bindCount (p : SearchParams) : Nat :=
  p.project.toList.length + p.label.toList.length + patternBinds p.namePattern +
    patternBinds p.qnPattern + p.filePattern.toList.length + p.relationship.toList.length +
    (p.excludeLabels.getD []).length

theorem values_conjunction (cs : List (List Piece)) :
    values (conjunction cs) = cs.flatMap values := by
  have hrest : ∀ cs : List (List Piece),
      values (cs.flatMap fun d => .text (bytesOf " AND ") :: d) = cs.flatMap values := by
    intro cs
    induction cs with
    | nil => rfl
    | cons c cs ih => rw [List.flatMap_cons, List.flatMap_cons, values_append, ih, values]
  cases cs with
  | nil => rfl
  | cons c cs => rw [conjunction, values_append, hrest, List.flatMap_cons]

theorem values_labelPieces (labels : List CStr) (i : Nat) :
    values (labelPieces i labels) = labels := by
  induction labels generalizing i with
  | nil => rfl
  | cons label labels ih =>
      rw [labelPieces, values_append, values, ih]
      split <;> rfl

theorem flatMap_values_optionConds (before : CStr) (val : Option CStr) (after : CStr) :
    (optionConds before val after).flatMap values = val.toList := by
  cases val <;> rfl

theorem flatMap_values_likeConds (column : CStr) (likes : List CStr) :
    (likeConds column likes).flatMap values = likes := by
  rw [likeConds, List.flatMap_map]
  exact List.flatMap_singleton' likes

theorem length_values_patternConds (column : CStr) (pattern : Option CStr)
    (caseSensitive : Bool) :
    ((patternConds column pattern caseSensitive).flatMap values).length = patternBinds pattern := by
  cases pattern with
  | none => rfl
  | some pattern =>
      rw [patternConds, List.flatMap_append, flatMap_values_likeConds, List.length_append,
        List.length_map, patternBinds, List.flatMap_singleton]
      split <;> rfl

theorem length_values_conditions (p : SearchParams) :
    (values (conjunction (conditions p))).length = bindCount p := by
  have hexcl : ((p.excludeLabels.toList.map excludeCond).flatMap values).length =
      (p.excludeLabels.getD []).length := by
    cases p.excludeLabels with
    | none => rfl
    | some labels =>
        change (values (excludeCond labels) ++ []).length = labels.length
        rw [List.append_nil, excludeCond, values, values_append, values_labelPieces]
        exact congrArg List.length (List.append_nil labels)
  have hentry : ((if p.excludeEntryPoints then [[Piece.text noEntryPoint]] else []).flatMap
      values) = [] := by
    split <;> rfl
  rw [values_conjunction, conditions, otherConds, basicConds]
  simp only [List.flatMap_append, List.length_append, flatMap_values_optionConds,
    flatMap_values_likeConds, length_values_patternConds, hexcl, hentry, List.length_nil,
    List.length_map, bindCount]
  omega

end Conditions

section Represents

/-- The conditions `cs` are printed, in at most `r` bytes, and their values bound, at most `k`. -/
structure Represents (b : Building) (cs : List (List Piece)) (k r : Nat) : Prop where
  text : b.text = printPieces 0 (conjunction cs)
  nparams : b.nparams = cs.length
  binds : b.binds = values (conjunction cs)
  readable : Readable (conjunction cs)
  few : b.binds.length ≤ k
  pool : b.pool ≤ k
  room : b.text.length ≤ r

/-- The texts around a value hold no placeholder, and no digit follows the value. -/
def Around (before after : CStr) : Prop :=
  63 ∉ before ∧ 63 ∉ after ∧ after.head?.any isDigit = false

instance (before after : CStr) : Decidable (Around before after) :=
  inferInstanceAs (Decidable (_ ∧ _ ∧ _))

theorem Around.readable {before after : CStr} (h : Around before after) (v : CStr) :
    Readable (condition before v after) := by
  refine ⟨h.1, ?_, h.2.1, trivial⟩
  intro n c hc
  rw [printPieces, printPieces, List.append_nil] at hc
  have hfirst := h.2.2
  rw [Option.mem_def.mp hc] at hfirst
  exact hfirst

variable {b : Building}
variable {cs : List (List Piece)}
variable {k r : Nat}

theorem Represents.mono (h : Represents b cs k r) {k' r' : Nat} (hk : k ≤ k') (hr : r ≤ r') :
    Represents b cs k' r' :=
  { h with
    few := le_trans h.few hk
    pool := le_trans h.pool hk
    room := le_trans h.room hr }

theorem Represents.add (h : Represents b cs k r) {c : List Piece} {k' len pool : Nat}
    (hk : k + (values c).length ≤ k') (hpool : pool ≤ k') (hread : Readable c) {cond : CStr}
    (hcond : cond = printPieces b.binds.length c) (hlen : cond.length ≤ len) :
    Represents { whereAppend b cond with
      binds := b.binds ++ values c
      pool := pool } (cs ++ [c]) k' (r + len + 5) := by
  have hfew := h.few
  have hroom := h.room
  have hbinds : (b.binds ++ values c).length ≤ k' := by
    rw [List.length_append]
    omega
  have hnparams : b.nparams + 1 = (cs ++ [c]).length := by
    rw [List.length_append, h.nparams]
    rfl
  cases cs with
  | nil =>
      have hnone : b.nparams = 0 := h.nparams
      have hempty : b.binds = [] := h.binds
      have htext : b.text = [] := h.text
      refine ⟨?_, hnparams, ?_, ?_, hbinds, hpool, ?_⟩
      · simp [whereAppend, hnone, htext, hcond, hempty, conjunction]
      · simp [hempty, conjunction]
      · simpa [conjunction] using hread
      · simp only [whereAppend, hnone, htext, Nat.lt_irrefl, gt_iff_lt, if_false, List.nil_append]
        omega
  | cons d cs =>
      have hsome : b.nparams > 0 := by
        rw [h.nparams]
        exact Nat.succ_pos _
      have hconj := conjunction_append_singleton (List.cons_ne_nil d cs) c
      refine ⟨?_, hnparams, ?_, ?_, hbinds, hpool, ?_⟩
      · rw [hconj, printPieces_append, ← h.binds, ← h.text, printPieces, Nat.zero_add, ← hcond]
        simp only [whereAppend, if_pos hsome, List.append_assoc]
      · rw [hconj, values_append, ← h.binds]
        rfl
      · rw [hconj]
        exact h.readable.append ⟨by decide, hread⟩ (noDigit_text c (by decide) (by decide))
      · have hand : (bytesOf " AND ").length = 5 := by decide
        simp only [whereAppend, if_pos hsome, List.length_append, hand]
        omega

theorem Represents.addParam (h : Represents b cs k r) {size : Nat} {before after : CStr}
    (v : CStr) {pool : Nat} (hpool : pool ≤ k + 1) (hk : k < 99) (haround : Around before after)
    (hsize : before.length + after.length + 3 < size) :
    Represents (whereAddParam { b with pool := pool } size before v after)
      (cs ++ [condition before v after]) (k + 1) (r + (before.length + after.length + 3) + 5) := by
  have hfew := h.few
  have hparam : (param (b.binds.length + 1)).length ≤ 3 := length_param_le (by omega)
  have hlen : (before ++ param (b.binds.length + 1) ++ after).length ≤
      before.length + after.length + 3 := by
    rw [List.length_append, List.length_append]
    omega
  have hcond : snprintfAt size [] (before ++ param (b.binds.length + 1) ++ after) =
      printPieces b.binds.length (condition before v after) := by
    rw [snprintfAt, List.nil_append, List.take_of_length_le (by omega)]
    simp only [condition, printPieces, List.append_nil, List.append_assoc]
  refine h.add (c := condition before v after) (Nat.le_refl (k + 1)) hpool
    (haround.readable v) hcond ?_
  exact (List.length_take_le' _ _).trans hlen

theorem Represents.addOption (h : Represents b cs k r) (size : Nat) (before : CStr)
    (val : Option CStr) (after : CStr) (hk : k < 99) (haround : Around before after)
    (hsize : before.length + after.length + 3 < size) :
    Represents (whereAddOption b size before val after) (cs ++ optionConds before val after)
      (k + 1) (r + (before.length + after.length + 3) + 5) := by
  cases val with
  | none =>
      rw [optionConds, Option.toList_none, List.map_nil, List.append_nil]
      exact h.mono (Nat.le_succ k) (by omega)
  | some v => exact h.addParam v (Nat.le_succ_of_le h.pool) hk haround hsize

theorem around_column {column after : CStr} (hcolumn : 63 ∉ column) (h : Around after []) :
    Around (column ++ after) [] := by
  refine ⟨?_, h.2⟩
  rw [List.mem_append, not_or]
  exact ⟨hcolumn, h.1⟩

theorem Represents.addLikes (h : Represents b cs k r) (column : CStr) (likes : List CStr)
    (hk : k + likes.length ≤ likePoolMax) (hcolumn : 63 ∉ column) (hsize : column.length < 20) :
    Represents (likes.foldl (whereAddLike column) b) (cs ++ likeConds column likes)
      (k + likes.length) (r + 33 * likes.length) := by
  induction likes generalizing b cs k r with
  | nil =>
      rw [likeConds, List.map_nil, List.append_nil]
      exact h
  | cons like likes ih =>
      rw [List.length_cons, likePoolMax] at hk
      have hpool := h.pool
      have hfree : ¬ b.pool ≥ likePoolMax := by
        rw [likePoolMax]
        omega
      have hlike : (bytesOf " LIKE ").length = 6 := by decide
      have hlen : (column ++ bytesOf " LIKE ").length + ([] : CStr).length + 3 ≤ 28 := by
        rw [List.length_append, List.length_nil, hlike]
        omega
      have hstep : Represents (whereAddParam { b with pool := b.pool + 1 } 64
          (column ++ bytesOf " LIKE ") like [])
          (cs ++ [condition (column ++ bytesOf " LIKE ") like []]) (k + 1) (r + 28 + 5) :=
        (h.addParam like (by omega) (by omega) (around_column hcolumn (by decide))
          (by omega)).mono (Nat.le_refl _) (by omega)
      have hrest := ih hstep (by rw [likePoolMax]; omega)
      rw [List.append_assoc] at hrest
      rw [List.foldl_cons, whereAddLike, if_neg hfree]
      refine Represents.mono hrest ?_ ?_
      · rw [List.length_cons]
        omega
      · rw [List.length_cons]
        omega

theorem Represents.addPattern (h : Represents b cs k r) (column : CStr) (pattern : Option CStr)
    (caseSensitive : Bool) (hk : k + 3 ≤ likePoolMax) (hcolumn : 63 ∉ column)
    (hsize : column.length < 20) :
    Represents (whereAddPattern b column pattern caseSensitive)
      (cs ++ patternConds column pattern caseSensitive) (k + 3) (r + 104) := by
  cases pattern with
  | none =>
      rw [patternConds, List.append_nil]
      exact h.mono (by omega) (by omega)
  | some pattern =>
      have hfew := length_hints_le pattern
      have hlikes : Represents (whereAddLikeHints b column pattern) (cs ++ likeConds column
          ((cbmExtractLikeHints pattern likeHintMax).map makeLikeHint)) (k + 2) (r + 66) := by
        refine (h.addLikes column _ ?_ hcolumn hsize).mono ?_ ?_
        all_goals
          rw [List.length_map]
          omega
      rw [likePoolMax] at hk
      rw [whereAddPattern, whereAddRegex, patternConds, ← List.append_assoc]
      have hlits : (bytesOf " REGEXP ").length = 8 ∧ (bytesOf "iregexp(").length = 8 ∧
          (bytesOf ", ").length = 2 ∧ (bytesOf ")").length = 1 := by decide
      obtain ⟨h₁, h₂, h₃, h₄⟩ := hlits
      split
      · have hlen : (column ++ bytesOf " REGEXP ").length + ([] : CStr).length + 3 ≤ 33 := by
          rw [List.length_append, List.length_nil, h₁]
          omega
        exact (hlikes.addParam pattern (Nat.le_succ_of_le hlikes.pool) (by omega)
          (around_column hcolumn (by decide)) (by omega)).mono (Nat.le_refl _) (by omega)
      · have hlen : (bytesOf "iregexp(").length +
            (bytesOf ", " ++ column ++ bytesOf ")").length + 3 ≤ 33 := by
          simp only [List.length_append, h₂, h₃, h₄]
          omega
        have haround : Around (bytesOf "iregexp(") (bytesOf ", " ++ column ++ bytesOf ")") := by
          refine ⟨by decide, ?_, ?_⟩
          · rw [List.mem_append, List.mem_append, not_or, not_or]
            exact ⟨⟨by decide, hcolumn⟩, by decide⟩
          · rfl
        exact (hlikes.addParam pattern (Nat.le_succ_of_le hlikes.pool) (by omega)
          haround (by omega)).mono (Nat.le_refl _) (by omega)

theorem represents_searchWhereBasic (p : SearchParams) :
    Represents (searchWhereBasic p ⟨[], 0, [], 0⟩) (basicConds p) 9 300 := by
  have hnone : Represents ⟨[], 0, [], 0⟩ [] 0 0 :=
    ⟨rfl, rfl, rfl, trivial, Nat.le_refl 0, Nat.le_refl 0, Nat.le_refl 0⟩
  have hproject := hnone.addOption 64 (bytesOf "n.project = ") p.project [] (by decide)
    (by decide) (by decide)
  have hlabel := hproject.addOption 64 (bytesOf "n.label = ") p.label [] (by decide) (by decide)
    (by decide)
  have hname := hlabel.addPattern (bytesOf "n.name") p.namePattern p.caseSensitive (by decide)
    (by decide) (by decide)
  have hqn := hname.addPattern (bytesOf "n.qualified_name") p.qnPattern p.caseSensitive
    (by decide) (by decide) (by decide)
  have hlen : (p.filePattern.toList.map fileLike).length ≤ 1 := by
    cases p.filePattern <;> simp
  have hfile := hqn.addLikes (bytesOf "n.file_path") (p.filePattern.toList.map fileLike)
    (by rw [likePoolMax]; omega) (by decide) (by decide)
  have hlits : (bytesOf "n.project = ").length = 12 ∧ (bytesOf "n.label = ").length = 10 := by
    decide
  refine hfile.mono (by omega) ?_
  rw [hlits.1, hlits.2, List.length_nil]
  omega

def beforeExclude (p : SearchParams) : Building :=
  let b := whereAddOption (searchWhereBasic p ⟨[], 0, [], 0⟩) 256 linkedBy p.relationship
    (bytesOf ")")
  if p.excludeEntryPoints then whereAppend b noEntryPoint else b

theorem represents_beforeExclude (p : SearchParams) :
    Represents (beforeExclude p) (otherConds p) 10 700 := by
  have hlits : linkedBy.length ≤ 100 ∧ noEntryPoint.length ≤ 200 ∧ (bytesOf ")").length = 1 := by
    decide +kernel
  have hrel := (represents_searchWhereBasic p).addOption 256 linkedBy p.relationship
    (bytesOf ")") (by decide) (by decide +kernel) (by omega)
  rw [beforeExclude, otherConds]
  by_cases hentry : p.excludeEntryPoints = true
  · rw [if_pos hentry, if_pos hentry]
    have hadd := hrel.add (c := [.text noEntryPoint]) (Nat.le_refl 10) hrel.pool
      ⟨by decide +kernel, trivial⟩ (List.append_nil noEntryPoint).symm hlits.2.1
    rw [values, values, List.append_nil] at hadd
    exact hadd.mono (Nat.le_refl 10) (by omega)
  · rw [if_neg hentry, if_neg hentry, List.append_nil]
    exact hrel.mono (Nat.le_refl 10) (by omega)

theorem snprintfAt_take (size : Nat) (text piece : CStr) :
    snprintfAt size (text.take (size - 1)) piece = (text ++ piece).take (size - 1) := by
  have h := foldl_snprintfAt size [piece] text
  rw [List.flatten_singleton] at h
  exact h

theorem excludeLoop_eq (labels : List CStr) (i : Nat) (text : CStr) (binds : List CStr) :
    excludeLoop i labels (text.take 511, binds) =
      ((text ++ printPieces binds.length (labelPieces i labels)).take 511, binds ++ labels) := by
  induction labels generalizing i text binds with
  | nil => rw [excludeLoop, labelPieces, printPieces, List.append_nil, List.append_nil]
  | cons label labels ih =>
      have hprint : printPieces binds.length (labelPieces i (label :: labels)) =
          (if i > 0 then bytesOf "," else []) ++ (param (binds.length + 1) ++
            printPieces (binds ++ [label]).length (labelPieces (i + 1) labels)) := by
        rw [labelPieces, List.length_append]
        split <;> rfl
      have hsep : (if i > 0 then snprintfAt 512 (text.take 511) (bytesOf ",") else
          text.take 511) = (text ++ if i > 0 then bytesOf "," else []).take 511 := by
        split
        · exact snprintfAt_take 512 text (bytesOf ",")
        · rw [List.append_nil]
      rw [excludeLoop]
      dsimp only
      rw [hsep, snprintfAt_take 512, ih, hprint]
      simp only [List.append_assoc, List.cons_append, List.nil_append]

theorem searchBuildExcludeLabels_eq (labels binds : List CStr) :
    searchBuildExcludeLabels labels binds =
      ((printPieces binds.length (excludeCond labels)).take 511, binds ++ labels) := by
  have hstart : snprintfAt 512 [] (bytesOf "n.label NOT IN (") =
      (bytesOf "n.label NOT IN (").take 511 := rfl
  rw [searchBuildExcludeLabels, hstart, excludeLoop_eq]
  dsimp only
  rw [snprintfAt_take 512, excludeCond, printPieces, printPieces_append, List.append_assoc]
  simp only [printPieces, List.append_nil]

theorem length_labelPieces_le (labels : List CStr) (i : Nat) {n : Nat}
    (h : n + labels.length < 100) :
    (printPieces n (labelPieces i labels)).length ≤ 4 * labels.length := by
  induction labels generalizing i n with
  | nil => exact Nat.le_refl 0
  | cons label labels ih =>
      rw [List.length_cons] at h
      have hrest := ih (i + 1) (n := n + 1) (by omega)
      have hparam : (param (n + 1)).length ≤ 3 := length_param_le (by omega)
      have hcomma : (bytesOf ",").length = 1 := by decide
      rw [labelPieces, List.length_cons]
      split
      · rw [List.singleton_append, printPieces, printPieces, List.length_append,
          List.length_append, hcomma]
        omega
      · rw [List.nil_append, printPieces, List.length_append]
        omega

theorem readable_labelPieces (labels : List CStr) (i : Nat) :
    Readable (labelPieces i labels ++ [.text (bytesOf ")")]) := by
  induction labels generalizing i with
  | nil => exact ⟨by decide, trivial⟩
  | cons label labels ih =>
      have hdigit : NoDigit (labelPieces (i + 1) labels ++ [.text (bytesOf ")")]) := by
        cases labels with
        | nil => exact noDigit_text _ (by decide) (by decide)
        | cons next labels =>
            rw [labelPieces, if_pos (Nat.succ_pos i)]
            exact noDigit_text _ (by decide) (by decide)
      rw [labelPieces]
      split
      · exact ⟨by decide, hdigit, ih (i + 1)⟩
      · exact ⟨hdigit, ih (i + 1)⟩

theorem searchBuildWhere_eq (p : SearchParams) :
    searchBuildWhere p = match p.excludeLabels with
      | none => beforeExclude p
      | some labels =>
          whereAppend { beforeExclude p with binds := (beforeExclude p).binds ++ labels }
            ((printPieces (beforeExclude p).binds.length (excludeCond labels)).take 511) := by
  rw [searchBuildWhere, searchWhereAdvanced]
  cases p.excludeLabels with
  | none => rfl
  | some labels =>
      dsimp only
      rw [searchBuildExcludeLabels_eq]
      rfl

theorem values_excludeCond (labels : List CStr) : values (excludeCond labels) = labels := by
  rw [excludeCond, values, values_append, values_labelPieces]
  exact List.append_nil labels

theorem binds_searchBuildWhere (p : SearchParams) :
    (searchBuildWhere p).binds = values (conjunction (conditions p)) := by
  have hbefore := (represents_beforeExclude p).binds
  rw [values_conjunction] at hbefore
  rw [searchBuildWhere_eq, conditions, values_conjunction, List.flatMap_append, ← hbefore]
  cases p.excludeLabels with
  | none => exact (List.append_nil _).symm
  | some labels =>
      change _ = _ ++ (values (excludeCond labels) ++ [])
      rw [values_excludeCond, List.append_nil]
      rfl

theorem represents_searchBuildWhere (p : SearchParams) (hroom : bindCount p ≤ searchMaxBinds) :
    Represents (searchBuildWhere p) (conditions p) 42 900 := by
  have h := represents_beforeExclude p
  have hfew := h.few
  have hlabels : (p.excludeLabels.getD []).length ≤ 32 := by
    rw [bindCount, searchMaxBinds] at hroom
    omega
  rw [searchBuildWhere_eq, conditions]
  cases hexcl : p.excludeLabels with
  | none =>
      rw [Option.toList_none, List.map_nil, List.append_nil]
      exact h.mono (by omega) (by omega)
  | some labels =>
      rw [hexcl, Option.getD_some] at hlabels
      have hlits : (bytesOf "n.label NOT IN (").length = 16 ∧ (bytesOf ")").length = 1 := by
        decide
      have hlen : (printPieces (beforeExclude p).binds.length (excludeCond labels)).length ≤
          145 := by
        have hpieces : (printPieces (beforeExclude p).binds.length (labelPieces 0 labels)).length ≤
            4 * labels.length := length_labelPieces_le labels 0 (by omega)
        rw [excludeCond, printPieces, printPieces_append, List.length_append,
          List.length_append, printPieces, printPieces, List.append_nil, hlits.1, hlits.2]
        omega
      have hcond : (printPieces (beforeExclude p).binds.length (excludeCond labels)).take 511 =
          printPieces (beforeExclude p).binds.length (excludeCond labels) :=
        List.take_of_length_le (by omega)
      have hpool := h.pool
      have hadd : Represents _ _ 42 (700 + 145 + 5) :=
        h.add (c := excludeCond labels) (by rw [values_excludeCond]; omega)
          (hpool.trans (by omega)) ⟨by decide, readable_labelPieces labels 0⟩ hcond
          (by rw [hcond]; exact hlen)
      rw [values_excludeCond] at hadd
      exact hadd.mono (Nat.le_refl 42) (by omega)

end Represents

section Fits

/-- The values fit the array, the text is not cut, and the placeholder of each number in it stands
for the value of that number. -/
structure SearchFits (p : SearchParams) : Prop where
  binds : (searchBuildWhere p).binds.length ≤ searchMaxBinds
  uncut : (searchBuildWhere p).text.length < whereSize
  params : paramsIn ((searchBuildWhere p).text.take (whereSize - 1)) =
    List.range' 1 (searchBuildWhere p).binds.length
  text : (searchBuildWhere p).text = printPieces 0 (conjunction (conditions p))
  values : (searchBuildWhere p).binds = values (conjunction (conditions p))

/-- The parameters must not ask for more than 32 values. -/
theorem searchFits_iff (p : SearchParams) : SearchFits p ↔ bindCount p ≤ searchMaxBinds := by
  have hbinds := binds_searchBuildWhere p
  have hcount := length_values_conditions p
  rw [← hbinds] at hcount
  constructor
  · intro h
    rw [← hcount]
    exact h.binds
  · intro hroom
    have h := represents_searchBuildWhere p hroom
    have huncut : (searchBuildWhere p).text.length < whereSize :=
      lt_of_le_of_lt h.room (by decide)
    refine ⟨hcount.trans_le hroom, huncut, ?_, h.text, hbinds⟩
    rw [List.take_of_length_le (show _ ≤ whereSize - 1 from Nat.le_pred_of_lt huncut), h.text,
      paramsIn_printPieces h.readable, ← hbinds]

def manyLabels : SearchParams :=
  { project := none
    label := none
    namePattern := none
    qnPattern := none
    caseSensitive := false
    filePattern := none
    relationship := none
    excludeEntryPoints := false
    excludeLabels := some (List.replicate 33 (bytesOf "Section")) }

theorem not_searchFits_manyLabels : ¬ SearchFits manyLabels := by
  intro h
  have hcount : bindCount manyLabels = 33 := by decide
  have hbinds := h.binds
  rw [h.values, length_values_conditions, hcount] at hbinds
  exact absurd hbinds (by decide)

end Fits

end Query
end CodebaseMemory
