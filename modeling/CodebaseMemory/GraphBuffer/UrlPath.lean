import CodebaseMemory.GraphBuffer.Dump
import CodebaseMemory.GraphBuffer.Merge
import CodebaseMemory.Lib.Json
import CodebaseMemory.Sqlite.IndexOrder
import Mathlib.Data.List.Infix
import Mathlib.Data.List.TakeWhile

/-!
# The index over the generated column `url_path_gen`

The column is `GENERATED ALWAYS AS (json_extract(properties,'$.url_path'))`,
but SQLite never evaluates it for a dump: `extract_url_path` reads the value
out of the properties, `cmp_edge_by_url_path` sorts by it and `ecell_url_path`
writes it.  Such an index is sound only if its keys are the values of the
column.

Two libraries read the same text.  `yyjson_read` with no flags accepts RFC 8259
JSON only; `json1`, the reader of SQLite, accepts more (JSON5), and rejects
what is nested too deeply.  Both are parameters, `Readers` says what is assumed
of them.
-/

namespace CodebaseMemory
namespace GraphBuffer

open Lib
open Sqlite (CStr DumpEdge bytesOf strcmp cmpI64 sortRows cmpEdgeByUrlPath ecellUrlPath
  RecordBuilder recInit recAddNull recAddText recAddInt recFinalize indexCell compares_strcmp)

def urlPathName : CStr :=
  bytesOf "url_path"

/-- What `extract_url_path` looks for before it reads the JSON. -/
def urlPathNeedle : CStr :=
  bytesOf "\"url_path\""

/-- `extract_url_path`.  The value is copied up to its first zero byte. -/
def extractUrlPath (yyjsonRead : CStr → Option Json) (props : CStr) : Option CStr :=
  if ¬ urlPathNeedle <:+: props then none
  else
    match yyjsonRead props with
    | none => none
    | some root =>
        match root.objGet urlPathName with
        | some (.str _ sv) => some (sv.takeWhile (· ≠ 0))
        | _ => none

/-- The url of `ecell_url_path`: a missing or empty one is a null pointer. -/
def keyOf (url : Option CStr) : Option CStr :=
  match url.getD [] with
  | [] => none
  | c :: cs => some (c :: cs)

def urlPathKey (e : DumpEdge) : Option CStr :=
  keyOf e.urlPath

def urlPathEntry (project key : Option CStr) (rowid : Int) : List UInt8 :=
  let r := recAddText recInit project
  let r := match key with
    | none => recAddNull r
    | some url => recAddText r (some url)
  indexCell (recFinalize (recAddInt r rowid))

/-- Where an entry of one project belongs: NULL before every text, texts in the
order of their bytes, equal keys in the order of the rows. -/
def entryPos (key : Option CStr) (rowid : Int) : WithBot (List ℕ) ×ₗ ℤ :=
  toLex (key.map (·.map UInt8.toNat), rowid)

theorem ecellUrlPath_eq (e : DumpEdge) :
    ecellUrlPath e = urlPathEntry e.project (urlPathKey e) e.id := by
  unfold ecellUrlPath urlPathKey keyOf
  cases e.urlPath.getD [] with
  | nil => rfl
  | cons c cs => rfl

/-- What `json_extract` returns.  A number is given by its spelling. -/
inductive SqlValue where
  | null
  | number (spelling : CStr)
  | text (bytes : CStr)
deriving DecidableEq

/-- The value of a JSON element: text for a string, JSON text for an array or
an object, 1 and 0 for the booleans. -/
def SqlValue.ofJson : Json → SqlValue
  | .null => .null
  | .bool true => .number (bytesOf "1")
  | .bool false => .number (bytesOf "0")
  | .num spelling => .number spelling
  | .str _ value => .text value
  | .arr items => .text (Json.arr items).text
  | .obj members => .text (Json.obj members).text

def SqlValue.ofKey : Option CStr → SqlValue
  | none => .null
  | some url => .text url

/-- `json_extract(properties,'$.url_path')`; malformed JSON is an error. -/
def jsonExtract (json1 : CStr → Option Json) (props : CStr) : Option SqlValue :=
  (json1 props).map fun root =>
    match root.objGet urlPathName with
    | none => .null
    | some v => .ofJson v

/-- What the two libraries promise of a JSON text. -/
structure Readers (yyjsonRead json1 : CStr → Option Json) : Prop where
  yyjson : ∀ {s v}, yyjsonRead s = some v → Json.read s = some v
  json1 : ∀ {s v w}, Json.read s = some v → json1 s = some w → w = v

def Indexable (yyjsonRead json1 : CStr → Option Json) (props : CStr) : Prop :=
  ∃ root, json1 props = some root ∧
    match root.objGet urlPathName with
    | none => True
    | some .null => True
    | some (.str _ value) =>
        value ≠ [] ∧ 0 ∉ value ∧ urlPathNeedle <:+: props ∧ (yyjsonRead props).isSome
    | some _ => False

/-- The index over these rows is the one SQLite would build: every key is the
value of the column, and the entries stand in the order of these keys. -/
structure UrlPathIndexExact (json1 : CStr → Option Json) (rows : List DumpEdge) : Prop where
  column : ∀ row, row ∈ rows →
    jsonExtract json1 (row.properties.getD []) = some (.ofKey (urlPathKey row))
  cells : (sortRows cmpEdgeByUrlPath rows).map ecellUrlPath =
    (sortRows cmpEdgeByUrlPath rows).map fun row =>
      urlPathEntry row.project (urlPathKey row) row.id
  sorted : (sortRows cmpEdgeByUrlPath rows).Pairwise fun a b =>
    entryPos (urlPathKey a) a.id < entryPos (urlPathKey b) b.id

theorem compares_cmpEdgeByUrlPath (a b : DumpEdge) :
    (cmpEdgeByUrlPath a b).Compares (entryPos (urlPathKey a) a.id)
      (entryPos (urlPathKey b) b.id) := by
  have hid : (cmpI64 a.id b.id).Compares a.id b.id := (compare_iff _ _).mp rfl
  unfold cmpEdgeByUrlPath urlPathKey keyOf
  cases ha : a.urlPath.getD [] with
  | nil =>
      cases hb : b.urlPath.getD [] with
      | nil => exact compares_then (o := .eq) rfl hid
      | cons y ys => exact Prod.Lex.toLex_lt_toLex.mpr (Or.inl (WithBot.bot_lt_coe _))
  | cons x xs =>
      cases hb : b.urlPath.getD [] with
      | nil => exact Prod.Lex.toLex_lt_toLex.mpr (Or.inl (WithBot.bot_lt_coe _))
      | cons y ys =>
          refine compares_then ?_ hid
          exact compares_map (WithBot.coe_strictMono (α := List ℕ))
            (compares_strcmp (x :: xs) (y :: ys))

theorem pairwise_sortRows {rows : List DumpEdge} (hids : rows.Pairwise fun a b => a.id ≠ b.id) :
    (sortRows cmpEdgeByUrlPath rows).Pairwise fun a b =>
      entryPos (urlPathKey a) a.id < entryPos (urlPathKey b) b.id := by
  refine pairwise_insertionSort_lt compares_cmpEdgeByUrlPath (hids.imp fun hid heq => ?_)
  exact hid (congrArg (fun p => (ofLex p).2) heq)

section Keys

variable {yyjsonRead json1 : CStr → Option Json}

theorem ofKey_keyOf_some (sv : CStr) (value : CStr) :
    SqlValue.text value = .ofKey (keyOf (some (sv.takeWhile (· ≠ 0)))) ↔
      value ≠ [] ∧ value = sv.takeWhile (· ≠ 0) := by
  unfold keyOf
  rw [Option.getD_some]
  cases sv.takeWhile (· ≠ 0) with
  | nil => simp [SqlValue.ofKey]
  | cons c cs =>
      simp only [SqlValue.ofKey, SqlValue.text.injEq]
      constructor
      · intro h
        exact ⟨by rw [h]; exact List.cons_ne_nil _ _, h⟩
      · exact And.right

theorem eq_takeWhile_iff (value : CStr) : value = value.takeWhile (· ≠ 0) ↔ 0 ∉ value := by
  rw [eq_comm, List.takeWhile_eq_self_iff]
  constructor
  · intro h hmem
    exact absurd (h 0 hmem) (by decide)
  · intro h c hc
    exact decide_eq_true (fun hzero => h (hzero ▸ hc))

theorem ofJson_eq_null_iff (v : Json) : SqlValue.ofJson v = .null ↔ v = .null := by
  cases v with
  | null => simp [SqlValue.ofJson]
  | bool b => cases b <;> simp [SqlValue.ofJson]
  | num spelling => simp [SqlValue.ofJson]
  | str spelling value => simp [SqlValue.ofJson]
  | arr items => simp [SqlValue.ofJson]
  | obj members => simp [SqlValue.ofJson]

theorem Readers.agree (h : Readers yyjsonRead json1) {props : CStr} {v w : Json}
    (hv : yyjsonRead props = some v) (hw : json1 props = some w) : v = w :=
  (h.json1 (h.yyjson hv) hw).symm

theorem extractUrlPath_of_json1 (h : Readers yyjsonRead json1) {props : CStr} {root : Json}
    (hroot : json1 props = some root) :
    extractUrlPath yyjsonRead props =
      match root.objGet urlPathName with
      | some (.str _ value) =>
          if urlPathNeedle <:+: props ∧ (yyjsonRead props).isSome then
            some (value.takeWhile (· ≠ 0))
          else none
      | _ => none := by
  have hnone : (match root.objGet urlPathName with
      | some (.str _ _) => none
      | _ => none) = (none : Option CStr) := by
    split <;> rfl
  unfold extractUrlPath
  by_cases hneedle : urlPathNeedle <:+: props
  · rw [if_neg (not_not_intro hneedle)]
    cases hread : yyjsonRead props with
    | none => simp [hnone]
    | some v =>
        obtain rfl := h.agree hread hroot
        simp [hneedle]
  · simp [hneedle, hnone]

theorem jsonExtract_eq_iff (h : Readers yyjsonRead json1) (props : CStr) :
    jsonExtract json1 props = some (.ofKey (keyOf (extractUrlPath yyjsonRead props))) ↔
      Indexable yyjsonRead json1 props := by
  unfold jsonExtract Indexable
  cases hroot : json1 props with
  | none => simp
  | some root =>
      rw [Option.map_some, Option.some.injEq, extractUrlPath_of_json1 h hroot]
      simp only [Option.some.injEq, exists_eq_left']
      cases hv : root.objGet urlPathName with
      | none => exact iff_of_true rfl trivial
      | some v =>
          cases v with
          | str spelling value =>
              by_cases hread : urlPathNeedle <:+: props ∧ (yyjsonRead props).isSome
              · simp only [if_pos hread]
                refine (ofKey_keyOf_some value value).trans ?_
                rw [eq_takeWhile_iff]
                exact and_congr_right fun _ => (and_iff_left hread).symm
              · simp only [if_neg hread]
                refine iff_of_false ?_ (fun hall => hread hall.2.2)
                exact SqlValue.noConfusion
          | null => exact iff_of_true rfl trivial
          | bool b => exact iff_of_false (fun heq => nomatch (ofJson_eq_null_iff _).mp heq) id
          | num spelling =>
              exact iff_of_false (fun heq => nomatch (ofJson_eq_null_iff _).mp heq) id
          | arr items =>
              exact iff_of_false (fun heq => nomatch (ofJson_eq_null_iff _).mp heq) id
          | obj members =>
              exact iff_of_false (fun heq => nomatch (ofJson_eq_null_iff _).mp heq) id

end Keys

theorem pairwise_id_buildDumpEdges (extract : CStr → Option CStr) (g : Gbuf)
    (tempToFinal : Int → Int) (maxTempId : Int) :
    (buildDumpEdges extract g tempToFinal maxTempId).Pairwise fun a b => a.id ≠ b.id := by
  rw [List.pairwise_iff_getElem]
  intro i j hi hj hij
  have hid : ∀ k (hk : k < (buildDumpEdges extract g tempToFinal maxTempId).length),
      ((buildDumpEdges extract g tempToFinal maxTempId)[k]).id = k + 1 := by
    intro k hk
    have hrow := rows_buildDumpEdges extract g tempToFinal maxTempId k
    rw [List.getElem?_eq_getElem hk] at hrow
    obtain ⟨p, -, hp⟩ := Option.map_eq_some_iff.mp hrow.symm
    rw [← hp]
    rfl
  rw [hid i hi, hid j hj]
  omega

theorem urlPath_buildDumpEdges {extract : CStr → Option CStr} {g : Gbuf}
    {tempToFinal : Int → Int} {maxTempId : Int} {row : DumpEdge}
    (hrow : row ∈ buildDumpEdges extract g tempToFinal maxTempId) :
    urlPathKey row = keyOf (extract (row.properties.getD [])) := by
  obtain ⟨i, hi⟩ := List.mem_iff_getElem?.mp hrow
  rw [rows_buildDumpEdges] at hi
  obtain ⟨p, -, rfl⟩ := Option.map_eq_some_iff.mp hi
  rfl

/-- For any properties the key that is written is the value of the column
exactly if they are indexable, and the index of a dump is the one SQLite would
build exactly if all its edges are. -/
theorem urlPathIndex_exact_iff {yyjsonRead json1 : CStr → Option Json}
    (h : Readers yyjsonRead json1) :
    (∀ props, jsonExtract json1 props =
        some (.ofKey (keyOf (extractUrlPath yyjsonRead props))) ↔
      Indexable yyjsonRead json1 props) ∧
    ∀ (g : Gbuf) (tempToFinal : Int → Int) (maxTempId : Int),
      UrlPathIndexExact json1
          (buildDumpEdges (extractUrlPath yyjsonRead) g tempToFinal maxTempId) ↔
        ∀ row, row ∈ buildDumpEdges (extractUrlPath yyjsonRead) g tempToFinal maxTempId →
          Indexable yyjsonRead json1 (row.properties.getD []) := by
  refine ⟨jsonExtract_eq_iff h, fun g tempToFinal maxTempId => ?_⟩
  have hcolumn : ∀ row,
      row ∈ buildDumpEdges (extractUrlPath yyjsonRead) g tempToFinal maxTempId →
      (jsonExtract json1 (row.properties.getD []) = some (.ofKey (urlPathKey row)) ↔
        Indexable yyjsonRead json1 (row.properties.getD [])) := by
    intro row hrow
    rw [urlPath_buildDumpEdges hrow]
    exact jsonExtract_eq_iff h _
  constructor
  · intro hexact row hrow
    exact (hcolumn row hrow).mp (hexact.column row hrow)
  · intro hall
    refine ⟨fun row hrow => (hcolumn row hrow).mpr (hall row hrow), ?_, ?_⟩
    · exact List.map_congr_left fun row _ => ecellUrlPath_eq row
    · exact pairwise_sortRows (pairwise_id_buildDumpEdges _ g tempToFinal maxTempId)

theorem readers_read : Readers Json.read Json.read where
  yyjson := id
  json1 := by
    intro s v w hv hw
    exact Option.some.inj (hw.symm.trans hv)

/-- The function `a` calls `b`, and the edge has these properties. -/
def calledWith (props : String) : Gbuf :=
  (((cbmGbufNew (bytesOf "p") none).step (upsertFunction "a")).step (upsertFunction "b")).step
    (.insertEdge 1 2 (bytesOf "HTTP_CALLS") (some (bytesOf props)))

def edgeRows (g : Gbuf) : List DumpEdge :=
  buildDumpEdges (extractUrlPath Json.read) g (buildDumpNodes g g.nextId).tempToFinal g.nextId

/-- The properties of a call of `/api/orders`. -/
def ordersProps : String :=
  "\x7b\"url_path\":\"/api/orders\"\x7d"

def emptyProps : String :=
  "\x7b\"url_path\":\"\"\x7d"

theorem urlPathIndex_exact_orders :
    Readers Json.read Json.read ∧
      (edgeRows (calledWith ordersProps)).map urlPathKey = [some (bytesOf "/api/orders")] ∧
      UrlPathIndexExact Json.read (edgeRows (calledWith ordersProps)) := by
  refine ⟨readers_read, by decide +kernel, ?_⟩
  refine ((urlPathIndex_exact_iff readers_read).2 _ _ _).mpr ?_
  have hprops : (edgeRows (calledWith ordersProps)).map DumpEdge.properties =
      [some (bytesOf ordersProps)] := by
    decide +kernel
  intro row hrow
  have hmem : row.properties ∈ [some (bytesOf ordersProps)] :=
    hprops ▸ List.mem_map_of_mem hrow
  rw [List.mem_singleton.mp hmem]
  refine ((urlPathIndex_exact_iff readers_read).1 _).mp ?_
  decide +kernel

/-- The column of an empty url is the empty text, its key is NULL. -/
theorem not_urlPathIndex_exact_empty :
    jsonExtract Json.read (bytesOf emptyProps) = some (.text []) ∧
      keyOf (extractUrlPath Json.read (bytesOf emptyProps)) = none ∧
      (edgeRows (calledWith emptyProps)).map DumpEdge.properties = [some (bytesOf emptyProps)] ∧
      ¬ UrlPathIndexExact Json.read (edgeRows (calledWith emptyProps)) := by
  have hcolumn : jsonExtract Json.read (bytesOf emptyProps) = some (.text []) := by
    decide +kernel
  have hkey : keyOf (extractUrlPath Json.read (bytesOf emptyProps)) = none := by
    decide +kernel
  have hrows : (edgeRows (calledWith emptyProps)).map
      (fun row => (row.properties, urlPathKey row)) = [(some (bytesOf emptyProps), none)] := by
    decide +kernel
  refine ⟨hcolumn, hkey, ?_, ?_⟩
  · have hfst := congrArg (List.map Prod.fst) hrows
    rw [List.map_map] at hfst
    exact hfst
  · intro hexact
    obtain ⟨row, hrow, heq⟩ := List.mem_map.mp (hrows ▸ List.mem_singleton_self _)
    have hvalue := hexact.column row hrow
    rw [(Prod.mk.inj heq).1, (Prod.mk.inj heq).2, Option.getD_some, hcolumn] at hvalue
    exact SqlValue.noConfusion (Option.some.inj hvalue)

end GraphBuffer
end CodebaseMemory
