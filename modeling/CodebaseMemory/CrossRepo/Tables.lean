import CodebaseMemory.CrossRepo.Match

/-!
# The edges of a run as a table

The edges of a `CROSS_*` type in a database form a table: under the source and the target stands
what the edge names, which is a project, a function and a file.
`insert_cross_edge` is a write to the table of its type (`table_insert`), because
`json_patch` takes over the members of the new properties, and nothing else of
the database that a matcher reads changes (`SameReads`).

SQLite's JSON functions are a parameter.  `JsonColumns.Lawful` says what is relied on: how they treat
the objects that `build_cross_props` writes, whose texts need no escapes.
-/

namespace CodebaseMemory
namespace CrossRepo

open Lib
open Sqlite (CStr bytesOf)
open GraphBuffer

/-- The JSON functions of SQLite, with `json_extract` of a member that is a string. -/
structure JsonColumns extends SqlJson where
  member : CStr → CStr → Option CStr

/-- A text that JSON has without escapes. -/
def Plain (s : CStr) : Prop :=
  ∀ b, b ∈ s → 32 ≤ b ∧ b ≠ 34 ∧ b ≠ 92

instance (s : CStr) : Decidable (Plain s) :=
  decidable_of_iff (s.all (fun b => 32 ≤ b && b ≠ 34 && b ≠ 92) = true) <| by
    simp [Plain, List.all_eq_true, and_assoc]

/-- `"name":"value"` -/
def memberText (m : CStr × CStr) : CStr :=
  34 :: m.1 ++ [34, 58, 34] ++ m.2 ++ [34]

/-- A compact object whose members are strings. -/
def objectText (ms : List (CStr × CStr)) : CStr :=
  123 :: [44].intercalate (ms.map memberText) ++ [125]

structure PlainMembers (ms : List (CStr × CStr)) : Prop where
  nodup : (ms.map Prod.fst).Nodup
  names : ∀ m, m ∈ ms → Plain m.1
  values : ∀ m, m ∈ ms → Plain m.2

/-- What is relied on of SQLite's JSON functions. -/
structure JsonColumns.Lawful (json : JsonColumns) : Prop where
  accepts : ∀ ms, PlainMembers ms → json.accepts (objectText ms) = true
  member : ∀ ms, PlainMembers ms → ∀ m, m ∈ ms → json.member (objectText ms) m.1 = some m.2
  patch : ∀ old ms, json.accepts old = true → PlainMembers ms →
    ∃ merged, json.patch old (objectText ms) = some merged ∧ json.accepts merged = true ∧
      ∀ m, m ∈ ms → json.member merged m.1 = some m.2

/-- What an edge of a `CROSS_*` type names on the other side. -/
@[ext] structure CrossName where
  project : Option CStr
  function : Option CStr
  file : Option CStr

def nameOf (json : JsonColumns) (props : CStr) : CrossName :=
  { project := json.member props (bytesOf "target_project")
    function := json.member props (bytesOf "target_function")
    file := json.member props (bytesOf "target_file") }

/-- The members of the object that `build_cross_props` writes. -/
def crossMembers (targetProject targetFunction targetFile urlOrChannel extraKey extraVal : CStr) :
    List (CStr × CStr) :=
  [(bytesOf "target_project", targetProject), (bytesOf "target_function", targetFunction),
    (bytesOf "target_file", targetFile)] ++
    (if urlOrChannel ≠ [] then [(extraKey, urlOrChannel)] else []) ++
    (if extraVal ≠ [] then [(bytesOf "transport", extraVal)] else [])

section Props

variable {tp tf file url key extra : CStr}

theorem body_eq (tp tf file url key extra : CStr) :
    bytesOf "\x7b\"target_project\":\"" ++ tp ++ bytesOf "\",\"target_function\":\"" ++ tf ++
      bytesOf "\",\"target_file\":\"" ++ file ++ bytesOf "\"" ++
      (if url ≠ [] then bytesOf ",\"" ++ key ++ bytesOf "\":\"" ++ url ++ bytesOf "\"" else []) ++
      (if extra ≠ [] then bytesOf ",\"transport\":\"" ++ extra ++ bytesOf "\"" else []) ++
      bytesOf "\x7d" = objectText (crossMembers tp tf file url key extra) := by
  have hproject : bytesOf "\x7b\"target_project\":\"" =
      123 :: 34 :: (bytesOf "target_project" ++ [34, 58, 34]) := by decide
  have hfunction : bytesOf "\",\"target_function\":\"" =
      34 :: 44 :: 34 :: (bytesOf "target_function" ++ [34, 58, 34]) := by decide
  have hfile : bytesOf "\",\"target_file\":\"" =
      34 :: 44 :: 34 :: (bytesOf "target_file" ++ [34, 58, 34]) := by decide
  have htransport : bytesOf ",\"transport\":\"" =
      44 :: 34 :: (bytesOf "transport" ++ [34, 58, 34]) := by decide
  have hquote : bytesOf "\"" = [34] ∧ bytesOf ",\"" = [44, 34] ∧
      bytesOf "\":\"" = [34, 58, 34] ∧ bytesOf "\x7d" = [125] := by decide
  obtain ⟨h₁, h₂, h₃, h₄⟩ := hquote
  rw [hproject, hfunction, hfile, htransport, h₁, h₂, h₃, h₄]
  by_cases hu : url = [] <;> by_cases hx : extra = [] <;>
    simp [hu, hx, crossMembers, objectText, memberText, List.intercalate]

theorem buildCrossProps_of_fits
    (hfits : (objectText (crossMembers tp tf file url key extra)).length < crPropsBuf) :
    buildCrossProps tp tf file url key extra =
      some (objectText (crossMembers tp tf file url key extra)) := by
  have hbody := body_eq tp tf file url key extra
  unfold buildCrossProps
  simp only [hbody]
  rw [← hbody, List.length_append] at hfits
  rw [if_pos (by omega), ← hbody, cut, List.take_of_length_le]
  rw [List.length_append]
  omega

theorem length_objectText_le (tp tf file url key extra : CStr) :
    (objectText (crossMembers tp tf file url key extra)).length ≤
      80 + tp.length + tf.length + file.length + url.length + key.length + extra.length := by
  have hlits : (bytesOf "\x7b\"target_project\":\"").length = 19 ∧
      (bytesOf "\",\"target_function\":\"").length = 21 ∧
      (bytesOf "\",\"target_file\":\"").length = 17 ∧ (bytesOf "\"").length = 1 ∧
      (bytesOf ",\"").length = 2 ∧ (bytesOf "\":\"").length = 3 ∧
      (bytesOf ",\"transport\":\"").length = 14 ∧ (bytesOf "\x7d").length = 1 := by
    decide
  obtain ⟨h₁, h₂, h₃, h₄, h₅, h₆, h₇, h₈⟩ := hlits
  rw [← body_eq]
  split <;> split <;>
    simp only [List.length_append, h₁, h₂, h₃, h₄, h₅, h₆, h₇, h₈, List.length_nil] <;> omega

theorem crossMembers_sublist (tp tf file url key extra : CStr) :
    (crossMembers tp tf file url key extra).Sublist
      [(bytesOf "target_project", tp), (bytesOf "target_function", tf),
        (bytesOf "target_file", file), (key, url), (bytesOf "transport", extra)] := by
  have hone : ∀ (c : Prop) [Decidable c] (m : CStr × CStr),
      (if c then [m] else []).Sublist [m] := by
    intro c _ m
    split
    · exact List.Sublist.refl _
    · exact List.nil_sublist _
  exact ((List.Sublist.refl _).append (hone _ _)).append (hone _ _)

theorem plainMembers_cross (htp : Plain tp) (htf : Plain tf) (hfile : Plain file) (hurl : Plain url)
    (hextra : Plain extra) (hkey : key ∈ [bytesOf "url_path", bytesOf "channel_name"]) :
    PlainMembers (crossMembers tp tf file url key extra) := by
  have hsub := crossMembers_sublist tp tf file url key extra
  have hnames : ∀ key, key ∈ [bytesOf "url_path", bytesOf "channel_name"] →
      ∀ name, name ∈ [bytesOf "target_project", bytesOf "target_function", bytesOf "target_file",
        key, bytesOf "transport"] → Plain name := by
    decide
  have hkeys : ∀ key, key ∈ [bytesOf "url_path", bytesOf "channel_name"] →
      [bytesOf "target_project", bytesOf "target_function", bytesOf "target_file", key,
        bytesOf "transport"].Nodup := by
    decide
  refine ⟨(hkeys key hkey).sublist (hsub.map Prod.fst), fun m hm => ?_, fun m hm => ?_⟩
  · exact hnames key hkey m.1 ((hsub.map Prod.fst).subset (List.mem_map_of_mem hm))
  · have hin := hsub.subset hm
    simp only [List.mem_cons, List.not_mem_nil, or_false] at hin
    rcases hin with rfl | rfl | rfl | rfl | rfl
    · exact htp
    · exact htf
    · exact hfile
    · exact hurl
    · exact hextra

theorem nameOf_crossMembers {json : JsonColumns} {props : CStr}
    (h : ∀ m, m ∈ crossMembers tp tf file url key extra → json.member props m.1 = some m.2) :
    nameOf json props = ⟨some tp, some tf, some file⟩ := by
  have hin : ∀ m, m ∈ [(bytesOf "target_project", tp), (bytesOf "target_function", tf),
      (bytesOf "target_file", file)] → json.member props m.1 = some m.2 := fun m hm =>
    h m (List.mem_append_left _ (List.mem_append_left _ hm))
  rw [nameOf, hin _ List.mem_cons_self, hin _ (List.mem_cons_of_mem _ List.mem_cons_self),
    hin _ (List.mem_cons_of_mem _ (List.mem_cons_of_mem _ List.mem_cons_self))]

end Props

/-- The columns that are unique together. -/
def edgeKey (e : EdgeRow) : CStr × Int × Int :=
  (e.type, e.sourceId, e.targetId)

theorem conflicts_iff {row r : EdgeRow} : row.conflicts r = true ↔ edgeKey r = edgeKey row := by
  simp only [EdgeRow.conflicts, edgeKey, Bool.and_eq_true, decide_eq_true_iff, Prod.mk.injEq]
  tauto

structure Database (project : CStr) (s : Store) : Prop where
  known : ∀ n, n ∈ s.nodes → n.project ∈ s.projects
  nodesOf : ∀ n, n ∈ s.nodes → n.project = project
  edgesOf : ∀ e, e ∈ s.edges → e.project = project
  nodeIds : ∀ n, n ∈ s.nodes → 0 < n.id
  named : (s.nodes.map NodeRow.qualifiedName).Nodup
  sources : ∀ e, e ∈ s.edges → ∃ n, n ∈ s.nodes ∧ n.id = e.sourceId
  targets : ∀ e, e ∈ s.edges → ∃ n, n ∈ s.nodes ∧ n.id = e.targetId
  keyed : (s.edges.map edgeKey).Nodup

/-- An edge that a run inserts. -/
structure Write where
  type : CrossType
  fromId : Int
  toId : Int
  props : Option CStr
  deriving DecidableEq

namespace Write

def key (w : Write) : Int × Int :=
  (w.fromId, w.toId)

def insert (sql : SqlJson) (project : CStr) (s : Store) (w : Write) : Store :=
  insertCrossEdge sql s project w.fromId w.toId w.type w.props

def row (w : Write) (project : CStr) (id : Int) (text : CStr) : EdgeRow :=
  { id := id
    project := project
    sourceId := w.fromId
    targetId := w.toId
    type := w.type.name
    properties := safeProps (some text) }

end Write

def addEdge (s : Store) (row : EdgeRow) : Store :=
  { s with edges := s.edges ++ [row], edgeSeq := s.edgeSeq + 1 }

/-- The store with other properties in the row that conflicts. -/
def mergeEdge (s : Store) (row : EdgeRow) (merged : CStr) : Store :=
  { s with edges := s.edges.map fun r =>
      if row.conflicts r then { r with properties := merged } else r }

theorem insert_eq (sql : SqlJson) (project : CStr) (s : Store) {w : Write} {text : CStr}
    (h : w.props = some text) :
    w.insert sql project s =
      if !sql.accepts (safeProps (some text)) ||
          !s.refers (w.row project (s.edgeSeq + 1) text) then s
      else
        match s.edges.find? (w.row project (s.edgeSeq + 1) text).conflicts with
        | some old =>
            match sql.patch old.properties (safeProps (some text)) with
            | some merged => mergeEdge s (w.row project (s.edgeSeq + 1) text) merged
            | none => s
        | none => addEdge s (w.row project (s.edgeSeq + 1) text) := by
  rw [Write.insert, h, insertCrossEdge, storeInsertEdge]
  change (if _ then _ else _ : Store × Int).1 = _
  rw [apply_ite Prod.fst]
  refine if_congr Iff.rfl rfl ?_
  change (match s.edges.find? (w.row project (s.edgeSeq + 1) text).conflicts with
    | some old => _
    | none => _ : Store × Int).1 = _
  cases s.edges.find? (w.row project (s.edgeSeq + 1) text).conflicts with
  | none => rfl
  | some old =>
      change (match sql.patch old.properties (safeProps (some text)) with
          | some merged => _
          | none => _ : Store × Int).1 =
        match sql.patch old.properties (safeProps (some text)) with
        | some merged => mergeEdge s (w.row project (s.edgeSeq + 1) text) merged
        | none => s
      cases sql.patch old.properties (safeProps (some text)) with
      | none => rfl
      | some merged => rfl

theorem insert_cases (sql : SqlJson) (project : CStr) (s : Store) (w : Write) :
    w.insert sql project s = s ∨
      ∃ text, w.props = some text ∧ s.refers (w.row project (s.edgeSeq + 1) text) = true ∧
        (s.edges.find? (w.row project (s.edgeSeq + 1) text).conflicts = none ∧
            w.insert sql project s = addEdge s (w.row project (s.edgeSeq + 1) text) ∨
          ∃ merged, w.insert sql project s =
            mergeEdge s (w.row project (s.edgeSeq + 1) text) merged) := by
  cases hprops : w.props with
  | none =>
      left
      rw [Write.insert, hprops, insertCrossEdge]
  | some text =>
      rw [insert_eq sql project s hprops]
      split
      · exact Or.inl rfl
      · next hok =>
        have hrefers : s.refers (w.row project (s.edgeSeq + 1) text) = true := by
          rw [Bool.or_eq_true, not_or, Bool.not_eq_true', Bool.not_eq_false] at hok
          simpa using hok.2
        split
        · split
          · next merged _ => exact Or.inr ⟨text, rfl, hrefers, Or.inr ⟨merged, rfl⟩⟩
          · exact Or.inl rfl
        · next hfind => exact Or.inr ⟨text, rfl, hrefers, Or.inl ⟨hfind, rfl⟩⟩

def isCross (type : CStr) : Bool :=
  crossTypes.any fun t => t.name = type

theorem isCross_name (t : CrossType) : isCross t.name = true := by
  cases t <;> decide

theorem name_injective {t t' : CrossType} (h : t.name = t'.name) : t = t' := by
  revert h
  cases t <;> cases t' <;> decide

/-- The edges that are not written by a run. -/
def readEdges (s : Store) : List EdgeRow :=
  s.edges.filter fun e => !isCross e.type

/-- Two states of a database in which the matchers read the same. -/
structure SameReads (s s' : Store) : Prop where
  projects : s'.projects = s.projects
  nodes : s'.nodes = s.nodes
  edges : readEdges s' = readEdges s

theorem SameReads.refl (s : Store) : SameReads s s :=
  ⟨rfl, rfl, rfl⟩

theorem SameReads.trans {s s' s'' : Store} (h : SameReads s s') (h' : SameReads s' s'') :
    SameReads s s'' :=
  ⟨h'.projects.trans h.projects, h'.nodes.trans h.nodes, h'.edges.trans h.edges⟩

section Insert

variable {sql : SqlJson} {project : CStr} {s : Store} {w : Write}

theorem readEdges_mergeEdge {row : EdgeRow} {merged : CStr} (hrow : isCross row.type = true) :
    readEdges (mergeEdge s row merged) = readEdges s := by
  unfold readEdges mergeEdge
  simp only
  induction s.edges with
  | nil => rfl
  | cons r rs ih =>
      rw [List.map_cons, List.filter_cons, List.filter_cons, ih]
      by_cases hc : row.conflicts r = true
      · have htype : r.type = row.type := by
          rw [EdgeRow.conflicts, Bool.and_eq_true, decide_eq_true_iff] at hc
          exact hc.2
        simp [hc, htype, hrow]
      · simp [hc]

theorem sameReads_insert (sql : SqlJson) (project : CStr) (s : Store) (w : Write) :
    SameReads s (w.insert sql project s) := by
  obtain heq | ⟨text, -, -, ⟨-, heq⟩ | ⟨merged, heq⟩⟩ := insert_cases sql project s w
  · rw [heq]
    exact SameReads.refl s
  · rw [heq]
    refine ⟨rfl, rfl, ?_⟩
    rw [readEdges, addEdge, List.filter_append, List.filter_cons_of_neg, List.filter_nil,
      List.append_nil, readEdges]
    simp [Write.row, isCross_name]
  · rw [heq]
    exact ⟨rfl, rfl, readEdges_mergeEdge (isCross_name w.type)⟩

theorem map_edgeKey_mergeEdge (s : Store) (row : EdgeRow) (merged : CStr) :
    (mergeEdge s row merged).edges.map edgeKey = s.edges.map edgeKey := by
  rw [mergeEdge, List.map_map]
  refine List.map_congr_left fun r _ => ?_
  rw [Function.comp_apply]
  split <;> rfl

theorem mem_mergeEdge {row e : EdgeRow} {merged : CStr} (h : e ∈ (mergeEdge s row merged).edges) :
    ∃ r, r ∈ s.edges ∧
      (e = r ∨ edgeKey r = edgeKey row ∧ e = { r with properties := merged }) := by
  obtain ⟨r, hr, rfl⟩ := List.mem_map.mp h
  refine ⟨r, hr, ?_⟩
  split
  · next hc => exact Or.inr ⟨conflicts_iff.mp hc, rfl⟩
  · exact Or.inl rfl

theorem joins_of_refers {row : EdgeRow} (hrow : s.refers row = true) :
    (∃ n, n ∈ s.nodes ∧ n.id = row.sourceId) ∧ (∃ n, n ∈ s.nodes ∧ n.id = row.targetId) := by
  simp only [Store.refers, Bool.and_eq_true, List.any_eq_true, decide_eq_true_iff] at hrow
  exact ⟨hrow.1.2, hrow.2⟩

theorem Database.insert (h : Database project s) (sql : SqlJson) (w : Write) :
    Database project (w.insert sql project s) := by
  obtain heq | ⟨text, -, hrefers, ⟨hfind, heq⟩ | ⟨merged, heq⟩⟩ := insert_cases sql project s w
  · rw [heq]
    exact h
  · rw [heq]
    have hmem : ∀ e, e ∈ (addEdge s (w.row project (s.edgeSeq + 1) text)).edges →
        e ∈ s.edges ∨ e = w.row project (s.edgeSeq + 1) text := fun e he =>
      (List.mem_append.mp he).imp_right List.mem_singleton.mp
    refine ⟨h.known, h.nodesOf, fun e he => ?_, h.nodeIds, h.named, fun e he => ?_,
      fun e he => ?_, ?_⟩
    · obtain hold | rfl := hmem e he
      · exact h.edgesOf e hold
      · rfl
    · obtain hold | rfl := hmem e he
      · exact h.sources e hold
      · exact (joins_of_refers hrefers).1
    · obtain hold | rfl := hmem e he
      · exact h.targets e hold
      · exact (joins_of_refers hrefers).2
    · rw [addEdge, List.map_append, List.map_singleton]
      refine List.Nodup.append h.keyed (List.nodup_singleton _) ?_
      rw [List.disjoint_singleton]
      intro hin
      obtain ⟨r, hr, hkey⟩ := List.mem_map.mp hin
      exact List.find?_eq_none.mp hfind r hr (conflicts_iff.mpr hkey)
  · rw [heq]
    refine ⟨h.known, h.nodesOf, fun e he => ?_, h.nodeIds, h.named, fun e he => ?_,
      fun e he => ?_, ?_⟩
    · obtain ⟨r, hr, rfl | ⟨-, rfl⟩⟩ := mem_mergeEdge he
      · exact h.edgesOf _ hr
      · exact h.edgesOf r hr
    · obtain ⟨r, hr, rfl | ⟨-, rfl⟩⟩ := mem_mergeEdge he
      · exact h.sources _ hr
      · exact h.sources r hr
    · obtain ⟨r, hr, rfl | ⟨-, rfl⟩⟩ := mem_mergeEdge he
      · exact h.targets _ hr
      · exact h.targets r hr
    · rw [map_edgeKey_mergeEdge]
      exact h.keyed

end Insert

def atKey (t : CrossType) (k : Int × Int) (e : EdgeRow) : Bool :=
  e.sourceId = k.1 && e.targetId = k.2 && e.type = t.name

/-- What the edges of a type name, by source and target. -/
def table (json : JsonColumns) (s : Store) (t : CrossType) (k : Int × Int) : Option CrossName :=
  (s.edges.find? (atKey t k)).map fun e => nameOf json e.properties

def Accepted (json : JsonColumns) (t : CrossType) (s : Store) : Prop :=
  ∀ e, e ∈ s.edges → e.type = t.name → json.accepts e.properties = true

structure Write.Carries (json : JsonColumns) (w : Write) (v : CrossName) (text : CStr) : Prop where
  props : w.props = some text
  nonempty : text ≠ []
  accepts : json.accepts text = true
  name : nameOf json text = v
  patch : ∀ old, json.accepts old = true → ∃ merged, json.patch old text = some merged ∧
    json.accepts merged = true ∧ nameOf json merged = v

def Write.Joins (w : Write) (s : Store) : Prop :=
  (∃ n, n ∈ s.nodes ∧ n.id = w.fromId) ∧ ∃ n, n ∈ s.nodes ∧ n.id = w.toId

section Table

variable {json : JsonColumns} {project : CStr} {s : Store} {w : Write} {v : CrossName} {text : CStr}
variable {t : CrossType}
variable {k : Int × Int}
variable {id : Int}

theorem atKey_iff {e : EdgeRow} : atKey t k e = true ↔ edgeKey e = (t.name, k) := by
  simp only [atKey, edgeKey, Bool.and_eq_true, decide_eq_true_iff, Prod.ext_iff]
  tauto

theorem Write.Joins.refers (hj : w.Joins s) (hdb : Database project s) (id : Int) (text : CStr) :
    s.refers (w.row project id text) = true := by
  obtain ⟨⟨n, hn, hfrom⟩, n', hn', hto⟩ := hj
  have hknown : project ∈ s.projects := by
    have := hdb.known n hn
    rwa [hdb.nodesOf n hn] at this
  simp only [Store.refers, Bool.and_eq_true, List.any_eq_true, decide_eq_true_iff,
    List.contains_iff_mem]
  exact ⟨⟨hknown, n, hn, hfrom⟩, n', hn', hto⟩

theorem find?_addEdge (s : Store) (row : EdgeRow) (t : CrossType) (k : Int × Int) :
    (addEdge s row).edges.find? (atKey t k) =
      (s.edges.find? (atKey t k)).or (if atKey t k row then some row else none) := by
  rw [addEdge, List.find?_append, List.find?_cons, List.find?_nil]
  cases atKey t k row <;> rfl

theorem find?_mergeEdge (s : Store) (row : EdgeRow) (merged : CStr) (t : CrossType)
    (k : Int × Int) :
    (mergeEdge s row merged).edges.find? (atKey t k) = (s.edges.find? (atKey t k)).map fun r =>
      if row.conflicts r then { r with properties := merged } else r := by
  rw [mergeEdge, List.find?_map]
  congr 2
  funext r
  rw [Function.comp_apply]
  split <;> rfl

theorem atKey_row : atKey t k (w.row project id text) = true ↔ t = w.type ∧ k = w.key := by
  rw [atKey_iff]
  constructor
  · intro h
    have htype : w.type.name = t.name := congrArg Prod.fst h
    have hids : (w.fromId, w.toId) = k := congrArg Prod.snd h
    exact ⟨(name_injective htype).symm, hids.symm⟩
  · rintro ⟨rfl, rfl⟩
    rfl

theorem table_addEdge (h : ¬ (t = w.type ∧ k = w.key)) :
    table json (addEdge s (w.row project id text)) t k = table json s t k := by
  rw [table, find?_addEdge, if_neg fun hrow => h (atKey_row.mp hrow), Option.or_none, table]

theorem table_mergeEdge {merged : CStr} (h : ¬ (t = w.type ∧ k = w.key)) :
    table json (mergeEdge s (w.row project id text) merged) t k = table json s t k := by
  rw [table, find?_mergeEdge, Option.map_map, table]
  cases hrow : s.edges.find? (atKey t k) with
  | none => rfl
  | some r =>
      have hconflict : ¬ (w.row project id text).conflicts r = true := by
        intro hc
        have hr : edgeKey r = (t.name, k) := atKey_iff.mp (List.find?_some hrow)
        exact h (atKey_row.mp (atKey_iff.mpr ((conflicts_iff.mp hc).symm.trans hr)))
      rw [Option.map_some, Function.comp_apply, if_neg hconflict, Option.map_some]

theorem Write.carries_of_plain (hjson : json.Lawful) {tp tf file url key extra : CStr}
    (hprops : w.props = some (objectText (crossMembers tp tf file url key extra)))
    (hplain : PlainMembers (crossMembers tp tf file url key extra)) :
    w.Carries json ⟨some tp, some tf, some file⟩
      (objectText (crossMembers tp tf file url key extra)) where
  props := hprops
  nonempty := List.cons_ne_nil _ _
  accepts := hjson.accepts _ hplain
  name := nameOf_crossMembers (hjson.member _ hplain)
  patch := fun old hold => by
    obtain ⟨merged, hpatch, haccepts, hmember⟩ := hjson.patch old _ hold hplain
    exact ⟨merged, hpatch, haccepts, nameOf_crossMembers hmember⟩

theorem insert_carries (hdb : Database project s) (hacc : Accepted json w.type s) (hj : w.Joins s)
    (hw : w.Carries json v text) :
    (s.edges.find? (atKey w.type w.key) = none ∧
        w.insert json.toSqlJson project s = addEdge s (w.row project (s.edgeSeq + 1) text)) ∨
      ∃ old merged, s.edges.find? (atKey w.type w.key) = some old ∧ json.accepts merged = true ∧
        nameOf json merged = v ∧ w.insert json.toSqlJson project s =
          mergeEdge s (w.row project (s.edgeSeq + 1) text) merged := by
  have htext : safeProps (some text) = text := if_neg hw.nonempty
  have hok : ¬ (!json.accepts (safeProps (some text)) ||
      !s.refers (w.row project (s.edgeSeq + 1) text)) = true := by
    rw [htext, hw.accepts, hj.refers hdb]
    exact Bool.false_ne_true
  rw [insert_eq json.toSqlJson project s hw.props, if_neg hok, htext]
  change (s.edges.find? (w.row project (s.edgeSeq + 1) text).conflicts = none ∧ _) ∨
    ∃ old merged, s.edges.find? (w.row project (s.edgeSeq + 1) text).conflicts = some old ∧ _
  cases hfind : s.edges.find? (w.row project (s.edgeSeq + 1) text).conflicts with
  | none => exact Or.inl ⟨rfl, rfl⟩
  | some old =>
      have htype : old.type = w.type.name :=
        congrArg Prod.fst (conflicts_iff.mp (List.find?_some hfind))
      obtain ⟨merged, hpatch, haccepts, hname⟩ := hw.patch old.properties
        (hacc old (List.mem_of_find?_eq_some hfind) htype)
      refine Or.inr ⟨old, merged, rfl, haccepts, hname, ?_⟩
      simp only [hpatch]

theorem table_insert (hdb : Database project s) (hacc : Accepted json w.type s) (hj : w.Joins s)
    (hw : w.Carries json v text) :
    table json (w.insert json.toSqlJson project s) w.type =
      Function.update (table json s w.type) w.key (some v) := by
  funext k
  obtain ⟨hfind, heq⟩ | ⟨old, merged, hfind, -, hname, heq⟩ := insert_carries hdb hacc hj hw
  · by_cases hk : k = w.key
    · have htext : safeProps (some text) = text := if_neg hw.nonempty
      rw [hk, heq, table, find?_addEdge, hfind, if_pos (atKey_row.mpr ⟨rfl, rfl⟩),
        Function.update_self, Option.none_or, Option.map_some, Write.row, htext, hw.name]
    · rw [heq, table_addEdge fun h => hk h.2, Function.update_of_ne hk]
  · by_cases hk : k = w.key
    · have hconflict : (w.row project (s.edgeSeq + 1) text).conflicts old = true :=
        List.find?_some hfind
      rw [hk, heq, table, find?_mergeEdge, Option.map_map, hfind, Option.map_some,
        Function.comp_apply, if_pos hconflict, Function.update_self, hname]
    · rw [heq, table_mergeEdge fun h => hk h.2, Function.update_of_ne hk]

theorem table_insert_of_ne (h : t ≠ w.type) :
    table json (w.insert json.toSqlJson project s) t = table json s t := by
  funext k
  obtain heq | ⟨text, -, -, ⟨-, heq⟩ | ⟨merged, heq⟩⟩ :=
    insert_cases json.toSqlJson project s w
  · rw [heq]
  · rw [heq, table_addEdge fun hk => h hk.1]
  · rw [heq, table_mergeEdge fun hk => h hk.1]

theorem accepted_insert (hdb : Database project s) (hacc : Accepted json w.type s) (hj : w.Joins s)
    (hw : w.Carries json v text) :
    Accepted json w.type (w.insert json.toSqlJson project s) := by
  intro e he htype
  obtain ⟨-, heq⟩ | ⟨old, merged, -, haccepts, -, heq⟩ := insert_carries hdb hacc hj hw
  · rw [heq] at he
    obtain hold | hnew := List.mem_append.mp he
    · exact hacc e hold htype
    · have htext : safeProps (some text) = text := if_neg hw.nonempty
      rw [List.mem_singleton.mp hnew, Write.row, htext]
      exact hw.accepts
  · rw [heq] at he
    obtain ⟨r, hr, rfl | ⟨-, rfl⟩⟩ := mem_mergeEdge he
    · exact hacc _ hr htype
    · exact haccepts

theorem accepted_insert_of_ne (hacc : Accepted json t s) (h : t ≠ w.type) :
    Accepted json t (w.insert json.toSqlJson project s) := by
  intro e he htype
  obtain heq | ⟨text, -, -, ⟨-, heq⟩ | ⟨merged, heq⟩⟩ :=
    insert_cases json.toSqlJson project s w
  · exact hacc e (heq ▸ he) htype
  · rw [heq] at he
    obtain hold | hnew := List.mem_append.mp he
    · exact hacc e hold htype
    · rw [List.mem_singleton.mp hnew] at htype
      exact absurd (name_injective htype).symm h
  · rw [heq] at he
    obtain ⟨r, hr, rfl | ⟨hkey, rfl⟩⟩ := mem_mergeEdge he
    · exact hacc _ hr htype
    · have hrow : r.type = w.type.name := congrArg Prod.fst hkey
      exact absurd (name_injective (htype.symm.trans hrow)) h

theorem table_eq_some_iff (hdb : Database project s) :
    table json s t k = some v ↔
      ∃ e, e ∈ s.edges ∧ edgeKey e = (t.name, k) ∧ nameOf json e.properties = v := by
  rw [table, Option.map_eq_some_iff]
  constructor
  · rintro ⟨e, hfind, hname⟩
    exact ⟨e, List.mem_of_find?_eq_some hfind, atKey_iff.mp (List.find?_some hfind), hname⟩
  · rintro ⟨e, he, hkey, hname⟩
    have hsome : (s.edges.find? (atKey t k)).isSome := by
      rw [List.find?_isSome]
      exact ⟨e, he, atKey_iff.mpr hkey⟩
    obtain ⟨e', hfind⟩ := Option.isSome_iff_exists.mp hsome
    have hkey' : edgeKey e' = edgeKey e :=
      (atKey_iff.mp (List.find?_some hfind)).trans hkey.symm
    have heq : e' = e :=
      List.inj_on_of_nodup_map hdb.keyed (List.mem_of_find?_eq_some hfind) he hkey'
    exact ⟨e', hfind, heq ▸ hname⟩

end Table

/-- The key of a write, and what it names. -/
def Write.entry (json : JsonColumns) (w : Write) : (Int × Int) × CrossName :=
  (w.key, nameOf json (w.props.getD []))

def entriesOf (json : JsonColumns) (t : CrossType) (ws : List Write) :
    List ((Int × Int) × CrossName) :=
  (ws.filter fun w => w.type = t).map (Write.entry json)

/-- A write that a database takes. -/
def Write.Good (json : JsonColumns) (s : Store) (w : Write) : Prop :=
  w.Joins s ∧ ∃ v text, w.Carries json v text

section Inserts

variable {json : JsonColumns} {project : CStr} {s s' : Store} {t : CrossType}

theorem Write.Carries.entry {w : Write} {v : CrossName} {text : CStr}
    (h : w.Carries json v text) : w.entry json = (w.key, v) := by
  rw [Write.entry, h.props, Option.getD_some, h.name]

theorem Write.Joins.reads {w : Write} (h : w.Joins s) (hreads : SameReads s s') : w.Joins s' := by
  rw [Write.Joins, hreads.nodes]
  exact h

theorem Database.inserts (hdb : Database project s) (sql : SqlJson) (ws : List Write) :
    Database project (ws.foldl (Write.insert sql project) s) := by
  induction ws generalizing s with
  | nil => exact hdb
  | cons w ws ih => exact ih (hdb.insert sql w)

theorem table_inserts (ws : List Write) : ∀ s, Database project s → Accepted json t s →
    (∀ w, w ∈ ws → w.type = t → w.Good json s) →
    table json (ws.foldl (Write.insert json.toSqlJson project) s) t =
        writeAll (table json s t) (entriesOf json t ws) ∧
      Accepted json t (ws.foldl (Write.insert json.toSqlJson project) s) := by
  induction ws with
  | nil => exact fun s _ hacc _ => ⟨rfl, hacc⟩
  | cons w ws ih =>
      intro s hdb hacc hgood
      have hreads := sameReads_insert json.toSqlJson project s w
      have hrest : ∀ w', w' ∈ ws → w'.type = t →
          w'.Good json (w.insert json.toSqlJson project s) := fun w' hw' htype =>
        ⟨(hgood w' (List.mem_cons_of_mem _ hw') htype).1.reads hreads,
          (hgood w' (List.mem_cons_of_mem _ hw') htype).2⟩
      rw [List.foldl_cons, entriesOf, List.filter_cons]
      by_cases htype : w.type = t
      · subst htype
        obtain ⟨hj, v, text, hw⟩ := hgood w List.mem_cons_self rfl
        obtain ⟨htable, hacc'⟩ :=
          ih _ (hdb.insert _ w) (accepted_insert hdb hacc hj hw) hrest
        refine ⟨?_, hacc'⟩
        rw [htable, table_insert hdb hacc hj hw, if_pos (decide_eq_true rfl), List.map_cons,
          hw.entry, writeAll_cons]
        rfl
      · have hne : t ≠ w.type := Ne.symm htype
        obtain ⟨htable, hacc'⟩ :=
          ih _ (hdb.insert _ w) (accepted_insert_of_ne hacc hne) hrest
        refine ⟨?_, hacc'⟩
        rw [htable, table_insert_of_ne hne, if_neg (by simpa using htype)]
        rfl

end Inserts

section Delete

variable {json : JsonColumns} {project : CStr} {s : Store} {t : CrossType}

theorem foldl_deleteByType (project : CStr) (ts : List CrossType) : ∀ s : Store,
    ts.foldl (fun s t => storeDeleteEdgesByType s project t.name) s =
      { s with edges := s.edges.filter fun e =>
          !(e.project = project && ts.any fun t => t.name = e.type) } := by
  induction ts with
  | nil =>
      intro s
      simp
  | cons t ts ih =>
      intro s
      rw [List.foldl_cons, ih, storeDeleteEdgesByType]
      simp only [List.filter_filter]
      congr 2
      funext e
      have htype : decide (e.type = t.name) = decide (t.name = e.type) :=
        decide_eq_decide.mpr eq_comm
      rw [List.any_cons, htype]
      cases decide (e.project = project) <;> cases decide (t.name = e.type) <;> simp

theorem deleteCrossEdges_eq (hdb : Database project s) :
    deleteCrossEdges s project = { s with edges := readEdges s } := by
  rw [deleteCrossEdges, foldl_deleteByType, readEdges]
  congr 1
  refine List.filter_congr fun e he => ?_
  rw [hdb.edgesOf e he, decide_eq_true rfl, Bool.true_and, isCross]

theorem Database.delete (hdb : Database project s) :
    Database project (deleteCrossEdges s project) := by
  have hsub : ∀ e, e ∈ readEdges s → e ∈ s.edges := fun e he => (List.mem_filter.mp he).1
  rw [deleteCrossEdges_eq hdb]
  exact ⟨hdb.known, hdb.nodesOf, fun e he => hdb.edgesOf e (hsub e he), hdb.nodeIds, hdb.named,
    fun e he => hdb.sources e (hsub e he), fun e he => hdb.targets e (hsub e he),
    hdb.keyed.sublist (List.filter_sublist.map edgeKey)⟩

theorem sameReads_delete (hdb : Database project s) :
    SameReads s (deleteCrossEdges s project) := by
  rw [deleteCrossEdges_eq hdb]
  refine ⟨rfl, rfl, ?_⟩
  simp only [readEdges, List.filter_filter, Bool.and_self]

theorem type_ne_of_mem_delete (hdb : Database project s) {e : EdgeRow}
    (he : e ∈ (deleteCrossEdges s project).edges) : e.type ≠ t.name := by
  rw [deleteCrossEdges_eq hdb] at he
  intro htype
  have hnot := (List.mem_filter.mp he).2
  rw [htype, isCross_name] at hnot
  exact absurd hnot Bool.false_ne_true

theorem accepted_delete (hdb : Database project s) :
    Accepted json t (deleteCrossEdges s project) :=
  fun _ he htype => absurd htype (type_ne_of_mem_delete hdb he)

theorem table_delete (hdb : Database project s) :
    table json (deleteCrossEdges s project) t = fun _ => none := by
  funext k
  rw [table, Option.map_eq_none_iff, List.find?_eq_none]
  exact fun e he hkey =>
    type_ne_of_mem_delete hdb he (congrArg Prod.fst (atKey_iff.mp hkey))

end Delete

end CrossRepo
end CodebaseMemory
