import CodebaseMemory.GraphBuffer.Closed
import CodebaseMemory.GraphBuffer.Ids

/-!
# Loading a graph (`cbm_gbuf_load_from_db`)

The rows of the two SELECT statements are upserted and inserted one by one;
`old_to_new` takes the ids of the node rows to the ids of the buffer.
-/

namespace CodebaseMemory
namespace GraphBuffer

open Lib
open Sqlite (CStr bytesOf DumpNode DumpEdge)

/-- `SELECT MAX(id)`; the NULL of an empty table reads as 0. -/
def maxOldId : List DumpNode → Int
  | [] => 0
  | row :: rows => rows.foldl (fun m r => max m r.id) row.id

/-- One node row.  Without a qualified name `cbm_gbuf_upsert_node` does nothing
and returns 0. -/
def loadNode (maxId : Int) (st : Gbuf × (Int → Int)) (row : DumpNode) : Gbuf × (Int → Int) :=
  match row.qualifiedName with
  | none => st
  | some qn =>
      let up := cbmGbufUpsertNode st.1 row.label row.name qn row.filePath row.startLine row.endLine
        row.properties
      (up.1, if up.2 > 0 ∧ row.id ≤ maxId then Function.update st.2 row.id up.2 else st.2)

/-- The id in the buffer of an endpoint of an edge row, or 0. -/
def newId (maxId : Int) (oldToNew : Int → Int) (oldId : Int) : Int :=
  if oldId ≤ maxId then oldToNew oldId else 0

/-- One edge row.  Without a type `cbm_gbuf_insert_edge` does nothing. -/
def loadEdge (maxId : Int) (oldToNew : Int → Int) (g : Gbuf) (row : DumpEdge) : Gbuf :=
  let newSrc := newId maxId oldToNew row.sourceId
  let newTgt := newId maxId oldToNew row.targetId
  if newSrc > 0 ∧ newTgt > 0 then
    match row.type with
    | none => g
    | some type => (cbmGbufInsertEdge g newSrc newTgt type row.properties).1
  else g

/-- `cbm_gbuf_load_from_db`, given the rows of the project, the nodes in the
order of their ids. -/
def cbmGbufLoadFromDb (g : Gbuf) (nodes : List DumpNode) (edges : List DumpEdge) : Gbuf :=
  let st := nodes.foldl (loadNode (maxOldId nodes)) (g, fun _ => 0)
  edges.foldl (loadEdge (maxOldId nodes) st.2) st.1

/-- What an upsert of `qn` leaves: the node is found, with the id that is
returned, and nodes of other names are unchanged. -/
structure Upserted (g : Gbuf) (qn : CStr) (filePath : Option CStr) (up : Gbuf × Int) : Prop where
  self : ∃ p, up.1.nodeByQn.lookup qn = some p ∧ (up.1.nodeAt p).id = up.2 ∧
    (up.1.nodeAt p).filePath = heapStrdup filePath
  other : ∀ qn' q, qn' ≠ qn → g.nodeByQn.lookup qn' = some q →
    up.1.nodeByQn.lookup qn' = some q ∧ up.1.nodeAt q = g.nodeAt q

variable {k : Nat}
variable {g : Gbuf}

theorem upserted (hnamed : Named g) (label name : Option CStr) (qn : CStr) (filePath : Option CStr)
    (startLine endLine : Int) (properties : Option CStr) :
    Upserted g qn filePath
      (cbmGbufUpsertNode g label name qn filePath startLine endLine properties) := by
  unfold cbmGbufUpsertNode
  dsimp only
  cases hlookup : g.nodeByQn.lookup qn with
  | some p =>
      refine ⟨⟨p, hlookup, id_setNode g p p _, ?_⟩, ?_⟩
      · dsimp only
        rw [nodeAt_setNode, if_pos rfl]
        rfl
      · intro qn' q hne hq
        refine ⟨hq, ?_⟩
        dsimp only
        rw [nodeAt_setNode, if_neg (hnamed.ne_of_ne hne hlookup hq)]
  | none =>
      have hpart := nodePart_allocNextId g
      refine ⟨⟨(allocNextId g).2.nodeCount, ?_, ?_, ?_⟩, ?_⟩
      · dsimp only
        rw [lookup_pushNode, if_pos rfl]
      · dsimp only
        rw [nodeAt_pushNode, if_pos rfl]
        rfl
      · dsimp only
        rw [nodeAt_pushNode, if_pos rfl]
        rfl
      · intro qn' q hne hq
        dsimp only
        rw [lookup_pushNode, if_neg hne, nodeByQn_of_nodePart hpart, nodeAt_pushNode,
          nodeCount_of_nodePart hpart, if_neg (Nat.ne_of_lt (hnamed qn' q hq).1),
          nodeAt_of_nodePart hpart]
        exact ⟨hq, rfl⟩

/-- The next id after at most `k` of them were handed out. -/
structure MarkBound (k : Nat) (g : Gbuf) : Prop where
  positive : 0 < g.idMark
  bound : g.idMark ≤ k + 1

theorem MarkBound.inI64 (h : MarkBound k g) (hk : k < 2 ^ 62) : InI64 g.idMark := by
  have hpos := h.positive
  have hbound := h.bound
  constructor <;> omega

theorem MarkBound.mono {k' : Nat} {g' : Gbuf} (h : MarkBound k g) (hk : k ≤ k')
    (hmark : g'.idMark = g.idMark) : MarkBound k' g' := by
  have hpos := h.positive
  have hbound := h.bound
  constructor <;> omega

theorem MarkBound.alloc {g' : Gbuf} (h : MarkBound k g)
    (hmark : g'.idMark = (allocNextId g).2.idMark) : MarkBound (k + 1) g' := by
  have hpos := h.positive
  have hbound := h.bound
  rw [idMark_allocNextId] at hmark
  constructor
  · omega
  · push_cast
    omega

theorem MarkBound.upsert (h : MarkBound k g) (label name : Option CStr) (qn : CStr)
    (filePath : Option CStr) (startLine endLine : Int) (properties : Option CStr) :
    MarkBound (k + 1)
      (cbmGbufUpsertNode g label name qn filePath startLine endLine properties).1 := by
  unfold cbmGbufUpsertNode
  dsimp only
  cases g.nodeByQn.lookup qn with
  | some p => exact h.mono (Nat.le_succ k) (idMark_of_ids rfl rfl)
  | none => exact h.alloc (idMark_of_ids rfl rfl)

theorem MarkBound.insertEdge (h : MarkBound k g) (src tgt : Int) (type : CStr)
    (properties : Option CStr) :
    MarkBound (k + 1) (cbmGbufInsertEdge g src tgt type properties).1 := by
  rcases insertEdge_cases g src tgt type properties with ⟨p, -, hset⟩ | ⟨-, hadd⟩
  · rw [hset]
    exact h.mono (Nat.le_succ k) (idMark_of_ids rfl rfl)
  · rw [hadd]
    exact h.alloc (idMark_of_ids rfl rfl)

/-- What loading keeps, `k` rows into it. -/
structure LoadInv (k : Nat) (g : Gbuf) : Prop where
  owned : Owned g
  built : BuiltInv g
  closed : Closed g
  ids : MarkBound k g

/-- The ids that `old_to_new` gives are those of nodes that are found. -/
def Mapped (oldToNew : Int → Int) (g : Gbuf) : Prop :=
  ∀ id, oldToNew id > 0 → ∃ qn, NodeName g (oldToNew id) qn

theorem Mapped.newId {oldToNew : Int → Int} (h : Mapped oldToNew g) {maxId oldId : Int}
    (hpos : newId maxId oldToNew oldId > 0) : ∃ qn, NodeName g (newId maxId oldToNew oldId) qn := by
  unfold GraphBuffer.newId at hpos ⊢
  split at hpos
  · next hle =>
      rw [if_pos hle]
      exact h oldId hpos
  · exact absurd hpos (lt_irrefl 0)

theorem loadInv_new (project : CStr) : LoadInv 0 (cbmGbufNew project none) where
  owned := owned_new project none
  built := builtInv_new project none
  closed := closed_new project none
  ids := ⟨Int.one_pos, le_rfl⟩

theorem LoadInv.upsert (h : LoadInv k g) (hk : k < 2 ^ 62) (label name : Option CStr) (qn : CStr)
    (filePath : Option CStr) (startLine endLine : Int) (properties : Option CStr) :
    LoadInv (k + 1)
      (cbmGbufUpsertNode g label name qn filePath startLine endLine properties).1 := by
  have hok : BuiltOp g (.upsert label name qn filePath startLine endLine properties) :=
    ⟨h.ids.inI64 hk, by simp⟩
  exact ⟨h.owned.upsert label name qn filePath startLine endLine properties, h.built.step hok,
    h.closed.upsert h.owned.named label name qn filePath startLine endLine properties,
    h.ids.upsert label name qn filePath startLine endLine properties⟩

theorem LoadInv.insertEdge (h : LoadInv k g) {src tgt : Int} {a b type : CStr}
    (properties : Option CStr) (hsrc : NodeName g src a) (htgt : NodeName g tgt b)
    (htype : type.length ≤ 80) :
    LoadInv (k + 1) (cbmGbufInsertEdge g src tgt type properties).1 := by
  have hid : ∀ id qn, NodeName g id qn → InI64 id := by
    rintro id qn ⟨p, hp, rfl⟩
    exact h.built.typed.nodes p (h.owned.named qn p hp).1
  have hok : BuiltOp g (.insertEdge src tgt type properties) :=
    ⟨⟨hid src a hsrc, hid tgt b htgt, htype⟩, by simp⟩
  exact ⟨h.owned.congr (nodePart_cbmGbufInsertEdge g src tgt type properties), h.built.step hok,
    h.closed.insertEdge h.built.keyInv type properties hsrc htgt,
    h.ids.insertEdge src tgt type properties⟩

/-- The rows so far are found under their names, with their file paths. -/
def RowsFound (rows : List DumpNode) (g : Gbuf) : Prop :=
  ∀ row, row ∈ rows → ∀ qn, row.qualifiedName = some qn →
    ∃ p, g.nodeByQn.lookup qn = some p ∧ (g.nodeAt p).filePath = heapStrdup row.filePath

theorem loadNode_eq (maxId : Int) (st : Gbuf × (Int → Int)) {row : DumpNode} {qn : CStr}
    (hqn : row.qualifiedName = some qn) :
    loadNode maxId st row =
      (fun up : Gbuf × Int =>
        (up.1, if up.2 > 0 ∧ row.id ≤ maxId then Function.update st.2 row.id up.2 else st.2))
        (cbmGbufUpsertNode st.1 row.label row.name qn row.filePath row.startLine row.endLine
          row.properties) := by
  simp only [loadNode, hqn]

theorem loadNodes_spec (maxId : Int) (rows : List DumpNode) :
    ∀ (done : List DumpNode) (k : Nat) (st : Gbuf × (Int → Int)), LoadInv k st.1 →
      k + rows.length < 2 ^ 62 → ((done ++ rows).map DumpNode.qualifiedName).Nodup →
      Mapped st.2 st.1 → RowsFound done st.1 →
      LoadInv (k + rows.length) (rows.foldl (loadNode maxId) st).1 ∧
        Mapped (rows.foldl (loadNode maxId) st).2 (rows.foldl (loadNode maxId) st).1 ∧
        RowsFound (done ++ rows) (rows.foldl (loadNode maxId) st).1 := by
  induction rows with
  | nil =>
      intro done k st h _ _ hmapped hfound
      rw [List.append_nil]
      exact ⟨h, hmapped, hfound⟩
  | cons row rows ih =>
      intro done k st h hk hnodup hmapped hfound
      have hlen : k + (row :: rows).length = k + 1 + rows.length := by
        rw [List.length_cons]
        omega
      have hlist : done ++ row :: rows = (done ++ [row]) ++ rows := by simp
      rw [hlen] at hk ⊢
      rw [hlist] at hnodup ⊢
      rw [List.foldl_cons]
      cases hqn : row.qualifiedName with
      | none =>
          have hskip : loadNode maxId st row = st := by simp only [loadNode, hqn]
          rw [hskip]
          refine ih (done ++ [row]) (k + 1) st ⟨h.owned, h.built, h.closed,
            h.ids.mono (Nat.le_succ k) rfl⟩ hk hnodup hmapped ?_
          intro r hr qn hrqn
          rcases List.mem_append.mp hr with hr | hr
          · exact hfound r hr qn hrqn
          · rw [List.mem_singleton.mp hr, hqn] at hrqn
            exact absurd hrqn (by simp)
      | some qn =>
          have hup := upserted h.owned.named row.label row.name qn row.filePath row.startLine
            row.endLine row.properties
          have hkeeps := keepsNodes_upsert h.owned.named row.label row.name qn row.filePath
            row.startLine row.endLine row.properties
          have hinv := h.upsert (by omega) row.label row.name qn row.filePath row.startLine
            row.endLine row.properties
          rw [loadNode_eq maxId st hqn]
          generalize cbmGbufUpsertNode st.1 row.label row.name qn row.filePath row.startLine
            row.endLine row.properties = up at hup hkeeps hinv ⊢
          obtain ⟨p, hp, hid, hfile⟩ := hup.self
          refine ih (done ++ [row]) (k + 1) _ hinv hk hnodup ?_ ?_
          · intro id hpos
            dsimp only at hpos ⊢
            split at hpos
            · next hstore =>
                rw [if_pos hstore]
                by_cases hidrow : id = row.id
                · rw [hidrow, Function.update_self]
                  exact ⟨qn, p, hp, hid⟩
                · rw [Function.update_of_ne hidrow] at hpos ⊢
                  obtain ⟨qn', hname⟩ := hmapped id hpos
                  exact ⟨qn', hkeeps.nodeName hname⟩
            · next hstore =>
                rw [if_neg hstore]
                obtain ⟨qn', hname⟩ := hmapped id hpos
                exact ⟨qn', hkeeps.nodeName hname⟩
          · intro r hr qn' hrqn
            rcases List.mem_append.mp hr with hr | hr
            · obtain ⟨q, hq, hqfile⟩ := hfound r hr qn' hrqn
              have hne : qn' ≠ qn := by
                rintro rfl
                rw [List.append_assoc, List.map_append] at hnodup
                refine (List.nodup_append'.mp hnodup).2.2 (List.mem_map_of_mem hr) ?_
                rw [hrqn, ← hqn]
                exact List.mem_map_of_mem (by simp)
              obtain ⟨hq', hnode⟩ := hup.other qn' q hne hq
              exact ⟨q, hq', by rw [hnode]; exact hqfile⟩
            · rw [List.mem_singleton.mp hr] at hrqn ⊢
              rw [hqn] at hrqn
              obtain rfl : qn = qn' := Option.some.inj hrqn
              exact ⟨p, hp, hfile⟩

theorem loadEdges_spec {maxId : Int} {oldToNew : Int → Int} (rows : List DumpEdge) :
    ∀ (k : Nat) (g : Gbuf), LoadInv k g → Mapped oldToNew g →
      (∀ row, row ∈ rows → ∀ type, row.type = some type → type.length ≤ 80) →
      LoadInv (k + rows.length) (rows.foldl (loadEdge maxId oldToNew) g) ∧
        (rows.foldl (loadEdge maxId oldToNew) g).nodePart = g.nodePart := by
  induction rows with
  | nil => exact fun k g h _ _ => ⟨h, rfl⟩
  | cons row rows ih =>
      intro k g h hmapped htypes
      have hlen : k + (row :: rows).length = k + 1 + rows.length := by
        rw [List.length_cons]
        omega
      have hrest : ∀ r, r ∈ rows → ∀ type, r.type = some type → type.length ≤ 80 :=
        fun r hr => htypes r (List.mem_cons_of_mem row hr)
      have hskip : LoadInv (k + 1) g :=
        ⟨h.owned, h.built, h.closed, h.ids.mono (Nat.le_succ k) rfl⟩
      rw [hlen, List.foldl_cons, loadEdge]
      split
      · next hpos =>
          cases htype : row.type with
          | none => exact ih (k + 1) g hskip hmapped hrest
          | some type =>
              dsimp only
              obtain ⟨a, ha⟩ := hmapped.newId hpos.1
              obtain ⟨b, hb⟩ := hmapped.newId hpos.2
              have hpart := nodePart_cbmGbufInsertEdge g (newId maxId oldToNew row.sourceId)
                (newId maxId oldToNew row.targetId) type row.properties
              have hinv := h.insertEdge row.properties ha hb
                (htypes row List.mem_cons_self type htype)
              have hmapped' : Mapped oldToNew _ := fun id hid => by
                obtain ⟨qn, hqn⟩ := hmapped id hid
                exact ⟨qn, (keepsNodes_of_nodePart hpart).nodeName hqn⟩
              obtain ⟨hload, hnodes⟩ := ih (k + 1) _ hinv hmapped' hrest
              exact ⟨hload, hnodes.trans hpart⟩
      · exact ih (k + 1) g hskip hmapped hrest

/-- The rows of a stored graph: names are unique, edge types have at most 80
bytes, and there is room for the ids. -/
structure StoredRows (nodes : List DumpNode) (edges : List DumpEdge) : Prop where
  names : (nodes.map DumpNode.qualifiedName).Nodup
  types : ∀ row, row ∈ edges → ∀ type, row.type = some type → type.length ≤ 80
  size : nodes.length + edges.length < 2 ^ 62

theorem load_spec {nodes : List DumpNode} {edges : List DumpEdge} (h : StoredRows nodes edges)
    (project : CStr) :
    LoadInv (nodes.length + edges.length)
        (cbmGbufLoadFromDb (cbmGbufNew project none) nodes edges) ∧
      RowsFound nodes (cbmGbufLoadFromDb (cbmGbufNew project none) nodes edges) := by
  have hsize := h.size
  obtain ⟨hnodes, hmapped, hfound⟩ := loadNodes_spec (maxOldId nodes) nodes [] 0
    (cbmGbufNew project none, fun _ => 0) (loadInv_new project) (by omega) h.names
    (fun _ hid => absurd hid (lt_irrefl 0)) (fun _ hr => absurd hr List.not_mem_nil)
  rw [Nat.zero_add] at hnodes
  obtain ⟨hload, hpart⟩ := loadEdges_spec edges nodes.length _ hnodes
    hmapped h.types
  refine ⟨hload, ?_⟩
  intro row hrow qn hqn
  obtain ⟨p, hp, hfile⟩ := hfound row hrow qn hqn
  refine ⟨p, ?_, ?_⟩
  · exact (congrArg (fun t => t.lookup qn) (nodeByQn_of_nodePart hpart)).trans hp
  · exact (congrArg (fun f => (f p).filePath) (nodeAt_of_nodePart hpart)).trans hfile

end GraphBuffer
end CodebaseMemory
