import CodebaseMemory.GraphBuffer.Content
import CodebaseMemory.GraphBuffer.DumpExact

/-!
# Loading what was dumped

The incremental pipeline loads the graph, changes it and dumps it again.  The
two halves of the argument meet at `GraphRows`, a description of the rows: a
dump has such rows, and a buffer that is loaded from such rows dumps to them.

The SELECT over the edges has no ORDER BY, so the edge rows may come in any
order; the new ids follow the order in which they are read.
-/

namespace CodebaseMemory
namespace GraphBuffer

open Lib
open Sqlite (CStr bytesOf DumpNode DumpEdge)

def nodeRow (project : CStr) (n : Node) (id : Int) : DumpNode :=
  { id := id
    project := some project
    label := some n.label
    name := some n.name
    qualifiedName := n.qualifiedName
    filePath := some n.filePath
    startLine := n.startLine
    endLine := n.endLine
    properties := some n.propertiesJson }

def edgeRow (extractUrlPath : CStr → Option CStr) (project : CStr) (e : Edge) (id : Int) :
    DumpEdge :=
  { id := id
    project := some project
    sourceId := e.sourceId
    targetId := e.targetId
    type := some e.type
    properties := some e.propertiesJson
    urlPath := some ((extractUrlPath e.propertiesJson).getD []) }

/-- The rows of a graph: nodes are numbered from 1 and have different names,
edges join them and differ in source, target or type. -/
structure GraphRows (extractUrlPath : CStr → Option CStr) (project : CStr)
    (nodes : List DumpNode) (edges : List DumpEdge) : Prop where
  nodeRows : ∀ (i : Nat) row, nodes[i]? = some row →
    ∃ n : Node, n.qualifiedName ≠ none ∧ row = nodeRow project n (i + 1)
  names : (nodes.map DumpNode.qualifiedName).Nodup
  edgeRows : ∀ row, row ∈ edges → ∃ e : Edge, e.type.length ≤ 80 ∧
    row = edgeRow extractUrlPath project e row.id
  sources : ∀ row, row ∈ edges → ∃ i : Nat, i < nodes.length ∧ row.sourceId = i + 1
  targets : ∀ row, row ∈ edges → ∃ i : Nat, i < nodes.length ∧ row.targetId = i + 1
  distinct : edges.Pairwise fun r s =>
    (r.sourceId, r.targetId, r.type) ≠ (s.sourceId, s.targetId, s.type)
  size : nodes.length < 2 ^ 62

/-- What a round trip relies on: the buffer can be dumped, its edges differ in
source, target or type, and their types have at most 80 bytes. -/
structure Storable (g : Gbuf) : Prop extends Dumpable g where
  distinct : g.edges.Pairwise fun p q =>
    ((g.edgeAt p).sourceId, (g.edgeAt p).targetId, (g.edgeAt p).type) ≠
      ((g.edgeAt q).sourceId, (g.edgeAt q).targetId, (g.edgeAt q).type)
  types : ∀ p, p ∈ g.edges → (g.edgeAt p).type.length ≤ 80
  size : g.nodeCount < 2 ^ 62

variable {maxId : Int}
variable {rows : List DumpNode}
variable {g : Gbuf}
variable {project : CStr}

theorem storable_of_reachable (h : Reachable TypedOp g) (hdump : Dumpable g)
    (hsize : g.nodeCount < 2 ^ 62) : Storable g := by
  have hinv : TypedInv g := h.invariant typedInv_new (fun _ _ => TypedInv.step)
  exact ⟨hdump, hinv.exact.distinct, fun p hp => (hinv.typed.edges p hp).type, hsize⟩

structure NodesLoaded (project : CStr) (rows : List DumpNode) (g : Gbuf) : Prop where
  owned : Owned g
  ofProject : g.project = project
  count : g.nodeCount = rows.length
  nodeAt : ∀ (i : Nat) row, rows[i]? = some row →
    (g.nodeAt i).id = i + 1 ∧ nodeRow project (g.nodeAt i) (i + 1) = row

structure NodeLoop (project : CStr) (rows : List DumpNode) (st : Gbuf × (Int → Int)) : Prop
    extends NodesLoaded project rows st.1 where
  shared : st.1.sharedIds = none
  next : st.1.nextId = rows.length + 1
  map : ∀ i : Nat, i < rows.length → st.2 (i + 1) = i + 1
  edges : st.1.edgePart = (cbmGbufNew project none).edgePart

theorem nodeLoop_nil (project : CStr) :
    NodeLoop project [] (cbmGbufNew project none, fun _ => 0) where
  owned := owned_new project none
  ofProject := rfl
  count := rfl
  nodeAt := fun i row hrow => absurd hrow (by simp)
  shared := rfl
  next := rfl
  map := fun i hi => absurd hi (Nat.not_lt_zero i)
  edges := rfl

theorem NodesLoaded.lookup_eq_none (h : NodesLoaded project rows g) {qn : CStr}
    (hnew : some qn ∉ rows.map DumpNode.qualifiedName) : g.nodeByQn.lookup qn = none := by
  cases hlookup : g.nodeByQn.lookup qn with
  | none => rfl
  | some p =>
      obtain ⟨hlt, hname⟩ := h.owned.named qn p hlookup
      rw [h.count] at hlt
      have hrow := (h.nodeAt p _ (List.getElem?_eq_getElem hlt)).2
      refine absurd ?_ hnew
      rw [← hname]
      exact List.mem_map.mpr ⟨_, List.getElem_mem hlt, by rw [← hrow]; rfl⟩

theorem loadNode_new {st : Gbuf × (Int → Int)} (hshared : st.1.sharedIds = none)
    (hpos : st.1.nextId > 0) {qn : CStr} (hnew : st.1.nodeByQn.lookup qn = none) (project : CStr)
    {n : Node} (hqn : n.qualifiedName = some qn) {id : Int} (hmax : id ≤ maxId) :
    loadNode maxId st (nodeRow project n id) =
      (pushNode { st.1 with nextId := st.1.nextId + 1 } { n with id := st.1.nextId } qn,
        Function.update st.2 id st.1.nextId) := by
  have hname : (nodeRow project n id).qualifiedName = some qn := hqn
  have hup : cbmGbufUpsertNode st.1 (some n.label) (some n.name) qn (some n.filePath)
      n.startLine n.endLine (some n.propertiesJson) =
      (pushNode { st.1 with nextId := st.1.nextId + 1 } { n with id := st.1.nextId } qn,
        st.1.nextId) := by
    simp only [cbmGbufUpsertNode, hnew, allocNextId, hshared]
    rfl
  rw [loadNode_eq maxId st hname]
  dsimp only [nodeRow]
  rw [hup]
  exact congrArg (Prod.mk _) (if_pos ⟨hpos, hmax⟩)

theorem NodeLoop.loadNode {st : Gbuf × (Int → Int)} (h : NodeLoop project rows st)
    (hmax : (rows.length : Int) + 1 ≤ maxId) {n : Node} (hnamed : n.qualifiedName ≠ none)
    (hnew : n.qualifiedName ∉ rows.map DumpNode.qualifiedName) :
    NodeLoop project (rows ++ [nodeRow project n (rows.length + 1)])
      (GraphBuffer.loadNode maxId st (nodeRow project n (rows.length + 1))) := by
  obtain ⟨qn, hqn⟩ := Option.ne_none_iff_exists'.mp hnamed
  have hlookup : st.1.nodeByQn.lookup qn = none := h.lookup_eq_none (by rw [← hqn]; exact hnew)
  have hpos : st.1.nextId > 0 := by
    rw [h.next]
    omega
  have hlen : ∀ row : DumpNode, (rows ++ [row]).length = rows.length + 1 := by simp
  have howned : Owned { st.1 with nextId := st.1.nextId + 1 } := h.owned.congr rfl
  rw [loadNode_new h.shared hpos hlookup project hqn hmax]
  constructor
  · refine ⟨howned.pushNode _ hlookup, h.ofProject, ?_, ?_⟩
    · rw [hlen]
      exact congrArg (· + 1) h.count
    · intro i row hrow
      have hat := nodeAt_pushNode { st.1 with nextId := st.1.nextId + 1 }
        { n with id := st.1.nextId } qn i
      dsimp only at hat ⊢
      rw [hat, h.count]
      rcases Nat.lt_or_ge i rows.length with hi | hi
      · rw [List.getElem?_append_left hi] at hrow
        rw [if_neg (Nat.ne_of_lt hi)]
        exact h.nodeAt i row hrow
      · obtain rfl : i = rows.length := by
          have hlt := (List.getElem?_eq_some_iff.mp hrow).1
          rw [hlen] at hlt
          omega
        rw [List.getElem?_append_right le_rfl, Nat.sub_self] at hrow
        obtain rfl := Option.some.inj hrow
        rw [if_pos rfl]
        refine ⟨h.next, ?_⟩
        simp only [nodeRow, hqn]
  · exact h.shared
  · rw [hlen]
    push_cast
    rw [← h.next]
    rfl
  · intro i hi
    rw [hlen] at hi
    dsimp only
    by_cases hlast : i = rows.length
    · rw [hlast, Function.update_self, h.next]
    · rw [Function.update_of_ne (by omega)]
      exact h.map i (by omega)
  · exact h.edges

theorem nodeLoop_of_rows (rows : List DumpNode) (hrows : ∀ (i : Nat) row, rows[i]? = some row →
      ∃ n : Node, n.qualifiedName ≠ none ∧ row = nodeRow project n (i + 1))
    (hnames : (rows.map DumpNode.qualifiedName).Nodup) (hmax : (rows.length : Int) ≤ maxId) :
    NodeLoop project rows
      (rows.foldl (GraphBuffer.loadNode maxId) (cbmGbufNew project none, fun _ => 0)) := by
  induction rows using List.reverseRec with
  | nil => exact nodeLoop_nil project
  | append_singleton rows row ih =>
      rw [List.length_append, List.length_singleton] at hmax
      push_cast at hmax
      rw [List.map_append, List.map_singleton] at hnames
      obtain ⟨hbefore, -, hdisjoint⟩ := List.nodup_append'.mp hnames
      have hfront := ih (fun i r hr => hrows i r (by
          rw [List.getElem?_append_left (List.getElem?_eq_some_iff.mp hr).1]
          exact hr)) hbefore (by omega)
      obtain ⟨n, hnamed, rfl⟩ := hrows rows.length row (by simp)
      rw [List.foldl_append]
      refine hfront.loadNode hmax hnamed ?_
      intro hmem
      exact hdisjoint hmem (List.mem_singleton_self _)

theorem length_le_maxOldId (hrows : ∀ (i : Nat) row, rows[i]? = some row →
      ∃ n : Node, n.qualifiedName ≠ none ∧ row = nodeRow project n (i + 1)) :
    (rows.length : Int) ≤ maxOldId rows := by
  have hfold : ∀ (l : List DumpNode) (m : Int),
      m ≤ l.foldl (fun m r => max m r.id) m ∧
        ∀ r, r ∈ l → r.id ≤ l.foldl (fun m r => max m r.id) m := by
    intro l
    induction l with
    | nil => exact fun m => ⟨le_rfl, fun r hr => absurd hr List.not_mem_nil⟩
    | cons a l ih =>
        intro m
        obtain ⟨hm, hl⟩ := ih (max m a.id)
        rw [List.foldl_cons]
        refine ⟨(le_max_left m a.id).trans hm, List.forall_mem_cons.mpr ⟨?_, hl⟩⟩
        exact (le_max_right m a.id).trans hm
  have hmem : ∀ row, row ∈ rows → row.id ≤ maxOldId rows := by
    cases rows with
    | nil => exact fun row hrow => absurd hrow List.not_mem_nil
    | cons a l => exact List.forall_mem_cons.mpr (hfold l a.id)
  cases hlast : rows.length with
  | zero =>
      rw [List.length_eq_zero_iff.mp hlast]
      exact le_rfl
  | succ k =>
      have hk : k < rows.length := by omega
      obtain ⟨n, -, hrow⟩ := hrows k _ (List.getElem?_eq_getElem hk)
      have hid := hmem _ (List.getElem_mem hk)
      rw [hrow] at hid
      push_cast
      exact hid

/-- What the loop over the edge rows leaves, from the buffer `g₀` on. -/
structure EdgeLoop (extractUrlPath : CStr → Option CStr) (g₀ : Gbuf) (rows : List DumpEdge)
    (g : Gbuf) : Prop where
  nodes : g.nodePart = g₀.nodePart
  ofProject : g.project = g₀.project
  next : g₀.nextId ≤ g.nextId
  shared : g.sharedIds = none
  count : g.edgeCount = rows.length
  edges : g.edges = List.range rows.length
  edgeAt : ∀ (j : Nat) row, rows[j]? = some row →
    edgeRow extractUrlPath g₀.project (g.edgeAt j) row.id = row
  keys : ∀ key p, g.edgeByKey.lookup key = some p → p < rows.length ∧ key = (g.edgeAt p).key

theorem edgeLoop_nil (extractUrlPath : CStr → Option CStr) {g₀ : Gbuf}
    (hshared : g₀.sharedIds = none) (hedges : g₀.edgePart = (cbmGbufNew project none).edgePart) :
    EdgeLoop extractUrlPath g₀ [] g₀ where
  nodes := rfl
  ofProject := rfl
  next := le_rfl
  shared := hshared
  count := congrArg EdgePart.edgeCount hedges
  edges := congrArg EdgePart.edges hedges
  edgeAt := fun j row hrow => absurd hrow (by simp)
  keys := by
    intro key p hp
    have hempty : g₀.edgeByKey = ∅ := congrArg EdgePart.edgeByKey hedges
    rw [hempty, AList.lookup_empty] at hp
    exact absurd hp (by simp)

theorem EdgeLoop.insertEdge {extractUrlPath : CStr → Option CStr} {g₀ : Gbuf} {rows : List DumpEdge}
    (h : EdgeLoop extractUrlPath g₀ rows g) (e : Edge) (id : Int)
    (hnew : g.edgeByKey.lookup e.key = none) :
    EdgeLoop extractUrlPath g₀ (rows ++ [edgeRow extractUrlPath g₀.project e id])
      (cbmGbufInsertEdge g e.sourceId e.targetId e.type (some e.propertiesJson)).1 := by
  rcases insertEdge_cases g e.sourceId e.targetId e.type (some e.propertiesJson) with
    ⟨p, hp, -⟩ | ⟨-, hadd⟩
  · exact absurd (hp.symm.trans hnew) (by simp)
  · have hpart := nodePart_cbmGbufInsertEdge g e.sourceId e.targetId e.type
      (some e.propertiesJson)
    have hlen : ∀ row : DumpEdge, (rows ++ [row]).length = rows.length + 1 := by simp
    rw [hadd] at hpart ⊢
    have halloc : (allocNextId g).2 = { g with nextId := g.nextId + 1 } := by
      rw [allocNextId, h.shared]
    rw [halloc] at hpart ⊢
    have hat : ∀ q, (pushEdge { g with nextId := g.nextId + 1 }
        (newEdge g e.sourceId e.targetId e.type (some e.propertiesJson))).edgeAt q =
          if q = rows.length then newEdge g e.sourceId e.targetId e.type (some e.propertiesJson)
          else g.edgeAt q := by
      intro q
      rw [← h.count]
      exact edgeAt_pushEdge { g with nextId := g.nextId + 1 } _ q
    constructor
    · exact hpart.trans h.nodes
    · exact h.ofProject
    · exact h.next.trans (Int.le_add_one le_rfl)
    · exact h.shared
    · rw [hlen]
      exact congrArg (· + 1) h.count
    · rw [hlen, List.range_succ, ← h.edges, ← h.count]
      rfl
    · intro j row hrow
      rw [hat]
      rcases Nat.lt_or_ge j rows.length with hj | hj
      · rw [List.getElem?_append_left hj] at hrow
        rw [if_neg (Nat.ne_of_lt hj)]
        exact h.edgeAt j row hrow
      · obtain rfl : j = rows.length := by
          have hlt := (List.getElem?_eq_some_iff.mp hrow).1
          rw [hlen] at hlt
          omega
        rw [List.getElem?_append_right le_rfl, Nat.sub_self] at hrow
        obtain rfl := Option.some.inj hrow
        rw [if_pos rfl]
        rfl
    · intro key p hp
      rw [hat, hlen]
      change (g.edgeByKey.insert e.key g.edgeCount).lookup key = some p at hp
      by_cases hkey : key = e.key
      · rw [hkey, AList.lookup_insert, h.count] at hp
        obtain rfl := Option.some.inj hp
        rw [if_pos rfl]
        exact ⟨Nat.lt_succ_self _, hkey⟩
      · rw [AList.lookup_insert_ne hkey] at hp
        obtain ⟨hlt, hp'⟩ := h.keys key p hp
        rw [if_neg (Nat.ne_of_lt hlt)]
        exact ⟨Nat.lt_succ_of_lt hlt, hp'⟩

section Load

variable {extractUrlPath : CStr → Option CStr} {project : CStr} {nodes : List DumpNode}
  {edges : List DumpEdge}

variable {g : Gbuf}
variable {i : Nat}

theorem GraphRows.inI64 (h : GraphRows extractUrlPath project nodes edges) (hi : i < nodes.length) :
    InI64 ((i : Int) + 1) := by
  have hsize := h.size
  constructor <;> omega

theorem GraphRows.key_inj (h : GraphRows extractUrlPath project nodes edges) {e e' : Edge}
    (id id' : Int) (he : edgeRow extractUrlPath project e id ∈ edges)
    (he' : edgeRow extractUrlPath project e' id' ∈ edges) (hkey : e.key = e'.key) :
    (e.sourceId, e.targetId, e.type) = (e'.sourceId, e'.targetId, e'.type) := by
  have hok : ∀ (d : Edge) (k : Int), edgeRow extractUrlPath project d k ∈ edges →
      InI64 d.sourceId ∧ InI64 d.targetId ∧ d.type.length ≤ 80 := by
    intro d k hd
    obtain ⟨i, hi, hsrc⟩ := h.sources _ hd
    obtain ⟨j, hj, htgt⟩ := h.targets _ hd
    obtain ⟨d', htype, hrow⟩ := h.edgeRows _ hd
    refine ⟨?_, ?_, ?_⟩
    · rw [show d.sourceId = (i : Int) + 1 from hsrc]
      exact h.inI64 hi
    · rw [show d.targetId = (j : Int) + 1 from htgt]
      exact h.inI64 hj
    · rw [show d.type = d'.type from Option.some.inj (congrArg DumpEdge.type hrow)]
      exact htype
  obtain ⟨hs, ht, htype⟩ := hok e id he
  obtain ⟨hs', ht', htype'⟩ := hok e' id' he'
  obtain ⟨hsrc, htgt, htypes⟩ := edgeKey_inj hs ht htype hs' ht' htype' hkey
  rw [hsrc, htgt, htypes]

theorem edgeLoop_of_rows (h : GraphRows extractUrlPath project nodes edges) {maxId : Int}
    (hmax : (nodes.length : Int) ≤ maxId) {st : Gbuf × (Int → Int)}
    (hnodes : NodeLoop project nodes st) (before : List DumpEdge) (hbefore : before <+: edges) :
    EdgeLoop extractUrlPath st.1 before (before.foldl (loadEdge maxId st.2) st.1) := by
  induction before using List.reverseRec with
  | nil => exact edgeLoop_nil extractUrlPath hnodes.shared hnodes.edges
  | append_singleton rows row ih =>
      have hloop := ih ((List.prefix_append rows [row]).trans hbefore)
      have hmem : row ∈ edges := hbefore.subset (by simp)
      obtain ⟨e, -, hrow⟩ := h.edgeRows row hmem
      obtain ⟨i, hi, hsrc⟩ := h.sources row hmem
      obtain ⟨j, hj, htgt⟩ := h.targets row hmem
      have hnew : ∀ (k : Nat), k < nodes.length → newId maxId st.2 ((k : Int) + 1) = k + 1 := by
        intro k hk
        rw [newId, if_pos (by omega)]
        exact hnodes.map k hk
      have hload : ∀ g, loadEdge maxId st.2 g row =
          (cbmGbufInsertEdge g e.sourceId e.targetId e.type (some e.propertiesJson)).1 := by
        intro g
        rw [loadEdge, hsrc, htgt, hnew i hi, hnew j hj]
        rw [if_pos (by omega), ← hsrc, ← htgt, hrow]
        rfl
      rw [List.foldl_append]
      change EdgeLoop extractUrlPath st.1 _ (loadEdge maxId st.2 _ row)
      rw [hload, hrow, ← hnodes.ofProject]
      refine hloop.insertEdge e row.id ?_
      -- an edge with this key would come from an earlier row that says the same
      cases hlookup : (rows.foldl (loadEdge maxId st.2) st.1).edgeByKey.lookup e.key with
      | none => rfl
      | some p =>
          obtain ⟨hp, hkey⟩ := hloop.keys e.key p hlookup
          have hprev := hloop.edgeAt p _ (List.getElem?_eq_getElem hp)
          rw [hnodes.ofProject] at hprev
          have hprevMem : rows[p] ∈ rows := List.getElem_mem hp
          have hdistinct := h.distinct.sublist hbefore.sublist
          rw [List.pairwise_append] at hdistinct
          refine absurd ?_ (hdistinct.2.2 rows[p] hprevMem row (List.mem_singleton_self row))
          have hsame := h.key_inj rows[p].id row.id (by
              rw [hprev]
              exact hbefore.subset (List.mem_append_left _ hprevMem))
            (by rw [← hrow]; exact hmem) hkey.symm
          rw [← hprev, hrow]
          exact congrArg (fun t : Int × Int × CStr => (t.1, t.2.1, some t.2.2)) hsame

/-- A buffer that was loaded from the rows of a graph. -/
structure Loaded (extractUrlPath : CStr → Option CStr) (project : CStr) (nodes : List DumpNode)
    (edges : List DumpEdge) (g : Gbuf) : Prop extends NodesLoaded project nodes g where
  named : ∀ i : Nat, i < nodes.length → (g.nodeAt i).qualifiedName ≠ none
  next : (nodes.length : Int) < g.nextId
  pointers : g.edges = List.range edges.length
  edgeAt : ∀ (j : Nat) row, edges[j]? = some row →
    edgeRow extractUrlPath project (g.edgeAt j) row.id = row

theorem GraphRows.loaded (h : GraphRows extractUrlPath project nodes edges) :
    Loaded extractUrlPath project nodes edges
      (cbmGbufLoadFromDb (cbmGbufNew project none) nodes edges) := by
  have hmax := length_le_maxOldId h.nodeRows
  have hnodes := nodeLoop_of_rows nodes h.nodeRows h.names hmax
  have hedges := edgeLoop_of_rows h hmax hnodes edges (List.prefix_refl edges)
  have hat := nodeAt_of_nodePart hedges.nodes
  refine ⟨⟨hnodes.owned.congr hedges.nodes, hedges.ofProject.trans hnodes.ofProject, ?_, ?_⟩,
    ?_, ?_, hedges.edges, ?_⟩
  · exact (nodeCount_of_nodePart hedges.nodes).trans hnodes.count
  · intro i row hrow
    rw [cbmGbufLoadFromDb, hat]
    exact hnodes.nodeAt i row hrow
  · intro i hi
    rw [cbmGbufLoadFromDb, hat]
    obtain ⟨n, hnamed, hrow⟩ := h.nodeRows i _ (List.getElem?_eq_getElem hi)
    have hname := congrArg DumpNode.qualifiedName
      (hnodes.nodeAt i _ (List.getElem?_eq_getElem hi)).2
    rw [hrow] at hname
    change (Gbuf.nodeAt _ i).qualifiedName = n.qualifiedName at hname
    rw [hname]
    exact hnamed
  · have hnext := hedges.next
    rw [hnodes.next] at hnext
    exact lt_of_lt_of_le (Int.lt_succ _) hnext
  · intro j row hrow
    have hrow' := hedges.edgeAt j row hrow
    rw [hnodes.ofProject] at hrow'
    exact hrow'

theorem Loaded.foreachNode (h : Loaded extractUrlPath project nodes edges g) :
    cbmGbufForeachNode g = List.range nodes.length := by
  rw [cbmGbufForeachNode, h.count, List.filter_eq_self]
  intro i hi
  have hlt := List.mem_range.mp hi
  obtain ⟨qn, hqn⟩ := Option.ne_none_iff_exists'.mp (h.named i hlt)
  exact (isLive_iff g i).mpr ⟨qn, hqn, i, h.owned.live i qn (by rw [h.count]; exact hlt) hqn⟩

theorem Loaded.id_nodeAt (h : Loaded extractUrlPath project nodes edges g) (hi : i < nodes.length) :
    (g.nodeAt i).id = i + 1 :=
  (h.nodeAt i _ (List.getElem?_eq_getElem hi)).1

theorem Loaded.dumpable (h : Loaded extractUrlPath project nodes edges g) : Dumpable g := by
  have hlt : ∀ p, Found g p → p < nodes.length := by
    intro p hp
    rw [← h.count]
    exact h.owned.named.lt hp
  refine ⟨h.owned.named, fun _ => h.owned.found, ?_, ?_⟩
  · intro p q hp hq hid
    rw [h.id_nodeAt (hlt p hp), h.id_nodeAt (hlt q hq)] at hid
    omega
  · intro p hp
    have hnext := h.next
    have hp' := hlt p hp
    rw [h.id_nodeAt hp']
    omega

theorem Loaded.nodeRows_dump (h : Loaded extractUrlPath project nodes edges g) :
    (buildDumpNodes g g.nextId).rows = nodes := by
  refine List.ext_getElem? fun i => ?_
  rw [rows_buildDumpNodes, h.foreachNode]
  rcases Nat.lt_or_ge i nodes.length with hi | hi
  · have hrow := List.getElem?_eq_getElem hi
    rw [List.getElem?_range hi, Option.map_some, hrow, ← (h.nodeAt i _ hrow).2, ← h.ofProject]
    rfl
  · rw [List.getElem?_eq_none (by simpa using hi), List.getElem?_eq_none hi, Option.map_none]

theorem Loaded.remapId_eq (h : Loaded extractUrlPath project nodes edges g)
    (hi : i < nodes.length) :
    remapId (buildDumpNodes g g.nextId).tempToFinal g.nextId ((i : Int) + 1) = i + 1 := by
  have hhit := h.dumpable.remapId_of_hit (p := i) (i := i) (by
    rw [h.foreachNode]
    exact List.getElem?_range hi)
  rw [h.id_nodeAt hi] at hhit
  exact hhit

/-- Edge rows in the order in which they are read. -/
def renumber (edges : List DumpEdge) : List DumpEdge :=
  edges.mapIdx fun j row => { row with id := (j : Int) + 1 }

theorem Loaded.edgeRows_dump (h : Loaded extractUrlPath project nodes edges g)
    (hrows : GraphRows extractUrlPath project nodes edges) :
    buildDumpEdges extractUrlPath g (buildDumpNodes g g.nextId).tempToFinal g.nextId =
      renumber edges := by
  have hends : ∀ j : Nat, j < edges.length → ∃ a b : Nat, a < nodes.length ∧ b < nodes.length ∧
      (g.edgeAt j).sourceId = a + 1 ∧ (g.edgeAt j).targetId = b + 1 := by
    intro j hj
    have hrow := h.edgeAt j _ (List.getElem?_eq_getElem hj)
    obtain ⟨a, ha, hsrc⟩ := hrows.sources _ (List.getElem_mem hj)
    obtain ⟨b, hb, htgt⟩ := hrows.targets _ (List.getElem_mem hj)
    rw [← hrow] at hsrc htgt
    exact ⟨a, b, ha, hb, hsrc, htgt⟩
  have hresolved : g.edges.filter (resolved g (buildDumpNodes g g.nextId).tempToFinal g.nextId) =
      List.range edges.length := by
    rw [h.pointers, List.filter_eq_self]
    intro j hj
    obtain ⟨a, b, ha, hb, hsrc, htgt⟩ := hends j (List.mem_range.mp hj)
    rw [resolved_iff, hsrc, htgt, h.remapId_eq ha, h.remapId_eq hb]
    omega
  refine List.ext_getElem? fun j => ?_
  rw [rows_buildDumpEdges, hresolved, renumber, List.getElem?_mapIdx]
  rcases Nat.lt_or_ge j edges.length with hj | hj
  · obtain ⟨a, b, ha, hb, hsrc, htgt⟩ := hends j hj
    have hrow := List.getElem?_eq_getElem hj
    have hedge := h.edgeAt j _ hrow
    rw [List.getElem?_range hj, hrow, Option.map_some, Option.map_some, hsrc, htgt,
      h.remapId_eq ha, h.remapId_eq hb, ← hsrc, ← htgt, ← hedge, ← h.ofProject]
    rfl
  · rw [List.getElem?_eq_none (by simpa using hj), List.getElem?_eq_none hj, Option.map_none,
      Option.map_none]

end Load

def dumpRows (extractUrlPath : CStr → Option CStr) (g : Gbuf) : List DumpNode × List DumpEdge :=
  ((buildDumpNodes g g.nextId).rows,
    buildDumpEdges extractUrlPath g (buildDumpNodes g g.nextId).tempToFinal g.nextId)

section Dumped

variable {g : Gbuf} (extractUrlPath : CStr → Option CStr)

theorem Dumpable.exists_of_remapId (h : Dumpable g) {id : Int}
    (hid : remapId (buildDumpNodes g g.nextId).tempToFinal g.nextId id ≠ 0) :
    ∃ (i : Nat) (p : Nat), (cbmGbufForeachNode g)[i]? = some p ∧ (g.nodeAt p).id = id ∧
      remapId (buildDumpNodes g g.nextId).tempToFinal g.nextId id = i + 1 := by
  obtain ⟨p, hp, rfl⟩ := isLiveId_iff.mp ((h.remapId_ne_zero id).mp hid)
  obtain ⟨i, hi⟩ := List.mem_iff_getElem?.mp hp
  exact ⟨i, p, hi, rfl, h.remapId_of_hit hi⟩

theorem Dumpable.remapId_inj (h : Dumpable g) {id id' : Int}
    (hid : remapId (buildDumpNodes g g.nextId).tempToFinal g.nextId id ≠ 0)
    (heq : remapId (buildDumpNodes g g.nextId).tempToFinal g.nextId id =
      remapId (buildDumpNodes g g.nextId).tempToFinal g.nextId id') : id = id' := by
  obtain ⟨i, p, hi, hp, hfinal⟩ := h.exists_of_remapId hid
  obtain ⟨i', p', hi', hp', hfinal'⟩ := h.exists_of_remapId (by rw [← heq]; exact hid)
  have hii : i = i' := by omega
  rw [hii, hi'] at hi
  rw [← hp, ← hp', Option.some.inj hi]

theorem length_rows_dump : (dumpRows extractUrlPath g).1.length = (cbmGbufForeachNode g).length :=
  length_eq_of_getElem?_map (rows_buildDumpNodes g g.nextId)

theorem edgeRow_dump {j : Nat} {row : DumpEdge}
    (hrow : (dumpRows extractUrlPath g).2[j]? = some row) :
    ∃ p, (g.edges.filter (resolved g (buildDumpNodes g g.nextId).tempToFinal g.nextId))[j]? =
        some p ∧
      row = dumpEdge extractUrlPath g (g.edgeAt p) (j + 1)
        (remapId (buildDumpNodes g g.nextId).tempToFinal g.nextId (g.edgeAt p).sourceId)
        (remapId (buildDumpNodes g g.nextId).tempToFinal g.nextId (g.edgeAt p).targetId) := by
  rw [dumpRows, rows_buildDumpEdges] at hrow
  obtain ⟨p, hp, hrow⟩ := Option.map_eq_some_iff.mp hrow
  exact ⟨p, hp, hrow.symm⟩

theorem Storable.graphRows (h : Storable g) :
    GraphRows extractUrlPath g.project (dumpRows extractUrlPath g).1
      (dumpRows extractUrlPath g).2 := by
  have hends : ∀ row, row ∈ (dumpRows extractUrlPath g).2 → ∃ p, p ∈ g.edges ∧
      resolved g (buildDumpNodes g g.nextId).tempToFinal g.nextId p = true ∧
      row = dumpEdge extractUrlPath g (g.edgeAt p) row.id
        (remapId (buildDumpNodes g g.nextId).tempToFinal g.nextId (g.edgeAt p).sourceId)
        (remapId (buildDumpNodes g g.nextId).tempToFinal g.nextId (g.edgeAt p).targetId) := by
    intro row hrow
    obtain ⟨j, hj⟩ := List.mem_iff_getElem?.mp hrow
    obtain ⟨p, hp, rfl⟩ := edgeRow_dump extractUrlPath hj
    obtain ⟨hmem, hresolved⟩ := List.mem_filter.mp (List.mem_of_getElem? hp)
    exact ⟨p, hmem, hresolved, rfl⟩
  have hnumber : ∀ id, remapId (buildDumpNodes g g.nextId).tempToFinal g.nextId id ≠ 0 →
      ∃ i : Nat, i < (dumpRows extractUrlPath g).1.length ∧
        remapId (buildDumpNodes g g.nextId).tempToFinal g.nextId id = i + 1 := by
    intro id hid
    obtain ⟨i, p, hi, -, hfinal⟩ := h.exists_of_remapId hid
    refine ⟨i, ?_, hfinal⟩
    rw [length_rows_dump]
    exact (List.getElem?_eq_some_iff.mp hi).1
  constructor
  · intro i row hrow
    rw [dumpRows, rows_buildDumpNodes] at hrow
    obtain ⟨p, hp, rfl⟩ := Option.map_eq_some_iff.mp hrow
    obtain ⟨qn, hqn⟩ := h.visited p (List.mem_of_getElem? hp)
    refine ⟨g.nodeAt p, ?_, rfl⟩
    rw [(h.named qn p hqn).2]
    exact Option.some_ne_none qn
  · exact h.named.nodup_dump h.visited g.nextId
  · intro row hrow
    obtain ⟨p, hp, -, hrow'⟩ := hends row hrow
    refine ⟨{ g.edgeAt p with
      sourceId := remapId (buildDumpNodes g g.nextId).tempToFinal g.nextId (g.edgeAt p).sourceId
      targetId := remapId (buildDumpNodes g g.nextId).tempToFinal g.nextId
        (g.edgeAt p).targetId }, h.types p hp, hrow'⟩
  · intro row hrow
    obtain ⟨p, -, hresolved, hrow'⟩ := hends row hrow
    rw [hrow']
    exact hnumber _ (resolved_iff.mp hresolved).1
  · intro row hrow
    obtain ⟨p, -, hresolved, hrow'⟩ := hends row hrow
    rw [hrow']
    exact hnumber _ (resolved_iff.mp hresolved).2
  · rw [List.pairwise_iff_getElem]
    intro i j hi hj hij hsame
    obtain ⟨p, hp, hrow⟩ := edgeRow_dump extractUrlPath (List.getElem?_eq_getElem hi)
    obtain ⟨q, hq, hrow'⟩ := edgeRow_dump extractUrlPath (List.getElem?_eq_getElem hj)
    obtain ⟨hp', hpe⟩ := List.getElem?_eq_some_iff.mp hp
    obtain ⟨hq', hqe⟩ := List.getElem?_eq_some_iff.mp hq
    have hne := List.pairwise_iff_getElem.mp (h.distinct.filter _) i j hp' hq' hij
    have hpr := resolved_iff.mp (List.mem_filter.mp (List.mem_of_getElem? hp)).2
    rw [hrow, hrow'] at hsame
    simp only [dumpEdge, Prod.mk.injEq, Option.some.injEq] at hsame
    refine hne ?_
    rw [hpe, hqe, h.remapId_inj hpr.1 hsame.1, h.remapId_inj hpr.2 hsame.2.1, hsame.2.2]
  · have hsize := h.size
    rw [length_rows_dump]
    have hfilter : (cbmGbufForeachNode g).length ≤ (List.range g.nodeCount).length :=
      List.length_filter_le _ _
    rw [List.length_range] at hfilter
    omega

end Dumped

/-- An edge with these properties joins the nodes of `a` and `b`. -/
def EdgeTuple (g : Gbuf) (a b type properties : CStr) : Prop :=
  ∃ p, p ∈ g.edges ∧ Connects (NodeName g) (g.edgeAt p) a b type ∧
    (g.edgeAt p).propertiesJson = properties

/-- An edge row with these properties joins the node rows of `a` and `b`. -/
def RowTuple (nodes : List DumpNode) (edges : List DumpEdge) (a b type properties : CStr) : Prop :=
  ∃ e, e ∈ edges ∧ (e.type = some type ∧ e.properties = some properties) ∧
    RowName nodes e.sourceId a ∧ RowName nodes e.targetId b

theorem rowTuple_dump {g : Gbuf} (h : Dumpable g) (extractUrlPath : CStr → Option CStr)
    (a b type properties : CStr) :
    RowTuple (dumpRows extractUrlPath g).1 (dumpRows extractUrlPath g).2 a b type properties ↔
      EdgeTuple g a b type properties := by
  refine (exists_dumpEdge_iff h extractUrlPath
    (fun t s => t = some type ∧ s = some properties) a b).trans ?_
  constructor
  · rintro ⟨p, hp, ⟨htype, hprops⟩, ha, hb⟩
    exact ⟨p, hp, ⟨ha, hb, Option.some.inj htype⟩, Option.some.inj hprops⟩
  · rintro ⟨p, hp, ⟨ha, hb, htype⟩, hprops⟩
    exact ⟨p, hp, ⟨congrArg some htype, congrArg some hprops⟩, ha, hb⟩

theorem rowTuple_renumber {nodes : List DumpNode} {edges edges' : List DumpEdge}
    (hperm : edges.Perm edges') (a b type properties : CStr) :
    RowTuple nodes (renumber edges) a b type properties ↔
      RowTuple nodes edges' a b type properties := by
  constructor
  · rintro ⟨e, he, hsaid⟩
    obtain ⟨j, hj⟩ := List.mem_iff_getElem?.mp he
    rw [renumber, List.getElem?_mapIdx] at hj
    obtain ⟨row, hrow, rfl⟩ := Option.map_eq_some_iff.mp hj
    exact ⟨row, hperm.subset (List.mem_of_getElem? hrow), hsaid⟩
  · rintro ⟨row, hrow, hsaid⟩
    obtain ⟨j, hj⟩ := List.mem_iff_getElem?.mp (hperm.symm.subset hrow)
    refine ⟨{ row with id := (j : Int) + 1 }, List.mem_iff_getElem?.mpr ⟨j, ?_⟩, hsaid⟩
    rw [renumber, List.getElem?_mapIdx, hj, Option.map_some]

theorem renumber_dump (extractUrlPath : CStr → Option CStr) (g : Gbuf) :
    renumber (dumpRows extractUrlPath g).2 = (dumpRows extractUrlPath g).2 := by
  refine List.ext_getElem? fun j => ?_
  rw [renumber, List.getElem?_mapIdx]
  cases hrow : (dumpRows extractUrlPath g).2[j]? with
  | none => rfl
  | some row =>
      obtain ⟨p, -, rfl⟩ := edgeRow_dump extractUrlPath hrow
      rfl

theorem GraphRows.perm {extractUrlPath : CStr → Option CStr} {project : CStr}
    {nodes : List DumpNode} {edges edges' : List DumpEdge}
    (h : GraphRows extractUrlPath project nodes edges) (hperm : edges'.Perm edges) :
    GraphRows extractUrlPath project nodes edges' where
  nodeRows := h.nodeRows
  names := h.names
  edgeRows := fun row hrow => h.edgeRows row (hperm.subset hrow)
  sources := fun row hrow => h.sources row (hperm.subset hrow)
  targets := fun row hrow => h.targets row (hperm.subset hrow)
  distinct := h.distinct.perm hperm.symm fun hne => hne.symm
  size := h.size

/-- `g'` has the nodes and the edges of `g`, and dumps to its rows, the edges in
the order of `edges`. -/
structure RoundTrip (extractUrlPath : CStr → Option CStr) (g g' : Gbuf) (edges : List DumpEdge) :
    Prop where
  nodes : content g' = content g
  edgeTuples : ∀ a b type properties, EdgeTuple g' a b type properties ↔
    EdgeTuple g a b type properties
  nodeRows : (dumpRows extractUrlPath g').1 = (dumpRows extractUrlPath g).1
  edgeRows : (dumpRows extractUrlPath g').2 = renumber edges
  inOrder : edges = (dumpRows extractUrlPath g).2 →
    dumpRows extractUrlPath g' = dumpRows extractUrlPath g

/-- What a dump of `g` is loaded into. -/
def reloaded (g : Gbuf) : Gbuf :=
  cbmGbufLoadFromDb (cbmGbufNew g.project none) (dumpRows (fun _ => none) g).1
    (dumpRows (fun _ => none) g).2

/-- The calls of `called`, with ids from a shared source. -/
def drawn : Gbuf :=
  (((cbmGbufNew (bytesOf "p") (some 1)).step (upsertFunction "a")).step (upsertFunction "b")).step
    (insertCall 1 2)

/-- A type of 123 bytes that ends in `last`. -/
def longType (last : UInt8) : CStr :=
  List.replicate 122 120 ++ [last]

/-- The node `i` has the id 9 and is the tenth of the array; two edges of it
differ in the last byte of their types. -/
def longTyped : Gbuf :=
  let functions := ["a", "b", "c", "d", "e", "f", "g", "h", "i"].map upsertFunction
  let g := (cbmGbufNew (bytesOf "p") none).step
    (.merge ((cbmGbufNew (bytesOf "p") (some 10)).step (upsertFunction "j")))
  let g := g.step (.merge (functions.foldl Gbuf.step (cbmGbufNew (bytesOf "p") none)))
  (g.step (.insertEdge 9 9 (longType 97) none)).step (.insertEdge 9 9 (longType 98) none)

theorem owned_drawn : Owned drawn :=
  (((owned_new (bytesOf "p") (some 1)).upsert _ _ _ _ _ _ _).upsert _ _ _ _ _ _ _).congr
    (nodePart_cbmGbufInsertEdge _ _ _ _ _)

theorem owned_longTyped : Owned longTyped :=
  (((((owned_new (bytesOf "p") none).merge _).merge _).congr
    (nodePart_cbmGbufInsertEdge _ _ _ _ _))).congr (nodePart_cbmGbufInsertEdge _ _ _ _ _)

theorem not_roundTrip_of_edge {g : Gbuf} {a b type properties : CStr}
    (hbefore : EdgeTuple g a b type properties)
    (hafter : ¬ EdgeTuple (reloaded g) a b type properties) :
    ¬ RoundTrip (fun _ => none) g (reloaded g) (dumpRows (fun _ => none) g).2 :=
  fun h => hafter ((h.edgeTuples a b type properties).mpr hbefore)

end GraphBuffer
end CodebaseMemory
