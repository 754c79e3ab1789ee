import CodebaseMemory.GraphBuffer.Dump
import CodebaseMemory.GraphBuffer.Load

/-!
# The nodes of a buffer as a finite map

`content g` takes a qualified name to the fields of the node that is found
under it.  Ids, dead entries of the array and the lookup tables are not seen
through it.  There is one equation for each operation on nodes.
-/

namespace CodebaseMemory
namespace GraphBuffer

open Lib
open Sqlite (CStr bytesOf DumpNode DumpEdge)

/-- The fields of the node that is found under a name. -/
def content (g : Gbuf) (qn : CStr) : Option NodeFields :=
  (g.nodeByQn.lookup qn).map fun p => (g.nodeAt p).fields

variable {qn : CStr}
variable {g : Gbuf}

theorem content_eq_some {x : NodeFields} :
    content g qn = some x ↔ ∃ p, g.nodeByQn.lookup qn = some p ∧ (g.nodeAt p).fields = x :=
  Option.map_eq_some_iff

theorem content_of_nodePart {g' : Gbuf} (hpart : g'.nodePart = g.nodePart) :
    content g' = content g := by
  funext qn
  rw [content, content, nodeByQn_of_nodePart hpart, nodeAt_of_nodePart hpart]

theorem content_new (project : CStr) (shared : Option Int) (qn : CStr) :
    content (cbmGbufNew project shared) qn = none := rfl

/-- The fields after an update; NULL leaves the properties, which are `"{}"` in
a new node. -/
def NodeFields.over (x : NodeFields) (old : Option NodeFields) : NodeFields :=
  { x with properties := some (x.properties.getD (heapStrdup (old.bind NodeFields.properties))) }

theorem content_setNode (hnamed : Named g) {p : Nat} (x : NodeFields)
    (hp : g.nodeByQn.lookup qn = some p) (qn' : CStr) :
    content (setNode g p ((g.nodeAt p).update x)) qn' =
      if qn' = qn then some (x.over (content g qn)) else content g qn' := by
  unfold content
  change (g.nodeByQn.lookup qn').map _ = _
  by_cases hqn : qn' = qn
  · rw [if_pos hqn, hqn, hp, Option.map_some, Option.map_some, nodeAt_setNode, if_pos rfl]
    rfl
  · rw [if_neg hqn]
    cases hq : g.nodeByQn.lookup qn' with
    | none => rfl
    | some q =>
        rw [Option.map_some, Option.map_some, nodeAt_setNode,
          if_neg (hnamed.ne_of_ne hqn hp hq)]

theorem content_pushNode (hnamed : Named g) (x : NodeFields) (id : Int)
    (hnew : g.nodeByQn.lookup qn = none) (qn' : CStr) :
    content (pushNode g (x.node id) qn) qn' =
      if qn' = qn then some (x.over (content g qn)) else content g qn' := by
  unfold content
  rw [lookup_pushNode]
  by_cases hqn : qn' = qn
  · rw [if_pos hqn, if_pos hqn, hnew, Option.map_some, nodeAt_pushNode, if_pos rfl]
    rfl
  · rw [if_neg hqn, if_neg hqn]
    cases hq : g.nodeByQn.lookup qn' with
    | none => rfl
    | some q =>
        rw [Option.map_some, Option.map_some, nodeAt_pushNode,
          if_neg (Nat.ne_of_lt (hnamed qn' q hq).1)]

theorem content_upsert (hnamed : Named g) (label name : Option CStr) (qn : CStr)
    (filePath : Option CStr) (startLine endLine : Int) (properties : Option CStr) (qn' : CStr) :
    content (cbmGbufUpsertNode g label name qn filePath startLine endLine properties).1 qn' =
      if qn' = qn then
        some (NodeFields.over
          { label := heapStrdup label, name := heapStrdup name, filePath := heapStrdup filePath,
            startLine := startLine, endLine := endLine, properties := properties } (content g qn))
      else content g qn' := by
  unfold cbmGbufUpsertNode
  dsimp only
  cases hlookup : g.nodeByQn.lookup qn with
  | some p => exact content_setNode hnamed _ hlookup qn'
  | none =>
      have hpart := nodePart_allocNextId g
      have hnew : (allocNextId g).2.nodeByQn.lookup qn = none := by
        rw [nodeByQn_of_nodePart hpart, hlookup]
      have hpush := content_pushNode (hnamed.congr hpart)
        { label := heapStrdup label, name := heapStrdup name, filePath := heapStrdup filePath,
          startLine := startLine, endLine := endLine, properties := properties }
        (allocNextId g).1 hnew qn'
      rw [content_of_nodePart hpart] at hpush
      exact hpush

theorem lookup_deleteFileLoop_of_ne {filePath : CStr} {p : Nat} (ps : List Nat) :
    ∀ st : Gbuf × Table CStr Unit, Owned st.1 → (∀ r, r ∈ ps → r < st.1.nodeCount) →
      st.1.nodeByQn.lookup qn = some p → (st.1.nodeAt p).filePath ≠ filePath →
      (ps.foldl (deleteFileStep filePath) st).1.nodeByQn.lookup qn = some p := by
  induction ps with
  | nil => exact fun st _ _ hp _ => hp
  | cons r ps ih =>
      intro st h hlt hp hfile
      have hrest : ∀ r, r ∈ ps → r < st.1.nodeCount :=
        fun s hs => hlt s (List.mem_cons_of_mem r hs)
      rw [List.foldl_cons]
      rcases deleteFileStep_cases filePath st r with ⟨hskip, -⟩ | ⟨⟨hr, hlive⟩, hdelete⟩
      · rw [hskip]
        exact ih st h hrest hp hfile
      · rw [hdelete]
        have hpr : p ≠ r := by
          rintro rfl
          exact hfile hr
        have hfound : Found st.1 r :=
          h.found ((mem_foreachNode st.1 r).mpr ⟨hlt r List.mem_cons_self, hlive⟩)
        obtain ⟨qn', hqn'⟩ := (found_deleteNode h.named hfound p).mpr ⟨⟨qn, hp⟩, hpr⟩
        have hname : qn' = qn := by
          have hname' := (h.named qn' p (lookup_deleteNode hqn')).2
          rw [(h.named qn p hp).2] at hname'
          exact (Option.some.inj hname').symm
        refine ih _ (h.deleteNode (hlt r List.mem_cons_self)) hrest ?_ ?_
        · rw [← hname]
          exact hqn'
        · rw [nodeAt_deleteNode, if_neg hpr]
          exact hfile

theorem content_deleteByFile (h : Owned g) (filePath qn : CStr) :
    content (cbmGbufDeleteByFile g filePath) qn =
      (content g qn).filter fun x => x.filePath ≠ filePath := by
  cases hdel : content (cbmGbufDeleteByFile g filePath) qn with
  | some x =>
      obtain ⟨p, hp, rfl⟩ := content_eq_some.mp hdel
      obtain ⟨hlookup, hat⟩ := lookup_deleteByFile h.named hp
      have hfile := filePath_ne_of_deleteByFile h.named hp
      rw [content, hlookup, Option.map_some, hat, Option.filter_some_pos]
      exact decide_eq_true hfile
  | none =>
      symm
      rw [Option.filter_eq_none_iff]
      intro x hx
      obtain ⟨p, hp, rfl⟩ := content_eq_some.mp hx
      intro hfile
      have hkept := lookup_deleteFileLoop_of_ne (List.range g.nodeCount) (g, ∅) h
        (fun r hr => List.mem_range.mp hr) hp (of_decide_eq_true hfile)
      rw [← nodeByQn_of_nodePart (nodePart_deleteByFile g filePath)] at hkept
      rw [content, hkept] at hdel
      exact absurd hdel (by simp)

theorem over_fields (n : Node) (old : Option NodeFields) : n.fields.over old = n.fields := rfl

theorem content_mergeLoop (src : Gbuf) (qn : CStr) (ps : List Nat) :
    ∀ st : Gbuf × Table CStr Int, Named st.1 →
      (∃ s, s ∈ ps ∧ isLive src s = true ∧ (src.nodeAt s).qualifiedName = some qn ∧
        content (ps.foldl (mergeNode src) st).1 qn = some (src.nodeAt s).fields) ∨
      ((∀ s, s ∈ ps → isLive src s = true → (src.nodeAt s).qualifiedName ≠ some qn) ∧
        content (ps.foldl (mergeNode src) st).1 qn = content st.1 qn) := by
  induction ps with
  | nil => exact fun st _ => Or.inr ⟨fun _ hs => absurd hs List.not_mem_nil, rfl⟩
  | cons s ps ih =>
      intro st hnamed
      rw [List.foldl_cons]
      have hround : Named (mergeNode src st s).1 ∧
          ((isLive src s = true ∧ (src.nodeAt s).qualifiedName = some qn ∧
              content (mergeNode src st s).1 qn = some (src.nodeAt s).fields) ∨
            ((isLive src s = true → (src.nodeAt s).qualifiedName ≠ some qn) ∧
              content (mergeNode src st s).1 qn = content st.1 qn)) := by
        rcases mergeNode_cases src st s with
          ⟨hdead, hskip⟩ | ⟨qn', hname, hlive, ⟨p, hp, hupdate⟩ | ⟨hnew, hcopy⟩⟩
        · rw [hskip, hdead]
          exact ⟨hnamed, Or.inr ⟨fun hlive => absurd hlive (by simp), rfl⟩⟩
        · rw [hupdate]
          refine ⟨hnamed.setNode p _, ?_⟩
          have hset := content_setNode hnamed (src.nodeAt s).fields hp qn
          rw [over_fields] at hset
          by_cases hqn : qn = qn'
          · rw [if_pos hqn] at hset
            exact Or.inl ⟨hlive, by rw [hname, hqn], hset⟩
          · rw [if_neg hqn] at hset
            refine Or.inr ⟨fun _ hname' => ?_, hset⟩
            exact hqn (Option.some.inj (hname'.symm.trans hname))
        · rw [hcopy]
          have hpart := nodePart_mergeCopyNewNode st.1 (src.nodeAt s) qn'
          refine ⟨(hnamed.pushNode _ qn').congr hpart, ?_⟩
          have hpush := content_pushNode hnamed (src.nodeAt s).fields (src.nodeAt s).id hnew qn
          rw [over_fields, ← content_of_nodePart hpart] at hpush
          by_cases hqn : qn = qn'
          · rw [if_pos hqn] at hpush
            exact Or.inl ⟨hlive, by rw [hname, hqn], hpush⟩
          · rw [if_neg hqn] at hpush
            refine Or.inr ⟨fun _ hname' => ?_, hpush⟩
            exact hqn (Option.some.inj (hname'.symm.trans hname))
      rcases ih (mergeNode src st s) hround.1 with ⟨r, hr, hlive, hname, hcontent⟩ | ⟨hno, hsame⟩
      · exact Or.inl ⟨r, List.mem_cons_of_mem s hr, hlive, hname, hcontent⟩
      · rcases hround.2 with ⟨hlive, hname, hcontent⟩ | ⟨hother, hcontent⟩
        · exact Or.inl ⟨s, List.mem_cons_self, hlive, hname, hsame.trans hcontent⟩
        · exact Or.inr ⟨List.forall_mem_cons.mpr ⟨hother, hno⟩, hsame.trans hcontent⟩

theorem content_merge {dst : Gbuf} (hnamed : Named dst) (src : Gbuf) (qn : CStr) :
    (∃ s, s ∈ cbmGbufForeachNode src ∧ (src.nodeAt s).qualifiedName = some qn ∧
      content (cbmGbufMerge dst src) qn = some (src.nodeAt s).fields) ∨
    ((∀ s, s ∈ cbmGbufForeachNode src → (src.nodeAt s).qualifiedName ≠ some qn) ∧
      content (cbmGbufMerge dst src) qn = content dst qn) := by
  have hpart := nodePart_mergeRemapEdges (mergeNodes dst src).1 src (mergeNodes dst src).2
  unfold cbmGbufMerge
  rw [content_of_nodePart hpart]
  rcases content_mergeLoop src qn (List.range src.nodeCount) (dst, ∅) hnamed with
    ⟨s, hs, hlive, hname, hcontent⟩ | ⟨hno, hsame⟩
  · exact Or.inl ⟨s, List.mem_filter.mpr ⟨hs, hlive⟩, hname, hcontent⟩
  · refine Or.inr ⟨fun s hs => ?_, hsame⟩
    obtain ⟨hlt, hlive⟩ := List.mem_filter.mp hs
    exact hno s hlt hlive

/-- What a node row says apart from its id, its name and its project. -/
def rowFields (row : DumpNode) : NodeFields :=
  { label := heapStrdup row.label
    name := heapStrdup row.name
    filePath := heapStrdup row.filePath
    startLine := row.startLine
    endLine := row.endLine
    properties := some (heapStrdup row.properties) }

def rowContent (rows : List DumpNode) (qn : CStr) : Option NodeFields :=
  (rows.find? fun row => row.qualifiedName = some qn).map rowFields

theorem rowContent_cons (row : DumpNode) (rows : List DumpNode) (qn : CStr) :
    rowContent (row :: rows) qn =
      if row.qualifiedName = some qn then some (rowFields row) else rowContent rows qn := by
  unfold rowContent
  by_cases hqn : row.qualifiedName = some qn
  · rw [if_pos hqn, List.find?_cons_of_pos (by simpa using hqn), Option.map_some]
  · rw [if_neg hqn, List.find?_cons_of_neg (by simpa using hqn)]

theorem rowContent_eq_some {rows : List DumpNode} {x : NodeFields}
    (hnames : (rows.map DumpNode.qualifiedName).Nodup) :
    rowContent rows qn = some x ↔
      ∃ row, row ∈ rows ∧ row.qualifiedName = some qn ∧ rowFields row = x := by
  induction rows with
  | nil => simp [rowContent]
  | cons row rows ih =>
      obtain ⟨hfirst, hrest⟩ := List.nodup_cons.mp hnames
      rw [rowContent_cons]
      by_cases hqn : row.qualifiedName = some qn
      · rw [if_pos hqn]
        constructor
        · intro hx
          exact ⟨row, List.mem_cons_self, hqn, Option.some.inj hx⟩
        · rintro ⟨r, hr, hrqn, rfl⟩
          rcases List.mem_cons.mp hr with rfl | hr
          · rfl
          · rw [hqn, ← hrqn] at hfirst
            exact absurd (List.mem_map_of_mem hr) hfirst
      · rw [if_neg hqn, ih hrest]
        constructor
        · rintro ⟨r, hr, hrest⟩
          exact ⟨r, List.mem_cons_of_mem row hr, hrest⟩
        · rintro ⟨r, hr, hrqn, hfields⟩
          rcases List.mem_cons.mp hr with rfl | hr
          · exact absurd hrqn hqn
          · exact ⟨r, hr, hrqn, hfields⟩

theorem nodePart_loadEdges (maxId : Int) (oldToNew : Int → Int) (g : Gbuf)
    (edges : List DumpEdge) :
    (edges.foldl (loadEdge maxId oldToNew) g).nodePart = g.nodePart := by
  refine nodePart_foldl (fun g row => ?_) edges g
  unfold loadEdge
  dsimp only
  split
  · cases row.type with
    | none => rfl
    | some type => exact nodePart_cbmGbufInsertEdge g _ _ _ _
  · rfl

theorem content_loadNodes (maxId : Int) (rows : List DumpNode) :
    ∀ st : Gbuf × (Int → Int), Owned st.1 → (rows.map DumpNode.qualifiedName).Nodup →
      (∀ row, row ∈ rows → ∀ qn, row.qualifiedName = some qn → content st.1 qn = none) →
      Owned (rows.foldl (loadNode maxId) st).1 ∧
        ∀ qn, content (rows.foldl (loadNode maxId) st).1 qn =
          (rowContent rows qn).or (content st.1 qn) := by
  induction rows with
  | nil => exact fun st h _ _ => ⟨h, fun qn => rfl⟩
  | cons row rows ih =>
      intro st h hnames hnew
      obtain ⟨hfirst, hrest⟩ := List.nodup_cons.mp hnames
      rw [List.foldl_cons]
      cases hqn : row.qualifiedName with
      | none =>
          have hskip : loadNode maxId st row = st := by simp only [loadNode, hqn]
          rw [hskip]
          obtain ⟨howned, hcontent⟩ := ih st h hrest
            (fun r hr => hnew r (List.mem_cons_of_mem row hr))
          refine ⟨howned, fun qn => ?_⟩
          rw [hcontent qn, rowContent_cons, if_neg (by simp [hqn])]
      | some name =>
          have hup := content_upsert h.named row.label row.name name row.filePath row.startLine
            row.endLine row.properties
          have hnone := hnew row List.mem_cons_self name hqn
          have howned := h.upsert row.label row.name name row.filePath row.startLine
            row.endLine row.properties
          rw [loadNode_eq maxId st hqn]
          rw [hnone] at hup
          generalize cbmGbufUpsertNode st.1 row.label row.name name row.filePath row.startLine
            row.endLine row.properties = up at hup howned ⊢
          have hother : ∀ r, r ∈ rows → r.qualifiedName ≠ some name := by
            intro r hr hrqn
            rw [hqn, ← hrqn] at hfirst
            exact hfirst (List.mem_map_of_mem hr)
          obtain ⟨howned', hcontent⟩ := ih
            (up.1, if up.2 > 0 ∧ row.id ≤ maxId then Function.update st.2 row.id up.2 else st.2)
            howned hrest (by
              intro r hr qn hrqn
              have hne : qn ≠ name := by
                rintro rfl
                exact hother r hr hrqn
              rw [hup qn, if_neg hne]
              exact hnew r (List.mem_cons_of_mem row hr) qn hrqn)
          refine ⟨howned', fun qn => ?_⟩
          rw [hcontent qn, hup qn, rowContent_cons, hqn]
          by_cases hne : qn = name
          · have hmiss : rowContent rows qn = none := by
              rw [rowContent, Option.map_eq_none_iff, List.find?_eq_none]
              intro r hr
              rw [hne]
              simpa using hother r hr
            rw [if_pos hne, if_pos (by rw [hne]), hmiss]
            rfl
          · rw [if_neg hne, if_neg (fun hname => hne (Option.some.inj hname).symm)]

theorem content_load (project : CStr) {nodes : List DumpNode} (edges : List DumpEdge)
    (hnames : (nodes.map DumpNode.qualifiedName).Nodup) :
    Owned (cbmGbufLoadFromDb (cbmGbufNew project none) nodes edges) ∧
      content (cbmGbufLoadFromDb (cbmGbufNew project none) nodes edges) = rowContent nodes := by
  obtain ⟨howned, hcontent⟩ := content_loadNodes (maxOldId nodes) nodes
    (cbmGbufNew project none, fun _ => 0) (owned_new project none) hnames (fun _ _ _ _ => rfl)
  have hpart := nodePart_loadEdges (maxOldId nodes)
    (nodes.foldl (loadNode (maxOldId nodes)) (cbmGbufNew project none, fun _ => 0)).2
    (nodes.foldl (loadNode (maxOldId nodes)) (cbmGbufNew project none, fun _ => 0)).1 edges
  refine ⟨howned.congr hpart, (content_of_nodePart hpart).trans ?_⟩
  funext qn
  rw [hcontent qn, content_new, Option.or_none]

theorem Named.nodup_dump (hnamed : Named g) (hvisited : ∀ p, p ∈ cbmGbufForeachNode g → Found g p)
    (maxTempId : Int) : ((buildDumpNodes g maxTempId).rows.map DumpNode.qualifiedName).Nodup := by
  rw [names_buildDumpNodes]
  refine List.Nodup.map_on ?_ (List.nodup_range.filter _)
  intro p hp q hq hname
  obtain ⟨qn, hqn⟩ := hvisited p hp
  obtain ⟨qn', hqn'⟩ := hvisited q hq
  rw [(hnamed qn p hqn).2, (hnamed qn' q hqn').2] at hname
  rw [Option.some.inj hname] at hqn
  exact Option.some.inj (hqn.symm.trans hqn')

theorem nodup_dump (h : Owned g) (maxTempId : Int) :
    ((buildDumpNodes g maxTempId).rows.map DumpNode.qualifiedName).Nodup :=
  h.named.nodup_dump (fun _ => h.found) maxTempId

theorem Named.rowContent_dump (hnamed : Named g)
    (hvisited : ∀ p, p ∈ cbmGbufForeachNode g → Found g p) (maxTempId : Int) :
    rowContent (buildDumpNodes g maxTempId).rows = content g := by
  funext qn
  refine Option.ext fun x => ?_
  rw [rowContent_eq_some (hnamed.nodup_dump hvisited maxTempId), content_eq_some]
  constructor
  · rintro ⟨row, hrow, hqn, rfl⟩
    obtain ⟨i, hi⟩ := List.mem_iff_getElem?.mp hrow
    rw [rows_buildDumpNodes] at hi
    obtain ⟨p, hp, rfl⟩ := Option.map_eq_some_iff.mp hi
    exact ⟨p, hnamed.lookup_eq (hvisited p (List.mem_of_getElem? hp)) hqn, rfl⟩
  · rintro ⟨p, hp, rfl⟩
    obtain ⟨i, hi⟩ := List.mem_iff_getElem?.mp (hnamed.mem_foreachNode ⟨qn, hp⟩)
    refine ⟨dumpNode g p (i + 1), ?_, (hnamed qn p hp).2, rfl⟩
    refine List.mem_iff_getElem?.mpr ⟨i, ?_⟩
    rw [rows_buildDumpNodes, hi, Option.map_some]

theorem rowContent_dump (h : Owned g) (maxTempId : Int) :
    rowContent (buildDumpNodes g maxTempId).rows = content g :=
  h.named.rowContent_dump (fun _ => h.found) maxTempId

/-!
## Edges between names

`Linked g a b type`: an edge of this type leads from the node named `a` to the
node named `b`.  In a buffer that was built by upserts and by edge inserts
between nodes that are found, links and names tell all about the edges.
-/

/-- An edge of this type leads from the node named `a` to the one named `b`. -/
def Linked (g : Gbuf) (a b type : CStr) : Prop :=
  ∃ q, q ∈ g.edges ∧ Connects (NodeName g) (g.edgeAt q) a b type

/-- There is a node of this name with this label. -/
def HasNode (g : Gbuf) (label qn : CStr) : Prop :=
  ∃ p, cbmGbufFindByQn g qn = some p ∧ (g.nodeAt p).label = label

theorem hasNode_iff {label : CStr} :
    HasNode g label qn ↔ (content g qn).map NodeFields.label = some label := by
  unfold HasNode content cbmGbufFindByQn
  rw [Option.map_map, Option.map_eq_some_iff]
  rfl

section Links

variable {k : Nat} {g : Gbuf}

theorem LoadInv.mono {k' : Nat} (h : LoadInv k g) (hk : k ≤ k') : LoadInv k' g :=
  ⟨h.owned, h.built, h.closed, h.ids.mono hk rfl⟩

variable {a b type : CStr}

theorem LoadInv.name_unique (h : LoadInv k g) {id : Int} (ha : NodeName g id a)
    (hb : NodeName g id b) : a = b := by
  obtain ⟨p, hp, rfl⟩ := ha
  obtain ⟨q, hq, hid⟩ := hb
  have hnamed := h.owned.named
  obtain rfl := h.built.ids.inj q p (hnamed b q hq).1 (hnamed a p hp).1 hid
  have hname := (hnamed a q hp).2
  rw [(hnamed b q hq).2] at hname
  exact (Option.some.inj hname).symm

theorem LoadInv.linked_upsert (h : LoadInv k g) (hk : k < 2 ^ 62) (label name : Option CStr)
    (qn : CStr) (filePath : Option CStr) (startLine endLine : Int) (properties : Option CStr)
    (a b type : CStr) :
    Linked (cbmGbufUpsertNode g label name qn filePath startLine endLine properties).1 a b type ↔
      Linked g a b type := by
  have hinv := h.upsert hk label name qn filePath startLine endLine properties
  have hkeeps := keepsNodes_upsert h.owned.named label name qn filePath startLine endLine properties
  have hpart := edgePart_upsert g label name qn filePath startLine endLine properties
  have hat : (cbmGbufUpsertNode g label name qn filePath startLine endLine
    properties).1.edgeAt = g.edgeAt := congrArg EdgePart.edgeAt hpart
  have hedges : (cbmGbufUpsertNode g label name qn filePath startLine endLine
    properties).1.edges = g.edges := congrArg EdgePart.edges hpart
  unfold Linked
  rw [hat, hedges]
  refine exists_congr fun q => and_congr_right fun hq => ?_
  constructor
  · rintro ⟨ha, hb, htype⟩
    -- the endpoints had names before, which they keep
    obtain ⟨a', b', ha', hb', -⟩ := h.closed q hq
    obtain rfl := hinv.name_unique ha (hkeeps.nodeName ha')
    obtain rfl := hinv.name_unique hb (hkeeps.nodeName hb')
    exact ⟨ha', hb', htype⟩
  · rintro ⟨ha, hb, htype⟩
    exact ⟨hkeeps.nodeName ha, hkeeps.nodeName hb, htype⟩

theorem LoadInv.inI64 (h : LoadInv k g) {id : Int} (ha : NodeName g id a) : InI64 id := by
  obtain ⟨p, hp, rfl⟩ := ha
  exact h.built.typed.nodes p (h.owned.named a p hp).1

theorem LoadInv.edge_unique (h : LoadInv k g) {q q' : Nat} (hq : q ∈ g.edges) (hq' : q' ∈ g.edges)
    (hlink : Connects (NodeName g) (g.edgeAt q) a b type)
    (hlink' : Connects (NodeName g) (g.edgeAt q') a b type) : q = q' := by
  have hkey : (g.edgeAt q).key = (g.edgeAt q').key := by
    unfold Edge.key
    rw [hlink.1.id_eq hlink'.1, hlink.2.1.id_eq hlink'.2.1, hlink.2.2, hlink'.2.2]
  have hbyKey := h.built.keyInv.byKey
  have hfind := (hbyKey (g.edgeAt q).key q).mpr ⟨hq, rfl⟩
  rw [hkey, (hbyKey (g.edgeAt q').key q').mpr ⟨hq', rfl⟩] at hfind
  exact (Option.some.inj hfind).symm

theorem LoadInv.linked_iff (h : LoadInv k g) {src tgt : Int} (ha : NodeName g src a)
    (hb : NodeName g tgt b) (htype : type.length ≤ 80) :
    Linked g a b type ↔ (edgeProps g src tgt type).isSome = true := by
  rw [h.built.keyInv.edgeProps_isSome (h.inI64 ha) (h.inI64 hb) htype]
  refine exists_congr fun q => and_congr_right fun _ => ?_
  constructor
  · rintro ⟨ha', hb', htype'⟩
    exact ⟨ha'.id_eq ha, hb'.id_eq hb, htype'⟩
  · rintro ⟨rfl, rfl, rfl⟩
    exact ⟨ha, hb, rfl⟩

theorem LoadInv.linked_insertEdge (h : LoadInv k g) {src tgt : Int} (properties : Option CStr)
    (hsrc : NodeName g src a) (htgt : NodeName g tgt b) (htype : type.length ≤ 80)
    (a' b' type' : CStr) :
    Linked (cbmGbufInsertEdge g src tgt type properties).1 a' b' type' ↔
      Linked g a' b' type' ∨ (a' = a ∧ b' = b ∧ type' = type) := by
  have hinv := h.insertEdge properties hsrc htgt htype
  have hpart := nodePart_cbmGbufInsertEdge g src tgt type properties
  have hname : ∀ id qn, NodeName (cbmGbufInsertEdge g src tgt type properties).1 id qn ↔
      NodeName g id qn := fun id qn => by
    unfold NodeName cbmGbufFindByQn
    rw [nodeByQn_of_nodePart hpart, nodeAt_of_nodePart hpart]
  constructor
  · rintro ⟨q, hq, hlink⟩
    have htype' : type'.length ≤ 80 := hlink.2.2 ▸ (hinv.built.keyInv.typed q hq).type
    have ha' := (hname _ _).mp hlink.1
    have hb' := (hname _ _).mp hlink.2.1
    have hsome := (hinv.linked_iff hlink.1 hlink.2.1 htype').mp ⟨q, hq, hlink⟩
    rw [edgeProps_insertEdge h.built.keyInv properties (h.inI64 hsrc) (h.inI64 htgt) htype
      (h.inI64 ha') (h.inI64 hb') htype'] at hsome
    split at hsome
    · next hsame =>
        rw [← hsame.1] at ha'
        rw [← hsame.2.1] at hb'
        exact Or.inr ⟨h.name_unique ha' hsrc, h.name_unique hb' htgt, hsame.2.2.symm⟩
    · exact Or.inl ((h.linked_iff ha' hb' htype').mpr hsome)
  · rintro (⟨q, hq, hlink⟩ | ⟨rfl, rfl, rfl⟩)
    · have htype' : type'.length ≤ 80 := hlink.2.2 ▸ (h.built.keyInv.typed q hq).type
      refine (hinv.linked_iff ((hname _ _).mpr hlink.1) ((hname _ _).mpr hlink.2.1) htype').mpr ?_
      rw [edgeProps_insertEdge h.built.keyInv properties (h.inI64 hsrc) (h.inI64 htgt) htype
        (h.inI64 hlink.1) (h.inI64 hlink.2.1) htype']
      split
      · rfl
      · exact (h.linked_iff hlink.1 hlink.2.1 htype').mp ⟨q, hq, hlink⟩
    · refine (hinv.linked_iff ((hname _ _).mpr hsrc) ((hname _ _).mpr htgt) htype).mpr ?_
      rw [edgeProps_insertEdge h.built.keyInv properties (h.inI64 hsrc) (h.inI64 htgt) htype
        (h.inI64 hsrc) (h.inI64 htgt) htype, if_pos ⟨rfl, rfl, rfl⟩]
      rfl

end Links

end GraphBuffer
end CodebaseMemory
