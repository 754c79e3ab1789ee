import CodebaseMemory.Lib.Json
import CodebaseMemory.GraphBuffer.Store

/-!
# Three ways to persist a graph buffer

The two functions that write through SQL number their rows from the last id of the table on,
where a dump numbers from 1: an id of the dump is shifted by `base`.  With
this, the loop over the nodes writes the rows of the dump (`persistLoop`), and the
loop over the edges those whose properties SQLite accepts (`edgeLoop`); no statement meets a
conflict, because the names differ and the edges of a buffer differ in source, target or type.

What is left are the differences.  `safe_props` turns empty properties into an empty
object, and the dump does not.  SQLite rejects an edge with properties that are no JSON, and the
dump does not.  And the merge, which does not create the project, inserts nothing where
the project is missing.  `persisted_agree_iff` says that these are all.
-/

namespace CodebaseMemory
namespace GraphBuffer

open Lib
open Sqlite (CStr bytesOf DumpNode DumpEdge)

/-- The id of a row in the store; 0 stands for no row. -/
def shiftId (base k : Int) : Int :=
  if k = 0 then 0 else base + k

def persistedNode (base : Int) (row : DumpNode) : NodeRow :=
  { storedNode row with id := base + row.id, properties := safeProps row.properties }

/-- An edge without its id. -/
def EdgeRow.anonymous (e : EdgeRow) : CStr × Int × Int × CStr × CStr :=
  (e.project, e.sourceId, e.targetId, e.type, e.properties)

def persistedEdge (base : Int) (row : DumpEdge) : CStr × Int × Int × CStr × CStr :=
  (row.project.getD [], base + row.sourceId, base + row.targetId, row.type.getD [],
    safeProps row.properties)

theorem safeProps_ne_nil (s : Option CStr) : safeProps s ≠ [] := by
  cases s with
  | none => exact List.cons_ne_nil _ _
  | some s =>
    rw [safeProps]
    split
    · exact List.cons_ne_nil _ _
    · next h => exact h

theorem safeProps_of_ne {s : CStr} (h : s ≠ []) : safeProps (some s) = s :=
  if_neg h

theorem row_storeNode (g : Gbuf) (p : Nat) (base k : Int) :
    (storeNode g p).row (base + k) = persistedNode base (dumpNode g p k) := rfl

theorem remapId_shift {g : Gbuf} {t t' : Int → Int} {base : Int}
    (h : ∀ id, t' id = shiftId base (t id)) (id : Int) :
    remapId t' g.nextId id = shiftId base (remapId t g.nextId id) := by
  unfold remapId
  split
  · exact h id
  · exact (if_pos rfl).symm

section Nodes

variable {g : Gbuf}

theorem upsertNode_of_fresh {s : Store} {n : CbmNode} (hproject : safeStr n.project ∈ s.projects)
    (hfresh : ∀ r, r ∈ s.nodes → r.project = safeStr n.project →
      r.qualifiedName ≠ safeStr n.qualifiedName) :
    storeUpsertNode s n =
      ({ s with nodes := s.nodes ++ [n.row (s.nodeSeq + 1)], nodeSeq := s.nodeSeq + 1 },
        s.nodeSeq + 1) := by
  have hfind : s.nodes.find? (n.row (s.nodeSeq + 1)).conflicts = none := by
    rw [List.find?_eq_none]
    intro r hr hconflict
    rw [NodeRow.conflicts, Bool.and_eq_true, decide_eq_true_iff, decide_eq_true_iff] at hconflict
    exact hfresh r hr hconflict.1 hconflict.2
  have hin : ¬ (n.row (s.nodeSeq + 1)).project ∉ s.projects := not_not_intro hproject
  rw [storeUpsertNode, if_neg hin, hfind]
  rfl

theorem upsertNode_of_missing {s : Store} {n : CbmNode}
    (hproject : safeStr n.project ∉ s.projects) : storeUpsertNode s n = (s, storeErr) :=
  if_pos hproject

theorem qualifiedName_of_live {p : Nat} (h : isLive g p = true) :
    ∃ qn, (g.nodeAt p).qualifiedName = some qn := by
  rw [isLive] at h
  cases hqn : (g.nodeAt p).qualifiedName with
  | none =>
    rw [hqn] at h
    cases h
  | some qn => exact ⟨qn, rfl⟩

theorem persistLoop {base : Int} (hbase : 0 ≤ base) (ps : List Nat) :
    ∀ (idx : Nat) (st : Store × (Int → Int)) (t : Int → Int),
      st.1.nodeSeq = base + idx → (∀ id, st.2 id = shiftId base (t id)) →
      (∀ p, p ∈ ps.filter (isLive g) → g.project ∈ st.1.projects) →
      ((ps.filter (isLive g)).map fun p => (g.nodeAt p).qualifiedName).Nodup →
      (∀ p, p ∈ ps.filter (isLive g) → ∀ r, r ∈ st.1.nodes → r.project = g.project →
        some r.qualifiedName ≠ (g.nodeAt p).qualifiedName) →
      (ps.foldl (persistNode g) st).1 =
        { st.1 with
          nodes := st.1.nodes ++
            (buildDumpNodesLoop g g.nextId ps idx t).rows.map (persistedNode base)
          nodeSeq := base + idx + (buildDumpNodesLoop g g.nextId ps idx t).rows.length } ∧
        ∀ id, (ps.foldl (persistNode g) st).2 id =
          shiftId base ((buildDumpNodesLoop g g.nextId ps idx t).tempToFinal id) := by
  induction ps with
  | nil =>
    intro idx st t hseq ht _ _ _
    refine ⟨?_, ht⟩
    simp [buildDumpNodesLoop, hseq.symm]
  | cons p ps ih =>
    intro idx st t hseq ht hproject hnames hfresh
    rw [List.foldl_cons, buildDumpNodesLoop]
    by_cases hlive : isLive g p = true
    · rw [List.filter_cons_of_pos hlive] at hproject hnames hfresh
      obtain ⟨hfirst, hrest⟩ := List.nodup_cons.mp hnames
      obtain ⟨qn, hqn⟩ := qualifiedName_of_live hlive
      have hname : safeStr (storeNode g p).qualifiedName = qn := by
        rw [storeNode, hqn]
        rfl
      have hup := upsertNode_of_fresh (s := st.1) (n := storeNode g p)
        (hproject p List.mem_cons_self) (by
          intro r hr hrp hrq
          refine hfresh p List.mem_cons_self r hr hrp ?_
          rw [hqn, hrq, hname])
      have hseq' : st.1.nodeSeq + 1 = base + ((idx : Int) + 1) := by omega
      rw [hseq', row_storeNode] at hup
      have hpos : base + ((idx : Int) + 1) > 0 := by omega
      have hstep : persistNode g st p =
          ({ st.1 with
              nodes := st.1.nodes ++ [persistedNode base (dumpNode g p (idx + 1))]
              nodeSeq := base + ((idx : Int) + 1) },
            if (g.nodeAt p).id < g.nextId then
              Function.update st.2 (g.nodeAt p).id (base + ((idx : Int) + 1)) else st.2) := by
        rw [persistNode, if_pos hlive, hup]
        simp only [hpos, true_and]
      rw [if_pos hlive]
      dsimp only
      have hnext : ∀ id, (persistNode g st p).2 id = shiftId base
          ((if (g.nodeAt p).id < g.nextId then
              Function.update t (g.nodeAt p).id ((idx : Int) + 1) else t) id) := by
        intro id
        rw [hstep]
        dsimp only
        split
        · by_cases hid : id = (g.nodeAt p).id
          · rw [hid, Function.update_self, Function.update_self, shiftId, if_neg (by omega)]
          · rw [Function.update_of_ne hid, Function.update_of_ne hid]
            exact ht id
        · exact ht id
      obtain ⟨hstore, hmap⟩ := ih (idx + 1) (persistNode g st p) _
        (by rw [hstep]; push_cast; rfl) hnext
        (fun q hq => by rw [hstep]; exact hproject q (List.mem_cons_of_mem p hq)) hrest (by
          intro q hq r hr hrp
          rw [hstep] at hr
          rcases List.mem_append.mp hr with hr | hr
          · exact hfresh q (List.mem_cons_of_mem p hq) r hr hrp
          · obtain rfl := List.mem_singleton.mp hr
            intro heq
            refine hfirst (List.mem_map.mpr ⟨q, hq, heq.symm.trans ?_⟩)
            exact (congrArg some hname).trans hqn.symm)
      refine ⟨?_, hmap⟩
      rw [hstore, hstep]
      simp only [List.map_cons, List.append_assoc, List.singleton_append, List.length_cons]
      congr 1
      push_cast
      omega
    · rw [List.filter_cons_of_neg hlive] at hproject hnames hfresh
      rw [if_neg hlive, persistNode, if_neg hlive]
      exact ih idx st t hseq ht hproject hnames hfresh

theorem persistLoop_of_missing (ps : List Nat) :
    ∀ st : Store × (Int → Int), g.project ∉ st.1.projects →
      (ps.foldl (persistNode g) st).1 = st.1 := by
  induction ps with
  | nil => exact fun _ _ => rfl
  | cons p ps ih =>
    intro st hproject
    have hstep : (persistNode g st p).1 = st.1 := by
      rw [persistNode]
      split
      · rw [upsertNode_of_missing (n := storeNode g p) hproject]
      · rfl
    rw [List.foldl_cons, ih _ (by rw [hstep]; exact hproject), hstep]

end Nodes

section Edges

variable {g : Gbuf} {sql : SqlJson}

theorem insertEdge_of_fresh (sql : SqlJson) {s : Store} {e : CbmEdge}
    (haccepts : sql.accepts (safeProps e.propertiesJson) = true)
    (hrefers : s.refers (e.row (s.edgeSeq + 1)) = true)
    (hfresh : ∀ r, r ∈ s.edges → (e.row (s.edgeSeq + 1)).conflicts r = false) :
    (storeInsertEdge sql s e).1 =
      { s with edges := s.edges ++ [e.row (s.edgeSeq + 1)], edgeSeq := s.edgeSeq + 1 } := by
  have hfind : s.edges.find? (e.row (s.edgeSeq + 1)).conflicts = none := by
    rw [List.find?_eq_none]
    intro r hr
    rw [hfresh r hr]
    exact Bool.false_ne_true
  have hok : ¬ (!sql.accepts (e.row (s.edgeSeq + 1)).properties ||
      !s.refers (e.row (s.edgeSeq + 1))) = true := by
    rw [hrefers]
    change ¬ (!sql.accepts (safeProps e.propertiesJson) || !true) = true
    rw [haccepts]
    exact Bool.false_ne_true
  rw [storeInsertEdge, if_neg hok, hfind]

theorem insertEdge_of_rejected {s : Store} {e : CbmEdge}
    (haccepts : sql.accepts (safeProps e.propertiesJson) = false) :
    (storeInsertEdge sql s e).1 = s := by
  rw [storeInsertEdge, if_pos]
  change (!sql.accepts (safeProps e.propertiesJson) || _) = true
  rw [haccepts]
  rfl

def acceptsRow (sql : SqlJson) (row : DumpEdge) : Bool :=
  sql.accepts (safeProps row.properties)

/-- Where the edge `p` of the buffer is taken to. -/
def remapped (g : Gbuf) (t : Int → Int) (p : Nat) : Int × Int × CStr :=
  (remapId t g.nextId (g.edgeAt p).sourceId, remapId t g.nextId (g.edgeAt p).targetId,
    (g.edgeAt p).type)

theorem edgeLoop (sql : SqlJson) {base : Int} {t t' : Int → Int} (hshift : ∀ id, t' id = shiftId base (t id))
    (hbase : ∀ id, t id ≠ 0 → base + t id ≠ 0) (extractUrlPath : CStr → Option CStr)
    (ps : List Nat) :
    ∀ (idx : Nat) (s : Store),
      (∀ id, t id ≠ 0 → g.project ∈ s.projects ∧ ∃ n, n ∈ s.nodes ∧ n.id = base + t id) →
      (ps.filter (resolved g t g.nextId)).Pairwise (fun p q => remapped g t p ≠ remapped g t q) →
      (∀ p, p ∈ ps.filter (resolved g t g.nextId) → ∀ r, r ∈ s.edges →
        (r.sourceId, r.targetId, r.type) ≠
          (base + (remapped g t p).1, base + (remapped g t p).2.1, (remapped g t p).2.2)) →
      let s' := ps.foldl (persistEdge sql g t') s
      s'.nodes = s.nodes ∧
        s'.edges.map EdgeRow.anonymous = s.edges.map EdgeRow.anonymous ++
          ((buildDumpEdgesLoop extractUrlPath g t g.nextId ps idx).filter (acceptsRow sql)).map
            (persistedEdge base) := by
  induction ps with
  | nil =>
    intro idx s _ _ _
    exact ⟨rfl, by simp [buildDumpEdgesLoop]⟩
  | cons p ps ih =>
    intro idx s hrefers hdistinct hfresh
    have hsrc := remapId_shift hshift (g := g) (g.edgeAt p).sourceId
    have htgt := remapId_shift hshift (g := g) (g.edgeAt p).targetId
    have hremap : ∀ id, remapId t g.nextId id ≠ 0 → t id ≠ 0 ∧ remapId t g.nextId id = t id := by
      intro id hne
      rw [remapId] at hne ⊢
      split at hne
      · next hlt => exact ⟨hne, if_pos hlt⟩
      · exact absurd rfl hne
    rw [List.foldl_cons, buildDumpEdgesLoop]
    dsimp only
    by_cases hzero : remapId t g.nextId (g.edgeAt p).sourceId = 0 ∨
        remapId t g.nextId (g.edgeAt p).targetId = 0
    · have hskip : persistEdge sql g t' s p = s := by
        rw [persistEdge, hsrc, htgt]
        refine if_pos (hzero.imp ?_ ?_) <;> exact fun h => if_pos h
      have hno : ¬ resolved g t g.nextId p = true := by
        rw [resolved_iff]
        tauto
      rw [List.filter_cons_of_neg hno] at hdistinct hfresh
      rw [hskip, if_pos hzero]
      exact ih idx s hrefers hdistinct hfresh
    · rw [not_or] at hzero
      obtain ⟨htsrc, hesrc⟩ := hremap _ hzero.1
      obtain ⟨httgt, hetgt⟩ := hremap _ hzero.2
      have hyes : resolved g t g.nextId p = true := resolved_iff.mpr hzero
      rw [List.filter_cons_of_pos hyes] at hdistinct hfresh
      obtain ⟨hfirst, hrest⟩ := List.pairwise_cons.mp hdistinct
      have hsrc' : remapId t' g.nextId (g.edgeAt p).sourceId =
          base + remapId t g.nextId (g.edgeAt p).sourceId := by
        rw [hsrc]
        exact if_neg hzero.1
      have htgt' : remapId t' g.nextId (g.edgeAt p).targetId =
          base + remapId t g.nextId (g.edgeAt p).targetId := by
        rw [htgt]
        exact if_neg hzero.2
      have hnz : ¬ (remapId t' g.nextId (g.edgeAt p).sourceId = 0 ∨
          remapId t' g.nextId (g.edgeAt p).targetId = 0) := by
        rw [hsrc', htgt', not_or, hesrc, hetgt]
        exact ⟨hbase _ htsrc, hbase _ httgt⟩
      have hstep : persistEdge sql g t' s p = (storeInsertEdge sql s (storeEdge g p
          (base + remapId t g.nextId (g.edgeAt p).sourceId)
          (base + remapId t g.nextId (g.edgeAt p).targetId))).1 := by
        rw [persistEdge, hsrc', htgt'] at *
        exact if_neg hnz
      rw [if_neg (not_or.mpr hzero)]
      cases haccepts : sql.accepts (safeProps (some (g.edgeAt p).propertiesJson)) with
      | false =>
        rw [hstep, insertEdge_of_rejected (e := storeEdge g p _ _) haccepts,
          List.filter_cons_of_neg (by rw [acceptsRow]; exact Bool.not_eq_true _ ▸ haccepts)]
        exact ih (idx + 1) s hrefers hrest fun q hq => hfresh q (List.mem_cons_of_mem p hq)
      | true =>
        have hreferred : s.refers ((storeEdge g p
            (base + remapId t g.nextId (g.edgeAt p).sourceId)
            (base + remapId t g.nextId (g.edgeAt p).targetId)).row (s.edgeSeq + 1)) = true := by
          obtain ⟨hproject, n, hn, hnid⟩ := hrefers _ htsrc
          obtain ⟨-, m, hm, hmid⟩ := hrefers _ httgt
          simp only [Store.refers, Bool.and_eq_true, List.contains_iff_mem, List.any_eq_true,
            decide_eq_true_iff]
          rw [← hesrc] at hnid
          rw [← hetgt] at hmid
          exact ⟨⟨hproject, n, hn, hnid⟩, m, hm, hmid⟩
        have hnoconflict : ∀ r, r ∈ s.edges → ((storeEdge g p
            (base + remapId t g.nextId (g.edgeAt p).sourceId)
            (base + remapId t g.nextId (g.edgeAt p).targetId)).row
              (s.edgeSeq + 1)).conflicts r = false := by
          intro r hr
          rw [← Bool.not_eq_true, EdgeRow.conflicts, Bool.and_eq_true, Bool.and_eq_true,
            decide_eq_true_iff, decide_eq_true_iff, decide_eq_true_iff]
          rintro ⟨⟨h1, h2⟩, h3⟩
          refine hfresh p List.mem_cons_self r hr ?_
          rw [h1, h2, h3]
          rfl
        have hins := insertEdge_of_fresh sql haccepts hreferred hnoconflict
        rw [← hstep] at hins
        rw [List.filter_cons_of_pos (by exact haccepts)]
        obtain ⟨hnodes, hedges⟩ := ih (idx + 1) (persistEdge sql g t' s p)
          (by rw [hins]; exact hrefers) hrest (by
            intro q hq r hr
            rw [hins] at hr
            rcases List.mem_append.mp hr with hr | hr
            · exact hfresh q (List.mem_cons_of_mem p hq) r hr
            · obtain rfl := List.mem_singleton.mp hr
              intro heq
              refine hfirst q hq ?_
              simp only [Prod.mk.injEq] at heq
              obtain ⟨h1, h2, h3⟩ := heq
              refine Prod.ext (add_left_cancel h1) (Prod.ext (add_left_cancel h2) h3))
        refine ⟨by rw [hnodes, hins], ?_⟩
        rw [hedges, hins, List.map_append, List.append_assoc]
        rfl

end Edges

section Map

variable {g : Gbuf}

theorem tempToFinal_cases (maxTempId id : Int) (ps : List Nat) :
    ∀ (idx : Nat) (t : Int → Int),
      (buildDumpNodesLoop g maxTempId ps idx t).tempToFinal id = t id ∨
        ∃ (i p : Nat), (ps.filter (isLive g))[i]? = some p ∧ (g.nodeAt p).id = id ∧
          (buildDumpNodesLoop g maxTempId ps idx t).tempToFinal id = idx + i + 1 := by
  induction ps with
  | nil => exact fun _ _ => Or.inl rfl
  | cons p ps ih =>
    intro idx t
    rw [buildDumpNodesLoop]
    by_cases hlive : isLive g p = true
    · rw [if_pos hlive, List.filter_cons_of_pos hlive]
      dsimp only
      rcases ih (idx + 1) (if (g.nodeAt p).id < maxTempId then
          Function.update t (g.nodeAt p).id ((idx : Int) + 1) else t) with h | ⟨i, q, hi, hid, h⟩
      · rw [h]
        split
        · by_cases hid : id = (g.nodeAt p).id
          · refine Or.inr ⟨0, p, rfl, hid.symm, ?_⟩
            rw [hid, Function.update_self]
            simp
          · exact Or.inl (Function.update_of_ne hid _ _)
        · exact Or.inl rfl
      · refine Or.inr ⟨i + 1, q, hi, hid, ?_⟩
        rw [h]
        push_cast
        omega
    · rw [if_neg hlive, List.filter_cons_of_neg hlive]
      exact ih idx t

theorem tempToFinal_ne_zero_of_ne_zero {maxTempId id : Int} (ps : List Nat) :
    ∀ (idx : Nat) (t : Int → Int), t id ≠ 0 →
      (buildDumpNodesLoop g maxTempId ps idx t).tempToFinal id ≠ 0 := by
  intro idx t ht
  rcases tempToFinal_cases maxTempId id ps idx t with h | ⟨i, p, -, -, h⟩
  · rw [h]
    exact ht
  · rw [h]
    omega

theorem tempToFinal_ne_zero_of_live {maxTempId id : Int} (hid : id < maxTempId) (ps : List Nat) :
    ∀ (idx : Nat) (t : Int → Int), (∃ p, p ∈ ps.filter (isLive g) ∧ (g.nodeAt p).id = id) →
      (buildDumpNodesLoop g maxTempId ps idx t).tempToFinal id ≠ 0 := by
  induction ps with
  | nil => exact fun _ _ ⟨p, hp, _⟩ => absurd hp List.not_mem_nil
  | cons p ps ih =>
    rintro idx t ⟨q, hq, hqid⟩
    rw [buildDumpNodesLoop]
    by_cases hlive : isLive g p = true
    · rw [List.filter_cons_of_pos hlive] at hq
      rw [if_pos hlive]
      rcases List.mem_cons.mp hq with rfl | hq
      · refine tempToFinal_ne_zero_of_ne_zero ps (idx + 1) _ ?_
        rw [← hqid] at hid
        rw [if_pos hid, ← hqid, Function.update_self]
        omega
      · exact ih (idx + 1) _ ⟨q, hq, hqid⟩
    · rw [List.filter_cons_of_neg hlive] at hq
      rw [if_neg hlive]
      exact ih idx t ⟨q, hq, hqid⟩

/-- The id map of a dump. -/
def finalId (g : Gbuf) : Int → Int :=
  (buildDumpNodes g g.nextId).tempToFinal

theorem finalId_of_ne_zero {id : Int} (h : finalId g id ≠ 0) :
    ∃ (i p : Nat), (cbmGbufForeachNode g)[i]? = some p ∧ (g.nodeAt p).id = id ∧
      finalId g id = i + 1 := by
  rcases tempToFinal_cases g.nextId id (List.range g.nodeCount) 0 (fun _ => 0) with
    hzero | ⟨i, p, hi, hid, hfinal⟩
  · exact absurd hzero h
  · exact ⟨i, p, hi, hid, hfinal.trans (by simp)⟩

theorem finalId_inj {id id' : Int} (h : finalId g id ≠ 0) (heq : finalId g id = finalId g id') :
    id = id' := by
  obtain ⟨i, p, hi, rfl, hfinal⟩ := finalId_of_ne_zero h
  obtain ⟨j, q, hj, rfl, hfinal'⟩ := finalId_of_ne_zero (heq ▸ h)
  have hij : i = j := by omega
  rw [hij, hj] at hi
  rw [Option.some.inj hi]

theorem remapId_finalId_ne_zero {id : Int} :
    remapId (finalId g) g.nextId id ≠ 0 ↔ id < g.nextId ∧ isLiveId g id = true := by
  rw [isLiveId_iff, remapId]
  constructor
  · intro h
    split at h
    · next hlt =>
      obtain ⟨i, p, hi, hid, -⟩ := finalId_of_ne_zero h
      exact ⟨hlt, p, List.mem_of_getElem? hi, hid⟩
    · exact absurd rfl h
  · rintro ⟨hlt, hlive⟩
    rw [if_pos hlt]
    exact tempToFinal_ne_zero_of_live hlt (List.range g.nodeCount) 0 (fun _ => 0) hlive

theorem EdgeInv.pairwise_remapped (h : EdgeInv g) :
    (g.edges.filter (resolved g (finalId g) g.nextId)).Pairwise
      (fun p q => remapped g (finalId g) p ≠ remapped g (finalId g) q) := by
  refine (h.nodup.filter _).imp_of_mem ?_
  intro p q hp hq hne heq
  obtain ⟨hpe, hpr⟩ := List.mem_filter.mp hp
  obtain ⟨hqe, hqr⟩ := List.mem_filter.mp hq
  obtain ⟨hps, hpt⟩ := resolved_iff.mp hpr
  simp only [remapped, Prod.mk.injEq] at heq
  obtain ⟨hs, ht, htype⟩ := heq
  have hinj : ∀ {id id' : Int}, remapId (finalId g) g.nextId id ≠ 0 →
      remapId (finalId g) g.nextId id = remapId (finalId g) g.nextId id' → id = id' := by
    intro id id' hid heq
    have hlt := (remapId_finalId_ne_zero.mp hid).1
    have hlt' := (remapId_finalId_ne_zero.mp (heq ▸ hid)).1
    rw [remapId, remapId, if_pos hlt, if_pos hlt'] at heq
    rw [remapId, if_pos hlt] at hid
    exact finalId_inj hid heq
  have hkey : (g.edgeAt p).key = (g.edgeAt q).key := by
    rw [Edge.key, Edge.key, hinj hps hs, hinj hpt ht, htype]
  exact hne (h.indexed.byKey.injOn hpe hqe hkey)

end Map

section VisibleAfter

variable {g : Gbuf} {sql : SqlJson}

/-- Every qualified name owns one node. -/
def OwnsNames (g : Gbuf) : Prop :=
  ∀ p q, p ∈ cbmGbufForeachNode g → q ∈ cbmGbufForeachNode g →
    (g.nodeAt p).qualifiedName = (g.nodeAt q).qualifiedName → p = q

structure Store.Without (s : Store) (project : CStr) : Prop where
  nodes : ∀ n, n ∈ s.nodes → n.project ≠ project
  edges : ∀ e, e ∈ s.edges → e.project ≠ project

/-- What the loops over the nodes and edges make visible. -/
def persistedVisible (sql : SqlJson) (extractUrlPath : CStr → Option CStr) (g : Gbuf) :
    Set NodeContent × Set EdgeContent :=
  ({c | ∃ row, row ∈ (buildDumpNodes g g.nextId).rows ∧ (persistedNode 0 row).content = c},
    {c | ∃ row, row ∈ buildDumpEdges extractUrlPath g (finalId g) g.nextId ∧
      acceptsRow sql row = true ∧ row.type.getD [] = c.type ∧ safeProps row.properties = c.properties ∧
      HasName (dumpedNodes g) row.sourceId c.source ∧
      HasName (dumpedNodes g) row.targetId c.target})

theorem mem_edgeContents {project : CStr} {nodes : List NodeRow} {edges : List EdgeRow}
    {c : EdgeContent} :
    c ∈ edgeContents project nodes edges ↔
      ∃ src tgt, (project, src, tgt, c.type, c.properties) ∈ edges.map EdgeRow.anonymous ∧
        HasName nodes src c.source ∧ HasName nodes tgt c.target := by
  constructor
  · rintro ⟨e, he, hproject, htype, hprops, hsource, htarget⟩
    refine ⟨e.sourceId, e.targetId, List.mem_map.mpr ⟨e, he, ?_⟩, hsource, htarget⟩
    rw [EdgeRow.anonymous, hproject, htype, hprops]
  · rintro ⟨src, tgt, hmem, hsource, htarget⟩
    obtain ⟨e, he, heq⟩ := List.mem_map.mp hmem
    simp only [EdgeRow.anonymous, Prod.mk.injEq] at heq
    obtain ⟨hproject, rfl, rfl, htype, hprops⟩ := heq
    exact ⟨e, he, hproject, htype, hprops, hsource, htarget⟩

theorem nodup_names (h : OwnsNames g) :
    ((cbmGbufForeachNode g).map fun p => (g.nodeAt p).qualifiedName).Nodup := by
  refine List.Nodup.map_on ?_ (List.nodup_range.filter _)
  exact fun p hp q hq heq => h p q hp hq heq

theorem project_of_dumpNode {row : DumpNode} (h : row ∈ (buildDumpNodes g g.nextId).rows) :
    row.project = some g.project ∧ 0 < row.id := by
  obtain ⟨i, hi⟩ := List.mem_iff_getElem?.mp h
  rw [rows_buildDumpNodes] at hi
  obtain ⟨p, -, rfl⟩ := Option.map_eq_some_iff.mp hi
  refine ⟨rfl, ?_⟩
  change (0 : Int) < i + 1
  omega

theorem dumpEdge_cases {extractUrlPath : CStr → Option CStr} {row : DumpEdge}
    (h : row ∈ buildDumpEdges extractUrlPath g (finalId g) g.nextId) :
    row.project = some g.project ∧ ∃ p, p ∈ g.edges.filter (resolved g (finalId g) g.nextId) ∧
      row.type = some (g.edgeAt p).type ∧ row.properties = some (g.edgeAt p).propertiesJson ∧
      row.sourceId = remapId (finalId g) g.nextId (g.edgeAt p).sourceId ∧
      row.targetId = remapId (finalId g) g.nextId (g.edgeAt p).targetId := by
  obtain ⟨i, hi⟩ := List.mem_iff_getElem?.mp h
  rw [rows_buildDumpEdges] at hi
  obtain ⟨p, hp, rfl⟩ := Option.map_eq_some_iff.mp hi
  exact ⟨rfl, p, List.mem_of_getElem? hp, rfl, rfl, rfl, rfl⟩

theorem remapId_pos {id : Int} (h : remapId (finalId g) g.nextId id ≠ 0) :
    0 < remapId (finalId g) g.nextId id ∧
      ∃ row, row ∈ (buildDumpNodes g g.nextId).rows ∧
        row.id = remapId (finalId g) g.nextId id := by
  have hlt := (remapId_finalId_ne_zero.mp h).1
  rw [remapId, if_pos hlt] at h ⊢
  obtain ⟨i, p, hi, -, hfinal⟩ := finalId_of_ne_zero h
  rw [hfinal]
  refine ⟨by omega, dumpNode g p (i + 1), List.mem_iff_getElem?.mpr ⟨i, ?_⟩, rfl⟩
  rw [rows_buildDumpNodes, hi, Option.map_some]

theorem hasName_shift {old : List NodeRow} {base k : Int} {a : CStr}
    (hold : ∀ n, n ∈ old → n.id ≤ base) (hk : 0 < k) :
    HasName (old ++ (buildDumpNodes g g.nextId).rows.map (persistedNode base)) (base + k) a ↔
      HasName (dumpedNodes g) k a := by
  constructor
  · rintro ⟨n, hn, hid, hname⟩
    rcases List.mem_append.mp hn with hn | hn
    · have := hold n hn
      omega
    · obtain ⟨row, hrow, rfl⟩ := List.mem_map.mp hn
      refine ⟨storedNode row, List.mem_map_of_mem hrow, ?_, hname⟩
      exact add_left_cancel hid
  · rintro ⟨n, hn, rfl, hname⟩
    obtain ⟨row, hrow, rfl⟩ := List.mem_map.mp hn
    exact ⟨persistedNode base row, List.mem_append_right _ (List.mem_map_of_mem hrow), rfl, hname⟩

variable {s : Store}

theorem persistNodes_rows (hnames : OwnsNames g) (hs : s.WellFormed)
    (hwithout : s.Without g.project)
    (hproject : ∀ p, p ∈ cbmGbufForeachNode g → g.project ∈ s.projects) :
    (persistNodes g s).1.nodes =
        s.nodes ++ (buildDumpNodes g g.nextId).rows.map (persistedNode s.nodeSeq) ∧
      (persistNodes g s).1.edges = s.edges ∧ (persistNodes g s).1.projects = s.projects ∧
      ∀ id, (persistNodes g s).2 id = shiftId s.nodeSeq (finalId g id) := by
  obtain ⟨hstore, hmap⟩ := persistLoop hs.nonneg (List.range g.nodeCount) 0 (s, fun _ => 0)
    (fun _ => 0) (by simp) (fun _ => (if_pos rfl).symm) hproject (nodup_names hnames)
    (fun p _ r hr hrp => absurd hrp (hwithout.nodes r hr))
  rw [persistNodes, hstore]
  exact ⟨rfl, rfl, rfl, hmap⟩

theorem merge_rows (sql : SqlJson) (hinv : EdgeInv g) (hnames : OwnsNames g)
    (extractUrlPath : CStr → Option CStr) (hs : s.WellFormed) (hwithout : s.Without g.project)
    (hproject : ∀ p, p ∈ cbmGbufForeachNode g → g.project ∈ s.projects) :
    (cbmGbufMergeIntoStore sql g s).nodes =
        s.nodes ++ (buildDumpNodes g g.nextId).rows.map (persistedNode s.nodeSeq) ∧
      (cbmGbufMergeIntoStore sql g s).edges.map EdgeRow.anonymous =
        s.edges.map EdgeRow.anonymous ++
          ((buildDumpEdges extractUrlPath g (finalId g) g.nextId).filter (acceptsRow sql)).map
            (persistedEdge s.nodeSeq) := by
  obtain ⟨hnodes, hedges₀, hprojects, hmap⟩ := persistNodes_rows hnames hs hwithout hproject
  have hpositive : ∀ id, finalId g id ≠ 0 → 0 < finalId g id := by
    intro id hid
    obtain ⟨i, p, -, -, hfinal⟩ := finalId_of_ne_zero hid
    omega
  have hnonneg := hs.nonneg
  have hrefers : ∀ id, finalId g id ≠ 0 → g.project ∈ (persistNodes g s).1.projects ∧
      ∃ n, n ∈ (persistNodes g s).1.nodes ∧ n.id = s.nodeSeq + finalId g id := by
    intro id hid
    obtain ⟨i, p, hi, -, hfinal⟩ := finalId_of_ne_zero hid
    rw [hprojects, hnodes, hfinal]
    refine ⟨hproject p (List.mem_of_getElem? hi), persistedNode s.nodeSeq (dumpNode g p (i + 1)),
      List.mem_append_right _ (List.mem_map_of_mem (List.mem_iff_getElem?.mpr ⟨i, ?_⟩)), rfl⟩
    rw [rows_buildDumpNodes, hi, Option.map_some]
  have hfresh : ∀ p, p ∈ g.edges.filter (resolved g (finalId g) g.nextId) → ∀ r,
      r ∈ (persistNodes g s).1.edges → (r.sourceId, r.targetId, r.type) ≠
        (s.nodeSeq + (remapped g (finalId g) p).1, s.nodeSeq + (remapped g (finalId g) p).2.1,
          (remapped g (finalId g) p).2.2) := by
    intro p hp r hr heq
    rw [hedges₀] at hr
    obtain ⟨n, hn, hid⟩ := hs.sources r hr
    have hle := hs.nodeIds n hn
    have hpos := (remapId_pos (resolved_iff.mp (List.mem_filter.mp hp).2).1).1
    have hsource := congrArg Prod.fst heq
    simp only [remapped] at hsource
    omega
  obtain ⟨hsame, hwritten⟩ := edgeLoop sql hmap
    (fun id hid => by have := hpositive id hid; omega) extractUrlPath g.edges 0
    (persistNodes g s).1 hrefers hinv.pairwise_remapped hfresh
  rw [hnodes] at hsame
  rw [hedges₀] at hwritten
  exact ⟨hsame, hwritten⟩

theorem nodeContents_merge (hwithout : s.Without g.project) :
    nodeContents g.project
        (s.nodes ++ (buildDumpNodes g g.nextId).rows.map (persistedNode s.nodeSeq)) =
      {c | ∃ row, row ∈ (buildDumpNodes g g.nextId).rows ∧ (persistedNode 0 row).content = c} := by
  ext c
  constructor
  · rintro ⟨n, hn, hnp, rfl⟩
    rcases List.mem_append.mp hn with hn | hn
    · exact absurd hnp (hwithout.nodes n hn)
    · obtain ⟨row, hrow, rfl⟩ := List.mem_map.mp hn
      exact ⟨row, hrow, rfl⟩
  · rintro ⟨row, hrow, rfl⟩
    refine ⟨persistedNode s.nodeSeq row, List.mem_append_right _ (List.mem_map_of_mem hrow), ?_, rfl⟩
    change row.project.getD [] = g.project
    rw [(project_of_dumpNode hrow).1]
    rfl

theorem visible_merge (sql : SqlJson) (hinv : EdgeInv g) (hnames : OwnsNames g)
    (extractUrlPath : CStr → Option CStr) (hs : s.WellFormed) (hwithout : s.Without g.project)
    (hproject : ∀ p, p ∈ cbmGbufForeachNode g → g.project ∈ s.projects) :
    (cbmGbufMergeIntoStore sql g s).visible g.project =
      persistedVisible sql extractUrlPath g := by
  obtain ⟨hnodes, hedges⟩ := merge_rows sql hinv hnames extractUrlPath hs hwithout hproject
  rw [Store.visible, hnodes]
  refine Prod.ext (nodeContents_merge hwithout) ?_
  ext c
  rw [Visible, mem_edgeContents, hedges]
  constructor
  · rintro ⟨src, tgt, hmem, hsource, htarget⟩
    rcases List.mem_append.mp hmem with hmem | hmem
    · obtain ⟨e, he, heq⟩ := List.mem_map.mp hmem
      exact absurd (congrArg Prod.fst heq) (hwithout.edges e he)
    · obtain ⟨row, hrow, heq⟩ := List.mem_map.mp hmem
      obtain ⟨hrow, haccepts⟩ := List.mem_filter.mp hrow
      obtain ⟨-, p, hp, -, -, hsrc, htgt⟩ := dumpEdge_cases hrow
      obtain ⟨hps, hpt⟩ := resolved_iff.mp (List.mem_filter.mp hp).2
      simp only [persistedEdge, Prod.mk.injEq] at heq
      obtain ⟨-, rfl, rfl, htype, hprops⟩ := heq
      refine ⟨row, hrow, haccepts, htype, hprops, ?_, ?_⟩
      · exact (hasName_shift hs.nodeIds (hsrc ▸ (remapId_pos hps).1)).mp hsource
      · exact (hasName_shift hs.nodeIds (htgt ▸ (remapId_pos hpt).1)).mp htarget
  · rintro ⟨row, hrow, haccepts, htype, hprops, hsource, htarget⟩
    obtain ⟨hrp, p, hp, -, -, hsrc, htgt⟩ := dumpEdge_cases hrow
    obtain ⟨hps, hpt⟩ := resolved_iff.mp (List.mem_filter.mp hp).2
    refine ⟨s.nodeSeq + row.sourceId, s.nodeSeq + row.targetId, List.mem_append_right _
      (List.mem_map.mpr ⟨row, List.mem_filter.mpr ⟨hrow, haccepts⟩, ?_⟩), ?_, ?_⟩
    · rw [persistedEdge, hrp, htype, hprops]
      rfl
    · exact (hasName_shift hs.nodeIds (hsrc ▸ (remapId_pos hps).1)).mpr hsource
    · exact (hasName_shift hs.nodeIds (htgt ▸ (remapId_pos hpt).1)).mpr htarget

theorem nodes_storeInsertEdge (s : Store) (e : CbmEdge) :
    (storeInsertEdge sql s e).1.nodes = s.nodes := by
  rw [storeInsertEdge]
  split
  · rfl
  split
  · split <;> rfl
  · rfl

theorem nodes_persistEdges (t : Int → Int) (ps : List Nat) :
    ∀ s : Store, (ps.foldl (persistEdge sql g t) s).nodes = s.nodes := by
  induction ps with
  | nil => exact fun _ => rfl
  | cons p ps ih =>
    intro s
    rw [List.foldl_cons, ih, persistEdge]
    split
    · rfl
    · exact nodes_storeInsertEdge s _

theorem nodeContents_merge_of_missing (hwithout : s.Without g.project)
    (hproject : g.project ∉ s.projects) :
    nodeContents g.project (cbmGbufMergeIntoStore sql g s).nodes = ∅ := by
  have hstore : (persistNodes g s).1 = s := persistLoop_of_missing _ _ hproject
  rw [cbmGbufMergeIntoStore, nodes_persistEdges, hstore]
  rw [Set.eq_empty_iff_forall_notMem]
  rintro c ⟨n, hn, hnp, -⟩
  exact hwithout.nodes n hn hnp

end VisibleAfter

section Agree

variable {g : Gbuf} {sql : SqlJson}

/-- What a flush leaves of the store before it writes. -/
def wiped (project : CStr) (s : Store) : Store :=
  storeDeleteNodesByProject
    (storeDeleteEdgesByProject (storeUpsertProject s project) project) project

theorem flush_eq_merge (s : Store) :
    cbmGbufFlushToStore sql g s = cbmGbufMergeIntoStore sql g (wiped g.project s) := rfl

theorem wellFormed_upsertProject {s : Store} (h : s.WellFormed) (project : CStr) :
    (storeUpsertProject s project).WellFormed := by
  rw [storeUpsertProject]
  split
  · exact h
  · exact { nonneg := h.nonneg, nodeIds := h.nodeIds, sources := h.sources, targets := h.targets }

theorem wellFormed_wiped {s : Store} (h : s.WellFormed) (project : CStr) :
    (wiped project s).WellFormed := by
  have h' := wellFormed_upsertProject h project
  have hkept : ∀ (nodes : List NodeRow) (k : Int), (nodes.any fun n => n.id = k) = true →
      ∃ n, n ∈ nodes ∧ n.id = k := by
    intro nodes k hany
    obtain ⟨n, hn, hid⟩ := List.any_eq_true.mp hany
    exact ⟨n, hn, of_decide_eq_true hid⟩
  refine ⟨h'.nonneg, fun n hn => h'.nodeIds n (List.mem_of_mem_filter hn), ?_, ?_⟩
  · intro e he
    exact hkept _ _ (Bool.and_eq_true_iff.mp (List.mem_filter.mp he).2).1
  · intro e he
    exact hkept _ _ (Bool.and_eq_true_iff.mp (List.mem_filter.mp he).2).2

theorem without_wiped (s : Store) (project : CStr) : (wiped project s).Without project where
  nodes := fun _ hn => of_decide_eq_true (List.mem_filter.mp hn).2
  edges := fun _ he =>
    of_decide_eq_true (List.mem_filter.mp (List.mem_of_mem_filter he)).2

theorem project_wiped (s : Store) (project : CStr) : project ∈ (wiped project s).projects := by
  change project ∈ (storeUpsertProject s project).projects
  rw [storeUpsertProject]
  split
  · next h => exact h
  · exact List.mem_append_right _ List.mem_cons_self

/-- Both ends of the edge have a row. -/
def Written (g : Gbuf) (e : Edge) : Prop :=
  (e.sourceId < g.nextId ∧ isLiveId g e.sourceId = true) ∧
    e.targetId < g.nextId ∧ isLiveId g e.targetId = true

/-- No properties are empty, SQLite takes those of the edges as JSON, and the store that is
merged into has the project. -/
structure PersistsAlike (sql : SqlJson) (g : Gbuf) (s : Store) : Prop where
  nodeProps : ∀ p, p ∈ cbmGbufForeachNode g → (g.nodeAt p).propertiesJson ≠ []
  edgeProps : ∀ p, p ∈ g.edges → Written g (g.edgeAt p) →
    (g.edgeAt p).propertiesJson ≠ [] ∧ sql.accepts (g.edgeAt p).propertiesJson = true
  project : ∀ p, p ∈ cbmGbufForeachNode g → g.project ∈ s.projects

theorem resolved_iff_written {p : Nat} :
    resolved g (finalId g) g.nextId p = true ↔ Written g (g.edgeAt p) := by
  rw [resolved_iff, remapId_finalId_ne_zero, remapId_finalId_ne_zero]
  rfl

theorem mem_rows_iff {row : DumpNode} :
    row ∈ (buildDumpNodes g g.nextId).rows ↔
      ∃ (i p : Nat), (cbmGbufForeachNode g)[i]? = some p ∧ dumpNode g p (i + 1) = row := by
  rw [List.mem_iff_getElem?]
  refine exists_congr fun i => ?_
  rw [rows_buildDumpNodes, Option.map_eq_some_iff]

theorem mem_dumpVisible_nodes {extractUrlPath : CStr → Option CStr} {c : NodeContent} :
    c ∈ (dumpVisible extractUrlPath g).1 ↔
      ∃ row, row ∈ (buildDumpNodes g g.nextId).rows ∧ (storedNode row).content = c := by
  constructor
  · rintro ⟨n, hn, -, rfl⟩
    obtain ⟨row, hrow, rfl⟩ := List.mem_map.mp hn
    exact ⟨row, hrow, rfl⟩
  · rintro ⟨row, hrow, rfl⟩
    refine ⟨storedNode row, List.mem_map_of_mem hrow, ?_, rfl⟩
    rw [storedNode, (project_of_dumpNode hrow).1]
    rfl

theorem mem_dumpVisible_edges {extractUrlPath : CStr → Option CStr} {c : EdgeContent} :
    c ∈ (dumpVisible extractUrlPath g).2 ↔
      ∃ row, row ∈ buildDumpEdges extractUrlPath g (finalId g) g.nextId ∧
        row.type.getD [] = c.type ∧ row.properties.getD emptyObject = c.properties ∧
        HasName (dumpedNodes g) row.sourceId c.source ∧
        HasName (dumpedNodes g) row.targetId c.target := by
  constructor
  · rintro ⟨e, he, -, hrest⟩
    obtain ⟨row, hrow, rfl⟩ := List.mem_map.mp he
    exact ⟨row, hrow, hrest⟩
  · rintro ⟨row, hrow, hrest⟩
    refine ⟨storedEdge row, List.mem_map_of_mem hrow, ?_, hrest⟩
    rw [storedEdge, (dumpEdge_cases hrow).1]
    rfl

theorem dump_nodes_iff (extractUrlPath : CStr → Option CStr) :
    (dumpVisible extractUrlPath g).1 = (persistedVisible sql extractUrlPath g).1 ↔
      ∀ p, p ∈ cbmGbufForeachNode g → (g.nodeAt p).propertiesJson ≠ [] := by
  constructor
  · intro heq p hp hempty
    obtain ⟨i, hi⟩ := List.mem_iff_getElem?.mp hp
    have hmem : (storedNode (dumpNode g p (i + 1))).content ∈ (dumpVisible extractUrlPath g).1 :=
      mem_dumpVisible_nodes.mpr ⟨_, mem_rows_iff.mpr ⟨i, p, hi, rfl⟩, rfl⟩
    rw [heq] at hmem
    obtain ⟨row, -, hrow⟩ := hmem
    have hprops : safeProps row.properties = (g.nodeAt p).propertiesJson :=
      congrArg NodeContent.properties hrow
    exact safeProps_ne_nil _ (hprops.trans hempty)
  · intro hne
    have hsame : ∀ row, row ∈ (buildDumpNodes g g.nextId).rows →
        (persistedNode 0 row).content = (storedNode row).content := by
      intro row hrow
      obtain ⟨i, p, hi, rfl⟩ := mem_rows_iff.mp hrow
      have hprops := safeProps_of_ne (hne p (List.mem_of_getElem? hi))
      have hbound : safeProps (dumpNode g p (i + 1)).properties = (g.nodeAt p).propertiesJson :=
        hprops
      rw [persistedNode, hbound]
      rfl
    ext c
    rw [mem_dumpVisible_nodes]
    constructor
    · rintro ⟨row, hrow, rfl⟩
      exact ⟨row, hrow, hsame row hrow⟩
    · rintro ⟨row, hrow, rfl⟩
      exact ⟨row, hrow, (hsame row hrow).symm⟩

theorem dump_edges_iff (extractUrlPath : CStr → Option CStr) :
    (dumpVisible extractUrlPath g).2 = (persistedVisible sql extractUrlPath g).2 ↔
      ∀ p, p ∈ g.edges → Written g (g.edgeAt p) →
        (g.edgeAt p).propertiesJson ≠ [] ∧ sql.accepts (g.edgeAt p).propertiesJson = true := by
  constructor
  · intro heq p hp hwritten
    have hresolved := resolved_iff_written.mpr hwritten
    have hfiltered := List.mem_filter.mpr ⟨hp, hresolved⟩
    obtain ⟨i, hi⟩ := List.mem_iff_getElem?.mp hfiltered
    have hrow := rows_buildDumpEdges extractUrlPath g (finalId g) g.nextId i
    rw [hi, Option.map_some] at hrow
    obtain ⟨hps, hpt⟩ := resolved_iff.mp hresolved
    obtain ⟨-, a, ha, haid⟩ := remapId_pos hps
    obtain ⟨-, b, hb, hbid⟩ := remapId_pos hpt
    have hmem : ({ source := (storedNode a).qualifiedName
                   target := (storedNode b).qualifiedName
                   type := (g.edgeAt p).type
                   properties := (g.edgeAt p).propertiesJson } : EdgeContent) ∈
        (dumpVisible extractUrlPath g).2 :=
      mem_dumpVisible_edges.mpr ⟨_, List.mem_of_getElem? hrow, rfl, rfl,
        ⟨storedNode a, List.mem_map_of_mem ha, haid, rfl⟩,
        ⟨storedNode b, List.mem_map_of_mem hb, hbid, rfl⟩⟩
    rw [heq] at hmem
    obtain ⟨row, -, haccepts, -, hprops, -⟩ := hmem
    have hprops' : safeProps row.properties = (g.edgeAt p).propertiesJson := hprops
    rw [acceptsRow, hprops'] at haccepts
    exact ⟨fun hempty => safeProps_ne_nil _ (hprops'.trans hempty), haccepts⟩
  · intro hall
    have hsame : ∀ row, row ∈ buildDumpEdges extractUrlPath g (finalId g) g.nextId →
        acceptsRow sql row = true ∧ safeProps row.properties = row.properties.getD emptyObject := by
      intro row hrow
      obtain ⟨-, p, hp, -, hprops, -⟩ := dumpEdge_cases hrow
      obtain ⟨hmem, hresolved⟩ := List.mem_filter.mp hp
      obtain ⟨hne, haccepts⟩ := hall p hmem (resolved_iff_written.mp hresolved)
      rw [acceptsRow, hprops, safeProps_of_ne hne]
      exact ⟨haccepts, rfl⟩
    ext c
    rw [mem_dumpVisible_edges]
    constructor
    · rintro ⟨row, hrow, htype, hprops, hnames⟩
      obtain ⟨haccepts, hsafe⟩ := hsame row hrow
      exact ⟨row, hrow, haccepts, htype, hsafe.trans hprops, hnames⟩
    · rintro ⟨row, hrow, -, htype, hprops, hnames⟩
      exact ⟨row, hrow, htype, (hsame row hrow).2.symm.trans hprops, hnames⟩

/-- The three ways to persist a buffer make the same nodes and edges visible exactly when no
properties are empty, SQLite takes those of the edges, and the project is known to the store
that is merged into. -/
theorem persisted_agree_iff (hreach : Reachable anyOp g) (hnames : OwnsNames g)
    (extractUrlPath : CStr → Option CStr) {s s' : Store} (hs : s.WellFormed)
    (hs' : s'.WellFormed) (hwithout : s'.Without g.project) :
    (dumpVisible extractUrlPath g = (cbmGbufFlushToStore sql g s).visible g.project ∧
      (cbmGbufFlushToStore sql g s).visible g.project =
        (cbmGbufMergeIntoStore sql g s').visible g.project) ↔ PersistsAlike sql g s' := by
  have hinv : EdgeInv g := hreach.invariant edgeInv_new fun _ op h _ => h.step op
  have hflush : (cbmGbufFlushToStore sql g s).visible g.project =
      persistedVisible sql extractUrlPath g := by
    rw [flush_eq_merge]
    exact visible_merge sql hinv hnames extractUrlPath (wellFormed_wiped hs g.project)
      (without_wiped s g.project) (fun _ _ => project_wiped s g.project)
  rw [hflush]
  constructor
  · rintro ⟨hdump, hmerge⟩
    refine ⟨(dump_nodes_iff extractUrlPath).mp (congrArg Prod.fst hdump),
      (dump_edges_iff extractUrlPath).mp (congrArg Prod.snd hdump), fun p hp => ?_⟩
    by_contra hmissing
    have hempty : (persistedVisible sql extractUrlPath g).1 = ∅ := by
      rw [hmerge]
      exact nodeContents_merge_of_missing hwithout hmissing
    obtain ⟨i, hi⟩ := List.mem_iff_getElem?.mp hp
    have hmem : (persistedNode 0 (dumpNode g p (i + 1))).content ∈
        (persistedVisible sql extractUrlPath g).1 := ⟨_, mem_rows_iff.mpr ⟨i, p, hi, rfl⟩, rfl⟩
    rw [hempty] at hmem
    exact hmem
  · rintro ⟨hnodes, hedges, hproject⟩
    refine ⟨Prod.ext ((dump_nodes_iff extractUrlPath).mpr hnodes)
      ((dump_edges_iff extractUrlPath).mpr hedges), ?_⟩
    exact (visible_merge sql hinv hnames extractUrlPath hs' hwithout hproject).symm

end Agree

/-- Every edge joins two live nodes. -/
def JoinsLive (g : Gbuf) : Prop :=
  ∀ p, p ∈ g.edges → isLiveId g (g.edgeAt p).sourceId = true ∧
    isLiveId g (g.edgeAt p).targetId = true

/-- SQLite on texts of RFC 8259; a patch replaces the object. -/
def strictJson : SqlJson where
  accepts s := (Json.read s).isSome
  patch _ new := some new

def emptyStore (projects : List CStr) : Store :=
  { projects := projects, nodes := [], edges := [], nodeSeq := 0, edgeSeq := 0 }

theorem wellFormed_emptyStore (projects : List CStr) : (emptyStore projects).WellFormed where
  nonneg := le_rfl
  nodeIds := fun _ hn => absurd hn List.not_mem_nil
  sources := fun _ he => absurd he List.not_mem_nil
  targets := fun _ he => absurd he List.not_mem_nil

theorem without_emptyStore (projects : List CStr) (project : CStr) :
    (emptyStore projects).Without project where
  nodes := fun _ hn => absurd hn List.not_mem_nil
  edges := fun _ he => absurd he List.not_mem_nil

theorem Owned.ownsNames {g : Gbuf} (h : Owned g) : OwnsNames g := by
  intro p q hp hq hname
  obtain ⟨qn, hqn⟩ := h.found hp
  obtain ⟨qn', hqn'⟩ := h.found hq
  rw [(h.named qn p hqn).2, (h.named qn' q hqn').2, Option.some.injEq] at hname
  rw [← hname, hqn] at hqn'
  exact Option.some.inj hqn'

theorem reachable_called : Reachable anyOp called :=
  ((Reachable.step ⟨bytesOf "p", none, Run.refl⟩ trivial).step trivial).step trivial

theorem persisted_agree_called :
    dumpVisible (fun _ => none) called =
        (cbmGbufFlushToStore strictJson called (emptyStore [])).visible called.project ∧
      (cbmGbufFlushToStore strictJson called (emptyStore [])).visible called.project =
        (cbmGbufMergeIntoStore strictJson called (emptyStore [bytesOf "p"])).visible
          called.project := by
  have hlt : ∀ p, p ∈ cbmGbufForeachNode called → p < 2 := by decide +kernel
  refine (persisted_agree_iff reachable_called owned_called.ownsNames (fun _ => none)
    (wellFormed_emptyStore []) (wellFormed_emptyStore [bytesOf "p"])
    (without_emptyStore _ _)).mpr ?_
  refine ⟨fun p hp => ?_, fun p hp _ => ?_, fun p _ => List.mem_cons_self⟩
  · have hprops : ∀ p, p < 2 → (called.nodeAt p).propertiesJson ≠ [] := by decide +kernel
    exact hprops p (hlt p hp)
  · have hprops : ∀ p, p ∈ called.edges → (called.edgeAt p).propertiesJson = emptyObject := by
      decide +kernel
    rw [hprops p hp]
    exact ⟨List.cons_ne_nil _ _, rfl⟩

/-- One node, with an empty text for its properties. -/
def bare : Gbuf :=
  (cbmGbufNew (bytesOf "p") none).step
    (.upsert (some (bytesOf "Function")) (some (bytesOf "f")) (bytesOf "f") none 1 2 (some []))

theorem owned_bare : Owned bare :=
  (owned_new (bytesOf "p") none).upsert _ _ _ _ _ _ _

/-- The dump keeps the empty text, the flush does not. -/
theorem not_persisted_agree_bare :
    Reachable anyOp bare ∧ OwnsNames bare ∧ JoinsLive bare ∧
      dumpVisible (fun _ => none) bare ≠
        (cbmGbufFlushToStore strictJson bare (emptyStore [])).visible bare.project := by
  have hreach : Reachable anyOp bare := Reachable.step ⟨bytesOf "p", none, Run.refl⟩ trivial
  have hinv : EdgeInv bare := hreach.invariant edgeInv_new fun _ op h _ => h.step op
  have hedges : bare.edges = [] := by decide +kernel
  refine ⟨hreach, owned_bare.ownsNames, ?_, fun heq => ?_⟩
  · intro p hp
    rw [hedges] at hp
    exact absurd hp List.not_mem_nil
  · have hflush := visible_merge strictJson hinv owned_bare.ownsNames (fun _ => none)
      (wellFormed_wiped (wellFormed_emptyStore []) bare.project)
      (without_wiped _ bare.project) (fun _ _ => project_wiped _ bare.project)
    rw [flush_eq_merge, hflush] at heq
    refine (dump_nodes_iff (fun _ => none)).mp (congrArg Prod.fst heq) 0 ?_ ?_
    · decide +kernel
    · decide +kernel

end GraphBuffer
end CodebaseMemory
