import CodebaseMemory.CrossRepo.Tables

/-!
# What a run writes

All matchers find links, and insert an edge for each in the database of the run and, if the
link has a reverse side, one in the other database.  The links of two databases
(`links`) are a function of what the matchers read, which no insert changes; so a matcher
inserts the links that it finds in the databases as they were at its start, up to its limit
(`matchAll_fst`), and a run those of its project with every target (`run_cases`).
-/

namespace CodebaseMemory
namespace CrossRepo

open Lib
open Sqlite (CStr bytesOf)
open GraphBuffer

/-- A link, with the edge of its reverse side. -/
structure Link where
  fwd : Write
  rev : Option Write
  deriving DecidableEq

def Link.emit (sql : SqlJson) (srcProject tgtProject : CStr) (st : Stores) (l : Link) : Stores :=
  { src := l.fwd.insert sql srcProject st.src
    tgt := l.rev.toList.foldl (Write.insert sql tgtProject) st.tgt }

section Rows

variable (srcProject tgtProject : CStr) (st : Stores)

def routeLink (callerId localRouteId : Int) (handler : Handler) (routeQn urlPath method : CStr)
    (edgeType : CrossType) : Link :=
  let caller := lookupNodeInfo st.src callerId
  { fwd :=
      { type := edgeType
        fromId := callerId
        toId := localRouteId
        props := buildCrossProps tgtProject handler.name handler.file urlPath (bytesOf "url_path")
          method }
    rev :=
      match st.tgt.nodes.find? (·.qualifiedName = routeQn) with
      | none => none
      | some route =>
          if route.id = 0 then none
          else some
            { type := edgeType
              fromId := handler.id
              toId := route.id
              props := buildCrossProps srcProject caller.1 caller.2 urlPath (bytesOf "url_path")
                method } }

def httpLink (e : EdgeRow) : Option Link :=
  let urlPath := jsonStrProp e.properties (bytesOf "url_path") 256
  let method := jsonStrProp e.properties (bytesOf "method") 32
  if urlPath = [] then none
  else
    (httpHandler st.tgt method urlPath).map fun found =>
      routeLink srcProject tgtProject st e.sourceId e.targetId found.2 found.1 urlPath method .http

def asyncLink (e : EdgeRow) : Option Link :=
  let urlPath := jsonStrProp e.properties (bytesOf "url_path") 256
  let broker := jsonStrProp e.properties (bytesOf "broker") 128
  if urlPath = [] then none
  else
    (findRouteHandler st.tgt (routeQnOf (if broker ≠ [] then broker else bytesOf "async")
        urlPath)).map fun handler =>
      { fwd :=
          { type := .async
            fromId := e.sourceId
            toId := e.targetId
            props := buildCrossProps tgtProject handler.name handler.file urlPath
              (bytesOf "url_path") broker }
        rev := none }

def channelLink (row : NodeRow × Int) : Option Link :=
  let transport := jsonStrProp row.1.properties (bytesOf "transport") 64
  let caller := lookupNodeInfo st.src row.2
  (channelListener st.tgt tgtProject row.1.name).map fun found =>
    { fwd :=
        { type := .channel
          fromId := row.2
          toId := row.1.id
          props := buildCrossProps tgtProject found.2.name found.2.filePath row.1.name
            (bytesOf "channel_name") transport }
      rev := some
        { type := .channel
          fromId := found.2.id
          toId := found.1
          props := buildCrossProps srcProject caller.1 caller.2 row.1.name (bytesOf "channel_name")
            transport } }

def typedLink (svcKey methodKey : CStr) (crossEdgeType : CrossType) (e : EdgeRow) : Option Link :=
  let svcVal := jsonStrProp e.properties svcKey 256
  let methVal := jsonStrProp e.properties methodKey 256
  if svcVal = [] ∧ methVal = [] then none
  else
    match st.src.nodes.find? (·.id = e.targetId) with
    | none => none
    | some route =>
        (findRouteHandler st.tgt (cut 512 route.qualifiedName)).map fun handler =>
          routeLink srcProject tgtProject st e.sourceId e.targetId handler
            (cut 512 route.qualifiedName) svcVal svcKey crossEdgeType

/-- The calls that have a handler in the other database. -/
def httpLinks : List Link :=
  (edgesOfType st.src srcProject (bytesOf "HTTP_CALLS")).filterMap
    (httpLink srcProject tgtProject st)

def typedLinks (edgeType svcKey methodKey : CStr) (crossEdgeType : CrossType) : List Link :=
  (edgesOfType st.src srcProject edgeType).filterMap
    (typedLink srcProject tgtProject st svcKey methodKey crossEdgeType)

def asyncLinks : List Link :=
  (edgesOfType st.src srcProject (bytesOf "ASYNC_CALLS")).filterMap (asyncLink tgtProject st)

def channelLinks : List Link :=
  (channelRows st.src srcProject).filterMap (channelLink srcProject tgtProject st)

def links : List Link :=
  (httpLinks srcProject tgtProject st).take crMaxEdges ++
    (asyncLinks srcProject tgtProject st).take crMaxEdges ++
    (channelLinks srcProject tgtProject st).take crMaxEdges ++
    (typedLinks srcProject tgtProject st (bytesOf "GRPC_CALLS") (bytesOf "service")
      (bytesOf "method") .grpc).take crMaxEdges ++
    (typedLinks srcProject tgtProject st (bytesOf "GRAPHQL_CALLS") (bytesOf "operation")
      (bytesOf "operation") .graphql).take crMaxEdges ++
    (typedLinks srcProject tgtProject st (bytesOf "TRPC_CALLS") (bytesOf "procedure")
      (bytesOf "procedure") .trpc).take crMaxEdges

end Rows

section Types

variable {srcProject tgtProject : CStr} {st : Stores} {l : Link}

theorem type_httpLink {e : EdgeRow} (h : httpLink srcProject tgtProject st e = some l) :
    l.fwd.type = .http := by
  unfold httpLink at h
  simp only at h
  split at h
  · cases h
  · obtain ⟨_, _, rfl⟩ := Option.map_eq_some_iff.mp h
    rfl

theorem type_asyncLink {e : EdgeRow} (h : asyncLink tgtProject st e = some l) :
    l.fwd.type = .async := by
  unfold asyncLink at h
  simp only at h
  split at h
  · cases h
  · obtain ⟨_, _, rfl⟩ := Option.map_eq_some_iff.mp h
    rfl

theorem type_channelLink {row : NodeRow × Int}
    (h : channelLink srcProject tgtProject st row = some l) : l.fwd.type = .channel := by
  obtain ⟨_, _, rfl⟩ := Option.map_eq_some_iff.mp h
  rfl

theorem type_typedLink {svcKey methodKey : CStr} {t : CrossType} {e : EdgeRow}
    (h : typedLink srcProject tgtProject st svcKey methodKey t e = some l) : l.fwd.type = t := by
  unfold typedLink at h
  simp only at h
  split at h
  · cases h
  · split at h
    · cases h
    · obtain ⟨_, _, rfl⟩ := Option.map_eq_some_iff.mp h
      rfl

theorem mem_links_http :
    l ∈ links srcProject tgtProject st ∧ l.fwd.type = .http ↔
      l ∈ (httpLinks srcProject tgtProject st).take crMaxEdges := by
  have hother : ∀ {ρ : Type} {link : ρ → Option Link} {rows : List ρ} {t : CrossType},
      (∀ row l, link row = some l → l.fwd.type = t) → t ≠ .http →
        l ∈ (rows.filterMap link).take crMaxEdges → l.fwd.type ≠ .http := by
    intro ρ link rows t htype hne hl
    obtain ⟨row, -, hrow⟩ := List.mem_filterMap.mp (List.mem_of_mem_take hl)
    rw [htype row l hrow]
    exact hne
  constructor
  · rintro ⟨hl, htype⟩
    simp only [links, List.mem_append] at hl
    obtain ((((hl | hl) | hl) | hl) | hl) | hl := hl
    · exact hl
    · exact absurd htype (hother (fun _ _ => type_asyncLink) (by decide) hl)
    · exact absurd htype (hother (fun _ _ => type_channelLink) (by decide) hl)
    · exact absurd htype (hother (fun _ _ => type_typedLink) (by decide) hl)
    · exact absurd htype (hother (fun _ _ => type_typedLink) (by decide) hl)
    · exact absurd htype (hother (fun _ _ => type_typedLink) (by decide) hl)
  · intro hl
    obtain ⟨e, -, he⟩ := List.mem_filterMap.mp (List.mem_of_mem_take hl)
    refine ⟨?_, type_httpLink he⟩
    simp only [links, List.mem_append]
    exact Or.inl (Or.inl (Or.inl (Or.inl (Or.inl hl))))

end Types

def Handles (s : Store) (routeQn : CStr) (h : NodeRow) : Prop :=
  ∃ route e, route ∈ s.nodes ∧ route.qualifiedName = routeQn ∧ route.label = bytesOf "Route" ∧
    e ∈ s.edges ∧ e.targetId = route.id ∧ e.type = bytesOf "HANDLES" ∧
    h ∈ s.nodes ∧ h.id = e.sourceId

section Handler

variable {s : Store} {routeQn : CStr} {h : NodeRow} {project : CStr}

theorem edgeSource_eq_some {id : Int} {type : CStr} {n : NodeRow}
    (hsome : edgeSource s id type = some n) :
    ∃ e, e ∈ s.edges ∧ e.targetId = id ∧ e.type = type ∧ n ∈ s.nodes ∧ n.id = e.sourceId := by
  obtain ⟨e, he, hfind⟩ := List.exists_of_findSome?_eq_some hsome
  split at hfind
  · next hc =>
    have hid := List.find?_some hfind
    rw [decide_eq_true_iff] at hid
    exact ⟨e, he, hc.1, hc.2, List.mem_of_find?_eq_some hfind, hid⟩
  · cases hfind

theorem handles_of_find {handler : Handler} (hfind : findRouteHandler s routeQn = some handler) :
    ∃ h, Handles s routeQn h ∧
      handler = { id := h.id, name := cut 256 h.name, file := cut 512 h.filePath } := by
  rw [findRouteHandler] at hfind
  split at hfind
  · cases hfind
  · next route hroute =>
    have hmem := List.mem_of_find?_eq_some hroute
    have hqn := List.find?_some hroute
    rw [Bool.and_eq_true, decide_eq_true_iff, decide_eq_true_iff] at hqn
    split at hfind
    · cases hfind
    · split at hfind
      · cases hfind
      · next n hsource =>
        obtain ⟨e, he, htgt, htype, hn, hid⟩ := edgeSource_eq_some hsource
        split at hfind
        · cases hfind
        · exact ⟨n, ⟨route, e, hmem, hqn.1, hqn.2, he, htgt, htype, hn, hid⟩,
            (Option.some.inj hfind).symm⟩

theorem find_of_handles (hdb : Database project s) (hh : Handles s routeQn h) :
    ∃ handler, findRouteHandler s routeQn = some handler := by
  obtain ⟨route, e, hroute, hqn, hlabel, he, htgt, htype, hmem, hid⟩ := hh
  -- names are unique, so that the first route of this name is this one
  have hfind : s.nodes.find? (fun n => n.qualifiedName = routeQn && n.label = bytesOf "Route") =
      some route := by
    have hsome : (s.nodes.find?
        fun n => n.qualifiedName = routeQn && n.label = bytesOf "Route").isSome := by
      rw [List.find?_isSome]
      exact ⟨route, hroute, by rw [hqn, hlabel]; simp⟩
    obtain ⟨r, hr⟩ := Option.isSome_iff_exists.mp hsome
    have hname := List.find?_some hr
    rw [Bool.and_eq_true, decide_eq_true_iff] at hname
    have heq : r = route := List.inj_on_of_nodup_map hdb.named (List.mem_of_find?_eq_some hr) hroute
      (hname.1.trans hqn.symm)
    rw [hr, heq]
  have hsource : (edgeSource s route.id (bytesOf "HANDLES")).isSome := by
    rw [edgeSource, List.findSome?_isSome_iff]
    refine ⟨e, he, ?_⟩
    rw [if_pos ⟨htgt, htype⟩, List.find?_isSome]
    exact ⟨h, hmem, decide_eq_true hid⟩
  obtain ⟨n, hn⟩ := Option.isSome_iff_exists.mp hsource
  obtain ⟨-, -, -, -, hnode, -⟩ := edgeSource_eq_some hn
  have hrouteId : route.id ≠ 0 := (hdb.nodeIds route hroute).ne'
  have hnId : n.id ≠ 0 := (hdb.nodeIds n hnode).ne'
  refine ⟨{ id := n.id, name := cut 256 n.name, file := cut 512 n.filePath }, ?_⟩
  rw [findRouteHandler, hfind]
  simp only [if_neg hrouteId, hn, if_neg hnId]

end Handler

/-- Two databases in which the matchers read the same. -/
structure Stores.Same (st st' : Stores) : Prop where
  src : SameReads st.src st'.src
  tgt : SameReads st.tgt st'.tgt

theorem Stores.Same.refl (st : Stores) : st.Same st :=
  ⟨SameReads.refl _, SameReads.refl _⟩

theorem Stores.Same.trans {st st' st'' : Stores} (h : st.Same st') (h' : st'.Same st'') :
    st.Same st'' :=
  ⟨h.src.trans h'.src, h.tgt.trans h'.tgt⟩

section Reads

variable {s s' : Store} {st st' : Stores}

theorem findSome?_readEdges {β : Type} (f : EdgeRow → Option β)
    (hf : ∀ e, isCross e.type = true → f e = none) (s : Store) :
    s.edges.findSome? f = (readEdges s).findSome? f := by
  rw [readEdges]
  induction s.edges with
  | nil => rfl
  | cons e es ih =>
      rw [List.filter_cons, List.findSome?_cons]
      by_cases he : isCross e.type = true
      · rw [hf e he, he]
        exact ih
      · rw [Bool.not_eq_true] at he
        rw [he]
        simp only [Bool.not_false, if_true, List.findSome?_cons, ih]

theorem filter_readEdges (p : EdgeRow → Bool) (hp : ∀ e, isCross e.type = true → p e = false)
    (s : Store) : s.edges.filter p = (readEdges s).filter p := by
  rw [readEdges, List.filter_filter]
  refine List.filter_congr fun e _ => ?_
  cases he : isCross e.type with
  | true => rw [hp e he, Bool.false_and]
  | false => rw [Bool.not_false, Bool.and_true]

theorem ne_of_isCross {type text : CStr} (htext : isCross text = false)
    (htype : isCross type = true) : type ≠ text := by
  rintro rfl
  rw [htype] at htext
  cases htext

theorem edgeSource_congr (h : SameReads s s') (type : CStr) (htype : isCross type = false)
    (id : Int) : edgeSource s' id type = edgeSource s id type := by
  have hskip : ∀ (db : Store) (e : EdgeRow), isCross e.type = true →
      (if e.targetId = id ∧ e.type = type then db.nodes.find? (·.id = e.sourceId) else none) =
        none := fun db e he => if_neg fun hc => ne_of_isCross htype he hc.2
  rw [edgeSource, edgeSource, findSome?_readEdges _ (hskip s'), findSome?_readEdges _ (hskip s),
    h.edges, h.nodes]

theorem findRouteHandler_congr (h : SameReads s s') (routeQn : CStr) :
    findRouteHandler s' routeQn = findRouteHandler s routeQn := by
  unfold findRouteHandler
  simp only [h.nodes, edgeSource_congr h (bytesOf "HANDLES") (by decide)]

theorem channelListener_congr (h : SameReads s s') (project name : CStr) :
    channelListener s' project name = channelListener s project name := by
  unfold channelListener
  simp only [h.nodes, edgeSource_congr h (bytesOf "LISTENS_ON") (by decide)]

theorem lookupNodeInfo_congr (h : SameReads s s') (id : Int) :
    lookupNodeInfo s' id = lookupNodeInfo s id := by
  rw [lookupNodeInfo, lookupNodeInfo, h.nodes]

theorem edgesOfType_congr (h : SameReads s s') {type : CStr} (htype : isCross type = false)
    (project : CStr) : edgesOfType s' project type = edgesOfType s project type := by
  have hskip : ∀ e : EdgeRow, isCross e.type = true →
      (decide (e.project = project) && decide (e.type = type)) = false := by
    intro e he
    rw [decide_eq_false (ne_of_isCross htype he), Bool.and_false]
  rw [edgesOfType, edgesOfType, filter_readEdges _ hskip, filter_readEdges _ hskip, h.edges]

theorem channelRows_congr (h : SameReads s s') (project : CStr) :
    channelRows s' project = channelRows s project := by
  have hskip : ∀ (id : Int) (e : EdgeRow), isCross e.type = true →
      (decide (e.targetId = id) && decide (e.type = bytesOf "EMITS")) = false := by
    intro id e he
    rw [decide_eq_false (ne_of_isCross (by decide) he), Bool.and_false]
  unfold channelRows
  simp only [fun id => filter_readEdges _ (hskip id) s', fun id => filter_readEdges _ (hskip id) s,
    h.edges, h.nodes]

theorem routeLink_congr (h : st.Same st') (srcProject tgtProject : CStr) :
    routeLink srcProject tgtProject st' = routeLink srcProject tgtProject st := by
  unfold routeLink
  simp only [lookupNodeInfo_congr h.src, h.tgt.nodes]

theorem httpHandler_congr (h : SameReads s s') (method urlPath : CStr) :
    httpHandler s' method urlPath = httpHandler s method urlPath := by
  unfold httpHandler
  simp only [findRouteHandler_congr h]

theorem link_congr (h : st.Same st') (srcProject tgtProject : CStr) :
    httpLink srcProject tgtProject st' = httpLink srcProject tgtProject st ∧
      asyncLink tgtProject st' = asyncLink tgtProject st ∧
      channelLink srcProject tgtProject st' = channelLink srcProject tgtProject st ∧
      typedLink srcProject tgtProject st' = typedLink srcProject tgtProject st := by
  refine ⟨?_, ?_, ?_, ?_⟩
  · funext e
    unfold httpLink
    rw [routeLink_congr h]
    simp only [httpHandler_congr h.tgt]
  · funext e
    unfold asyncLink
    simp only [findRouteHandler_congr h.tgt]
  · funext row
    unfold channelLink
    simp only [channelListener_congr h.tgt, lookupNodeInfo_congr h.src]
  · funext svcKey methodKey type e
    unfold typedLink
    rw [routeLink_congr h]
    simp only [findRouteHandler_congr h.tgt, h.src.nodes]

theorem typedLinks_congr (h : st.Same st') (srcProject tgtProject svcKey methodKey : CStr)
    (type : CrossType) {edgeType : CStr} (hcross : isCross edgeType = false) :
    typedLinks srcProject tgtProject st' edgeType svcKey methodKey type =
      typedLinks srcProject tgtProject st edgeType svcKey methodKey type := by
  rw [typedLinks, typedLinks, (link_congr h srcProject tgtProject).2.2.2,
    edgesOfType_congr h.src hcross]

theorem asyncLinks_congr (h : st.Same st') (srcProject tgtProject : CStr) :
    asyncLinks srcProject tgtProject st' = asyncLinks srcProject tgtProject st := by
  rw [asyncLinks, asyncLinks, (link_congr h srcProject tgtProject).2.1,
    edgesOfType_congr h.src (by decide)]

theorem channelLinks_congr (h : st.Same st') (srcProject tgtProject : CStr) :
    channelLinks srcProject tgtProject st' = channelLinks srcProject tgtProject st := by
  rw [channelLinks, channelLinks, (link_congr h srcProject tgtProject).2.2.1,
    channelRows_congr h.src]

theorem links_congr (h : st.Same st') (srcProject tgtProject : CStr) :
    links srcProject tgtProject st' = links srcProject tgtProject st := by
  rw [links, links, httpLinks, (link_congr h srcProject tgtProject).1,
    edgesOfType_congr h.src (by decide), asyncLinks_congr h, channelLinks_congr h,
    typedLinks_congr h srcProject tgtProject _ _ _ (by decide),
    typedLinks_congr h srcProject tgtProject _ _ _ (by decide),
    typedLinks_congr h srcProject tgtProject _ _ _ (by decide)]
  rfl

end Reads

section Matchers

variable {sql : SqlJson} {srcProject tgtProject : CStr} {st : Stores}

theorem sameReads_inserts (sql : SqlJson) (project : CStr) (ws : List Write) :
    ∀ s, SameReads s (ws.foldl (Write.insert sql project) s) := by
  induction ws with
  | nil => exact SameReads.refl
  | cons w ws ih => exact fun s => (sameReads_insert sql project s w).trans (ih _)

theorem same_emit (sql : SqlJson) (srcProject tgtProject : CStr) (st : Stores) (l : Link) :
    st.Same (l.emit sql srcProject tgtProject st) :=
  ⟨sameReads_insert sql srcProject st.src l.fwd, sameReads_inserts sql tgtProject _ st.tgt⟩

theorem same_emits (sql : SqlJson) (srcProject tgtProject : CStr) (ls : List Link) :
    ∀ st : Stores, st.Same (ls.foldl (Link.emit sql srcProject tgtProject) st) := by
  induction ls with
  | nil => exact Stores.Same.refl
  | cons l ls ih => exact fun st => (same_emit sql srcProject tgtProject st l).trans (ih _)

theorem matchRows_fst {ρ : Type} {step : Stores → ρ → Option Stores} {link : ρ → Option Link}
    (hstep : ∀ st', st.Same st' → ∀ row,
      step st' row = (link row).map (Link.emit sql srcProject tgtProject st')) (rows : List ρ) :
    (matchRows step rows st).1 =
      ((rows.filterMap link).take crMaxEdges).foldl (Link.emit sql srcProject tgtProject) st := by
  -- the loop from a state and a count on
  have hloop : ∀ (rows : List ρ) st' n, st.Same st' →
      (rows.foldl (matchRow step) (st', n)).1 =
        ((rows.filterMap link).take (crMaxEdges - n)).foldl
          (Link.emit sql srcProject tgtProject) st' := by
    intro rows
    induction rows with
    | nil =>
        intro st' n _
        rw [List.filterMap_nil, List.take_nil]
        rfl
    | cons row rows ih =>
        intro st' n hsame
        rw [List.foldl_cons, matchRow]
        by_cases hroom : n < crMaxEdges
        · simp only [if_pos hroom, hstep st' hsame row]
          cases hlink : link row with
          | none =>
              rw [List.filterMap_cons_none hlink]
              exact ih st' n hsame
          | some l =>
              have hcount : crMaxEdges - n = crMaxEdges - (n + 1) + 1 := by omega
              rw [List.filterMap_cons_some hlink, hcount, List.take_succ_cons, List.foldl_cons]
              exact ih _ (n + 1) (hsame.trans (same_emit sql srcProject tgtProject st' l))
        · have hfull : crMaxEdges - n = 0 := by omega
          simp only [if_neg hroom]
          rw [ih st' n hsame, hfull, List.take_zero, List.take_zero]
  exact hloop rows st 0 (Stores.Same.refl st)

theorem emitCross_eq (sql : SqlJson) (srcProject tgtProject : CStr) (st : Stores)
    (callerId localRouteId : Int) (handler : Handler) (routeQn urlPath method : CStr)
    (edgeType : CrossType) :
    emitCrossRouteBidirectional sql srcProject tgtProject st callerId localRouteId handler routeQn
        urlPath method edgeType =
      (routeLink srcProject tgtProject st callerId localRouteId handler routeQn urlPath method
        edgeType).emit sql srcProject tgtProject st := by
  have hcaller : ∀ props, lookupNodeInfo
      (insertCrossEdge sql st.src srcProject callerId localRouteId edgeType props) callerId =
      lookupNodeInfo st.src callerId := fun props =>
    lookupNodeInfo_congr (sameReads_insert sql srcProject st.src
      ⟨edgeType, callerId, localRouteId, props⟩) callerId
  unfold emitCrossRouteBidirectional routeLink Link.emit
  simp only [hcaller]
  cases st.tgt.nodes.find? (·.qualifiedName = routeQn) with
  | none => rfl
  | some route =>
      by_cases hid : route.id = 0
      · simp only [if_pos hid]
        rfl
      · simp only [if_neg hid]
        rfl

theorem matchHttpRoutes_fst (sql : SqlJson) (srcProject tgtProject : CStr) (st : Stores) :
    (matchHttpRoutes sql srcProject tgtProject st).1 =
      ((httpLinks srcProject tgtProject st).take crMaxEdges).foldl
        (Link.emit sql srcProject tgtProject) st := by
  refine matchRows_fst (fun st' hsame e => ?_) _
  rw [← (link_congr hsame srcProject tgtProject).1, matchHttpRoute, httpLink]
  split
  · rfl
  · rw [Option.map_map]
    refine congrArg (fun f => Option.map f _) (funext fun found => ?_)
    exact emitCross_eq sql srcProject tgtProject st' _ _ _ _ _ _ _

theorem matchAsyncRoutes_fst (sql : SqlJson) (srcProject tgtProject : CStr) (st : Stores) :
    (matchAsyncRoutes sql srcProject tgtProject st).1 =
      ((asyncLinks srcProject tgtProject st).take crMaxEdges).foldl
        (Link.emit sql srcProject tgtProject) st := by
  refine matchRows_fst (fun st' hsame e => ?_) _
  rw [← (link_congr hsame srcProject tgtProject).2.1, matchAsyncRoute, asyncLink]
  split
  · rfl
  · rw [Option.map_map]
    rfl

theorem matchChannels_fst (sql : SqlJson) (srcProject tgtProject : CStr) (st : Stores) :
    (matchChannels sql srcProject tgtProject st).1 =
      ((channelLinks srcProject tgtProject st).take crMaxEdges).foldl
        (Link.emit sql srcProject tgtProject) st := by
  refine matchRows_fst (fun st' hsame row => ?_) _
  rw [← (link_congr hsame srcProject tgtProject).2.2.1, tryMatchChannelListener, channelLink,
    Option.map_map]
  refine congrArg (fun f => Option.map f _) (funext fun found => ?_)
  have hcaller : ∀ props, lookupNodeInfo
      (insertCrossEdge sql st'.src srcProject row.2 row.1.id .channel props) row.2 =
      lookupNodeInfo st'.src row.2 := fun props =>
    lookupNodeInfo_congr (sameReads_insert sql srcProject st'.src
      ⟨.channel, row.2, row.1.id, props⟩) row.2
  simp only [hcaller]
  rfl

theorem matchTypedRoutes_fst (sql : SqlJson) (srcProject tgtProject : CStr) (st : Stores)
    (edgeType svcKey methodKey : CStr) (crossEdgeType : CrossType) :
    (matchTypedRoutes sql srcProject tgtProject edgeType svcKey methodKey crossEdgeType st).1 =
      ((typedLinks srcProject tgtProject st edgeType svcKey methodKey crossEdgeType).take
        crMaxEdges).foldl (Link.emit sql srcProject tgtProject) st := by
  refine matchRows_fst (fun st' hsame e => ?_) _
  rw [← (link_congr hsame srcProject tgtProject).2.2.2, matchTypedRoute, typedLink]
  split
  · rfl
  · cases st'.src.nodes.find? (·.id = e.targetId) with
    | none => rfl
    | some route =>
        simp only
        rw [Option.map_map]
        refine congrArg (fun f => Option.map f _) (funext fun handler => ?_)
        exact emitCross_eq sql srcProject tgtProject st' _ _ _ _ _ _ _

theorem emits_append {ls ls' : List Link} {st' st'' : Stores}
    (h : st' = ls.foldl (Link.emit sql srcProject tgtProject) st)
    (h' : st'' = ls'.foldl (Link.emit sql srcProject tgtProject) st') :
    st'' = (ls ++ ls').foldl (Link.emit sql srcProject tgtProject) st ∧ st.Same st'' := by
  have heq : st'' = (ls ++ ls').foldl (Link.emit sql srcProject tgtProject) st := by
    rw [List.foldl_append, ← h, h']
  exact ⟨heq, heq ▸ same_emits sql srcProject tgtProject _ st⟩

theorem matchAll_fst (sql : SqlJson) (project tgt : CStr) (st : Stores) (r : CrossRepoResult) :
    (matchAll sql project tgt st r).1 =
      (links project tgt st).foldl (Link.emit sql project tgt) st := by
  have hhttp := matchHttpRoutes_fst sql project tgt st
  have h₁ := same_emits sql project tgt ((httpLinks project tgt st).take crMaxEdges) st
  rw [← hhttp] at h₁
  have hasync := matchAsyncRoutes_fst sql project tgt (matchHttpRoutes sql project tgt st).1
  rw [asyncLinks_congr h₁] at hasync
  obtain ⟨e₂, h₂⟩ := emits_append hhttp hasync
  have hchannel := matchChannels_fst sql project tgt
    (matchAsyncRoutes sql project tgt (matchHttpRoutes sql project tgt st).1).1
  rw [channelLinks_congr h₂] at hchannel
  obtain ⟨e₃, h₃⟩ := emits_append e₂ hchannel
  have hgrpc := matchTypedRoutes_fst sql project tgt
    (matchChannels sql project tgt
      (matchAsyncRoutes sql project tgt (matchHttpRoutes sql project tgt st).1).1).1
    (bytesOf "GRPC_CALLS") (bytesOf "service") (bytesOf "method") .grpc
  rw [typedLinks_congr h₃ project tgt _ _ _ (by decide)] at hgrpc
  obtain ⟨e₄, h₄⟩ := emits_append e₃ hgrpc
  have hgraphql := matchTypedRoutes_fst sql project tgt
    (matchTypedRoutes sql project tgt (bytesOf "GRPC_CALLS") (bytesOf "service") (bytesOf "method")
      .grpc (matchChannels sql project tgt
        (matchAsyncRoutes sql project tgt (matchHttpRoutes sql project tgt st).1).1).1).1
    (bytesOf "GRAPHQL_CALLS") (bytesOf "operation") (bytesOf "operation") .graphql
  rw [typedLinks_congr h₄ project tgt _ _ _ (by decide)] at hgraphql
  obtain ⟨e₅, h₅⟩ := emits_append e₄ hgraphql
  have htrpc := matchTypedRoutes_fst sql project tgt
    (matchTypedRoutes sql project tgt (bytesOf "GRAPHQL_CALLS") (bytesOf "operation")
      (bytesOf "operation") .graphql
      (matchTypedRoutes sql project tgt (bytesOf "GRPC_CALLS") (bytesOf "service")
        (bytesOf "method") .grpc (matchChannels sql project tgt
          (matchAsyncRoutes sql project tgt (matchHttpRoutes sql project tgt st).1).1).1).1).1
    (bytesOf "TRPC_CALLS") (bytesOf "procedure") (bytesOf "procedure") .trpc
  rw [typedLinks_congr h₅ project tgt _ _ _ (by decide)] at htrpc
  obtain ⟨e₆, -⟩ := emits_append e₅ htrpc
  rw [links, ← e₆, matchAll]

end Matchers

def linksTo (cache : Cache) (project tgt : CStr) : List Link :=
  if tgt = project then []
  else
    match cache project, cache tgt with
    | some src, some store => links project tgt { src := src, tgt := store }
    | _, _ => []

/-- The edges that a target's links put into the database of the run. -/
def forwards (cache : Cache) (project tgt : CStr) : List Write :=
  (linksTo cache project tgt).map Link.fwd

/-- The edges that the links to `tgt` put into the database of `name`. -/
def reverses (cache : Cache) (project name tgt : CStr) : List Write :=
  if tgt = name then (linksTo cache project tgt).flatMap (·.rev.toList) else []

/-- In the middle of a run the matchers read the same as at its start. -/
structure Scan.Same (cache : Cache) (project : CStr) (scan : Scan) : Prop where
  src : ∃ s, cache project = some s ∧ SameReads s scan.src
  targets : ∀ tgt, tgt ≠ project →
    Option.Rel SameReads (cache tgt) (scan.cache tgt)

section Runs

variable (sql : SqlJson) {cache : Cache} {project : CStr}

theorem mem_linksTo {src : Store} {tgt : CStr} {l : Link} (hsrc : cache project = some src) :
    l ∈ linksTo cache project tgt ↔ tgt ≠ project ∧ ∃ s, cache tgt = some s ∧
      l ∈ links project tgt { src := src, tgt := s } := by
  rw [linksTo, hsrc]
  by_cases hself : tgt = project
  · simp [hself]
  · cases hs : cache tgt <;> simp [hself]

theorem foldl_emit (project tgt : CStr) (ls : List Link) : ∀ st : Stores,
    ls.foldl (Link.emit sql project tgt) st =
      { src := (ls.map Link.fwd).foldl (Write.insert sql project) st.src
        tgt := (ls.flatMap (·.rev.toList)).foldl (Write.insert sql tgt) st.tgt } := by
  induction ls with
  | nil => exact fun st => rfl
  | cons l ls ih =>
      intro st
      rw [List.foldl_cons, ih, List.map_cons, List.foldl_cons, List.flatMap_cons,
        List.foldl_append]
      rfl

theorem linksTo_self : linksTo cache project project = [] :=
  if_pos rfl

theorem reverses_of_ne {name tgt : CStr} (h : tgt ≠ name) :
    reverses cache project name tgt = [] :=
  if_neg h

theorem reverses_self (name : CStr) :
    reverses cache project name name = (linksTo cache project name).flatMap (·.rev.toList) :=
  if_pos rfl

theorem matchTarget_of_skipped {scan : Scan} {tgt : CStr}
    (hskip : matchTarget sql project scan tgt = scan) (hno : linksTo cache project tgt = []) :
    (matchTarget sql project scan tgt).src =
        (forwards cache project tgt).foldl (Write.insert sql project) scan.src ∧
      ∀ name, name ≠ project → (matchTarget sql project scan tgt).cache name =
        (scan.cache name).map
          ((reverses cache project name tgt).foldl (Write.insert sql name)) := by
  have hrev : ∀ name, reverses cache project name tgt = [] := by
    intro name
    rw [reverses, hno]
    exact ite_self _
  refine ⟨by rw [hskip, forwards, hno]; rfl, fun name _ => ?_⟩
  rw [hskip, hrev]
  exact Option.map_id.symm ▸ rfl

theorem matchTarget_spec {scan : Scan} (h : scan.Same cache project) (tgt : CStr) :
    (matchTarget sql project scan tgt).src =
        (forwards cache project tgt).foldl (Write.insert sql project) scan.src ∧
      ∀ name, name ≠ project → (matchTarget sql project scan tgt).cache name =
        (scan.cache name).map
          ((reverses cache project name tgt).foldl (Write.insert sql name)) := by
  by_cases hself : tgt = project
  · subst hself
    exact matchTarget_of_skipped sql (if_pos rfl) linksTo_self
  obtain ⟨src, hsrc, hsame⟩ := h.src
  have htgt := h.targets tgt hself
  cases hcache : cache tgt with
  | none =>
      rw [hcache] at htgt
      have hscan : scan.cache tgt = none := by
        cases hs : scan.cache tgt with
        | none => rfl
        | some s => rw [hs] at htgt; cases htgt
      refine matchTarget_of_skipped sql ?_ ?_
      · rw [matchTarget, if_neg hself, hscan]
      · rw [linksTo, if_neg hself, hsrc, hcache]
  | some s =>
      rw [hcache] at htgt
      obtain ⟨s', hscan, hreads⟩ : ∃ s', scan.cache tgt = some s' ∧ SameReads s s' := by
        cases hs : scan.cache tgt with
        | none => rw [hs] at htgt; cases htgt
        | some s' =>
            rw [hs] at htgt
            cases htgt with
            | some hr => exact ⟨s', rfl, hr⟩
      have hlinks : linksTo cache project tgt =
          links project tgt { src := scan.src, tgt := s' } := by
        rw [linksTo, if_neg hself, hsrc, hcache]
        have hstores : Stores.Same ⟨src, s⟩ ⟨scan.src, s'⟩ := ⟨hsame, hreads⟩
        exact (links_congr hstores project tgt).symm
      rw [matchTarget, if_neg hself, hscan]
      simp only [matchAll_fst, foldl_emit, ← hlinks]
      refine ⟨rfl, fun name hname => ?_⟩
      by_cases hn : name = tgt
      · rw [hn, Function.update_self, hscan, reverses_self, Option.map_some]
      · rw [Function.update_of_ne hn, reverses_of_ne (Ne.symm hn)]
        exact Option.map_id.symm ▸ rfl

theorem rel_map {x y : Option Store} {f : Store → Store}
    (hf : ∀ s s', SameReads s s' → SameReads s (f s')) (h : Option.Rel SameReads x y) :
    Option.Rel SameReads x (y.map f) := by
  cases h with
  | none => exact Option.Rel.none
  | some hr => exact Option.Rel.some (hf _ _ hr)

theorem Scan.Same.matchTarget {scan : Scan} (h : scan.Same cache project) (tgt : CStr) :
    (matchTarget sql project scan tgt).Same cache project := by
  obtain ⟨hsrc, hcache⟩ := matchTarget_spec sql h tgt
  obtain ⟨src, hs, hsame⟩ := h.src
  refine ⟨⟨src, hs, hsrc ▸ hsame.trans (sameReads_inserts sql project _ _)⟩, fun name hname => ?_⟩
  rw [hcache name hname]
  exact rel_map (fun _ _ hr => hr.trans (sameReads_inserts sql name _ _)) (h.targets name hname)

theorem foldl_matchTarget (ts : List CStr) : ∀ scan : Scan, scan.Same cache project →
    (ts.foldl (matchTarget sql project) scan).src =
        (ts.flatMap (forwards cache project)).foldl (Write.insert sql project) scan.src ∧
      ∀ name, name ≠ project → (ts.foldl (matchTarget sql project) scan).cache name =
        (scan.cache name).map
          ((ts.flatMap (reverses cache project name)).foldl (Write.insert sql name)) := by
  induction ts with
  | nil => exact fun scan _ => ⟨rfl, fun name _ => Option.map_id.symm ▸ rfl⟩
  | cons tgt ts ih =>
      intro scan hsame
      obtain ⟨hsrc, hcache⟩ := matchTarget_spec sql hsame tgt
      obtain ⟨hsrc', hcache'⟩ := ih _ (hsame.matchTarget sql tgt)
      rw [List.foldl_cons]
      refine ⟨?_, fun name hname => ?_⟩
      · rw [hsrc', hsrc, List.flatMap_cons, List.foldl_append]
      · rw [hcache' name hname, hcache name hname, Option.map_map, List.flatMap_cons]
        refine congrArg (fun f => Option.map f _) (funext fun s => ?_)
        rw [Function.comp_apply, List.foldl_append]

theorem run_eq {src : Store} (entries targetProjects : List CStr) (hdb : Database project src)
    (hsrc : cache project = some src) :
    (cbmCrossRepoMatch sql entries cache project targetProjects).1 project =
        some (((resolveTargets entries targetProjects).flatMap (forwards cache project)).foldl
          (Write.insert sql project) (deleteCrossEdges src project)) ∧
      ∀ name, name ≠ project →
        (cbmCrossRepoMatch sql entries cache project targetProjects).1 name =
          (cache name).map (((resolveTargets entries targetProjects).flatMap
            (reverses cache project name)).foldl (Write.insert sql name)) := by
  have hstart : Scan.Same cache project
      { src := deleteCrossEdges src project, cache := cache, result := ⟨0, 0, 0, 0, 0, 0, 0⟩ } := by
    refine ⟨⟨src, hsrc, sameReads_delete hdb⟩, fun tgt _ => ?_⟩
    change Option.Rel SameReads (cache tgt) (cache tgt)
    cases cache tgt with
    | none => exact Option.Rel.none
    | some s => exact Option.Rel.some (SameReads.refl s)
  obtain ⟨hfinal, hcache⟩ :=
    foldl_matchTarget sql (resolveTargets entries targetProjects) _ hstart
  unfold cbmCrossRepoMatch
  simp only [hsrc]
  refine ⟨?_, fun name hname => ?_⟩
  · rw [Function.update_self, hfinal]
  · rw [Function.update_of_ne hname, hcache name hname]

end Runs

end CrossRepo
end CodebaseMemory
