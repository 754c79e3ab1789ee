import CodebaseMemory.Cypher.Eval
import CodebaseMemory.GraphBuffer.Store

/-!
# Links between projects

`src/pipeline/pass_cross_repo.c`: a run for one project looks for the handlers of its calls in the
databases of other projects, and writes an edge of a `CROSS_*` type for each into
its own database and, for most types, one into the other project's.

A database is the store of its tables.  A file that does not exist is an empty store, because
opening creates it; `none` is a file that cannot be opened.  A `SELECT` finds rows in the order of
their ids.  No loop reads rows of the types that it writes, so that its rows
can be taken from the store before the loop.
-/

namespace CodebaseMemory
namespace CrossRepo

open Sqlite (CStr bytesOf)
open GraphBuffer

/-- What `snprintf` leaves of a text in a buffer of `size` bytes. -/
def cut (size : Nat) (s : CStr) : CStr :=
  s.take (size - 1)

/-- `json_str_prop`: the text in the buffer, which is empty at first. -/
def jsonStrProp (json key : CStr) (bufsz : Nat) : CStr :=
  match Cypher.afterFirst (cut 128 (34 :: key ++ [34, 58, 34])) json with
  | none => []
  | some start => if 34 ∈ start then cut bufsz (start.takeWhile (· ≠ 34)) else []

def crPropsBuf : Nat := 2048

def crMaxEdges : Nat := 4096

/-- `build_cross_props`.  Where the text before the closing brace does not fit, the last call of
`snprintf` writes outside of the buffer: `none`. -/
def buildCrossProps (targetProject targetFunction targetFile urlOrChannel extraKey extraVal : CStr) :
    Option CStr :=
  let body := bytesOf "\x7b\"target_project\":\"" ++ targetProject ++
    bytesOf "\",\"target_function\":\"" ++ targetFunction ++
    bytesOf "\",\"target_file\":\"" ++ targetFile ++ bytesOf "\"" ++
    (if urlOrChannel ≠ [] then
      bytesOf ",\"" ++ extraKey ++ bytesOf "\":\"" ++ urlOrChannel ++ bytesOf "\"" else []) ++
    (if extraVal ≠ [] then bytesOf ",\"transport\":\"" ++ extraVal ++ bytesOf "\"" else [])
  if body.length ≤ crPropsBuf then some (cut crPropsBuf (body ++ bytesOf "\x7d")) else none

/-- The types of the edges that a run writes. -/
inductive CrossType where
  | http
  | async
  | channel
  | grpc
  | graphql
  | trpc
  deriving DecidableEq

def CrossType.name : CrossType → CStr
  | .http => bytesOf "CROSS_HTTP_CALLS"
  | .async => bytesOf "CROSS_ASYNC_CALLS"
  | .channel => bytesOf "CROSS_CHANNEL"
  | .grpc => bytesOf "CROSS_GRPC_CALLS"
  | .graphql => bytesOf "CROSS_GRAPHQL_CALLS"
  | .trpc => bytesOf "CROSS_TRPC_CALLS"

def crossTypes : List CrossType :=
  [.http, .async, .channel, .grpc, .graphql, .trpc]

def deleteCrossEdges (store : Store) (project : CStr) : Store :=
  crossTypes.foldl (fun s t => storeDeleteEdgesByType s project t.name) store

/-- `insert_cross_edge`.  Properties that were not built are not inserted. -/
def insertCrossEdge (sql : SqlJson) (store : Store) (project : CStr) (fromId toId : Int)
    (edgeType : CrossType) (props : Option CStr) : Store :=
  match props with
  | none => store
  | some text =>
      (storeInsertEdge sql store
        { project := some project
          sourceId := fromId
          targetId := toId
          type := some edgeType.name
          propertiesJson := some text }).1

/-- `lookup_node_info`: the name and the file. -/
def lookupNodeInfo (db : Store) (nodeId : Int) : CStr × CStr :=
  match db.nodes.find? (·.id = nodeId) with
  | some n => (cut 256 n.name, cut 512 n.filePath)
  | none => ([], [])

structure Handler where
  id : Int
  name : CStr
  file : CStr

def edgeSource (db : Store) (targetId : Int) (type : CStr) : Option NodeRow :=
  db.edges.findSome? fun e =>
    if e.targetId = targetId ∧ e.type = type then db.nodes.find? (·.id = e.sourceId) else none

def findRouteHandler (target : Store) (routeQn : CStr) : Option Handler :=
  match target.nodes.find? fun n => n.qualifiedName = routeQn && n.label = bytesOf "Route" with
  | none => none
  | some route =>
      if route.id = 0 then none
      else
        match edgeSource target route.id (bytesOf "HANDLES") with
        | none => none
        | some n =>
            if n.id = 0 then none
            else some { id := n.id, name := cut 256 n.name, file := cut 512 n.filePath }

/-- The two databases that are open. -/
structure Stores where
  src : Store
  tgt : Store

def emitCrossRouteBidirectional (sql : SqlJson) (srcProject tgtProject : CStr) (st : Stores)
    (callerId localRouteId : Int) (handler : Handler) (routeQn urlPath method : CStr)
    (edgeType : CrossType) : Stores :=
  let fwd := buildCrossProps tgtProject handler.name handler.file urlPath (bytesOf "url_path") method
  let src := insertCrossEdge sql st.src srcProject callerId localRouteId edgeType fwd
  match st.tgt.nodes.find? (·.qualifiedName = routeQn) with
  | none => { st with src := src }
  | some route =>
      if route.id = 0 then { st with src := src }
      else
        let caller := lookupNodeInfo src callerId
        let rev := buildCrossProps srcProject caller.1 caller.2 urlPath (bytesOf "url_path") method
        { src := src
          tgt := insertCrossEdge sql st.tgt tgtProject handler.id route.id edgeType rev }

/-- One round of the loops of the matchers: `step` is `none` where the row has no match. -/
def matchRow {ρ : Type} (step : Stores → ρ → Option Stores) (acc : Stores × Nat) (row : ρ) :
    Stores × Nat :=
  if acc.2 < crMaxEdges then
    match step acc.1 row with
    | some next => (next, acc.2 + 1)
    | none => acc
  else acc

def matchRows {ρ : Type} (step : Stores → ρ → Option Stores) (rows : List ρ) (st : Stores) :
    Stores × Nat :=
  rows.foldl (matchRow step) (st, 0)

def edgesOfType (db : Store) (project type : CStr) : List EdgeRow :=
  db.edges.filter fun e => e.project = project && e.type = type

/-- `__route__<method>__<path>` in a buffer of `CR_QN_BUF` bytes. -/
def routeQnOf (method urlPath : CStr) : CStr :=
  cut 512 (bytesOf "__route__" ++ method ++ bytesOf "__" ++ urlPath)

/-- The route of a call and its handler: with the method, or else with any. -/
def httpHandler (target : Store) (method urlPath : CStr) : Option (CStr × Handler) :=
  let routeQn := routeQnOf (if method ≠ [] then method else bytesOf "ANY") urlPath
  match findRouteHandler target routeQn with
  | some handler => some (routeQn, handler)
  | none =>
      let anyQn := routeQnOf (bytesOf "ANY") urlPath
      (findRouteHandler target anyQn).map fun handler => (anyQn, handler)

/-- One round of `match_http_routes`. -/
def matchHttpRoute (sql : SqlJson) (srcProject tgtProject : CStr) (st : Stores) (e : EdgeRow) :
    Option Stores :=
  let urlPath := jsonStrProp e.properties (bytesOf "url_path") 256
  let method := jsonStrProp e.properties (bytesOf "method") 32
  if urlPath = [] then none
  else
    (httpHandler st.tgt method urlPath).map fun found =>
      emitCrossRouteBidirectional sql srcProject tgtProject st e.sourceId e.targetId found.2 found.1
        urlPath method .http

def matchHttpRoutes (sql : SqlJson) (srcProject tgtProject : CStr) (st : Stores) : Stores × Nat :=
  matchRows (matchHttpRoute sql srcProject tgtProject)
    (edgesOfType st.src srcProject (bytesOf "HTTP_CALLS")) st

/-- One round of `match_async_routes`; nothing is written into the other database. -/
def matchAsyncRoute (sql : SqlJson) (srcProject tgtProject : CStr) (st : Stores) (e : EdgeRow) :
    Option Stores :=
  let urlPath := jsonStrProp e.properties (bytesOf "url_path") 256
  let broker := jsonStrProp e.properties (bytesOf "broker") 128
  if urlPath = [] then none
  else
    (findRouteHandler st.tgt (routeQnOf (if broker ≠ [] then broker else bytesOf "async")
        urlPath)).map fun handler =>
      { st with
        src := insertCrossEdge sql st.src srcProject e.sourceId e.targetId .async
          (buildCrossProps tgtProject handler.name handler.file urlPath (bytesOf "url_path")
            broker) }

def matchAsyncRoutes (sql : SqlJson) (srcProject tgtProject : CStr) (st : Stores) : Stores × Nat :=
  matchRows (matchAsyncRoute sql srcProject tgtProject)
    (edgesOfType st.src srcProject (bytesOf "ASYNC_CALLS")) st

/-- The channel of a name in the other database, and who listens on it. -/
def channelListener (target : Store) (tgtProject channelName : CStr) : Option (Int × NodeRow) :=
  target.nodes.findSome? fun n =>
    if n.project = tgtProject ∧ n.name = channelName ∧ n.label = bytesOf "Channel" then
      (edgeSource target n.id (bytesOf "LISTENS_ON")).map fun fn => (n.id, fn)
    else none

def tryMatchChannelListener (sql : SqlJson) (srcProject tgtProject : CStr) (st : Stores)
    (channelName transport : CStr) (emitterId channelId : Int) : Option Stores :=
  (channelListener st.tgt tgtProject channelName).map fun found =>
    let fwd := buildCrossProps tgtProject found.2.name found.2.filePath channelName
      (bytesOf "channel_name") transport
    let src := insertCrossEdge sql st.src srcProject emitterId channelId .channel fwd
    let caller := lookupNodeInfo src emitterId
    let rev := buildCrossProps srcProject caller.1 caller.2 channelName (bytesOf "channel_name")
      transport
    { src := src
      tgt := insertCrossEdge sql st.tgt tgtProject found.2.id found.1 .channel rev }

deriving instance DecidableEq for NodeRow

def channelRows (db : Store) (project : CStr) : List (NodeRow × Int) :=
  (db.nodes.flatMap fun n =>
    if n.project = project ∧ n.label = bytesOf "Channel" then
      (db.edges.filter fun e => e.targetId = n.id && e.type = bytesOf "EMITS").map fun e =>
        (n, e.sourceId)
    else []).eraseDups

def matchChannels (sql : SqlJson) (srcProject tgtProject : CStr) (st : Stores) : Stores × Nat :=
  matchRows
    (fun st row => tryMatchChannelListener sql srcProject tgtProject st row.1.name
      (jsonStrProp row.1.properties (bytesOf "transport") 64) row.2 row.1.id)
    (channelRows st.src srcProject) st

/-- One round of `match_typed_routes`. -/
def matchTypedRoute (sql : SqlJson) (srcProject tgtProject svcKey methodKey : CStr)
    (crossEdgeType : CrossType) (st : Stores) (e : EdgeRow) : Option Stores :=
  let svcVal := jsonStrProp e.properties svcKey 256
  let methVal := jsonStrProp e.properties methodKey 256
  if svcVal = [] ∧ methVal = [] then none
  else
    match st.src.nodes.find? (·.id = e.targetId) with
    | none => none
    | some route =>
        let routeQn := cut 512 route.qualifiedName
        (findRouteHandler st.tgt routeQn).map fun handler =>
          emitCrossRouteBidirectional sql srcProject tgtProject st e.sourceId e.targetId handler
            routeQn svcVal svcKey crossEdgeType

def matchTypedRoutes (sql : SqlJson) (srcProject tgtProject edgeType svcKey methodKey : CStr)
    (crossEdgeType : CrossType) (st : Stores) : Stores × Nat :=
  matchRows (matchTypedRoute sql srcProject tgtProject svcKey methodKey crossEdgeType)
    (edgesOfType st.src srcProject edgeType) st

/-- `strstr` finds the text. -/
def hasText (pattern s : CStr) : Bool :=
  (Cypher.afterFirst pattern s).isSome

/-- The project of a file in the cache directory. -/
def projectOfEntry (name : CStr) : Option CStr :=
  if name.length < 4 ∨ name.drop (name.length - 3) ≠ bytesOf ".db" then none
  else if hasText (bytesOf "_cross_repo") name ∨ hasText (bytesOf "_config") name then none
  else if hasText (bytesOf "-wal") name ∨ hasText (bytesOf "-shm") name then none
  else some (name.take (name.length - 3))

/-- `collect_all_projects`: `entries` are the names that `cbm_readdir` finds. -/
def collectAllProjects (entries : List CStr) : List CStr :=
  entries.filterMap projectOfEntry

/-- The databases of the cache directory, by project. -/
abbrev Cache : Type := CStr → Option Store

/-- `cbm_cross_repo_result_t` -/
structure CrossRepoResult where
  httpEdges : Nat
  asyncEdges : Nat
  channelEdges : Nat
  grpcEdges : Nat
  graphqlEdges : Nat
  trpcEdges : Nat
  projectsScanned : Nat

/-- The state of the loop over the targets. -/
structure Scan where
  src : Store
  cache : Cache
  result : CrossRepoResult

/-- All matchers on one pair of databases. -/
def matchAll (sql : SqlJson) (project tgt : CStr) (st : Stores) (r : CrossRepoResult) :
    Stores × CrossRepoResult :=
  let http := matchHttpRoutes sql project tgt st
  let async := matchAsyncRoutes sql project tgt http.1
  let channel := matchChannels sql project tgt async.1
  let grpc := matchTypedRoutes sql project tgt (bytesOf "GRPC_CALLS") (bytesOf "service")
    (bytesOf "method") .grpc channel.1
  let graphql := matchTypedRoutes sql project tgt (bytesOf "GRAPHQL_CALLS") (bytesOf "operation")
    (bytesOf "operation") .graphql grpc.1
  let trpc := matchTypedRoutes sql project tgt (bytesOf "TRPC_CALLS") (bytesOf "procedure")
    (bytesOf "procedure") .trpc graphql.1
  (trpc.1,
    { httpEdges := r.httpEdges + http.2
      asyncEdges := r.asyncEdges + async.2
      channelEdges := r.channelEdges + channel.2
      grpcEdges := r.grpcEdges + grpc.2
      graphqlEdges := r.graphqlEdges + graphql.2
      trpcEdges := r.trpcEdges + trpc.2
      projectsScanned := r.projectsScanned + 1 })

/-- One round of the loop over the targets. -/
def matchTarget (sql : SqlJson) (project : CStr) (scan : Scan) (tgt : CStr) : Scan :=
  if tgt = project then scan
  else
    match scan.cache tgt with
    | none => scan
    | some store =>
        let done := matchAll sql project tgt { src := scan.src, tgt := store } scan.result
        { src := done.1.src
          cache := Function.update scan.cache tgt (some done.1.tgt)
          result := done.2 }

def resolveTargets (entries targetProjects : List CStr) : List CStr :=
  if targetProjects = [bytesOf "*"] then collectAllProjects entries else targetProjects

def cbmCrossRepoMatch (sql : SqlJson) (entries : List CStr) (cache : Cache) (project : CStr)
    (targetProjects : List CStr) : Cache × CrossRepoResult :=
  match cache project with
  | none => (cache, ⟨0, 0, 0, 0, 0, 0, 0⟩)
  | some store =>
      let scan := (resolveTargets entries targetProjects).foldl (matchTarget sql project)
        { src := deleteCrossEdges store project, cache := cache, result := ⟨0, 0, 0, 0, 0, 0, 0⟩ }
      (Function.update scan.cache project (some scan.src), scan.result)

end CrossRepo
end CodebaseMemory
