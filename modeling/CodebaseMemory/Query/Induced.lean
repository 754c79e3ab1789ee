import CodebaseMemory.Query.Traverse

/-!
# The edges among the visited nodes (`src/store/store.c`)

`bfs_collect_edges` prints the ids of the start and of the visited nodes into a
buffer of 4096 bytes, puts that text twice into a statement of at most 8191 bytes
and runs it.  A text that ends early is no statement, and then the result is
empty; but a cut behind the second list leaves a statement without its filter of
types, and a cut behind `e.type` one that takes the type itself for a truth value.
-/

namespace CodebaseMemory
namespace Query

open Lib
open Cypher (Node Edge Store)
open Sqlite (CStr bytesOf)

/-- `id_set`: the start, then the visited nodes. -/
def idSet (startId : Int) (visited : List (Node × Nat)) : CStr :=
  visited.foldl (fun buf hop => snprintfAt 4096 buf (44 :: decimal hop.1.id))
    (snprintfAt 4096 [] (decimal startId))

def edgesHead : CStr :=
  bytesOf ("SELECT n1.name, n2.name, e.type FROM edges e JOIN nodes n1 ON n1.id = e.source_id " ++
    "JOIN nodes n2 ON n2.id = e.target_id WHERE e.source_id IN (")

def edgesMiddle : CStr :=
  bytesOf ") AND e.target_id IN ("

def edgesTypes : CStr :=
  bytesOf ") AND e.type IN ("

/-- `edge_sql`, a buffer of 8192 bytes. -/
def edgeSql (ids typesClause : CStr) : CStr :=
  (edgesHead ++ (ids ++ (edgesMiddle ++ (ids ++ (edgesTypes ++ (typesClause ++ [41])))))).take 8191

def behind (keyword text : CStr) : Option CStr :=
  if text.take keyword.length = keyword then some (text.drop keyword.length) else none

def upToParen {α : Type} (item : CStr → Option α) (text : CStr) : Option (List α × CStr) :=
  if (41 : UInt8) ∈ text then
    (readList item (text.takeWhile (· ≠ 41))).map fun xs => (xs, text.dropWhile (· ≠ 41))
  else none

/-- The last term of the WHERE clause, about `e.type`. -/
inductive TypeTerm where
  | oneOf (params : List Nat)
  | absent
  | itself
deriving DecidableEq

/-- The rest of the statement behind the second list. -/
def readTypeTerm (text : CStr) : Option TypeTerm :=
  if text = bytesOf ")" ∨ text = bytesOf ") " then some .absent
  else if text = bytesOf ") AND e.type" ∨ text = bytesOf ") AND e.type " then some .itself
  else match (behind edgesTypes text).bind (upToParen readParam) with
    | some (params, [41]) => some (.oneOf params)
    | _ => none

/-- `sqlite3_prepare_v2`, on a text that starts like the statement. -/
def prepareEdges (sql : CStr) : Option (List Int × List Int × TypeTerm) :=
  (behind edgesHead sql).bind fun text =>
    (upToParen readInt text).bind fun (sources, text) =>
      (behind edgesMiddle text).bind fun text =>
        (upToParen readInt text).bind fun (targets, text) =>
          (readTypeTerm text).map fun term => (sources, targets, term)

/-- `cbm_edge_info_t`. -/
structure EdgeInfo where
  fromName : Option CStr
  toName : Option CStr
  type : CStr
  confidence : Nat
deriving DecidableEq

section Collect

variable (truthy : CStr → Bool)
variable (s : Store)

/-- The term holds of a type; the parameters are bound to the types in turn, and a
text is true where the number it starts with is not zero. -/
def TypeTerm.holds (edgeTypes : List CStr) (type : CStr) : TypeTerm → Bool
  | .oneOf params => (params.filterMap fun k => (requestedTypes edgeTypes)[k - 1]?).contains type
  | .absent => true
  | .itself => truthy type

/-- A row of the result: the edge with the names of its nodes. -/
def edgeRow (e : Edge) : Option EdgeInfo :=
  (s.findNodeById e.sourceId).bind fun n1 =>
    (s.findNodeById e.targetId).map fun n2 => ⟨n1.name, n2.name, e.type, 1⟩

def bfsCollectEdges (startId : Int) (visited : List (Node × Nat)) (typesClause : CStr)
    (edgeTypes : List CStr) : List EdgeInfo :=
  match prepareEdges (edgeSql (idSet startId visited) typesClause) with
  | none => []
  | some (sources, targets, term) =>
      (s.edges.filter fun e => sources.contains e.sourceId && targets.contains e.targetId &&
        term.holds truthy edgeTypes e.type).filterMap (edgeRow s)

end Collect

/-- The ids that the statement is about. -/
def traversalIds (startId : Int) (visited : List (Node × Nat)) : List Int :=
  startId :: visited.map fun hop => hop.1.id

theorem join_cons_flatMap (part : CStr) (parts : List CStr) :
    join 44 (part :: parts) = part ++ (parts.map (44 :: ·)).flatten := by
  induction parts generalizing part with
  | nil =>
      rw [List.map_nil, List.flatten_nil, List.append_nil]
      exact List.intercalate_singleton
  | cons q qs ih =>
      have hrest := ih q
      simp only [join] at hrest ⊢
      rw [List.intercalate_cons_cons, hrest, List.map_cons, List.flatten_cons]
      simp only [List.append_assoc, List.cons_append, List.nil_append]

theorem idSet_eq (startId : Int) (visited : List (Node × Nat)) :
    idSet startId visited =
      (join 44 ((traversalIds startId visited).map decimal)).take 4095 := by
  have hpieces := foldl_snprintfAt 4096 (visited.map fun hop => 44 :: decimal hop.1.id)
    (decimal startId)
  rw [List.foldl_map] at hpieces
  rw [idSet, snprintfAt, List.nil_append, hpieces, traversalIds, List.map_cons, join_cons_flatMap,
    List.map_map, List.map_map]
  rfl

theorem readList_ids (startId : Int) (visited : List (Node × Nat)) :
    readList readInt (join 44 ((traversalIds startId visited).map decimal)) =
      some (traversalIds startId visited) :=
  readList_join (List.cons_ne_nil _ _) (fun i _ => readInt_decimal i)
    fun i _ => not_mem_decimal (by decide) (by decide) i

theorem not_mem_join {c : UInt8} (hc : c ≠ 44) {parts : List CStr}
    (hparts : ∀ part ∈ parts, c ∉ part) : c ∉ join 44 parts := by
  cases parts with
  | nil => exact List.not_mem_nil
  | cons part parts =>
      rw [join_cons_flatMap, List.mem_append, List.mem_flatten]
      rintro (h | ⟨piece, hpiece, h⟩)
      · exact hparts part List.mem_cons_self h
      · obtain ⟨q, hq, rfl⟩ := List.mem_map.mp hpiece
        rcases List.mem_cons.mp h with heq | hin
        · exact hc heq
        · exact hparts q (List.mem_cons_of_mem _ hq) hin

theorem not_mem_ids (startId : Int) (visited : List (Node × Nat)) :
    (41 : UInt8) ∉ join 44 ((traversalIds startId visited).map decimal) := by
  refine not_mem_join (by decide) fun part hpart => ?_
  obtain ⟨i, -, rfl⟩ := List.mem_map.mp hpart
  exact not_mem_decimal (by decide) (by decide) i

theorem not_mem_placeholders (n : Nat) : (41 : UInt8) ∉ placeholders n := by
  refine not_mem_join (by decide) fun part hpart => ?_
  obtain ⟨i, -, rfl⟩ := List.mem_map.mp hpart
  rw [List.mem_cons, not_or]
  exact ⟨by decide, not_mem_decimalNat (by decide) (i + 1)⟩

theorem length_edgesHead : edgesHead.length = 141 := by
  decide +kernel

theorem length_edgesMiddle : edgesMiddle.length = 22 := by
  decide

theorem length_edgesTypes : edgesTypes.length = 17 := by
  decide

theorem behind_append (keyword text : CStr) : behind keyword (keyword ++ text) = some text := by
  rw [behind, List.take_left, if_pos rfl, List.drop_left]

section Reading

variable {α : Type}
variable {item : CStr → Option α}
variable {body : CStr}

theorem upToParen_of_not_mem (h : (41 : UInt8) ∉ body) : upToParen item body = none :=
  if_neg h

theorem upToParen_append (h : (41 : UInt8) ∉ body) (rest : CStr) :
    upToParen item (body ++ 41 :: rest) = (readList item body).map fun xs => (xs, 41 :: rest) := by
  have hkeep : ∀ b ∈ body, (decide (b ≠ 41)) = true := by
    intro b hb
    rw [decide_eq_true_iff]
    rintro rfl
    exact h hb
  have htake : (body ++ 41 :: rest).takeWhile (fun b => decide (b ≠ 41)) = body := by
    rw [List.takeWhile_append_of_pos hkeep, List.takeWhile_cons_of_neg (by decide), List.append_nil]
  have hdrop : (body ++ 41 :: rest).dropWhile (fun b => decide (b ≠ 41)) = 41 :: rest := by
    rw [List.dropWhile_append_of_pos hkeep, List.dropWhile_cons_of_neg (by decide)]
  rw [upToParen, if_pos (List.mem_append_right _ List.mem_cons_self), htake, hdrop]

/-- What a cut leaves of the last term, by the number of its bytes. -/
def cutTerm (k : Nat) : Option TypeTerm :=
  if k = 1 ∨ k = 2 then some .absent else if k = 12 ∨ k = 13 then some .itself else none

theorem readTypeTerm_edgesTypes (rest : CStr) :
    readTypeTerm (edgesTypes ++ rest) = match upToParen readParam rest with
      | some (params, [41]) => some (.oneOf params)
      | _ => none := by
  have hlong : ∀ text : CStr, text.length < 17 → edgesTypes ++ rest ≠ text := by
    rintro text hshort rfl
    rw [List.length_append, length_edgesTypes] at hshort
    omega
  rw [readTypeTerm, if_neg (not_or.mpr ⟨hlong _ (by decide), hlong _ (by decide)⟩),
    if_neg (not_or.mpr ⟨hlong _ (by decide), hlong _ (by decide)⟩), behind_append,
    Option.bind_some]

theorem readTypeTerm_whole (h : (41 : UInt8) ∉ body) {params : List Nat}
    (hparams : readList readParam body = some params) :
    readTypeTerm (edgesTypes ++ (body ++ [41])) = some (.oneOf params) := by
  rw [readTypeTerm_edgesTypes, upToParen_append h, hparams]
  rfl

theorem readTypeTerm_short :
    ∀ k ∈ List.range 17, readTypeTerm (edgesTypes.take k) = cutTerm k := by
  decide +kernel

theorem readTypeTerm_take (h : (41 : UInt8) ∉ body) {k : Nat} (hk : k < 18 + body.length) :
    readTypeTerm ((edgesTypes ++ (body ++ [41])).take k) = cutTerm k := by
  by_cases hshort : k < 17
  · rw [List.take_append_of_le_length (by rw [length_edgesTypes]; omega)]
    exact readTypeTerm_short k (List.mem_range.mpr hshort)
  · have htake : (edgesTypes ++ (body ++ [41])).take k = edgesTypes ++ body.take (k - 17) := by
      rw [List.take_append, length_edgesTypes,
        List.take_of_length_le (by rw [length_edgesTypes]; omega),
        List.take_append_of_le_length (by omega)]
    rw [htake, readTypeTerm_edgesTypes,
      upToParen_of_not_mem fun hin => h (List.mem_of_mem_take hin), cutTerm,
      if_neg (by omega), if_neg (by omega)]

theorem prepareEdges_append (h : (41 : UInt8) ∉ body) {ids : List Int}
    (hids : readList readInt body = some ids) (text : CStr)
    (htext : text = [] ∨ ∃ rest, text = 41 :: rest) :
    prepareEdges (edgesHead ++ (body ++ (edgesMiddle ++ (body ++ text)))) =
      (readTypeTerm text).map fun term => (ids, ids, term) := by
  have hmiddle : ∃ rest, edgesMiddle ++ (body ++ text) = 41 :: rest := ⟨_, rfl⟩
  obtain ⟨rest, hrest⟩ := hmiddle
  rw [prepareEdges, behind_append, Option.bind_some, hrest, upToParen_append h, hids,
    Option.map_some, Option.bind_some, ← hrest]
  simp only [behind_append, Option.bind_some]
  rcases htext with rfl | ⟨rest', rfl⟩
  · rw [List.append_nil, upToParen_of_not_mem h]
    rfl
  · rw [upToParen_append h, hids]
    rfl

theorem prepareEdges_short (h : (41 : UInt8) ∉ body) (k : Nat) :
    prepareEdges (edgesHead ++ (body ++ (edgesMiddle ++ body.take k))) = none := by
  have hmiddle : ∃ rest, edgesMiddle ++ body.take k = 41 :: rest := ⟨_, rfl⟩
  obtain ⟨rest, hrest⟩ := hmiddle
  rw [prepareEdges, behind_append, Option.bind_some, hrest, upToParen_append h, ← hrest]
  cases readList readInt body with
  | none => rfl
  | some ids =>
      rw [Option.map_some, Option.bind_some]
      simp only [behind_append, Option.bind_some]
      rw [upToParen_of_not_mem fun hin => h (List.mem_of_mem_take hin)]
      rfl

theorem take_edgesTypes (rest : CStr) (k : Nat) :
    (edgesTypes ++ rest).take k = [] ∨ ∃ text, (edgesTypes ++ rest).take k = 41 :: text := by
  cases k with
  | zero => exact Or.inl rfl
  | succ k => exact Or.inr ⟨_, rfl⟩

end Reading

theorem edgeSql_eq {ids clause : CStr} (hids : ids.length ≤ 4095) :
    edgeSql ids clause =
      if 163 + 2 * ids.length ≤ 8191 then
        edgesHead ++ (ids ++ (edgesMiddle ++ (ids ++
          (edgesTypes ++ (clause ++ [41])).take (8191 - (163 + 2 * ids.length)))))
      else edgesHead ++ (ids ++ (edgesMiddle ++ ids.take (8191 - (163 + ids.length)))) := by
  have hhead := length_edgesHead
  have hmiddle := length_edgesMiddle
  rw [edgeSql, List.take_append, List.take_of_length_le (by omega), List.take_append,
    List.take_of_length_le (by omega), List.take_append, List.take_of_length_le (by omega),
    List.take_append, hhead, hmiddle]
  split
  · next hfits =>
      have hroom : 8191 - 141 - ids.length - 22 - ids.length = 8191 - (163 + 2 * ids.length) := by
        omega
      rw [List.take_of_length_le (by omega), hroom]
  · next hlong =>
      have hnone : 8191 - 141 - ids.length - 22 - ids.length = 0 := by omega
      have hroom : 8191 - 141 - ids.length - 22 = 8191 - (163 + ids.length) := by omega
      rw [hnone, List.take_zero, List.append_nil, hroom]

theorem cutTerm_zero : cutTerm 0 = none := rfl

theorem prepareEdges_edgeSql (startId : Int) (visited : List (Node × Nat)) {n : Nat}
    (hn : 0 < n) :
    prepareEdges (edgeSql (idSet startId visited) (placeholders n)) =
      (if 2 * (join 44 ((traversalIds startId visited).map decimal)).length +
          (placeholders n).length ≤ 8010 then
        some (.oneOf ((List.range n).map (· + 1)))
      else cutTerm (8191 - (163 + 2 * (join 44 ((traversalIds startId visited).map decimal)).length))
      ).map fun term => (traversalIds startId visited, traversalIds startId visited, term) := by
  have hread := readList_ids startId visited
  have hparen := not_mem_ids startId visited
  rw [idSet_eq]
  revert hread hparen
  generalize join 44 ((traversalIds startId visited).map decimal) = body
  generalize traversalIds startId visited = ids
  intro hread hparen
  have hclause := not_mem_placeholders n
  by_cases hshort : body.length ≤ 4014
  · rw [List.take_of_length_le (by omega), edgeSql_eq (by omega), if_pos (by omega),
      prepareEdges_append hparen hread _ (take_edgesTypes _ _)]
    split
    · next hfits =>
        have hwhole : (edgesTypes ++ (placeholders n ++ [41])).length ≤
            8191 - (163 + 2 * body.length) := by
          rw [List.length_append, List.length_append, length_edgesTypes, List.length_singleton]
          omega
        rw [List.take_of_length_le hwhole, readTypeTerm_whole hclause (readList_placeholders hn)]
    · rw [readTypeTerm_take hclause (by omega)]
  · have hcut : 8191 - (163 + 2 * body.length) = 0 := by omega
    have hmin : (body.take 4095).length = min 4095 body.length := List.length_take
    rw [edgeSql_eq (by omega), if_neg (by omega), if_neg (by omega), hcut, cutTerm_zero,
      prepareEdges_short fun hin => hparen (List.mem_of_mem_take hin)]
    rfl

section Spec

variable (truthy : CStr → Bool)
variable (s : Store)

/-- The edges of these types with both ends among the start and the visited nodes. -/
def inducedEdges (startId : Int) (visited : List (Node × Nat)) (types : List CStr) : List Edge :=
  s.edges.filter fun e => e.sourceId ∈ traversalIds startId visited ∧
    e.targetId ∈ traversalIds startId visited ∧ e.type ∈ types

def edgeInfo (e : Edge) : EdgeInfo where
  fromName := (s.findNodeById e.sourceId).bind Node.name
  toName := (s.findNodeById e.targetId).bind Node.name
  type := e.type
  confidence := 1

/-- The result has one entry for each induced edge, and no others. -/
def CollectsInduced (startId : Int) (visited : List (Node × Nat)) (edgeTypes : List CStr) : Prop :=
  (bfsCollectEdges truthy s startId visited (bfsBuildTypesClause edgeTypes.length 512)
    edgeTypes).Perm
    ((inducedEdges s startId visited (requestedTypes edgeTypes)).map (edgeInfo s))

def idsLength (startId : Int) (visited : List (Node × Nat)) : Nat :=
  (join 44 ((traversalIds startId visited).map decimal)).length

/-- The types that the statement leaves in the result, by the length of the list of
ids: those of the first 124 when the statement fits; where its cut falls behind the
second list, all; where it falls behind `e.type`, those that are true; else none. -/
def typeLeft (edgeTypes : List CStr) (size : Nat) (type : CStr) : Bool :=
  if 2 * size + (placeholders (min (requestedTypes edgeTypes).length 124)).length ≤ 8010 then
    ((requestedTypes edgeTypes).take 124).contains type
  else if size = 4013 then true
  else if size = 4008 then truthy type
  else false

end Spec

section Collects

variable {truthy : CStr → Bool}
variable {s : Store}

theorem perm_filter_iff {α : Type} {xs : List α} {p q : α → Bool} :
    (xs.filter p).Perm (xs.filter q) ↔ ∀ x ∈ xs, p x = q x := by
  constructor
  · intro hperm x hx
    have hmem := hperm.mem_iff (a := x)
    rw [List.mem_filter, List.mem_filter] at hmem
    rw [Bool.eq_iff_iff]
    exact ⟨fun hp => (hmem.mp ⟨hx, hp⟩).2, fun hq => (hmem.mpr ⟨hx, hq⟩).2⟩
  · intro hsame
    rw [List.filter_congr hsame]

theorem bfsBuildTypesClause_requested (edgeTypes : List CStr) :
    bfsBuildTypesClause edgeTypes.length 512 =
      placeholders (min (requestedTypes edgeTypes).length 124) := by
  cases edgeTypes with
  | nil => rfl
  | cons type types => exact clause_room (Nat.succ_pos _)

theorem requestedTypes_pos (edgeTypes : List CStr) : 0 < (requestedTypes edgeTypes).length := by
  rw [requestedTypes]
  split
  · decide
  · next hne => exact List.length_pos_iff.mpr hne

/-- The edges whose ends are both in the set. -/
def insideEdges (s : Store) (startId : Int) (visited : List (Node × Nat)) : List Edge :=
  s.edges.filter fun e => (traversalIds startId visited).contains e.sourceId &&
    (traversalIds startId visited).contains e.targetId

theorem bfsCollectEdges_of_term {startId : Int} {visited : List (Node × Nat)}
    {clause : CStr} {edgeTypes : List CStr} {term : Option TypeTerm}
    (hread : prepareEdges (edgeSql (idSet startId visited) clause) =
      term.map fun t => (traversalIds startId visited, traversalIds startId visited, t)) :
    bfsCollectEdges truthy s startId visited clause edgeTypes =
      ((insideEdges s startId visited).filter fun e =>
        term.any fun t => t.holds truthy edgeTypes e.type).filterMap (edgeRow s) := by
  unfold bfsCollectEdges
  rw [hread]
  cases term with
  | none =>
      have hnone : ∀ e ∈ insideEdges s startId visited,
          ¬ ((none : Option TypeTerm).any fun t => t.holds truthy edgeTypes e.type) = true :=
        fun e _ => Bool.false_ne_true
      rw [List.filter_eq_nil_iff.mpr hnone]
      rfl
  | some t =>
      rw [insideEdges, List.filter_filter]
      exact congrArg (List.filterMap (edgeRow s))
        (List.filter_congr fun e _ => Bool.and_comm _ _)

theorem any_holds {edgeTypes : List CStr} {size room : Nat} (type : CStr)
    (hroom : room = 8191 - (163 + 2 * size)) :
    ((if 2 * size + (placeholders (min (requestedTypes edgeTypes).length 124)).length ≤ 8010 then
        some (.oneOf ((List.range (min (requestedTypes edgeTypes).length 124)).map (· + 1)))
      else cutTerm room).any fun t => t.holds truthy edgeTypes type) =
      typeLeft truthy edgeTypes size type := by
  rw [typeLeft]
  split
  · rw [Option.any_some, TypeTerm.holds, filterMap_params]
  · rw [cutTerm]
    by_cases hall : size = 4013
    · rw [if_pos (by omega), if_pos hall]
      rfl
    · by_cases hitself : size = 4008
      · rw [if_neg (by omega), if_pos (by omega), if_neg hall, if_pos hitself]
        rfl
      · rw [if_neg (by omega), if_neg (by omega), if_neg hall, if_neg hitself]
        rfl

theorem bfsCollectEdges_eq (startId : Int) (visited : List (Node × Nat)) (edgeTypes : List CStr) :
    bfsCollectEdges truthy s startId visited (bfsBuildTypesClause edgeTypes.length 512) edgeTypes =
      ((insideEdges s startId visited).filter fun e =>
        typeLeft truthy edgeTypes (idsLength startId visited) e.type).filterMap (edgeRow s) := by
  have hpos : 0 < min (requestedTypes edgeTypes).length 124 :=
    lt_min (requestedTypes_pos edgeTypes) (by omega)
  have hread := prepareEdges_edgeSql startId visited hpos
  rw [← bfsBuildTypesClause_requested] at hread
  refine (bfsCollectEdges_of_term hread).trans
    (congrArg (List.filterMap (edgeRow s)) (List.filter_congr fun e _ => ?_))
  rw [bfsBuildTypesClause_requested]
  exact any_holds e.type rfl

theorem edgeRow_eq {startId : Int} (hstart : ∃ n ∈ s.nodes, n.id = startId)
    {visited : List (Node × Nat)} (hvisited : ∀ hop ∈ visited, hop.1 ∈ s.nodes) {e : Edge}
    (he : e ∈ insideEdges s startId visited) : edgeRow s e = some (edgeInfo s e) := by
  have hfound : ∀ id, (traversalIds startId visited).contains id = true →
      ∃ n, s.findNodeById id = some n := by
    intro id hid
    rw [List.contains_iff_mem, traversalIds, List.mem_cons, List.mem_map] at hid
    rcases hid with rfl | ⟨hop, hhop, rfl⟩
    · obtain ⟨n, hn, rfl⟩ := hstart
      exact ⟨n, Store.findNodeById_eq_some.mpr ⟨hn, rfl⟩⟩
    · exact ⟨hop.1, Store.findNodeById_eq_some.mpr ⟨hvisited hop hhop, rfl⟩⟩
  rw [insideEdges, List.mem_filter, Bool.and_eq_true] at he
  obtain ⟨n1, hn1⟩ := hfound _ he.2.1
  obtain ⟨n2, hn2⟩ := hfound _ he.2.2
  rw [edgeRow, edgeInfo, hn1, hn2]
  rfl

theorem filterMap_eq_map {α β : Type} {f : α → Option β} {g : α → β} {xs : List α}
    (h : ∀ x ∈ xs, f x = some (g x)) : xs.filterMap f = xs.map g := by
  rw [List.filterMap_congr h, List.filterMap_eq_map']

theorem map_filter_type (p : CStr → Bool) (edges : List Edge) :
    (edges.filter fun e => p e.type).map (edgeInfo s) =
      (edges.map (edgeInfo s)).filter fun info => p info.type := by
  rw [List.filter_map]
  rfl

theorem inducedEdges_eq (startId : Int) (visited : List (Node × Nat)) (types : List CStr) :
    inducedEdges s startId visited types =
      (insideEdges s startId visited).filter fun e => types.contains e.type := by
  rw [inducedEdges, insideEdges, List.filter_filter]
  refine List.filter_congr fun e _ => ?_
  rw [Bool.eq_iff_iff, decide_eq_true_iff]
  simp only [Bool.and_eq_true, List.contains_iff_mem]
  exact ⟨fun h => ⟨h.2.2, h.1, h.2.1⟩, fun h => ⟨h.2.1, h.2.2, h.1⟩⟩

end Collects

/-- The result is the induced edges of the requested types if the statement leaves,
of the types of the edges inside the set, exactly the requested ones. -/
theorem collectsInduced_iff {truthy : CStr → Bool} {s : Store} {startId : Int}
    (hstart : ∃ n ∈ s.nodes, n.id = startId) {visited : List (Node × Nat)}
    (hvisited : ∀ hop ∈ visited, hop.1 ∈ s.nodes) (edgeTypes : List CStr) :
    CollectsInduced truthy s startId visited edgeTypes ↔
      ∀ e ∈ s.edges, e.sourceId ∈ traversalIds startId visited →
        e.targetId ∈ traversalIds startId visited →
        (typeLeft truthy edgeTypes (idsLength startId visited) e.type = true ↔
          e.type ∈ requestedTypes edgeTypes) := by
  have hrows : ∀ p : CStr → Bool,
      ((insideEdges s startId visited).filter fun e => p e.type).filterMap (edgeRow s) =
        ((insideEdges s startId visited).map (edgeInfo s)).filter fun info => p info.type := by
    intro p
    rw [← map_filter_type]
    exact filterMap_eq_map fun e he => edgeRow_eq hstart hvisited (List.mem_of_mem_filter he)
  rw [CollectsInduced, bfsCollectEdges_eq, inducedEdges_eq, map_filter_type, hrows,
    perm_filter_iff, List.forall_mem_map]
  simp only [insideEdges, List.mem_filter, Bool.and_eq_true, List.contains_iff_mem, and_imp]
  refine forall₄_congr fun e _ _ _ => ?_
  rw [Bool.eq_iff_iff, List.contains_iff_mem]
  rfl

/-- SQLite's truth value of a text that starts with a number without sign. -/
def startsNonzero (type : CStr) : Bool :=
  (type.takeWhile isDigit).any (· ≠ 48)

/-- The edge between `a` and `b` is in the result, the one to `c` is not. -/
theorem collectsInduced_chain :
    CollectsInduced startsNonzero chainStore 1
      [(⟨2, none, none, none, none, none, 0, 0, none⟩, 1)] [bytesOf "CALLS"] := by
  have hstart : ∃ n ∈ chainStore.nodes, n.id = 1 := ⟨_, List.mem_cons_self, rfl⟩
  refine (collectsInduced_iff hstart ?_ _).mpr ?_
  · intro hop hhop
    rw [List.mem_singleton.mp hhop]
    exact List.mem_cons_of_mem _ List.mem_cons_self
  · intro e he _ _
    have htype : e.type = bytesOf "CALLS" := by
      rcases List.mem_cons.mp he with rfl | he
      · rfl
      · rw [List.mem_singleton.mp he]
    rw [htype]
    exact ⟨fun _ => List.mem_singleton_self _, fun _ => by decide⟩

/-- The nodes with ids up to 1100. -/
def wideNodes : List Node :=
  (List.range 1100).map fun i : Nat => ⟨(i : Int) + 1, none, none, none, none, none, 0, 0, none⟩

/-- 1100 nodes and an edge between the first two. -/
def wideStore : Store where
  nodes := wideNodes
  edges := [⟨1, 1, 2, bytesOf "CALLS", none⟩]
  nodeIds := by
    rw [wideNodes, List.map_map]
    exact List.nodup_range.map fun i j h => by simpa using h
  edgeKeys := by decide

theorem idsLength_wide : 4013 < idsLength 1 (wideNodes.tail.map fun n => (n, 1)) := by
  decide +kernel

/-- The statement is cut short, and the edge is not in the result. -/
theorem not_collectsInduced_wide :
    ¬ CollectsInduced startsNonzero wideStore 1 (wideNodes.tail.map fun n => (n, 1))
      [bytesOf "CALLS"] := by
  intro hcollects
  have hsize := idsLength_wide
  have hnone : ∀ e ∈ insideEdges wideStore 1 (wideNodes.tail.map fun n => (n, 1)),
      ¬ typeLeft startsNonzero [bytesOf "CALLS"]
        (idsLength 1 (wideNodes.tail.map fun n => (n, 1))) e.type = true := by
    intro e _
    rw [typeLeft, if_neg (by omega), if_neg (by omega), if_neg (by omega)]
    exact Bool.false_ne_true
  rw [CollectsInduced, bfsCollectEdges_eq, List.filter_eq_nil_iff.mpr hnone] at hcollects
  have hedge : (⟨1, 1, 2, bytesOf "CALLS", none⟩ : Edge) ∈
      inducedEdges wideStore 1 (wideNodes.tail.map fun n => (n, 1)) [bytesOf "CALLS"] := by
    refine List.mem_filter.mpr ⟨List.mem_singleton_self _, decide_eq_true ⟨?_, ?_, ?_⟩⟩
    · exact List.mem_cons_self
    · decide +kernel
    · exact List.mem_singleton_self _
  exact List.not_mem_nil (hcollects.mem_iff.mpr (List.mem_map_of_mem hedge))

end Query
end CodebaseMemory
