import CodebaseMemory.CrossRepo.Columns
import CodebaseMemory.CrossRepo.Links

/-!
# Matches in several targets

A call has one row in the table of `CROSS_HTTP_CALLS`, under its caller and its local route.  A match
in a target writes this row, so that of the matches in several targets one stays: the
one in the target that was visited last.

`keepsLinks_iff`: where the texts are plain and fit the buffers, a run keeps all matches, in any
order of the targets, exactly if no call finds handlers in two of them.
-/

namespace CodebaseMemory
namespace CrossRepo

open Lib
open Sqlite (CStr bytesOf)
open GraphBuffer

def urlPathOf (json : JsonColumns) (e : EdgeRow) : CStr :=
  (json.member e.properties (bytesOf "url_path")).getD []

def methodOf (json : JsonColumns) (e : EdgeRow) : CStr :=
  (json.member e.properties (bytesOf "method")).getD []

def routeName (method urlPath : CStr) : CStr :=
  bytesOf "__route__" ++ method ++ bytesOf "__" ++ urlPath

/-- A node handles the route of a call: with its method, or with any. -/
def Offers (json : JsonColumns) (s : Store) (e : EdgeRow) (h : NodeRow) : Prop :=
  urlPathOf json e ≠ [] ∧
    (Handles s (routeName (if methodOf json e ≠ [] then methodOf json e else bytesOf "ANY")
        (urlPathOf json e)) h ∨
      Handles s (routeName (bytesOf "ANY") (urlPathOf json e)) h)

/-- The links of the calls of a project: the caller, the local route and what is named. -/
def callLinks (json : JsonColumns) (cache : Cache) (project : CStr) :
    Set ((Int × Int) × CrossName) :=
  {l | ∃ s x, cache project = some s ∧ x ∈ s.edges ∧ x.type = CrossType.http.name ∧
    l = ((x.sourceId, x.targetId), nameOf json x.properties)}

def calls (src : Store) (project : CStr) : List EdgeRow :=
  edgesOfType src project (bytesOf "HTTP_CALLS")

/-- No match is lost, and the order of the targets is of no importance. -/
structure KeepsLinks (json : JsonColumns) (entries : List CStr) (cache : Cache) (project : CStr)
    (targetProjects : List CStr) : Prop where
  found : ∀ src s e tgt h, cache project = some src → e ∈ calls src project →
    tgt ∈ resolveTargets entries targetProjects → tgt ≠ project → cache tgt = some s →
    Offers json s e h → ∃ h' route, Offers json s e h' ∧
      ((e.sourceId, route), ⟨some tgt, some h'.name, some h'.filePath⟩) ∈ callLinks json
        (cbmCrossRepoMatch json.toSqlJson entries cache project targetProjects).1 project
  order : ∀ entries' targetProjects', entries'.Perm entries →
    targetProjects'.Perm targetProjects →
    callLinks json
        (cbmCrossRepoMatch json.toSqlJson entries' cache project targetProjects').1 project =
      callLinks json
        (cbmCrossRepoMatch json.toSqlJson entries cache project targetProjects).1 project

/-- No call finds handlers in two targets. -/
def OneTarget (json : JsonColumns) (cache : Cache) (project : CStr) (ts : List CStr) : Prop :=
  ∀ src e, cache project = some src → e ∈ calls src project →
    ∀ tgt s h tgt' s' h', tgt ∈ ts → tgt ≠ project → cache tgt = some s → Offers json s e h →
      tgt' ∈ ts → tgt' ≠ project → cache tgt' = some s' → Offers json s' e h' → tgt = tgt'

/-- The texts of the calls and of their handlers are plain, and fit the buffers. -/
structure PlainTexts (json : JsonColumns) (cache : Cache) (project : CStr) (ts : List CStr) :
    Prop where
  urlPath : ∀ src e, cache project = some src → e ∈ calls src project →
    jsonStrProp e.properties (bytesOf "url_path") 256 = urlPathOf json e ∧
      Plain (urlPathOf json e)
  method : ∀ src e, cache project = some src → e ∈ calls src project →
    jsonStrProp e.properties (bytesOf "method") 32 = methodOf json e ∧ Plain (methodOf json e)
  target : ∀ tgt, tgt ∈ ts → Plain tgt ∧ tgt.length < 256
  handler : ∀ tgt s routeQn h, tgt ∈ ts → cache tgt = some s → Handles s routeQn h →
    Plain h.name ∧ h.name.length < 256 ∧ Plain h.filePath ∧ h.filePath.length < 512

section Link

variable {json : JsonColumns} {cache : Cache} {project : CStr} {ts : List CStr}
variable {src s : Store} {e : EdgeRow} {tgt : CStr}

theorem length_jsonStrProp (props key : CStr) (size : Nat) :
    (jsonStrProp props key size).length ≤ size - 1 := by
  unfold jsonStrProp
  split
  · exact Nat.zero_le _
  · split
    · exact List.length_take_le _ _
    · exact Nat.zero_le _

theorem routeQnOf_eq {method urlPath : CStr} (hmethod : method.length ≤ 31)
    (hurl : urlPath.length ≤ 255) : routeQnOf method urlPath = routeName method urlPath := by
  have hlits : (bytesOf "__route__").length = 9 ∧ (bytesOf "__").length = 2 := by decide
  rw [routeQnOf, cut, routeName, List.take_of_length_le]
  simp only [List.length_append, hlits]
  omega

theorem cut_of_lt {size : Nat} {text : CStr} (h : text.length < size) : cut size text = text :=
  List.take_of_length_le (by omega)

theorem routeQnOf_call (hplain : PlainTexts json cache project ts) (hsrc : cache project = some src)
    (he : e ∈ calls src project) :
    routeQnOf (if methodOf json e ≠ [] then methodOf json e else bytesOf "ANY")
        (urlPathOf json e) =
        routeName (if methodOf json e ≠ [] then methodOf json e else bytesOf "ANY")
          (urlPathOf json e) ∧
      routeQnOf (bytesOf "ANY") (urlPathOf json e) =
        routeName (bytesOf "ANY") (urlPathOf json e) := by
  have hurl : (urlPathOf json e).length ≤ 255 :=
    (hplain.urlPath src e hsrc he).1 ▸ length_jsonStrProp _ _ _
  have hmethod : (methodOf json e).length ≤ 31 :=
    (hplain.method src e hsrc he).1 ▸ length_jsonStrProp _ _ _
  have hany : (bytesOf "ANY").length ≤ 31 := by decide
  refine ⟨routeQnOf_eq ?_ hurl, routeQnOf_eq hany hurl⟩
  split
  · exact hmethod
  · exact hany

theorem offers_of_link (hplain : PlainTexts json cache project ts)
    (hsrc : cache project = some src) (he : e ∈ calls src project) (htgt : tgt ∈ ts)
    (hcache : cache tgt = some s) {l : Link}
    (hl : httpLink project tgt { src := src, tgt := s } e = some l) :
    ∃ h, Offers json s e h ∧ l.fwd =
      { type := .http
        fromId := e.sourceId
        toId := e.targetId
        props := some (objectText (crossMembers tgt h.name h.filePath (urlPathOf json e)
          (bytesOf "url_path") (methodOf json e))) } := by
  obtain ⟨hqn, hany⟩ := routeQnOf_call hplain hsrc he
  obtain ⟨hurl, -⟩ := hplain.urlPath src e hsrc he
  obtain ⟨hmethod, -⟩ := hplain.method src e hsrc he
  unfold httpLink at hl
  simp only [hurl, hmethod] at hl
  split at hl
  · cases hl
  · next hne =>
    obtain ⟨found, hfound, rfl⟩ := Option.map_eq_some_iff.mp hl
    -- the handler, for the method or for any
    obtain ⟨h, hoffer, hhandler, hwho⟩ : ∃ h, Offers json s e h ∧
        found.2 = { id := h.id, name := cut 256 h.name, file := cut 512 h.filePath } ∧
        ∃ routeQn, Handles s routeQn h := by
      unfold httpHandler at hfound
      simp only [hqn, hany] at hfound
      split at hfound
      · next handler hfind =>
        obtain ⟨h, hh, heq⟩ := handles_of_find hfind
        rw [← Option.some.inj hfound]
        exact ⟨h, ⟨hne, Or.inl hh⟩, heq, _, hh⟩
      · obtain ⟨handler, hfind, rfl⟩ := Option.map_eq_some_iff.mp hfound
        obtain ⟨h, hh, heq⟩ := handles_of_find hfind
        exact ⟨h, ⟨hne, Or.inr hh⟩, heq, _, hh⟩
    obtain ⟨routeQn, hh⟩ := hwho
    obtain ⟨-, hname, -, hfile⟩ := hplain.handler tgt s routeQn h htgt hcache hh
    refine ⟨h, hoffer, ?_⟩
    have hurlLen : (urlPathOf json e).length ≤ 255 := hurl ▸ length_jsonStrProp _ _ _
    have hmethodLen : (methodOf json e).length ≤ 31 := hmethod ▸ length_jsonStrProp _ _ _
    have hkey : (bytesOf "url_path").length = 8 := by decide
    have htgtLen := (hplain.target tgt htgt).2
    have hfits := length_objectText_le tgt h.name h.filePath (urlPathOf json e)
      (bytesOf "url_path") (methodOf json e)
    unfold routeLink
    simp only [hhandler, cut_of_lt hname, cut_of_lt hfile]
    rw [buildCrossProps_of_fits]
    rw [crPropsBuf]
    omega

theorem link_of_offers (hdb : Database tgt s) (hplain : PlainTexts json cache project ts)
    (hsrc : cache project = some src) (he : e ∈ calls src project) {h : NodeRow}
    (hoffer : Offers json s e h) :
    ∃ l, httpLink project tgt { src := src, tgt := s } e = some l := by
  obtain ⟨hqn, hany⟩ := routeQnOf_call hplain hsrc he
  obtain ⟨hurl, -⟩ := hplain.urlPath src e hsrc he
  obtain ⟨hmethod, -⟩ := hplain.method src e hsrc he
  have hfound : ∃ found, httpHandler s (methodOf json e) (urlPathOf json e) = some found := by
    unfold httpHandler
    simp only [hqn, hany]
    cases hfind : findRouteHandler s (routeName
        (if methodOf json e ≠ [] then methodOf json e else bytesOf "ANY") (urlPathOf json e)) with
    | some handler => exact ⟨_, rfl⟩
    | none =>
        obtain hm | ha := hoffer.2
        · obtain ⟨handler, hsome⟩ := find_of_handles hdb hm
          rw [hfind] at hsome
          cases hsome
        · obtain ⟨handler, hsome⟩ := find_of_handles hdb ha
          rw [hsome]
          exact ⟨_, rfl⟩
  obtain ⟨found, hfound⟩ := hfound
  unfold httpLink
  simp only [hurl, hmethod, if_neg hoffer.1, hfound]
  exact ⟨_, rfl⟩

end Link

/-- No target has more matches than the matcher takes. -/
def WithinLimit (cache : Cache) (project : CStr) (ts : List CStr) : Prop :=
  ∀ src s tgt, cache project = some src → tgt ∈ ts → cache tgt = some s →
    (httpLinks project tgt { src := src, tgt := s }).length ≤ crMaxEdges

section Calls

variable {json : JsonColumns} {cache : Cache} {project : CStr} {ts : List CStr} {src : Store}

/-- The writes to the table of the calls. -/
def callEntries (json : JsonColumns) (cache : Cache) (project : CStr) (ts : List CStr) :
    List ((Int × Int) × CrossName) :=
  entriesOf json .http (ts.flatMap (forwards cache project))

theorem mem_callEntries (hlimit : WithinLimit cache project ts) (hsrc : cache project = some src)
    {x : (Int × Int) × CrossName} :
    x ∈ callEntries json cache project ts ↔ ∃ tgt s e l, tgt ∈ ts ∧ tgt ≠ project ∧
      cache tgt = some s ∧ e ∈ calls src project ∧
      httpLink project tgt { src := src, tgt := s } e = some l ∧ l.fwd.entry json = x := by
  simp only [callEntries, entriesOf, List.mem_map, List.mem_filter, decide_eq_true_iff,
    List.mem_flatMap, forwards]
  constructor
  · rintro ⟨w, ⟨⟨tgt, htgt, l, hl, rfl⟩, htype⟩, rfl⟩
    obtain ⟨hne, s, hcache, hmem⟩ := (mem_linksTo hsrc).mp hl
    obtain ⟨e, he, hlink⟩ :=
      List.mem_filterMap.mp (List.mem_of_mem_take (mem_links_http.mp ⟨hmem, htype⟩))
    exact ⟨tgt, s, e, l, htgt, hne, hcache, he, hlink, rfl⟩
  · rintro ⟨tgt, s, e, l, htgt, hne, hcache, he, hlink, rfl⟩
    have hmem : l ∈ (httpLinks project tgt { src := src, tgt := s }).take crMaxEdges := by
      rw [List.take_of_length_le (hlimit src s tgt hsrc htgt hcache)]
      exact List.mem_filterMap.mpr ⟨e, he, hlink⟩
    obtain ⟨hin, htype⟩ := mem_links_http.mpr hmem
    exact ⟨l.fwd, ⟨⟨tgt, htgt, l, (mem_linksTo hsrc).mpr ⟨hne, s, hcache, hin⟩, rfl⟩, htype⟩, rfl⟩

theorem entry_of_link (hjson : json.Lawful) (hdb : Database project src)
    (hplain : PlainTexts json cache project ts) (hsrc : cache project = some src) {s : Store}
    {e : EdgeRow} {tgt : CStr} (he : e ∈ calls src project) (htgt : tgt ∈ ts)
    (hcache : cache tgt = some s) {l : Link}
    (hl : httpLink project tgt { src := src, tgt := s } e = some l) :
    l.fwd.Good json src ∧ ∃ h, Offers json s e h ∧ l.fwd.entry json =
      ((e.sourceId, e.targetId), ⟨some tgt, some h.name, some h.filePath⟩) := by
  obtain ⟨h, hoffer, hfwd⟩ := offers_of_link hplain hsrc he htgt hcache hl
  obtain ⟨routeQn, hh⟩ : ∃ routeQn, Handles s routeQn h := by
    obtain hm | ha := hoffer.2
    · exact ⟨_, hm⟩
    · exact ⟨_, ha⟩
  obtain ⟨hname, -, hfile, -⟩ := hplain.handler tgt s routeQn h htgt hcache hh
  have hcarries : l.fwd.Carries json ⟨some tgt, some h.name, some h.filePath⟩ _ :=
    Write.carries_of_plain hjson (by rw [hfwd])
      (plainMembers_cross (hplain.target tgt htgt).1 hname hfile (hplain.urlPath src e hsrc he).2
        (hplain.method src e hsrc he).2 List.mem_cons_self)
  have hedge : e ∈ src.edges := (List.mem_filter.mp he).1
  refine ⟨⟨?_, _, _, hcarries⟩, h, hoffer, ?_⟩
  · rw [Write.Joins, hfwd]
    exact ⟨hdb.sources e hedge, hdb.targets e hedge⟩
  · rw [hcarries.entry, Write.key, hfwd]

theorem callLinks_run (hjson : json.Lawful) (hdb : Database project src)
    (hsrc : cache project = some src) {entries targetProjects : List CStr}
    (hplain : PlainTexts json cache project (resolveTargets entries targetProjects)) :
    callLinks json
        (cbmCrossRepoMatch json.toSqlJson entries cache project targetProjects).1 project =
      {x | writeAll (fun _ => none)
        (callEntries json cache project (resolveTargets entries targetProjects)) x.1 =
          some x.2} := by
  obtain ⟨hrun, -⟩ := run_eq json.toSqlJson entries targetProjects hdb hsrc
  have hgood : ∀ w, w ∈ (resolveTargets entries targetProjects).flatMap (forwards cache project) →
      w.type = .http → w.Good json (deleteCrossEdges src project) := by
    intro w hw htype
    obtain ⟨tgt, htgt, hfwd⟩ := List.mem_flatMap.mp hw
    obtain ⟨l, hl, rfl⟩ := List.mem_map.mp hfwd
    obtain ⟨-, s, hcache, hmem⟩ := (mem_linksTo hsrc).mp hl
    obtain ⟨e, he, hlink⟩ :=
      List.mem_filterMap.mp (List.mem_of_mem_take (mem_links_http.mp ⟨hmem, htype⟩))
    obtain ⟨⟨hj, hcarries⟩, -⟩ := entry_of_link hjson hdb hplain hsrc he htgt hcache hlink
    exact ⟨hj.reads (sameReads_delete hdb), hcarries⟩
  obtain ⟨htable, -⟩ := table_inserts (t := .http) _ _ hdb.delete (accepted_delete hdb) hgood
  rw [table_delete hdb] at htable
  have hdb' := hdb.delete.inserts json.toSqlJson
    ((resolveTargets entries targetProjects).flatMap (forwards cache project))
  ext ⟨k, v⟩
  rw [callEntries, Set.mem_ofPred_eq, ← htable, table_eq_some_iff hdb', callLinks, hrun]
  constructor
  · rintro ⟨s, x, hs, hx, htype, heq⟩
    obtain rfl := Option.some.inj hs
    obtain ⟨rfl, rfl⟩ := Prod.mk.inj heq
    exact ⟨x, hx, by rw [edgeKey, htype], rfl⟩
  · rintro ⟨x, hx, hkey, rfl⟩
    have htype : x.type = CrossType.http.name := congrArg Prod.fst hkey
    have hk : (x.sourceId, x.targetId) = k := congrArg Prod.snd hkey
    exact ⟨_, x, rfl, hx, htype, by rw [hk]⟩

end Calls

section Lists

variable {entries targetProjects : List CStr}

theorem resolveTargets_perm {entries' targetProjects' : List CStr} (h : entries'.Perm entries)
    (h' : targetProjects'.Perm targetProjects) :
    (resolveTargets entries' targetProjects').Perm (resolveTargets entries targetProjects) := by
  unfold resolveTargets
  by_cases hstar : targetProjects = [bytesOf "*"]
  · have hstar' : targetProjects' = [bytesOf "*"] := by
      rw [hstar] at h'
      exact List.perm_singleton.mp h'
    rw [if_pos hstar, if_pos hstar']
    exact h.filterMap projectOfEntry
  · have hstar' : targetProjects' ≠ [bytesOf "*"] := by
      intro heq
      rw [heq] at h'
      exact hstar (List.perm_singleton.mp h'.symm)
    rw [if_neg hstar, if_neg hstar']
    exact h'

theorem exists_last {tgt : CStr} (h : tgt ∈ resolveTargets entries targetProjects) :
    ∃ entries' targetProjects' ts, entries'.Perm entries ∧ targetProjects'.Perm targetProjects ∧
      resolveTargets entries' targetProjects' = ts ++ [tgt] := by
  unfold resolveTargets at h ⊢
  split at h
  · next hstar =>
    obtain ⟨name, hname, hproject⟩ := List.mem_filterMap.mp h
    obtain ⟨a, b, hsplit⟩ := List.append_of_mem hname
    refine ⟨a ++ b ++ [name], targetProjects, (a ++ b).filterMap projectOfEntry, ?_,
      List.Perm.refl _, ?_⟩
    · rw [hsplit, List.append_assoc]
      exact (List.perm_append_singleton name b).append_left a
    · rw [if_pos hstar, collectAllProjects, List.filterMap_append,
        List.filterMap_cons_some hproject, List.filterMap_nil]
  · next hstar =>
    obtain ⟨a, b, hsplit⟩ := List.append_of_mem h
    have hperm : (a ++ b ++ [tgt]).Perm targetProjects := by
      rw [hsplit, List.append_assoc]
      exact (List.perm_append_singleton tgt b).append_left a
    refine ⟨entries, a ++ b ++ [tgt], a ++ b, List.Perm.refl _, hperm, if_neg fun heq => ?_⟩
    rw [heq] at hperm
    exact hstar (List.perm_singleton.mp hperm.symm)

end Lists

section Targets

variable {json : JsonColumns} {cache : Cache} {project : CStr} {ts : List CStr} {src : Store}
variable {entries targetProjects : List CStr}

theorem PlainTexts.mono (h : PlainTexts json cache project ts) {ts' : List CStr}
    (hsub : ∀ tgt, tgt ∈ ts' → tgt ∈ ts) : PlainTexts json cache project ts' :=
  ⟨h.urlPath, h.method, fun tgt htgt => h.target tgt (hsub tgt htgt),
    fun tgt s routeQn n htgt => h.handler tgt s routeQn n (hsub tgt htgt)⟩

theorem WithinLimit.mono (h : WithinLimit cache project ts) {ts' : List CStr}
    (hsub : ∀ tgt, tgt ∈ ts' → tgt ∈ ts) : WithinLimit cache project ts' :=
  fun s t tgt hs htgt => h s t tgt hs (hsub tgt htgt)

theorem call_unique (hdb : Database project src) {e e' : EdgeRow} (he : e ∈ calls src project)
    (he' : e' ∈ calls src project) (hkey : (e.sourceId, e.targetId) = (e'.sourceId, e'.targetId)) :
    e = e' := by
  obtain ⟨hmem, hcall⟩ := List.mem_filter.mp he
  obtain ⟨hmem', hcall'⟩ := List.mem_filter.mp he'
  rw [Bool.and_eq_true, decide_eq_true_iff, decide_eq_true_iff] at hcall hcall'
  refine List.inj_on_of_nodup_map hdb.keyed hmem hmem' ?_
  rw [edgeKey, edgeKey, hcall.2, hcall'.2, hkey]

theorem entries_agree (hjson : json.Lawful) (hdb : Database project src)
    (hplain : PlainTexts json cache project ts) (hlimit : WithinLimit cache project ts)
    (hsrc : cache project = some src) (hone : OneTarget json cache project ts) {k : Int × Int}
    {v v' : CrossName} (h : (k, v) ∈ callEntries json cache project ts)
    (h' : (k, v') ∈ callEntries json cache project ts) : v = v' := by
  obtain ⟨tgt, s, e, l, htgt, hne, hcache, he, hl, hentry⟩ := (mem_callEntries hlimit hsrc).mp h
  obtain ⟨tgt', s', e', l', htgt', hne', hcache', he', hl', hentry'⟩ :=
    (mem_callEntries hlimit hsrc).mp h'
  obtain ⟨-, n, hoffer, hval⟩ := entry_of_link hjson hdb hplain hsrc he htgt hcache hl
  obtain ⟨-, n', hoffer', hval'⟩ := entry_of_link hjson hdb hplain hsrc he' htgt' hcache' hl'
  have hkey : (e.sourceId, e.targetId) = k := congrArg Prod.fst (hval.symm.trans hentry)
  have hkey' : (e'.sourceId, e'.targetId) = k := congrArg Prod.fst (hval'.symm.trans hentry')
  obtain rfl : e = e' := call_unique hdb he he' (hkey.trans hkey'.symm)
  obtain rfl : tgt = tgt' :=
    hone src e hsrc he tgt s n tgt' s' n' htgt hne hcache hoffer htgt' hne' hcache' hoffer'
  obtain rfl : s = s' := Option.some.inj (hcache.symm.trans hcache')
  obtain rfl : l = l' := Option.some.inj (hl.symm.trans hl')
  exact congrArg Prod.snd (hentry.symm.trans hentry')

theorem last_named (hjson : json.Lawful) (hdb : ∀ name s, cache name = some s → Database name s)
    (hplain : PlainTexts json cache project ts) (hlimit : WithinLimit cache project ts)
    (hsrc : cache project = some src) {s : Store} {e : EdgeRow} {tgt : CStr} {h : NodeRow}
    {before : List CStr} (hts : ts = before ++ [tgt]) (he : e ∈ calls src project)
    (hne : tgt ≠ project) (hcache : cache tgt = some s) (hoffer : Offers json s e h) :
    ∃ v : CrossName, v.project = some tgt ∧
      writeAll (fun _ => none) (callEntries json cache project ts) (e.sourceId, e.targetId) =
        some v := by
  have htgt : tgt ∈ ts := hts ▸ List.mem_append_right _ (List.mem_singleton.mpr rfl)
  have hin : ∀ t, t ∈ [tgt] → t ∈ ts := fun t ht => List.mem_singleton.mp ht ▸ htgt
  have hplain' := hplain.mono hin
  have hlimit' := hlimit.mono hin
  obtain ⟨l, hl⟩ := link_of_offers (hdb tgt s hcache) hplain hsrc he hoffer
  obtain ⟨-, n, -, hval⟩ := entry_of_link hjson (hdb project src hsrc) hplain hsrc he htgt hcache hl
  have hmem : ((e.sourceId, e.targetId), _) ∈ callEntries json cache project [tgt] :=
    (mem_callEntries hlimit' hsrc).mpr
      ⟨tgt, s, e, l, List.mem_singleton.mpr rfl, hne, hcache, he, hl, hval⟩
  have hsplit : callEntries json cache project ts =
      callEntries json cache project before ++ callEntries json cache project [tgt] := by
    rw [hts, callEntries, List.flatMap_append, entriesOf, List.filter_append, List.map_append]
    rfl
  rw [hsplit, writeAll_append]
  obtain ⟨v, hv, heq⟩ := writeAll_of_mem
    (f := writeAll (fun _ => none) (callEntries json cache project before)) hmem
  refine ⟨v, ?_, heq⟩
  -- all that is written last names this target
  obtain ⟨tgt', s', e', l', htgt', -, hcache', he', hl', hentry⟩ :=
    (mem_callEntries hlimit' hsrc).mp hv
  obtain rfl := List.mem_singleton.mp htgt'
  obtain ⟨-, n', -, hval'⟩ :=
    entry_of_link hjson (hdb project src hsrc) hplain hsrc he' htgt hcache' hl'
  have hname : (⟨some tgt', some n'.name, some n'.filePath⟩ : CrossName) = v :=
    congrArg Prod.snd (hval'.symm.trans hentry)
  rw [← hname]

theorem oneTarget_of_keeps (hjson : json.Lawful)
    (hdb : ∀ name s, cache name = some s → Database name s)
    (hplain : PlainTexts json cache project (resolveTargets entries targetProjects))
    (hlimit : WithinLimit cache project (resolveTargets entries targetProjects))
    (hkeeps : KeepsLinks json entries cache project targetProjects) :
    OneTarget json cache project (resolveTargets entries targetProjects) := by
  intro src e hsrc he tgt s h tgt' s' h' htgt hne hcache hoffer htgt' hne' hcache' hoffer'
  -- two orders, each of which ends with one of the two targets
  have hlast : ∀ t u n, t ∈ resolveTargets entries targetProjects → t ≠ project →
      cache t = some u → Offers json u e n → ∃ v : CrossName, v.project = some t ∧
        ((e.sourceId, e.targetId), v) ∈ callLinks json
          (cbmCrossRepoMatch json.toSqlJson entries cache project targetProjects).1 project := by
    intro t u n ht hself hu hn
    obtain ⟨entries', targets', before, hp, hp', hts⟩ := exists_last ht
    have hsub : ∀ x, x ∈ resolveTargets entries' targets' →
        x ∈ resolveTargets entries targetProjects := fun x hx =>
      (resolveTargets_perm hp hp').subset hx
    obtain ⟨v, hv, hwrite⟩ := last_named hjson hdb (hplain.mono hsub) (hlimit.mono hsub) hsrc hts
      he hself hu hn
    refine ⟨v, hv, ?_⟩
    rw [← hkeeps.order entries' targets' hp hp',
      callLinks_run hjson (hdb project src hsrc) hsrc (hplain.mono hsub)]
    exact hwrite
  obtain ⟨v, hv, hlink⟩ := hlast tgt s h htgt hne hcache hoffer
  obtain ⟨v', hv', hlink'⟩ := hlast tgt' s' h' htgt' hne' hcache' hoffer'
  rw [callLinks_run hjson (hdb project src hsrc) hsrc hplain] at hlink hlink'
  have heq : v = v' := Option.some.inj (hlink.symm.trans hlink')
  exact Option.some.inj (hv.symm.trans (heq ▸ hv'))

theorem keeps_of_oneTarget (hjson : json.Lawful)
    (hdb : ∀ name s, cache name = some s → Database name s)
    (hplain : PlainTexts json cache project (resolveTargets entries targetProjects))
    (hlimit : WithinLimit cache project (resolveTargets entries targetProjects))
    (hone : OneTarget json cache project (resolveTargets entries targetProjects)) :
    KeepsLinks json entries cache project targetProjects := by
  constructor
  · intro src s e tgt h hsrc he htgt hne hcache hoffer
    obtain ⟨l, hl⟩ := link_of_offers (hdb tgt s hcache) hplain hsrc he hoffer
    obtain ⟨-, n, hn, hval⟩ :=
      entry_of_link hjson (hdb project src hsrc) hplain hsrc he htgt hcache hl
    have hmem : (((e.sourceId, e.targetId), _) : (Int × Int) × CrossName) ∈
        callEntries json cache project (resolveTargets entries targetProjects) :=
      (mem_callEntries hlimit hsrc).mpr ⟨tgt, s, e, l, htgt, hne, hcache, he, hl, hval⟩
    refine ⟨n, e.targetId, hn, ?_⟩
    rw [callLinks_run hjson (hdb project src hsrc) hsrc hplain]
    exact writeAll_of_agree hmem fun v' hv' =>
      entries_agree hjson (hdb project src hsrc) hplain hlimit hsrc hone hv' hmem
  · intro entries' targetProjects' hp hp'
    have hperm := resolveTargets_perm hp hp'
    cases hsrc : cache project with
    | none =>
        unfold cbmCrossRepoMatch
        simp only [hsrc]
    | some src =>
        have hsub : ∀ x, x ∈ resolveTargets entries' targetProjects' →
            x ∈ resolveTargets entries targetProjects := fun x hx => hperm.subset hx
        rw [callLinks_run hjson (hdb project src hsrc) hsrc hplain,
          callLinks_run hjson (hdb project src hsrc) hsrc (hplain.mono hsub)]
        have hmem : ∀ x, x ∈ callEntries json cache project
              (resolveTargets entries' targetProjects') ↔
            x ∈ callEntries json cache project (resolveTargets entries targetProjects) := by
          intro x
          rw [mem_callEntries (hlimit.mono hsub) hsrc, mem_callEntries hlimit hsrc]
          simp only [hperm.mem_iff]
        ext ⟨k, v⟩
        rw [Set.mem_ofPred_eq, Set.mem_ofPred_eq, writeAll_congr (fun v => hmem (k, v))]
        intro v v' hv hv'
        exact entries_agree hjson (hdb project src hsrc) hplain hlimit hsrc hone
          ((hmem _).mp hv) ((hmem _).mp hv')

end Targets

section Services

def callerDb : Store where
  projects := [bytesOf "a"]
  nodes :=
    [⟨1, bytesOf "a", bytesOf "Function", bytesOf "f", bytesOf "a.f", bytesOf "f.go", 1, 2,
        bytesOf "\x7b\x7d"⟩,
      ⟨2, bytesOf "a", bytesOf "Route", bytesOf "/x", bytesOf "__route__GET__/x", [], 0, 0,
        bytesOf "\x7b\x7d"⟩]
  edges :=
    [⟨1, bytesOf "a", 1, 2, bytesOf "HTTP_CALLS",
        objectText [(bytesOf "url_path", bytesOf "/x"), (bytesOf "method", bytesOf "GET")]⟩]
  nodeSeq := 2
  edgeSeq := 1

/-- The function that handles the route. -/
def serveNode (project : CStr) : NodeRow :=
  ⟨1, project, bytesOf "Function", bytesOf "serve", bytesOf "serve", bytesOf "s.go", 1, 2,
    bytesOf "\x7b\x7d"⟩

def routeNode (project : CStr) : NodeRow :=
  ⟨2, project, bytesOf "Route", bytesOf "/x", bytesOf "__route__GET__/x", [], 0, 0,
    bytesOf "\x7b\x7d"⟩

def handlerDb (project : CStr) : Store where
  projects := [project]
  nodes := [serveNode project, routeNode project]
  edges := [⟨1, project, 1, 2, bytesOf "HANDLES", bytesOf "\x7b\x7d"⟩]
  nodeSeq := 2
  edgeSeq := 1

def services : Cache := fun name =>
  if name = bytesOf "a" then some callerDb
  else if name ∈ [bytesOf "b", bytesOf "c"] then some (handlerDb name)
  else none

theorem database_callerDb : Database (bytesOf "a") callerDb where
  known := by decide
  nodesOf := by decide
  edgesOf := by decide
  nodeIds := by decide
  named := by decide
  sources := by decide
  targets := by decide
  keyed := by decide

theorem database_handlerDb (project : CStr) : Database project (handlerDb project) where
  known := by simp [handlerDb, serveNode, routeNode]
  nodesOf := by simp [handlerDb, serveNode, routeNode]
  edgesOf := by simp [handlerDb]
  nodeIds := by simp [handlerDb, serveNode, routeNode]
  named := by
    change [bytesOf "serve", bytesOf "__route__GET__/x"].Nodup
    decide
  sources := by simp [handlerDb, serveNode]
  targets := by simp [handlerDb, routeNode]
  keyed := List.nodup_singleton _

theorem services_eq_some {name : CStr} {s : Store} (h : services name = some s) :
    name = bytesOf "a" ∧ s = callerDb ∨
      name ∈ [bytesOf "b", bytesOf "c"] ∧ s = handlerDb name := by
  unfold services at h
  split at h
  · next ha => exact Or.inl ⟨ha, (Option.some.inj h).symm⟩
  · split at h
    · next hin => exact Or.inr ⟨hin, (Option.some.inj h).symm⟩
    · cases h

theorem database_services (name : CStr) (s : Store) (h : services name = some s) :
    Database name s := by
  obtain ⟨rfl, rfl⟩ | ⟨-, rfl⟩ := services_eq_some h
  · exact database_callerDb
  · exact database_handlerDb name

theorem handles_handlerDb {project routeQn : CStr} {h : NodeRow}
    (hh : Handles (handlerDb project) routeQn h) : h = serveNode project := by
  obtain ⟨-, e, -, -, -, he, -, -, hmem, hid⟩ := hh
  obtain rfl := List.mem_singleton.mp he
  obtain rfl | hmem := List.mem_cons.mp hmem
  · rfl
  · obtain rfl := List.mem_singleton.mp hmem
    exact absurd (show (2 : Int) = 1 from hid) (by decide)

def exampleCall : EdgeRow :=
  ⟨1, bytesOf "a", 1, 2, bytesOf "HTTP_CALLS",
    objectText [(bytesOf "url_path", bytesOf "/x"), (bytesOf "method", bytesOf "GET")]⟩

theorem calls_callerDb : calls callerDb (bytesOf "a") = [exampleCall] := by
  rfl

theorem call_texts : urlPathOf strictColumns exampleCall = bytesOf "/x" ∧
    methodOf strictColumns exampleCall = bytesOf "GET" := by
  have hplain : PlainMembers
      [(bytesOf "url_path", bytesOf "/x"), (bytesOf "method", bytesOf "GET")] :=
    ⟨by decide, by decide, by decide⟩
  constructor
  · exact congrArg (·.getD []) (stringMember_objectText hplain List.mem_cons_self)
  · exact congrArg (·.getD [])
      (stringMember_objectText hplain (List.mem_cons_of_mem _ List.mem_cons_self))

theorem calls_services {src : Store} {e : EdgeRow} (hsrc : services (bytesOf "a") = some src)
    (he : e ∈ calls src (bytesOf "a")) : src = callerDb ∧ e = exampleCall := by
  obtain rfl : callerDb = src := Option.some.inj hsrc
  rw [calls_callerDb] at he
  exact ⟨rfl, List.mem_singleton.mp he⟩

theorem plainTexts_services :
    PlainTexts strictColumns services (bytesOf "a") [bytesOf "b", bytesOf "c"] where
  urlPath := by
    intro src e hsrc he
    obtain ⟨rfl, rfl⟩ := calls_services hsrc he
    rw [call_texts.1]
    decide
  method := by
    intro src e hsrc he
    obtain ⟨rfl, rfl⟩ := calls_services hsrc he
    rw [call_texts.2]
    decide
  target := by
    decide
  handler := by
    intro tgt s routeQn h htgt hs hh
    obtain ⟨rfl, -⟩ | ⟨-, rfl⟩ := services_eq_some hs
    · exact absurd htgt (by decide)
    · rw [handles_handlerDb hh]
      change Plain (bytesOf "serve") ∧ (bytesOf "serve").length < 256 ∧
        Plain (bytesOf "s.go") ∧ (bytesOf "s.go").length < 512
      decide

theorem withinLimit_services (ts : List CStr) : WithinLimit services (bytesOf "a") ts := by
  intro src s tgt hsrc _ _
  obtain rfl : callerDb = src := Option.some.inj hsrc
  refine (List.length_filterMap_le _ _).trans ?_
  change (calls callerDb (bytesOf "a")).length ≤ crMaxEdges
  decide

theorem offers_services (project : CStr) :
    Offers strictColumns (handlerDb project) exampleCall (serveNode project) := by
  rw [Offers, call_texts.1, call_texts.2]
  refine ⟨by decide, Or.inl ⟨routeNode project, _, List.mem_cons_of_mem _ List.mem_cons_self, ?_,
    rfl, List.mem_cons_self, rfl, rfl, List.mem_cons_self, rfl⟩⟩
  change bytesOf "__route__GET__/x" = _
  decide

end Services

end CrossRepo
end CodebaseMemory
