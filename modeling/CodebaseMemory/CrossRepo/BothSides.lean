import CodebaseMemory.CrossRepo.Targets
import CodebaseMemory.Lib.Transition

/-!
# Links seen from both sides

A run deletes the edges of the `CROSS_*` types from its own database, those that other runs have put
there included, and writes its links with their reverse sides.  After it, the project names
exactly the targets that it has links to (`names_own`), and so do the targets name
the project, if they named it before only where it has a link again (`names_back`); what two other
projects name of each other is as before (`names_other`).  So links stay visible
from both sides over runs whose links find room for both edges (`Meets`):
`bothSides_of_steps`.
-/

namespace CodebaseMemory
namespace CrossRepo

open Lib
open Sqlite (CStr bytesOf)
open GraphBuffer

/-- The database of a project has an edge of the type that names the other project. -/
def Names (json : JsonColumns) (cache : Cache) (t : CrossType) (project other : CStr) : Prop :=
  ∃ s e, cache project = some s ∧ e ∈ s.edges ∧ e.type = t.name ∧
    json.member e.properties (bytesOf "target_project") = some other

/-- Two projects name each other. -/
def BothSides (json : JsonColumns) (cache : Cache) : Prop :=
  ∀ t project other, Names json cache t project other ↔ Names json cache t other project

/-- The databases as they are between two runs. -/
def Sound (json : JsonColumns) (cache : Cache) : Prop :=
  ∀ name s, cache name = some s → Database name s ∧ ∀ t, Accepted json t s

/-- A call of `cbm_cross_repo_match`. -/
structure Run where
  /-- the names that are found in the cache directory -/
  entries : List CStr
  project : CStr
  targetProjects : List CStr

def Run.targets (r : Run) : List CStr :=
  resolveTargets r.entries r.targetProjects

/-- The databases after a run. -/
def Run.apply (sql : SqlJson) (cache : Cache) (r : Run) : Cache :=
  (cbmCrossRepoMatch sql r.entries cache r.project r.targetProjects).1

/-- The properties of an edge fit, and need no escapes. -/
def Write.PlainText (w : Write) (named : CStr) : Prop :=
  ∃ function file urlOrChannel extraKey extraVal,
    PlainMembers (crossMembers named function file urlOrChannel extraKey extraVal) ∧
      w.props = some (objectText (crossMembers named function file urlOrChannel extraKey extraVal))

/-- Both edges of every link find their place. -/
structure Meets (json : JsonColumns) (cache : Cache) (r : Run) : Prop where
  /-- the properties are plain, on both sides -/
  texts : ∀ tgt l, tgt ∈ r.targets → l ∈ linksTo cache r.project tgt →
    l.fwd.PlainText tgt ∧ ∀ w, l.rev = some w → w.PlainText r.project
  /-- no asynchronous call has a handler in a target -/
  sync : ∀ tgt l, tgt ∈ r.targets → l ∈ linksTo cache r.project tgt → l.fwd.type ≠ .async
  /-- no edge of the project is wanted by two targets -/
  own : ∀ tgt l tgt' l', tgt ∈ r.targets → l ∈ linksTo cache r.project tgt →
    tgt' ∈ r.targets → l' ∈ linksTo cache r.project tgt' → l.fwd.type = l'.fwd.type →
      l.fwd.key = l'.fwd.key → tgt = tgt'
  /-- no edge of a target that is wanted names another project -/
  other : ∀ tgt l w s e, tgt ∈ r.targets → l ∈ linksTo cache r.project tgt → l.rev = some w →
    cache tgt = some s → e ∈ s.edges → edgeKey e = (w.type.name, w.key) →
      json.member e.properties (bytesOf "target_project") = some r.project
  /-- who names the project is a target with a link -/
  again : ∀ t name, Names json cache t name r.project →
    name ∈ r.targets ∧ ∃ l, l ∈ linksTo cache r.project name ∧ l.fwd.type = t

section Joins

variable {project tgt : CStr} {src s : Store} {l : Link}

/-- Both edges of a link join nodes; only asynchronous calls have no reverse side. -/
structure Link.Proper (l : Link) (src s : Store) : Prop where
  joins : l.fwd.Joins src
  reverse : l.fwd.type ≠ .async → ∃ w, l.rev = some w ∧ w.type = l.fwd.type ∧ w.Joins s
  oneWay : l.fwd.type = .async → l.rev = none

theorem proper_routeLink (hsrc : Database project src) (htgt : Database tgt s) {e : EdgeRow}
    (he : e ∈ src.edges) {handler : Handler} {routeQn urlPath method : CStr} {t : CrossType}
    (ht : t ≠ .async) (hfind : findRouteHandler s routeQn = some handler) :
    (routeLink project tgt { src := src, tgt := s } e.sourceId e.targetId handler routeQn urlPath
      method t).Proper src s := by
  obtain ⟨h, ⟨route, -, hroute, hqn, -, -, -, -, hmem, -⟩, rfl⟩ := handles_of_find hfind
  refine ⟨⟨hsrc.sources e he, hsrc.targets e he⟩, fun _ => ?_, fun hasync => absurd hasync ht⟩
  have hsome : (s.nodes.find? (·.qualifiedName = routeQn)).isSome := by
    rw [List.find?_isSome]
    exact ⟨route, hroute, decide_eq_true hqn⟩
  obtain ⟨r, hr⟩ := Option.isSome_iff_exists.mp hsome
  have hnode := List.mem_of_find?_eq_some hr
  have hid : r.id ≠ 0 := (htgt.nodeIds r hnode).ne'
  unfold routeLink
  simp only [hr, if_neg hid]
  exact ⟨_, rfl, rfl, ⟨h, hmem, rfl⟩, r, hnode, rfl⟩

theorem find_of_httpHandler {method urlPath : CStr} {found : CStr × Handler}
    (h : httpHandler s method urlPath = some found) :
    findRouteHandler s found.1 = some found.2 := by
  unfold httpHandler at h
  simp only at h
  split at h
  · next handler hfind =>
    obtain rfl := Option.some.inj h
    exact hfind
  · obtain ⟨handler, hfind, rfl⟩ := Option.map_eq_some_iff.mp h
    exact hfind

theorem proper_httpLink (hsrc : Database project src) (htgt : Database tgt s) {e : EdgeRow}
    (he : e ∈ src.edges) (hl : httpLink project tgt { src := src, tgt := s } e = some l) :
    l.Proper src s := by
  unfold httpLink at hl
  simp only at hl
  split at hl
  · cases hl
  · obtain ⟨found, hfound, rfl⟩ := Option.map_eq_some_iff.mp hl
    exact proper_routeLink hsrc htgt he (by decide) (find_of_httpHandler hfound)

theorem proper_asyncLink (hsrc : Database project src) {e : EdgeRow} (he : e ∈ src.edges)
    (hl : asyncLink tgt { src := src, tgt := s } e = some l) : l.Proper src s := by
  unfold asyncLink at hl
  simp only at hl
  split at hl
  · cases hl
  · obtain ⟨handler, -, rfl⟩ := Option.map_eq_some_iff.mp hl
    exact ⟨⟨hsrc.sources e he, hsrc.targets e he⟩, fun hne => absurd rfl hne, fun _ => rfl⟩

theorem proper_typedLink (hsrc : Database project src) (htgt : Database tgt s) {e : EdgeRow}
    (he : e ∈ src.edges) {svcKey methodKey : CStr} {t : CrossType} (ht : t ≠ .async)
    (hl : typedLink project tgt { src := src, tgt := s } svcKey methodKey t e = some l) :
    l.Proper src s := by
  unfold typedLink at hl
  simp only at hl
  split at hl
  · cases hl
  · split at hl
    · cases hl
    · obtain ⟨handler, hfind, rfl⟩ := Option.map_eq_some_iff.mp hl
      exact proper_routeLink hsrc htgt he ht hfind

theorem proper_channelLink {row : NodeRow × Int} (hsrc : Database project src)
    (hrow : row ∈ channelRows src project)
    (hl : channelLink project tgt { src := src, tgt := s } row = some l) : l.Proper src s := by
  obtain ⟨found, hfound, rfl⟩ := Option.map_eq_some_iff.mp hl
  -- the emitter, and its channel
  obtain ⟨n, hn, hemit⟩ := List.mem_flatMap.mp (List.mem_eraseDups.mp hrow)
  have hjoins : (∃ n, n ∈ src.nodes ∧ n.id = row.2) ∧ ∃ n, n ∈ src.nodes ∧ n.id = row.1.id := by
    split at hemit
    · obtain ⟨e, he, rfl⟩ := List.mem_map.mp hemit
      exact ⟨hsrc.sources e (List.mem_filter.mp he).1, n, hn, rfl⟩
    · exact absurd hemit List.not_mem_nil
  refine ⟨hjoins, fun _ => ⟨_, rfl, rfl, ?_⟩, fun hasync => ?_⟩
  · obtain ⟨c, hc, hlisten⟩ := List.exists_of_findSome?_eq_some hfound
    split at hlisten
    · obtain ⟨fn, hfn, rfl⟩ := Option.map_eq_some_iff.mp hlisten
      obtain ⟨-, -, -, -, hmem, -⟩ := edgeSource_eq_some hfn
      exact ⟨⟨fn, hmem, rfl⟩, c, hc, rfl⟩
    · cases hlisten
  · cases hasync

theorem proper_of_mem (hsrc : Database project src) (htgt : Database tgt s)
    (hl : l ∈ links project tgt { src := src, tgt := s }) : l.Proper src s := by
  have hedge : ∀ {type : CStr} {e : EdgeRow}, e ∈ edgesOfType src project type → e ∈ src.edges :=
    fun he => (List.mem_filter.mp he).1
  simp only [links, List.mem_append] at hl
  obtain ((((hl | hl) | hl) | hl) | hl) | hl := hl <;>
    obtain ⟨row, hrow, hlink⟩ := List.mem_filterMap.mp (List.mem_of_mem_take hl)
  · exact proper_httpLink hsrc htgt (hedge hrow) hlink
  · exact proper_asyncLink hsrc (hedge hrow) hlink
  · exact proper_channelLink hsrc hrow hlink
  · exact proper_typedLink hsrc htgt (hedge hrow) (by decide) hlink
  · exact proper_typedLink hsrc htgt (hedge hrow) (by decide) hlink
  · exact proper_typedLink hsrc htgt (hedge hrow) (by decide) hlink

end Joins

section Step

variable {json : JsonColumns} {cache : Cache} {r : Run} {t : CrossType}

theorem names_iff_table {name other : CStr} {s : Store} (hdb : Database name s)
    (hs : cache name = some s) : Names json cache t name other ↔
      ∃ k v, table json s t k = some v ∧ v.project = some other := by
  constructor
  · rintro ⟨s', e, hs', he, htype, hname⟩
    obtain rfl := Option.some.inj (hs.symm.trans hs')
    exact ⟨(e.sourceId, e.targetId), nameOf json e.properties,
      (table_eq_some_iff hdb).mpr ⟨e, he, by rw [edgeKey, htype], rfl⟩, hname⟩
  · rintro ⟨k, v, htable, hname⟩
    obtain ⟨e, he, hkey, rfl⟩ := (table_eq_some_iff hdb).mp htable
    exact ⟨s, e, hs, he, congrArg Prod.fst hkey, hname⟩

theorem good_of_plainText (hjson : json.Lawful) {w : Write} {named : CStr} {s : Store}
    (hplain : w.PlainText named) (hj : w.Joins s) :
    w.Good json s ∧ (w.entry json).2.project = some named := by
  obtain ⟨function, file, url, key, extra, hmembers, hprops⟩ := hplain
  have hw := Write.carries_of_plain hjson hprops hmembers
  exact ⟨⟨hj, _, _, hw⟩, by rw [hw.entry]⟩

theorem mem_entriesOf {ws : List Write} {k : Int × Int} {v : CrossName} :
    (k, v) ∈ entriesOf json t ws ↔ ∃ w, w ∈ ws ∧ w.type = t ∧ w.entry json = (k, v) := by
  simp only [entriesOf, List.mem_map, List.mem_filter, decide_eq_true_iff, and_assoc]

theorem mem_forwards {project : CStr} {ts : List CStr} {w : Write} :
    w ∈ ts.flatMap (forwards cache project) ↔
      ∃ tgt l, tgt ∈ ts ∧ l ∈ linksTo cache project tgt ∧ l.fwd = w := by
  simp only [List.mem_flatMap, forwards, List.mem_map]
  constructor
  · rintro ⟨tgt, htgt, l, hl, rfl⟩
    exact ⟨tgt, l, htgt, hl, rfl⟩
  · rintro ⟨tgt, l, htgt, hl, rfl⟩
    exact ⟨tgt, htgt, l, hl, rfl⟩

theorem mem_reverses {project name : CStr} {ts : List CStr} {w : Write} :
    w ∈ ts.flatMap (reverses cache project name) ↔
      name ∈ ts ∧ ∃ l, l ∈ linksTo cache project name ∧ l.rev = some w := by
  rw [List.mem_flatMap]
  constructor
  · rintro ⟨tgt, htgt, hw⟩
    by_cases heq : tgt = name
    · subst heq
      rw [reverses_self, List.mem_flatMap] at hw
      obtain ⟨l, hl, hrev⟩ := hw
      exact ⟨htgt, l, hl, Option.mem_toList.mp hrev⟩
    · rw [reverses_of_ne heq] at hw
      exact absurd hw List.not_mem_nil
  · rintro ⟨hname, l, hl, hrev⟩
    refine ⟨name, hname, ?_⟩
    rw [reverses_self, List.mem_flatMap]
    exact ⟨l, hl, Option.mem_toList.mpr hrev⟩

theorem proper_linksTo (hsound : Sound json cache) {project tgt : CStr} {src s : Store} {l : Link}
    (hsrc : cache project = some src) (hs : cache tgt = some s)
    (hl : l ∈ linksTo cache project tgt) : l.Proper src s := by
  obtain ⟨-, s', hs', hmem⟩ := (mem_linksTo hsrc).mp hl
  obtain rfl := Option.some.inj (hs.symm.trans hs')
  exact proper_of_mem (hsound project src hsrc).1 (hsound tgt s hs).1 hmem

theorem table_own (hjson : json.Lawful) (hsound : Sound json cache) (hmeets : Meets json cache r)
    {src : Store} (hsrc : cache r.project = some src) :
    ∃ src', r.apply json.toSqlJson cache r.project = some src' ∧ Database r.project src' ∧
      ∀ t, Accepted json t src' ∧ table json src' t = writeAll (fun _ => none)
        (entriesOf json t (r.targets.flatMap (forwards cache r.project))) := by
  have hdb := (hsound r.project src hsrc).1
  obtain ⟨hrun, -⟩ := run_eq json.toSqlJson r.entries r.targetProjects hdb hsrc
  refine ⟨_, hrun, hdb.delete.inserts json.toSqlJson _, fun t => ?_⟩
  have hgood : ∀ w, w ∈ r.targets.flatMap (forwards cache r.project) → w.type = t →
      w.Good json (deleteCrossEdges src r.project) := by
    intro w hw _
    obtain ⟨tgt, l, htgt, hl, rfl⟩ := mem_forwards.mp hw
    obtain ⟨-, s, hs, -⟩ := (mem_linksTo hsrc).mp hl
    exact (good_of_plainText hjson (hmeets.texts tgt l htgt hl).1
      ((proper_linksTo hsound hsrc hs hl).joins.reads (sameReads_delete hdb))).1
  obtain ⟨htable, hacc⟩ := table_inserts _ _ hdb.delete (accepted_delete hdb) hgood
  rw [table_delete hdb] at htable
  exact ⟨hacc, htable⟩

theorem table_other (hjson : json.Lawful) (hsound : Sound json cache) (hmeets : Meets json cache r)
    {src : Store} (hsrc : cache r.project = some src) {name : CStr} (hne : name ≠ r.project)
    {s : Store} (hs : cache name = some s) :
    ∃ s', r.apply json.toSqlJson cache name = some s' ∧ Database name s' ∧
      ∀ t, Accepted json t s' ∧ table json s' t = writeAll (table json s t)
        (entriesOf json t (r.targets.flatMap (reverses cache r.project name))) := by
  obtain ⟨hdb, hacc⟩ := hsound name s hs
  obtain ⟨-, hrun⟩ :=
    run_eq json.toSqlJson r.entries r.targetProjects (hsound r.project src hsrc).1 hsrc
  have hname := hrun name hne
  rw [hs, Option.map_some] at hname
  refine ⟨_, hname, hdb.inserts json.toSqlJson _, fun t => ?_⟩
  have hgood : ∀ w, w ∈ r.targets.flatMap (reverses cache r.project name) → w.type = t →
      w.Good json s := by
    intro w hw _
    obtain ⟨hin, l, hl, hrev⟩ := mem_reverses.mp hw
    have hproper := proper_linksTo hsound hsrc hs hl
    obtain ⟨w', hw', -, hj⟩ := hproper.reverse (hmeets.sync name l hin hl)
    obtain rfl := Option.some.inj (hrev.symm.trans hw')
    exact (good_of_plainText hjson ((hmeets.texts name l hin hl).2 w hrev) hj).1
  obtain ⟨htable, hacc'⟩ := table_inserts _ _ hdb (hacc t) hgood
  exact ⟨hacc', htable⟩

theorem apply_of_none {name : CStr} {src : Store} (hsound : Sound json cache)
    (hsrc : cache r.project = some src) (hne : name ≠ r.project) (hnone : cache name = none) :
    r.apply json.toSqlJson cache name = none := by
  obtain ⟨-, hrun⟩ :=
    run_eq json.toSqlJson r.entries r.targetProjects (hsound r.project src hsrc).1 hsrc
  have hname := hrun name hne
  rwa [hnone, Option.map_none] at hname

theorem sound_apply (hjson : json.Lawful) (hsound : Sound json cache)
    (hmeets : Meets json cache r) : Sound json (r.apply json.toSqlJson cache) := by
  intro name s' hs'
  cases hsrc : cache r.project with
  | none =>
      have happly : r.apply json.toSqlJson cache = cache := by
        unfold Run.apply cbmCrossRepoMatch
        rw [hsrc]
      exact hsound name s' (happly ▸ hs')
  | some src =>
      by_cases hself : name = r.project
      · subst hself
        obtain ⟨src', hsrc', hdb, hall⟩ := table_own hjson hsound hmeets hsrc
        obtain rfl := Option.some.inj (hsrc'.symm.trans hs')
        exact ⟨hdb, fun t => (hall t).1⟩
      · cases hs : cache name with
        | none =>
            rw [apply_of_none hsound hsrc hself hs] at hs'
            cases hs'
        | some s =>
            obtain ⟨s'', hs'', hdb, hall⟩ := table_other hjson hsound hmeets hsrc hself hs
            obtain rfl := Option.some.inj (hs''.symm.trans hs')
            exact ⟨hdb, fun t => (hall t).1⟩

end Step

section Named

variable {json : JsonColumns} {cache : Cache} {r : Run} {t : CrossType} {src : Store}

def Linked (cache : Cache) (r : Run) (t : CrossType) (name : CStr) : Prop :=
  name ∈ r.targets ∧ ∃ l, l ∈ linksTo cache r.project name ∧ l.fwd.type = t

theorem names_own (hjson : json.Lawful) (hsound : Sound json cache) (hmeets : Meets json cache r)
    (hsrc : cache r.project = some src) (name : CStr) :
    Names json (r.apply json.toSqlJson cache) t r.project name ↔ Linked cache r t name := by
  obtain ⟨src', hsrc', hdb, hall⟩ := table_own hjson hsound hmeets hsrc
  rw [names_iff_table hdb hsrc', (hall t).2]
  -- the writes of a link name its target
  have hentry : ∀ tgt l, tgt ∈ r.targets → l ∈ linksTo cache r.project tgt →
      (l.fwd.entry json).2.project = some tgt := by
    intro tgt l htgt hl
    obtain ⟨-, s, hs, -⟩ := (mem_linksTo hsrc).mp hl
    exact (good_of_plainText hjson (hmeets.texts tgt l htgt hl).1
      (proper_linksTo hsound hsrc hs hl).joins).2
  constructor
  · rintro ⟨k, v, hwrite, hname⟩
    obtain hmem | hold := writeAll_eq_some hwrite
    · obtain ⟨w, hw, htype, heq⟩ := mem_entriesOf.mp hmem
      obtain ⟨tgt, l, htgt, hl, rfl⟩ := mem_forwards.mp hw
      have hproject := hentry tgt l htgt hl
      rw [heq, hname] at hproject
      obtain rfl := Option.some.inj hproject
      exact ⟨htgt, l, hl, htype⟩
    · cases hold
  · rintro ⟨hin, l, hl, htype⟩
    have hmem : (l.fwd.entry json) ∈
        entriesOf json t (r.targets.flatMap (forwards cache r.project)) :=
      mem_entriesOf.mpr ⟨l.fwd, mem_forwards.mpr ⟨name, l, hin, hl, rfl⟩, htype, rfl⟩
    obtain ⟨v, hv, hwrite⟩ := writeAll_of_mem (f := fun _ => none) hmem
    refine ⟨_, v, hwrite, ?_⟩
    -- what is written to the same row comes from the same target
    obtain ⟨w, hw, htype', heq⟩ := mem_entriesOf.mp hv
    obtain ⟨tgt, l', htgt, hl', rfl⟩ := mem_forwards.mp hw
    have hkey : l'.fwd.key = l.fwd.key := congrArg Prod.fst heq
    obtain rfl := hmeets.own tgt l' name l htgt hl' hin hl (htype'.trans htype.symm) hkey
    have hproject := hentry tgt l' htgt hl'
    rwa [heq] at hproject

theorem reverse_names (hjson : json.Lawful) (hsound : Sound json cache)
    (hmeets : Meets json cache r) (hsrc : cache r.project = some src) {name : CStr} {s : Store}
    (hs : cache name = some s) {k : Int × Int} {v : CrossName}
    (h : (k, v) ∈ entriesOf json t (r.targets.flatMap (reverses cache r.project name))) :
    v.project = some r.project ∧ Linked cache r t name ∧
      ∀ v', table json s t k = some v' → v'.project = some r.project := by
  obtain ⟨w, hw, htype, heq⟩ := mem_entriesOf.mp h
  obtain ⟨hin, l, hl, hrev⟩ := mem_reverses.mp hw
  obtain ⟨w', hw', htype', hj⟩ :=
    (proper_linksTo hsound hsrc hs hl).reverse (hmeets.sync name l hin hl)
  obtain rfl := Option.some.inj (hrev.symm.trans hw')
  have hproject := (good_of_plainText hjson ((hmeets.texts name l hin hl).2 w hrev) hj).2
  rw [heq] at hproject
  refine ⟨hproject, ⟨hin, l, hl, htype'.symm.trans htype⟩, fun v' hv' => ?_⟩
  obtain ⟨e, he, hkey, rfl⟩ := (table_eq_some_iff (hsound name s hs).1).mp hv'
  have hk : w.key = k := congrArg Prod.fst heq
  exact hmeets.other name l w s e hin hl hrev hs he (by rw [hkey, htype, hk])

theorem names_other (hjson : json.Lawful) (hsound : Sound json cache)
    (hmeets : Meets json cache r) (hsrc : cache r.project = some src) {name other : CStr}
    (hname : name ≠ r.project) (hother : other ≠ r.project) :
    Names json (r.apply json.toSqlJson cache) t name other ↔ Names json cache t name other := by
  cases hs : cache name with
  | none =>
      have hs' := apply_of_none hsound hsrc hname hs
      constructor
      · rintro ⟨s, e, hsome, -⟩
        rw [hs'] at hsome
        cases hsome
      · rintro ⟨s, e, hsome, -⟩
        rw [hs] at hsome
        cases hsome
  | some s =>
      obtain ⟨s', hs', hdb, hall⟩ := table_other hjson hsound hmeets hsrc hname hs
      rw [names_iff_table hdb hs', names_iff_table (hsound name s hs).1 hs, (hall t).2]
      have hnot : ∀ {v : CrossName}, v.project = some r.project → v.project ≠ some other := by
        intro v hv hv'
        exact hother (Option.some.inj (hv'.symm.trans hv))
      constructor
      · rintro ⟨k, v, hwrite, hv⟩
        obtain hmem | hold := writeAll_eq_some hwrite
        · exact absurd hv (hnot (reverse_names hjson hsound hmeets hsrc hs hmem).1)
        · exact ⟨k, v, hold, hv⟩
      · rintro ⟨k, v, hold, hv⟩
        refine ⟨k, v, ?_, hv⟩
        rw [writeAll_of_not_mem fun v' hv' => ?_, hold]
        exact hnot ((reverse_names hjson hsound hmeets hsrc hs hv').2.2 v hold) hv

theorem names_back (hjson : json.Lawful) (hsound : Sound json cache) (hmeets : Meets json cache r)
    (hsrc : cache r.project = some src) {name : CStr} (hname : name ≠ r.project) :
    Names json (r.apply json.toSqlJson cache) t name r.project ↔ Linked cache r t name := by
  cases hs : cache name with
  | none =>
      have hs' := apply_of_none hsound hsrc hname hs
      constructor
      · rintro ⟨s, e, hsome, -⟩
        rw [hs'] at hsome
        cases hsome
      · rintro ⟨-, l, hl, -⟩
        obtain ⟨-, s, hsome, -⟩ := (mem_linksTo hsrc).mp hl
        rw [hs] at hsome
        cases hsome
  | some s =>
      obtain ⟨s', hs', hdb, hall⟩ := table_other hjson hsound hmeets hsrc hname hs
      rw [names_iff_table hdb hs', (hall t).2]
      constructor
      · rintro ⟨k, v, hwrite, hv⟩
        obtain hmem | hold := writeAll_eq_some hwrite
        · exact (reverse_names hjson hsound hmeets hsrc hs hmem).2.1
        · exact hmeets.again t name
            ((names_iff_table (hsound name s hs).1 hs).mpr ⟨k, v, hold, hv⟩)
      · rintro ⟨hin, l, hl, htype⟩
        obtain ⟨w, hrev, htype', -⟩ :=
          (proper_linksTo hsound hsrc hs hl).reverse (hmeets.sync name l hin hl)
        have hmem : (w.entry json) ∈
            entriesOf json t (r.targets.flatMap (reverses cache r.project name)) :=
          mem_entriesOf.mpr ⟨w, mem_reverses.mpr ⟨hin, l, hl, hrev⟩, htype'.trans htype, rfl⟩
        obtain ⟨v, hv, hwrite⟩ := writeAll_of_mem (f := table json s t) hmem
        exact ⟨_, v, hwrite, (reverse_names hjson hsound hmeets hsrc hs hv).1⟩

theorem bothSides_apply (hjson : json.Lawful) (hsound : Sound json cache)
    (hboth : BothSides json cache) (hmeets : Meets json cache r) :
    BothSides json (r.apply json.toSqlJson cache) := by
  intro t project other
  cases hsrc : cache r.project with
  | none =>
      have happly : r.apply json.toSqlJson cache = cache := by
        unfold Run.apply cbmCrossRepoMatch
        rw [hsrc]
      rw [happly]
      exact hboth t project other
  | some src =>
      by_cases hproject : project = r.project
      · by_cases hother : other = r.project
        · rw [hproject, hother]
        · rw [hproject, names_own hjson hsound hmeets hsrc,
            names_back hjson hsound hmeets hsrc hother]
      · by_cases hother : other = r.project
        · rw [hother, names_own hjson hsound hmeets hsrc,
            names_back hjson hsound hmeets hsrc hproject]
        · rw [names_other hjson hsound hmeets hsrc hproject hother,
            names_other hjson hsound hmeets hsrc hother hproject]
          exact hboth t project other

end Named

section Steps

variable {json : JsonColumns} {cache cache' : Cache}

def runStep (json : JsonColumns) (cache : Cache) (r : Run) : Option Cache :=
  some (r.apply json.toSqlJson cache)

/-- After each of any runs whose links find room for both edges, links are visible from both
sides. -/
theorem bothSides_of_steps (hjson : json.Lawful)
    (hinit : ∀ name s, cache name = some s →
      Database name s ∧ ∀ e, e ∈ s.edges → isCross e.type = false)
    (hsteps : Steps (runStep json) (Meets json) cache cache') : BothSides json cache' := by
  have hcross : ∀ {name s} {e : EdgeRow} {t : CrossType}, cache name = some s → e ∈ s.edges →
      e.type ≠ t.name := by
    intro name s e t hs he htype
    have hno := (hinit name s hs).2 e he
    rw [htype, isCross_name] at hno
    cases hno
  have hstart : Sound json cache ∧ BothSides json cache := by
    refine ⟨fun name s hs => ⟨(hinit name s hs).1, fun t e he htype =>
      absurd htype (hcross hs he)⟩, fun t project other => ⟨?_, ?_⟩⟩
    · rintro ⟨s, e, hs, he, htype, -⟩
      exact absurd htype (hcross hs he)
    · rintro ⟨s, e, hs, he, htype, -⟩
      exact absurd htype (hcross hs he)
  refine (hsteps.invariant (P := fun c => Sound json c ∧ BothSides json c) ?_ hstart).2
  rintro c r c' ⟨hsound, hboth⟩ hmeets hnext
  obtain rfl := Option.some.inj hnext
  exact ⟨sound_apply hjson hsound hmeets, bothSides_apply hjson hsound hboth hmeets⟩

def serviceLink (tgt : CStr) : Link where
  fwd := ⟨.http, 1, 2, some (objectText (crossMembers tgt (bytesOf "serve") (bytesOf "s.go")
    (bytesOf "/x") (bytesOf "url_path") (bytesOf "GET")))⟩
  rev := some ⟨.http, 1, 2, some (objectText (crossMembers (bytesOf "a") (bytesOf "f")
    (bytesOf "f.go") (bytesOf "/x") (bytesOf "url_path") (bytesOf "GET")))⟩

theorem linksTo_services : linksTo services (bytesOf "a") (bytesOf "b") =
    [serviceLink (bytesOf "b")] := by
  decide +kernel

def oneRun : Run where
  entries := []
  project := bytesOf "a"
  targetProjects := [bytesOf "b"]

theorem noCross_services (name : CStr) (s : Store) (h : services name = some s) :
    Database name s ∧ ∀ e, e ∈ s.edges → isCross e.type = false := by
  refine ⟨database_services name s h, fun e he => ?_⟩
  obtain ⟨-, rfl⟩ | ⟨-, rfl⟩ := services_eq_some h
  · obtain rfl := List.mem_singleton.mp he
    decide
  · obtain rfl := List.mem_singleton.mp he
    change isCross (bytesOf "HANDLES") = false
    decide

theorem names_services (t : CrossType) (name other : CStr) :
    ¬ Names strictColumns services t name other := by
  rintro ⟨s, e, hs, he, htype, -⟩
  have hno := (noCross_services name s hs).2 e he
  rw [htype, isCross_name] at hno
  cases hno

theorem meets_oneRun : Meets strictColumns services oneRun := by
  have hlink : ∀ {tgt l}, tgt ∈ oneRun.targets → l ∈ linksTo services oneRun.project tgt →
      tgt = bytesOf "b" ∧ l = serviceLink (bytesOf "b") := by
    intro tgt l htgt hl
    obtain rfl := List.mem_singleton.mp (show tgt ∈ [bytesOf "b"] from htgt)
    have hmem : l ∈ linksTo services (bytesOf "a") (bytesOf "b") := hl
    rw [linksTo_services] at hmem
    exact ⟨rfl, List.mem_singleton.mp hmem⟩
  have hplain : ∀ tgt, tgt ∈ [bytesOf "a", bytesOf "b"] → ∀ function file,
      function ∈ [bytesOf "serve", bytesOf "f"] → file ∈ [bytesOf "s.go", bytesOf "f.go"] →
      PlainMembers (crossMembers tgt function file (bytesOf "/x") (bytesOf "url_path")
        (bytesOf "GET")) := by
    have hall : ∀ text, text ∈ [bytesOf "a", bytesOf "b", bytesOf "serve", bytesOf "f",
        bytesOf "s.go", bytesOf "f.go", bytesOf "/x", bytesOf "GET"] → Plain text := by
      decide
    intro tgt htgt function file hfunction hfile
    refine plainMembers_cross (hall _ ?_) (hall _ ?_) (hall _ ?_) (hall _ (by simp))
      (hall _ (by simp)) List.mem_cons_self
    · simp only [List.mem_cons, List.not_mem_nil, or_false] at htgt ⊢
      tauto
    · simp only [List.mem_cons, List.not_mem_nil, or_false] at hfunction ⊢
      tauto
    · simp only [List.mem_cons, List.not_mem_nil, or_false] at hfile ⊢
      tauto
  constructor
  · intro tgt l htgt hl
    obtain ⟨rfl, rfl⟩ := hlink htgt hl
    refine ⟨⟨_, _, _, _, _, hplain _ ?_ _ _ ?_ ?_, rfl⟩, fun w hw => ?_⟩
    · decide
    · exact List.mem_cons_self
    · exact List.mem_cons_self
    · obtain rfl := Option.some.inj hw
      refine ⟨_, _, _, _, _, hplain _ ?_ _ _ ?_ ?_, rfl⟩
      · exact List.mem_cons_self
      · decide
      · decide
  · intro tgt l htgt hl
    obtain ⟨rfl, rfl⟩ := hlink htgt hl
    decide
  · intro tgt l tgt' l' htgt hl htgt' hl' _ _
    rw [(hlink htgt hl).1, (hlink htgt' hl').1]
  · intro tgt l w s e htgt hl hrev hs he hkey
    have hno := (noCross_services tgt s hs).2 e he
    have htype : e.type = w.type.name := congrArg Prod.fst hkey
    rw [htype, isCross_name] at hno
    cases hno
  · intro t name h
    exact absurd h (names_services t name _)

theorem bothSides_oneRun :
    BothSides strictColumns (oneRun.apply strictColumns.toSqlJson services) :=
  bothSides_of_steps strictColumns_lawful noCross_services
    (Steps.refl.tail meets_oneRun rfl)

def twoRun : Run where
  entries := []
  project := bytesOf "a"
  targetProjects := [bytesOf "b", bytesOf "c"]

/-- The edges of a database, by what they name. -/
def namedIn (json : JsonColumns) (cache : Cache) (name : CStr) :
    Option (List (CStr × Option CStr)) :=
  (cache name).map fun s =>
    s.edges.map fun e => (e.type, json.member e.properties (bytesOf "target_project"))

theorem names_iff_namedIn {json : JsonColumns} {cache : Cache} {t : CrossType}
    {name other : CStr} : Names json cache t name other ↔
      ∃ l, namedIn json cache name = some l ∧ (t.name, some other) ∈ l := by
  constructor
  · rintro ⟨s, e, hs, he, htype, hname⟩
    refine ⟨_, by rw [namedIn, hs, Option.map_some], List.mem_map.mpr ⟨e, he, ?_⟩⟩
    rw [htype, hname]
  · rintro ⟨l, hl, hmem⟩
    obtain ⟨s, hs, rfl⟩ := Option.map_eq_some_iff.mp hl
    obtain ⟨e, he, heq⟩ := List.mem_map.mp hmem
    exact ⟨s, e, hs, he, congrArg Prod.fst heq, congrArg Prod.snd heq⟩

/-- Of a call to two services one is seen from the other side only. -/
theorem not_bothSides_two :
    (∀ name s, services name = some s →
      Database name s ∧ ∀ e, e ∈ s.edges → isCross e.type = false) ∧
    ¬ BothSides strictColumns (twoRun.apply strictColumns.toSqlJson services) := by
  refine ⟨noCross_services, fun hboth => ?_⟩
  have ha : namedIn strictColumns (twoRun.apply strictColumns.toSqlJson services) (bytesOf "a") =
      some [(bytesOf "HTTP_CALLS", none), (CrossType.http.name, some (bytesOf "c"))] := by
    decide +kernel
  have hb : namedIn strictColumns (twoRun.apply strictColumns.toSqlJson services) (bytesOf "b") =
      some [(bytesOf "HANDLES", none), (CrossType.http.name, some (bytesOf "a"))] := by
    decide +kernel
  have hback : Names strictColumns (twoRun.apply strictColumns.toSqlJson services) .http
      (bytesOf "b") (bytesOf "a") :=
    names_iff_namedIn.mpr ⟨_, hb, List.mem_cons_of_mem _ List.mem_cons_self⟩
  obtain ⟨l, hl, hmem⟩ := names_iff_namedIn.mp ((hboth .http (bytesOf "b") (bytesOf "a")).mp hback)
  rw [ha] at hl
  obtain rfl := Option.some.inj hl
  exact absurd hmem (by decide)

end Steps

end CrossRepo
end CodebaseMemory
