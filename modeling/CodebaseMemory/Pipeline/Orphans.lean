import CodebaseMemory.Pipeline.Runs

/-!
# Files that own nodes and have no hash row

A later run learns that a file is gone from its hash row: a file whose nodes
are in the graph and that has no row is never purged.  A run purges by one list
(`changed`, `deleted`), writes rows by two others (the discovered files, the
mode-skipped ones), and creates a File node for every changed file.

A discovered file that is gone when `persist_hashes` looks at it gets a File
node and no row.
-/

namespace CodebaseMemory
namespace Pipeline

open Lib
open GraphBuffer
open Sqlite (CStr bytesOf DumpNode DumpEdge)

/-- The nodes that a call writes: their names and files. -/
def PassCall.writes : PassCall → List (CStr × CStr)
  | .upsert _ _ qn filePath _ _ _ => [(qn, heapStrdup filePath)]
  | .merge worker => (cbmGbufForeachNode worker).filterMap fun p =>
      (worker.nodeAt p).qualifiedName.map fun qn => (qn, (worker.nodeAt p).filePath)
  | .insertEdge _ _ _ _ => []
  | .setNextId _ => []

theorem content_run {g : Gbuf} (h : Owned g) (call : PassCall) (qn : CStr) :
    (∃ x, content (call.run g) qn = some x ∧ (qn, x.filePath) ∈ call.writes) ∨
      ((∀ f, (qn, f) ∉ call.writes) ∧ content (call.run g) qn = content g qn) := by
  cases call with
  | upsert label name qn' filePath startLine endLine properties =>
      have hup := content_upsert h.named label name qn' filePath startLine endLine properties qn
      by_cases hqn : qn = qn'
      · rw [if_pos hqn] at hup
        refine Or.inl ⟨_, hup, ?_⟩
        rw [hqn]
        exact List.mem_singleton_self _
      · rw [if_neg hqn] at hup
        refine Or.inr ⟨fun f hf => ?_, hup⟩
        exact hqn (congrArg Prod.fst (List.mem_singleton.mp hf))
  | insertEdge src tgt type properties =>
      have hpart := nodePart_cbmGbufInsertEdge g src tgt type properties
      exact Or.inr ⟨fun _ => List.not_mem_nil, congrFun (content_of_nodePart hpart) qn⟩
  | merge worker =>
      rcases content_merge h.named worker qn with ⟨s, hs, hname, hcontent⟩ | ⟨hno, hsame⟩
      · refine Or.inl ⟨_, hcontent, List.mem_filterMap.mpr ⟨s, hs, ?_⟩⟩
        rw [hname]
        rfl
      · refine Or.inr ⟨fun f hf => ?_, hsame⟩
        obtain ⟨s, hs, hpair⟩ := List.mem_filterMap.mp hf
        obtain ⟨qn', hqn', hpair'⟩ := Option.map_eq_some_iff.mp hpair
        have hfst : qn' = qn := congrArg Prod.fst hpair'
        refine hno s hs ?_
        rw [hqn', hfst]
  | setNextId id => exact Or.inr ⟨fun _ => List.not_mem_nil, rfl⟩

/-- Every call meets `P` in the buffer it finds. -/
def Along (P : Gbuf → PassCall → Prop) : Gbuf → List PassCall → Prop
  | _, [] => True
  | g, call :: calls => P g call ∧ Along P (call.run g) calls

theorem Along.invariant {P : Gbuf → PassCall → Prop} {Q : Gbuf → Prop} (calls : List PassCall) :
    ∀ g, Along P g calls → (∀ g call, Q g → P g call → Q (call.run g)) → Q g →
      Q (calls.foldl PassCall.run g) := by
  induction calls with
  | nil => exact fun g _ _ hg => hg
  | cons call calls ih =>
      intro g halong hstep hg
      exact ih (call.run g) halong.2 hstep (hstep g call hg halong.1)

/-- Some node is of the file. -/
def OwnsFile (g : Gbuf) (f : CStr) : Prop :=
  ∃ qn x, content g qn = some x ∧ x.filePath = f

/-- The call writes nodes of the given files, of files that own nodes, and nodes
that are of no file. -/
def GivenFiles (IsFile : CStr → Prop) (changed : List CStr) (g : Gbuf) (call : PassCall) : Prop :=
  ∀ w, w ∈ call.writes → IsFile w.2 → w.2 ∈ changed ∨ OwnsFile g w.2

/-- The call writes no node of the file, and no name that a node of it has. -/
def Spares (f : CStr) (g : Gbuf) (call : PassCall) : Prop :=
  ∀ w, w ∈ call.writes → w.2 ≠ f ∧ ∀ x, content g w.1 = some x → x.filePath ≠ f

def Reindex.fileCalls (r : Reindex) : List PassCall :=
  r.changed.filterMap fun f => (r.fileQn f).map fun qn =>
    .upsert (some (bytesOf "File")) (some f) qn (some f) 0 0 (some emptyObject)

theorem upsertFiles_eq (fileQn : CStr → Option CStr) (files : List CStr) :
    ∀ g : Gbuf, files.foldl (upsertFile fileQn) g =
      (files.filterMap fun f => (fileQn f).map fun qn =>
        PassCall.upsert (some (bytesOf "File")) (some f) qn (some f) 0 0
          (some emptyObject)).foldl PassCall.run g := by
  induction files with
  | nil => exact fun g => rfl
  | cons f files ih =>
      intro g
      rw [List.foldl_cons, upsertFile]
      cases hqn : fileQn f with
      | none =>
          rw [List.filterMap_cons_none (by rw [hqn]; rfl)]
          exact ih g
      | some qn =>
          rw [List.filterMap_cons_some (by rw [hqn]; rfl)]
          exact ih _

theorem Reindex.prepared_eq (r : Reindex) :
    r.prepared = r.fileCalls.foldl PassCall.run r.purged :=
  upsertFiles_eq r.fileQn r.changed r.purged

theorem Reindex.result_eq (r : Reindex) :
    r.result = (r.fileCalls ++ r.calls).foldl PassCall.run r.purged := by
  rw [List.foldl_append, ← r.prepared_eq]
  rfl

theorem content_purge (files : List CStr) :
    ∀ g : Gbuf, Owned g → ∀ qn x, content (files.foldl cbmGbufDeleteByFile g) qn = some x ↔
      content g qn = some x ∧ x.filePath ∉ files := by
  induction files with
  | nil => exact fun g _ qn x => by simp
  | cons file files ih =>
      intro g h qn x
      rw [List.foldl_cons, ih _ (h.deleteByFile file) qn x, content_deleteByFile h,
        Option.filter_eq_some_iff, List.mem_cons, not_or, decide_eq_true_iff, and_assoc]

section Graph

variable {IsFile : CStr → Prop}

theorem ownsFile_calls {changed : List CStr} {g₀ : Gbuf} {calls : List PassCall}
    (hg₀ : Owned g₀) (halong : Along (GivenFiles IsFile changed) g₀ calls) {f : CStr}
    (hf : IsFile f) (howns : OwnsFile (calls.foldl PassCall.run g₀) f) :
    f ∈ changed ∨ OwnsFile g₀ f := by
  have hinv : Owned (calls.foldl PassCall.run g₀) ∧
      (OwnsFile (calls.foldl PassCall.run g₀) f → f ∈ changed ∨ OwnsFile g₀ f) := by
    refine halong.invariant (Q := fun g => Owned g ∧ (OwnsFile g f → f ∈ changed ∨ OwnsFile g₀ f))
      calls g₀ ?_ ⟨hg₀, Or.inr⟩
    rintro g call ⟨howned, hfrom⟩ hgiven
    refine ⟨owned_run howned call, ?_⟩
    rintro ⟨qn, x, hx, rfl⟩
    rcases content_run howned call qn with ⟨y, hy, hw⟩ | ⟨-, hsame⟩
    · obtain rfl : y = x := Option.some.inj (hy.symm.trans hx)
      rcases hgiven _ hw hf with hc | hold
      · exact Or.inl hc
      · exact hfrom hold
    · exact hfrom ⟨qn, x, hsame ▸ hx, rfl⟩
  exact hinv.2 howns

theorem along_fileCalls (fileQn : CStr → Option CStr) {changed : List CStr} (files : List CStr) :
    ∀ g : Gbuf, (∀ f, f ∈ files → f ∈ changed) →
      Along (GivenFiles IsFile changed) g
        (files.filterMap fun f => (fileQn f).map fun qn =>
          PassCall.upsert (some (bytesOf "File")) (some f) qn (some f) 0 0 (some emptyObject)) := by
  induction files with
  | nil => exact fun _ _ => trivial
  | cons f files ih =>
      intro g hfiles
      have hrest : ∀ f, f ∈ files → f ∈ changed := fun g hg => hfiles g (List.mem_cons_of_mem f hg)
      cases hqn : fileQn f with
      | none =>
          rw [List.filterMap_cons_none (by rw [hqn]; rfl)]
          exact ih g hrest
      | some qn =>
          rw [List.filterMap_cons_some (by rw [hqn]; rfl)]
          refine ⟨fun w hw _ => Or.inl ?_, ih _ hrest⟩
          rw [List.mem_singleton.mp hw]
          exact hfiles f List.mem_cons_self

theorem Reindex.ownsFile_result (r : Reindex)
    (hnames : (r.nodes.map DumpNode.qualifiedName).Nodup)
    (halong : Along (GivenFiles IsFile r.changed) r.prepared r.calls) {f : CStr} (hf : IsFile f)
    (howns : OwnsFile r.result f) :
    f ∈ r.changed ∨ (OwnsFile r.loaded f ∧ f ∉ r.changed ++ r.deleted) := by
  rcases ownsFile_calls (r.owned_prepared hnames) halong hf howns with hc | hprep
  · exact Or.inl hc
  · rw [r.prepared_eq] at hprep
    rcases ownsFile_calls (r.owned_purged hnames)
      (along_fileCalls r.fileQn r.changed r.purged (fun _ h => h)) hf hprep with hc | ⟨qn, x, hx, rfl⟩
    · exact Or.inl hc
    · obtain ⟨hload, hkept⟩ :=
        (content_purge (r.changed ++ r.deleted) r.loaded (r.owned_loaded hnames) qn x).mp hx
      exact Or.inr ⟨⟨qn, x, hload, rfl⟩, hkept⟩

theorem content_spared {f : CStr} {g₀ : Gbuf} {calls : List PassCall} (hg₀ : Owned g₀)
    (halong : Along (Spares f) g₀ calls) {qn : CStr} {x : NodeFields} (hx : x.filePath = f) :
    content (calls.foldl PassCall.run g₀) qn = some x ↔ content g₀ qn = some x := by
  have hinv : Owned (calls.foldl PassCall.run g₀) ∧
      (content (calls.foldl PassCall.run g₀) qn = some x ↔ content g₀ qn = some x) := by
    refine halong.invariant
      (Q := fun g => Owned g ∧ (content g qn = some x ↔ content g₀ qn = some x)) calls g₀ ?_
      ⟨hg₀, Iff.rfl⟩
    rintro g call ⟨howned, hiff⟩ hspares
    refine ⟨owned_run howned call, ?_⟩
    rw [← hiff]
    rcases content_run howned call qn with ⟨y, hy, hw⟩ | ⟨-, hsame⟩
    · obtain ⟨hother, hname⟩ := hspares _ hw
      constructor
      · intro hnew
        obtain rfl : y = x := Option.some.inj (hy.symm.trans hnew)
        exact absurd hx hother
      · intro hold
        exact absurd hx (hname x hold)
    · rw [hsame]
  exact hinv.2

theorem Reindex.content_result (r : Reindex)
    (hnames : (r.nodes.map DumpNode.qualifiedName).Nodup) {f : CStr}
    (hkept : f ∉ r.changed ++ r.deleted)
    (halong : Along (Spares f) r.purged (r.fileCalls ++ r.calls)) {qn : CStr} {x : NodeFields}
    (hx : x.filePath = f) : content r.result qn = some x ↔ content r.loaded qn = some x := by
  rw [r.result_eq, content_spared (r.owned_purged hnames) halong hx]
  refine (content_purge (r.changed ++ r.deleted) r.loaded (r.owned_loaded hnames) qn x).trans ?_
  rw [hx]
  exact and_iff_left hkept

end Graph

section Runs

variable {α : Type} {repo : Repo} {IsFile : CStr → Prop}

/-- A node row is of the file. -/
def Owns (db : Db α) (f : CStr) : Prop :=
  ∃ row qn, row ∈ db.nodes ∧ row.qualifiedName = some qn ∧ heapStrdup row.filePath = f

/-- Every file that owns nodes has a hash row.  Paths that are not those of files
are left out: folders own nodes as well, and routes have the empty path. -/
def Indexed (IsFile : CStr → Prop) (db : Db α) : Prop :=
  ∀ f, IsFile f → Owns db f → f ∈ db.hashes.map FileHash.relPath

/-- The store succeeds, and the passes write nodes of the files they are
given. -/
def Works (repo : Repo) (IsFile : CStr → Prop) (s : State α) : Action α → Prop
  | .next ok => ok = true
  | .dump calls => ∀ job, s.phase = .extract job →
      Along (GivenFiles IsFile job.changed) (job.reindex repo s.db calls).prepared calls
  | _ => True

/-- A discovered file is there when its row is written. -/
def Present (s : State α) : Action α → Prop
  | .next _ => ∀ job f todo, s.phase = .persist job (f :: todo) → (s.disk f).stat.isSome = true
  | _ => True

/-- The condition on runs. -/
def Steady (repo : Repo) (IsFile : CStr → Prop) (s : State α) (a : Action α) : Prop :=
  Works repo IsFile s a ∧ Present s a

/-- What the user makes of the file satisfies `P`, and no other run starts. -/
def Keeps (P : Entry α → Prop) (f : CStr) : Action α → Prop
  | .touch g entry => g = f → P entry
  | .start _ => False
  | _ => True

/-- The passes leave the nodes of the file alone. -/
def SparesFile (repo : Repo) (f : CStr) (s : State α) : Action α → Prop
  | .dump calls => ∀ job, s.phase = .extract job →
      Along (Spares f) (job.reindex repo s.db calls).purged
        ((job.reindex repo s.db calls).fileCalls ++ calls)
  | _ => True

/-- One run, from the discovery to its end, whose steps meet `ok`. -/
def OneRun (repo : Repo) (ok : State α → Action α → Prop) (s : State α) (files : List CStr)
    (s' : State α) : Prop :=
  ∃ t, s.step repo (.start files) = some t ∧ Steps (State.step repo) ok t s' ∧ s'.phase = .idle

/-- The file has the same nodes in both databases, apart from their ids. -/
def SameNodes (db db' : Db α) (f : CStr) : Prop :=
  ∀ qn x, x.filePath = f → (rowContent db'.nodes qn = some x ↔ rowContent db.nodes qn = some x)

theorem owns_iff (db : Db α) (f : CStr) :
    Owns db f ↔ ∃ qn x, rowContent db.nodes qn = some x ∧ x.filePath = f := by
  constructor
  · rintro ⟨row, qn, hrow, hqn, rfl⟩
    exact ⟨qn, rowFields row, (rowContent_eq_some db.names).mpr ⟨row, hrow, hqn, rfl⟩, rfl⟩
  · rintro ⟨qn, x, hx, rfl⟩
    obtain ⟨row, hrow, hqn, rfl⟩ := (rowContent_eq_some db.names).mp hx
    exact ⟨row, qn, hrow, hqn, rfl⟩

theorem content_loaded (job : Job α) (repo : Repo) (db : Db α) (calls : List PassCall) :
    content (job.reindex repo db calls).loaded = rowContent db.nodes :=
  (content_load repo.project db.edges db.names).2

theorem ownsFile_loaded (job : Job α) (repo : Repo) (db : Db α) (calls : List PassCall)
    (f : CStr) : OwnsFile (job.reindex repo db calls).loaded f ↔ Owns db f := by
  rw [owns_iff, OwnsFile, content_loaded]

theorem rowContent_dumped (job : Job α) (repo : Repo) (db : Db α) (calls : List PassCall) :
    rowContent (job.dumped repo db calls).nodes = content (job.reindex repo db calls).result :=
  rowContent_dump ((job.reindex repo db calls).owned_result db.names) _

variable {a : Action α}
variable {s s' : State α}
variable {f : CStr}
variable {files : List CStr}
variable {job : Job α}

theorem owns_dumped {db : Db α} {calls : List PassCall}
    (halong : Along (GivenFiles IsFile job.changed) (job.reindex repo db calls).prepared calls)
    (hf : IsFile f) (howns : Owns (job.dumped repo db calls) f) :
    f ∈ job.changed ∨ (Owns db f ∧ f ∉ job.changed ∧ f ∉ job.deleted) := by
  rw [owns_iff, rowContent_dumped] at howns
  rcases (job.reindex repo db calls).ownsFile_result db.names halong hf howns with hc | ⟨hold, hno⟩
  · exact Or.inl hc
  · refine Or.inr ⟨(ownsFile_loaded job repo db calls f).mp hold, ?_⟩
    exact not_or.mp (fun h => hno (List.mem_append.mpr h))

theorem sameNodes_dumped {db : Db α} {calls : List PassCall} (hchanged : f ∉ job.changed)
    (hdeleted : f ∉ job.deleted) (halong : Along (Spares f) (job.reindex repo db calls).purged
      ((job.reindex repo db calls).fileCalls ++ calls)) :
    SameNodes db (job.dumped repo db calls) f := by
  intro qn x hx
  have hkept : f ∉ job.changed ++ job.deleted := by
    rw [List.mem_append, not_or]
    exact ⟨hchanged, hdeleted⟩
  rw [rowContent_dumped,
    (job.reindex repo db calls).content_result db.names hkept halong hx, content_loaded]

/-- Discovered files whose rows are still to be written. -/
def Phase.filesAhead : Phase α → List CStr
  | .persist _ todo => todo
  | _ => []

/-- The invariant: a file that owns nodes has a row, or is to get one. -/
structure Covered (IsFile : CStr → Prop) (s : State α) : Prop where
  shape : PhaseShape s.db s.phase
  rows : ∀ f, IsFile f → Owns s.db f →
    f ∈ s.phase.filesAhead ∨ f ∈ (s.db.hashes ++ s.phase.rowsAhead).map FileHash.relPath

theorem mem_paths_upsert {rows rest : List FileHash} {row : FileHash}
    (hf : f = row.relPath ∨ f ∈ (rows ++ rest).map FileHash.relPath) :
    f ∈ (upsertFileHash rows row ++ rest).map FileHash.relPath := by
  rw [List.map_append, List.mem_append]
  by_cases hrow : f = row.relPath
  · refine Or.inl (List.mem_map.mpr ⟨row, mem_upsertFileHash.mpr (Or.inl rfl), hrow.symm⟩)
  · have hold := hf.resolve_left hrow
    rw [List.map_append, List.mem_append] at hold
    refine hold.imp_left fun hmem => ?_
    obtain ⟨r, hr, rfl⟩ := List.mem_map.mp hmem
    exact List.mem_map_of_mem (mem_upsertFileHash.mpr (Or.inr ⟨hr, hrow⟩))

theorem Covered.step (h : Covered IsFile s) (hsteady : Steady repo IsFile s a)
    (hstep : s.step repo a = some s') : Covered IsFile s' := by
  have hshape := h.shape.step hstep
  have hrows := h.rows
  have hold := h.shape
  refine ⟨hshape, ?_⟩
  cases moves_of_step hstep with
  | touch disk db phase c f entry => exact hrows
  | cancel disk db phase c => exact hrows
  | start disk db c hfiles => exact hrows
  | classify disk db c job f todo ok => exact hrows
  | classified disk db c job ok => exact hrows
  | findDeleted disk db c job row todo ok => exact hrows
  | giveUp disk db c hstop => exact hrows
  | load disk db c job ok => exact hrows
  | read disk db hf => exact hrows
  | @dump disk db c job calls hdone =>
      intro f hf howns
      rcases owns_dumped (hsteady.1 job rfl) hf howns with hc | ⟨hdb, hchanged, hdeleted⟩
      · exact Or.inl (hold.changed f hc)
      · -- an old row is of a discovered file or is carried over
        have hrow := (hrows f hf hdb).resolve_left List.not_mem_nil
        change f ∈ (db.hashes ++ []).map FileHash.relPath at hrow
        rw [List.append_nil] at hrow
        obtain ⟨r, hr, rfl⟩ := List.mem_map.mp hrow
        rcases hold.stored r hr with hfile | hdel | hskip | htodo
        · exact Or.inl hfile
        · exact absurd hdel hdeleted
        · exact Or.inr (List.mem_map_of_mem (List.mem_append_right _ hskip))
        · exact absurd htodo List.not_mem_nil
  | @persist disk db c job g todo st hstat =>
      intro f hf howns
      rcases hrows f hf howns with htodo | hrow
      · rcases List.mem_cons.mp htodo with rfl | htodo
        · exact Or.inr (mem_paths_upsert (Or.inl rfl))
        · exact Or.inl htodo
      · exact Or.inr (mem_paths_upsert (Or.inr hrow))
  | @skip disk db c job g todo ok hskip =>
      obtain ⟨rfl, hthere⟩ := hsteady
      rcases hskip with hgone | hfalse
      · have hsome := hthere job g todo rfl
        rw [hgone] at hsome
        exact absurd hsome (by simp)
      · exact absurd hfalse (by simp)
  | persisted disk db c job ok =>
      intro f hf howns
      exact Or.inr ((hrows f hf howns).resolve_left List.not_mem_nil)
  | carry disk db c row todo =>
      intro f hf howns
      have hrow := (hrows f hf howns).resolve_left List.not_mem_nil
      refine Or.inr (mem_paths_upsert ?_)
      change f ∈ (db.hashes ++ row :: todo).map FileHash.relPath at hrow
      rw [List.map_append, List.mem_append, List.map_cons, List.mem_cons] at hrow
      rw [List.map_append, List.mem_append]
      rcases hrow with hmem | hhead | hmem
      · exact Or.inr (Or.inl hmem)
      · exact Or.inl hhead
      · exact Or.inr (Or.inr hmem)
  | drop disk db c row todo => exact absurd hsteady.1 Bool.false_ne_true
  | done disk db c ok => exact hrows

theorem indexed_iff (hidle : s.phase = .idle) : Covered IsFile s ↔ Indexed IsFile s.db := by
  constructor
  · intro h f hf howns
    have hrow := h.rows f hf howns
    rw [hidle] at hrow
    have hmem := hrow.resolve_left List.not_mem_nil
    change f ∈ (s.db.hashes ++ []).map FileHash.relPath at hmem
    rwa [List.append_nil] at hmem
  · intro h
    refine ⟨by rw [hidle]; trivial, fun f hf howns => Or.inr ?_⟩
    rw [List.map_append, List.mem_append]
    exact Or.inl (h f hf howns)

/-- What holds of a file that is gone during a run. -/
def PhaseGone (db : Db α) (f : CStr) : Phase α → Prop
  | .classify job _ => f ∉ job.files ∧ ∀ h, h ∈ job.modeSkipped → h.relPath ≠ f
  | .findDeleted job _ => f ∉ job.files ∧ ∀ h, h ∈ job.modeSkipped → h.relPath ≠ f
  | .extract job => f ∉ job.files ∧ ∀ h, h ∈ job.modeSkipped → h.relPath ≠ f
  | _ => ¬ Owns db f

/-- The path fits into `abs_path` of `find_deleted_files`. -/
def FitsPath (repo : Repo) (f : CStr) : Prop :=
  repo.repoPath.length + 1 + f.length < absPathSize

theorem skipped_classified {stored : List FileHash} {entry : Entry α} :
    (job.classified stored entry f).modeSkipped = job.modeSkipped := by
  unfold Job.classified
  split <;> rfl

theorem not_skipped_found (hfits : FitsPath repo f)
    (hskip : ∀ h, h ∈ job.modeSkipped → h.relPath ≠ f) {disk : CStr → Entry α}
    (hgone : disk f = .missing) (row : FileHash) :
    ∀ h, h ∈ (job.found repo.repoPath (disk row.relPath) row).modeSkipped → h.relPath ≠ f := by
  unfold Job.found
  split
  · exact hskip
  · split
    · next hpreserve =>
        intro h hh
        rcases List.mem_append.mp hh with hh | hh
        · exact hskip h hh
        · rw [List.mem_singleton.mp hh]
          rintro rfl
          unfold preserve at hpreserve
          rw [if_neg (Nat.not_le.mpr hfits), hgone] at hpreserve
          exact absurd hpreserve (by simp)
    · exact hskip

structure Gone (IsFile : CStr → Prop) (f : CStr) (s : State α) : Prop where
  covered : Covered IsFile s
  disk : s.disk f = .missing
  phase : PhaseGone s.db f s.phase

theorem Covered.row (h : Covered IsFile s) (hfiles : s.phase.filesAhead = [])
    (hahead : s.phase.rowsAhead = []) (hf : IsFile f) (howns : Owns s.db f) :
    ∃ r, r ∈ s.db.hashes ∧ r.relPath = f := by
  have hrow := h.rows f hf howns
  rw [hfiles, hahead, List.append_nil] at hrow
  exact List.mem_map.mp (hrow.resolve_left List.not_mem_nil)

theorem Gone.step (hf : IsFile f) (hfits : FitsPath repo f) (h : Gone IsFile f s)
    (hsteady : Steady repo IsFile s a) (halone : Keeps (· = .missing) f a)
    (hstep : s.step repo a = some s') : Gone IsFile f s' := by
  have hcovered := h.covered.step hsteady hstep
  have hdisk := h.disk
  have hphase := h.phase
  have hold := h.covered.shape
  cases moves_of_step hstep with
  | touch disk db phase c g entry =>
      refine ⟨hcovered, ?_, hphase⟩
      change Function.update disk g entry f = .missing
      by_cases hg : g = f
      · rw [hg, Function.update_self]
        exact halone hg
      · rw [Function.update_of_ne (Ne.symm hg)]
        exact hdisk
  | cancel disk db phase c => exact ⟨hcovered, hdisk, hphase⟩
  | start disk db c hfiles => exact absurd halone not_false
  | classify disk db c job g todo ok =>
      refine ⟨hcovered, hdisk, ?_, ?_⟩
      · rw [files_classified]
        exact hphase.1
      · rw [skipped_classified]
        exact hphase.2
  | classified disk db c job ok => exact ⟨hcovered, hdisk, hphase⟩
  | findDeleted disk db c job row todo ok =>
      refine ⟨hcovered, hdisk, ?_, not_skipped_found hfits hphase.2 hdisk row⟩
      rw [files_found]
      exact hphase.1
  | @giveUp disk db c job ok hstop =>
      refine ⟨hcovered, hdisk, fun howns => ?_⟩
      obtain ⟨-, hdeleted⟩ := hstop.resolve_right (by rw [hsteady.1]; simp)
      obtain ⟨r, hr, rfl⟩ := h.covered.row rfl rfl hf howns
      rcases hold.stored r hr with hfile | hdel | hskip | htodo
      · exact hphase.1 hfile
      · rw [hdeleted] at hdel
        exact absurd hdel List.not_mem_nil
      · exact hphase.2 r hskip rfl
      · exact absurd htodo List.not_mem_nil
  | load disk db c job ok => exact ⟨hcovered, hdisk, hphase⟩
  | read disk db hg => exact ⟨hcovered, hdisk, hphase⟩
  | @dump disk db c job calls hdone =>
      refine ⟨hcovered, hdisk, fun howns => ?_⟩
      rcases owns_dumped (hsteady.1 job rfl) hf howns with hc | ⟨hdb, -, hdeleted⟩
      · exact hphase.1 (hold.changed f hc)
      · obtain ⟨r, hr, rfl⟩ := h.covered.row rfl rfl hf hdb
        rcases hold.stored r hr with hfile | hdel | hskip | htodo
        · exact hphase.1 hfile
        · exact hdeleted hdel
        · exact hphase.2 r hskip rfl
        · exact absurd htodo List.not_mem_nil
  | persist disk db c job todo hstat => exact ⟨hcovered, hdisk, hphase⟩
  | skip disk db c job todo hskip => exact ⟨hcovered, hdisk, hphase⟩
  | persisted disk db c job ok => exact ⟨hcovered, hdisk, hphase⟩
  | carry disk db c row todo => exact ⟨hcovered, hdisk, hphase⟩
  | drop disk db c row todo => exact ⟨hcovered, hdisk, hphase⟩
  | done disk db c ok => exact ⟨hcovered, hdisk, hphase⟩

/-- What holds of a file that is there and was not discovered. -/
def PhaseKept (f : CStr) : Phase α → Prop
  | .classify job _ => f ∉ job.files ∧ f ∉ job.deleted
  | .findDeleted job _ => f ∉ job.files ∧ f ∉ job.deleted
  | .extract job => f ∉ job.files ∧ f ∉ job.deleted
  | .persist _ todo => f ∉ todo
  | _ => True

/-- The state of such a file, `db₀` being the database before the run. -/
structure Kept (f : CStr) (db₀ : Db α) (s : State α) : Prop where
  shape : PhaseShape s.db s.phase
  disk : s.disk f ≠ .missing
  nodes : SameNodes db₀ s.db f
  rows : ∀ h, h.relPath = f → (h ∈ s.db.hashes ++ s.phase.rowsAhead ↔ h ∈ db₀.hashes)
  phase : PhaseKept f s.phase

theorem deleted_classified {stored : List FileHash} {entry : Entry α} :
    (job.classified stored entry f).deleted = job.deleted := by
  unfold Job.classified
  split <;> rfl

theorem not_deleted_found (hdeleted : f ∉ job.deleted) {disk : CStr → Entry α}
    (hthere : disk f ≠ .missing) (repoPath : CStr) (row : FileHash) :
    f ∉ (job.found repoPath (disk row.relPath) row).deleted := by
  unfold Job.found
  split
  · exact hdeleted
  · split
    · exact hdeleted
    · next hpreserve =>
        intro hmem
        rcases List.mem_append.mp hmem with hmem | hmem
        · exact hdeleted hmem
        · rw [List.mem_singleton.mp hmem] at hthere
          refine hpreserve ?_
          unfold preserve
          split
          · rfl
          · cases hentry : disk row.relPath with
            | missing => exact absurd hentry hthere
            | file c st => rfl
            | unknown => rfl

theorem mem_upsert_of_ne {rows rest : List FileHash} {row h : FileHash}
    (hne : h.relPath ≠ row.relPath) :
    h ∈ upsertFileHash rows row ++ rest ↔ h ∈ rows ++ rest := by
  rw [List.mem_append, List.mem_append, mem_upsertFileHash]
  constructor
  · rintro ((rfl | ⟨hold, -⟩) | hrest)
    · exact absurd rfl hne
    · exact Or.inl hold
    · exact Or.inr hrest
  · rintro (hold | hrest)
    · exact Or.inl (Or.inr ⟨hold, hne⟩)
    · exact Or.inr hrest

theorem Kept.step {db₀ : Db α} (h : Kept f db₀ s) (hworks : Works repo IsFile s a)
    (hkeeps : Keeps (· ≠ .missing) f a) (hspares : SparesFile repo f s a)
    (hstep : s.step repo a = some s') : Kept f db₀ s' := by
  have hshape := h.shape.step hstep
  have hold := h.shape
  have hdisk := h.disk
  have hnodes := h.nodes
  have hrows := h.rows
  have hphase := h.phase
  cases moves_of_step hstep with
  | touch disk db phase c g entry =>
      refine ⟨hshape, ?_, hnodes, hrows, hphase⟩
      change Function.update disk g entry f ≠ .missing
      by_cases hg : g = f
      · rw [hg, Function.update_self]
        exact hkeeps hg
      · rw [Function.update_of_ne (Ne.symm hg)]
        exact hdisk
  | cancel disk db phase c => exact ⟨hshape, hdisk, hnodes, hrows, hphase⟩
  | start disk db c hfiles => exact absurd hkeeps not_false
  | classify disk db c job g todo ok =>
      refine ⟨hshape, hdisk, hnodes, hrows, ?_, ?_⟩
      · rw [files_classified]
        exact hphase.1
      · rw [deleted_classified]
        exact hphase.2
  | classified disk db c job ok => exact ⟨hshape, hdisk, hnodes, hrows, hphase⟩
  | findDeleted disk db c job row todo ok =>
      refine ⟨hshape, hdisk, hnodes, hrows, ?_, not_deleted_found hphase.2 hdisk _ row⟩
      rw [files_found]
      exact hphase.1
  | giveUp disk db c hstop => exact ⟨hshape, hdisk, hnodes, hrows, trivial⟩
  | load disk db c job ok => exact ⟨hshape, hdisk, hnodes, hrows, hphase⟩
  | read disk db hg => exact ⟨hshape, hdisk, hnodes, hrows, hphase⟩
  | @dump disk db c job calls hdone =>
      have hchanged : f ∉ job.changed := fun hc => hphase.1 (hold.changed f hc)
      have hdumped := sameNodes_dumped hchanged hphase.2 (hspares job rfl)
      refine ⟨hshape, hdisk, ?_, ?_, hphase.1⟩
      · intro qn x hx
        exact (hdumped qn x hx).trans (hnodes qn x hx)
      · rintro r rfl
        refine Iff.trans ?_ (hrows r rfl)
        change r ∈ [] ++ job.modeSkipped ↔ r ∈ db.hashes ++ []
        rw [List.nil_append, List.append_nil]
        constructor
        · exact fun hr => (hold.skipped r hr).1
        · intro hr
          rcases hold.stored r hr with hfile | hdel | hskip | htodo
          · exact absurd hfile hphase.1
          · exact absurd hdel hphase.2
          · exact hskip
          · exact absurd htodo List.not_mem_nil
  | @persist disk db c job g todo st hstat =>
      have hg : f ≠ g := fun hg => hphase (hg ▸ List.mem_cons_self)
      refine ⟨hshape, hdisk, hnodes, ?_, fun hf => hphase (List.mem_cons_of_mem g hf)⟩
      rintro r rfl
      exact (mem_upsert_of_ne hg).trans (hrows r rfl)
  | @skip disk db c job g todo ok hskip =>
      exact ⟨hshape, hdisk, hnodes, hrows, fun hf => hphase (List.mem_cons_of_mem g hf)⟩
  | persisted disk db c job ok => exact ⟨hshape, hdisk, hnodes, hrows, trivial⟩
  | carry disk db c row todo =>
      refine ⟨hshape, hdisk, hnodes, ?_, trivial⟩
      rintro r rfl
      have hrow := hrows r rfl
      change r ∈ db.hashes ++ row :: todo ↔ r ∈ db₀.hashes at hrow
      change r ∈ upsertFileHash db.hashes row ++ todo ↔ r ∈ db₀.hashes
      by_cases hpath : r.relPath = row.relPath
      · -- the row that is written is the old row of the file
        have hfirst : row ∈ db₀.hashes :=
          (hrows row hpath.symm).mp (List.mem_append_right _ List.mem_cons_self)
        constructor
        · intro hr
          refine hrow.mp ?_
          rcases List.mem_append.mp hr with hr | hr
          · rcases mem_upsertFileHash.mp hr with rfl | ⟨-, hne⟩
            · exact List.mem_append_right _ List.mem_cons_self
            · exact absurd hpath hne
          · exact List.mem_append_right _ (List.mem_cons_of_mem row hr)
        · intro hr
          rw [List.inj_on_of_nodup_map db₀.paths hr hfirst hpath]
          exact List.mem_append_left _ (mem_upsertFileHash.mpr (Or.inl rfl))
      · rw [mem_upsert_of_ne hpath, ← hrow, List.mem_append, List.mem_append, List.mem_cons]
        constructor
        · exact fun hr => hr.imp_right Or.inr
        · rintro (hr | rfl | hr)
          · exact Or.inl hr
          · exact absurd rfl hpath
          · exact Or.inr hr
  | drop disk db c row todo => exact absurd hworks Bool.false_ne_true
  | done disk db c ok => exact ⟨hshape, hdisk, hnodes, hrows, trivial⟩

theorem Kept.hashOf_eq {db₀ : Db α} (h : Kept f db₀ s) (hidle : s.phase = .idle) :
    hashOf s.db.hashes f = hashOf db₀.hashes f := by
  have hrows := h.rows
  rw [hidle] at hrows
  have hiff : ∀ r, r.relPath = f → (r ∈ s.db.hashes ↔ r ∈ db₀.hashes) := by
    intro r hr
    have hrow := hrows r hr
    change r ∈ s.db.hashes ++ [] ↔ _ at hrow
    rwa [List.append_nil] at hrow
  refine Option.ext fun r => ?_
  constructor
  · intro hr
    obtain ⟨hmem, rfl⟩ := hashOf_eq_some hr
    exact hashOf_of_mem db₀.paths ((hiff r rfl).mp hmem)
  · intro hr
    obtain ⟨hmem, rfl⟩ := hashOf_eq_some hr
    exact hashOf_of_mem s.db.paths ((hiff r rfl).mpr hmem)

theorem covered_start {t : State α} (hidle : s.phase = .idle) (hs : Indexed IsFile s.db)
    (hstart : s.step repo (.start files) = some t) : Covered IsFile t := by
  have hsteady : Steady repo IsFile s (.start files) := ⟨trivial, trivial⟩
  exact ((indexed_iff hidle).mpr hs).step hsteady hstart

theorem not_owns_of_oneRun (hf : IsFile f) (hfits : FitsPath repo f) (hidle : s.phase = .idle)
    (hs : Indexed IsFile s.db) (hgone : s.disk f = .missing)
    (hrun : OneRun repo (fun t a => Steady repo IsFile t a ∧ Keeps (· = .missing) f a) s files s') :
    ¬ Owns s'.db f := by
  obtain ⟨t, hstart, hsteps, hidle'⟩ := hrun
  have hcovered := covered_start hidle hs hstart
  have ht : Gone IsFile f t := by
    cases moves_of_step hstart with
    | start disk db c hfiles =>
        refine ⟨hcovered, hgone, ?_, fun _ hh => absurd hh List.not_mem_nil⟩
        intro hmem
        have hsome := hfiles f hmem
        have hnone : disk f = .missing := hgone
        rw [hnone] at hsome
        exact absurd hsome (by simp [Entry.stat])
  have hend := hsteps.invariant
    (fun _ _ _ h hok hstep => Gone.step hf hfits h hok.1 hok.2 hstep) ht
  have hphase := hend.phase
  rw [hidle'] at hphase
  exact hphase

theorem kept_of_oneRun (hthere : s.disk f ≠ .missing) (hnew : f ∉ files)
    (hrun : OneRun repo (fun t a => Steady repo IsFile t a ∧ Keeps (· ≠ .missing) f a ∧
      SparesFile repo f t a) s files s') :
    SameNodes s.db s'.db f ∧ hashOf s'.db.hashes f = hashOf s.db.hashes f := by
  obtain ⟨t, hstart, hsteps, hidle'⟩ := hrun
  have ht : Kept f s.db t := by
    cases moves_of_step hstart with
    | start disk db c hfiles =>
        refine ⟨⟨sorted_new db _, fun _ h => h⟩, hthere, fun _ _ _ => Iff.rfl, ?_, hnew,
          List.not_mem_nil⟩
        intro r _
        change r ∈ db.hashes ++ [] ↔ r ∈ db.hashes
        rw [List.append_nil]
  have hend := hsteps.invariant
    (fun _ _ _ h hok hstep => Kept.step h hok.1.1 hok.2.1 hok.2.2 hstep) ht
  exact ⟨hend.nodes, hend.hashOf_eq hidle'⟩

/-- After every steady run each file that owns nodes has a row.  From then on a
file that is gone when a run starts owns nothing after it, and a file that is
there and not discovered keeps its nodes and its row. -/
theorem no_orphans {s s' : State α} (hidle : s.phase = .idle) (hs : Indexed IsFile s.db)
    (hrun : Steps (State.step repo) (Steady repo IsFile) s s') (hidle' : s'.phase = .idle) :
    Indexed IsFile s'.db ∧
      (∀ f files t, IsFile f → FitsPath repo f → s'.disk f = .missing →
        OneRun repo (fun u a => Steady repo IsFile u a ∧ Keeps (· = .missing) f a) s' files t →
        ¬ Owns t.db f) ∧
      ∀ f files t, s'.disk f ≠ .missing → f ∉ files →
        OneRun repo (fun u a => Steady repo IsFile u a ∧ Keeps (· ≠ .missing) f a ∧
          SparesFile repo f u a) s' files t →
        SameNodes s'.db t.db f ∧ hashOf t.db.hashes f = hashOf s'.db.hashes f := by
  have hcovered := hrun.invariant (fun _ _ _ h hok hstep => Covered.step h hok hstep)
    ((indexed_iff hidle).mpr hs)
  have hindexed := (indexed_iff hidle').mp hcovered
  refine ⟨hindexed, ?_, ?_⟩
  · intro f files t hf hfits hgone hone
    exact not_owns_of_oneRun hf hfits hidle' hindexed hgone hone
  · intro f files t hthere hnew hone
    exact kept_of_oneRun hthere hnew hone

end Runs

/-- The file `a.py` is there, and nothing is indexed. -/
def unindexed : State Nat :=
  { disk := fun f => if f = bytesOf "a.py" then .file 1 ⟨1, 10⟩ else .missing
    db := Db.empty [] (fun _ => []) List.nodup_nil
    phase := .idle
    cancelled := false }

/-- `a.py` is discovered. -/
def discoverA : Action Nat :=
  .start [bytesOf "a.py"]

/-- The run, after discovery. -/
def wholeRun : List (Action Nat) :=
  [.next true, .next true, .next true, .read (bytesOf "a.py"), .dump [], .next true, .next true,
    .next true]

theorem indexed_unindexed : Indexed (fun _ => True) unindexed.db := by
  rintro f - ⟨row, qn, hrow, -⟩
  exact absurd hrow List.not_mem_nil

/-- The state after the run, in which `a.py` stays. -/
def stayedRun : Option (State Nat) :=
  runActions (State.step smallRepo) unindexed (discoverA :: wholeRun)

theorem no_orphans_stayed :
    unindexed.phase = .idle ∧ Indexed (fun _ => True) unindexed.db ∧
      ∃ s', Steps (State.step smallRepo) (Steady smallRepo fun _ => True) unindexed s' ∧
        s'.phase = .idle ∧ s'.db.nodes.map DumpNode.filePath = [some (bytesOf "a.py")] ∧
        Indexed (fun _ => True) s'.db := by
  have hidle : stayedRun.map (fun s => s.phase.isIdle) = some true := by decide +kernel
  have hnodes : stayedRun.map (fun s => s.db.nodes.map DumpNode.filePath) =
      some [some (bytesOf "a.py")] := by decide +kernel
  obtain ⟨s', hs', hphase⟩ := Option.map_eq_some_iff.mp hidle
  rw [hs'] at hnodes
  have hidle' := isIdle_iff.mp hphase
  have hother : ∀ s : State Nat, (∀ job f todo, s.phase ≠ .persist job (f :: todo)) →
      Steady smallRepo (fun _ => True) s (.next true) :=
    fun s hs => ⟨rfl, fun job f todo hp => absurd hp (hs job f todo)⟩
  have hrun : Steps (State.step smallRepo) (Steady smallRepo fun _ => True) unindexed s' := by
    refine steps_of_runActions _ _ ?_ hs'
    refine ⟨⟨trivial, trivial⟩, hother _ ?_, hother _ ?_, hother _ ?_, ⟨trivial, trivial⟩,
      ⟨fun _ _ => trivial, trivial⟩, ⟨rfl, ?_⟩, hother _ ?_, hother _ ?_, trivial⟩
    · exact fun _ _ _ h => nomatch h
    · exact fun _ _ _ h => nomatch h
    · exact fun _ _ _ h => nomatch h
    · intro job f todo h
      cases h
      rfl
    · exact fun _ _ _ h => nomatch h
    · exact fun _ _ _ h => nomatch h
  exact ⟨rfl, indexed_unindexed, s', hrun, hidle', Option.some.inj hnodes,
    (no_orphans rfl indexed_unindexed hrun hidle').1⟩

/-- The state after a run during which `a.py` is removed. -/
def vanishedRun : Option (State Nat) :=
  runActions (State.step smallRepo) unindexed
    (discoverA :: .touch (bytesOf "a.py") .missing :: wholeRun)

/-- The File node of `a.py` is in the graph, and there is no row for it. -/
theorem not_indexed_vanished :
    unindexed.phase = .idle ∧ Indexed (fun _ => True) unindexed.db ∧
      ∃ s', Steps (State.step smallRepo) (Works smallRepo fun _ => True) unindexed s' ∧
        s'.phase = .idle ∧ ¬ Indexed (fun _ => True) s'.db := by
  have hidle : vanishedRun.map (fun s => s.phase.isIdle) = some true := by decide +kernel
  have hnodes : vanishedRun.map (fun s => s.db.nodes.map fun row =>
      (row.qualifiedName.isSome, row.filePath)) = some [(true, some (bytesOf "a.py"))] := by
    decide +kernel
  have hrows : vanishedRun.map (fun s => s.db.hashes) = some [] := by decide +kernel
  obtain ⟨s', hs', hphase⟩ := Option.map_eq_some_iff.mp hidle
  rw [hs'] at hnodes hrows
  have hhashes : s'.db.hashes = [] := Option.some.inj hrows
  refine ⟨rfl, indexed_unindexed, s', ?_, isIdle_iff.mp hphase, ?_⟩
  · refine steps_of_runActions _ _ ?_ hs'
    exact ⟨trivial, trivial, rfl, rfl, rfl, trivial, fun _ _ => trivial, rfl, rfl, rfl, trivial⟩
  · intro hindexed
    have hmem : (true, some (bytesOf "a.py")) ∈ s'.db.nodes.map fun row =>
        (row.qualifiedName.isSome, row.filePath) := by
      have hlist : (s'.db.nodes.map fun row => (row.qualifiedName.isSome, row.filePath)) =
        [(true, some (bytesOf "a.py"))] := Option.some.inj hnodes
      rw [hlist]
      exact List.mem_singleton_self _
    obtain ⟨row, hrow, hfacts⟩ := List.mem_map.mp hmem
    obtain ⟨hname, hpath⟩ := Prod.mk.inj hfacts
    obtain ⟨qn, hqn⟩ := Option.isSome_iff_exists.mp hname
    have hfile : heapStrdup row.filePath = bytesOf "a.py" := by
      rw [hpath]
      rfl
    have hin := hindexed (bytesOf "a.py") trivial ⟨row, qn, hrow, hqn, hfile⟩
    rw [hhashes] at hin
    exact absurd hin List.not_mem_nil

end Pipeline
end CodebaseMemory
