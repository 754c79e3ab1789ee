import CodebaseMemory.Pipeline.Failures

/-!
# Decision records and index runs (`src/mcp/mcp.c`)

`manage_adr` keeps the architecture decision record of a project in the table
`project_summaries` of the project's database.  An index run that writes the database
writes this table empty, and the record is lost, unless the file of an older version
(`.codebase-memory/adr.md`, imported when the table has no row) happens to hold the
same text.

`adr_survives_iff` says after which sequences of `index_repository` calls the record is
still returned.

Reading aids:
* Each call is given by its `Env`, as in `Phases`; an artifact is only imported when there
  is no database file.
* That a valid database can be opened and written by `manage_adr` is assumed.
* `resolve_store` deletes a file that fails the integrity check.
-/

namespace CodebaseMemory
namespace Pipeline

open Lib
open Sqlite (CStr bytesOf DumpNode DumpEdge)

/-- The modes; `update` is also called `store`, and `get` is every other one. -/
inductive AdrRequest where
  | update (content : CStr)
  | sections
  | get

inductive AdrReply where
  | projectNotFound
  | updated
  /-- The sections listed are those of this content. -/
  | sections (content : Option CStr)
  | content (text : CStr)
  | noAdr
deriving DecidableEq

/-- `handle_manage_adr`; `legacy` is the text of the file of an older version. -/
def manageAdr (legacy : Option CStr) (req : AdrRequest) : DbFile → AdrReply × DbFile
  | .absent => (.projectNotFound, .absent)
  | .damaged => (.projectNotFound, .absent)
  | .valid db =>
    if db.project then
      let adr := db.summary.or legacy
      match req with
      | .update content => (.updated, .valid { db with summary := some content })
      | .sections => (.sections adr, .valid { db with summary := adr })
      | .get => (adr.elim .noAdr .content, .valid { db with summary := adr })
    else (.projectNotFound, .valid db)

/-- `try_artifact_bootstrap`, where the artifact holds `imported`. -/
def bootstrap (imported : Option StoredDb) : DbFile → DbFile
  | .absent => imported.elim .absent .valid
  | file => file

/-- A call of `handle_index_repository`.  The cross-repository mode runs no pipeline: it
opens the store and replaces edges. -/
inductive IndexCall where
  | crossRepo (edges : List DumpEdge)
  | pipeline (env : Env) (imported : Option StoredDb)

def replaceEdges (edges : List DumpEdge) : DbFile → DbFile
  | .valid db => .valid { db with edges := edges }
  | file => file

def IndexCall.run : IndexCall → DbFile → DbFile
  | .crossRepo edges, file => replaceEdges edges (openStore file)
  | .pipeline env imported, file => (env.run (bootstrap imported file)).2.file

def indexAll (calls : List IndexCall) (file : DbFile) : DbFile :=
  calls.foldl (fun file call => call.run file) file

/-- The run leaves the file as it is. -/
def Env.Spares (env : Env) (file : DbFile) : Prop :=
  env.stopsFirst = true ∨
  match env.route file with
  | .upToDate => True
  | .rewrite => False
  | .overOld =>
    env.stopsReported = true ∨ env.stopsUnreported = true ∨ env.dump = .openFails
  | .afterDelete => False

/-- The run writes a whole new database. -/
def Env.Rewrites (env : Env) (file : DbFile) : Prop :=
  env.stopsFirst = false ∧ env.dump = .written ∧
  match env.route file with
  | .upToDate => False
  | .rewrite => True
  | .overOld => env.stopsReported = false ∧ env.stopsUnreported = false
  | .afterDelete => env.stopsReported = false ∧ env.stopsUnreported = false

/-- The call returns the record `content` as before. -/
def IndexCall.Keeps (legacy : Option CStr) (content : CStr) (file : DbFile) : IndexCall → Prop
  | .crossRepo _ => True
  | .pipeline env _ => env.Spares file ∨ env.Rewrites file ∧ legacy = some content

def AllKeep (legacy : Option CStr) (content : CStr) : List IndexCall → DbFile → Prop
  | [], _ => True
  | call :: rest, file => call.Keeps legacy content file ∧ AllKeep legacy content rest (call.run file)

/-- After every one of the calls, `manage_adr` returns the record. -/
def Survives (legacy : Option CStr) (content : CStr) (calls : List IndexCall) (file : DbFile) :
    Prop :=
  ∀ n ≤ calls.length,
    (manageAdr legacy .get (indexAll (calls.take n) file)).1 = .content content

/-- A database that has just been written. -/
def Blank (file : DbFile) : Prop :=
  ∃ db, file = .valid db ∧ db.project = true ∧ db.summary = none

/-- A file in which the project is not found. -/
def Unreadable (file : DbFile) : Prop :=
  ∀ db, file = .valid db → db.project = false

section Runs

variable {env : Env}

theorem unreadable_absent : Unreadable .absent := by
  intro db h
  cases h

theorem unreadable_damaged : Unreadable .damaged := by
  intro db h
  cases h

variable {file : DbFile}
variable {db : StoredDb}

theorem blank_putHashes (h : Blank file) (rows : List FileHash) :
    Blank (putHashes rows (openStore file)) := by
  obtain ⟨db, rfl, hp, hs⟩ := h
  exact ⟨{ db with hashes := rows }, by simp [openStore, putHashes, hp], hp, hs⟩

theorem blank_persistHashes {s : Progress DbFile} (h : Blank s.file) :
    Blank (env.persistHashes s).2.file := by
  unfold Env.persistHashes
  cases env.hashStore with
  | true => exact blank_putHashes h env.hashes
  | false => exact h

theorem blank_dumpToSqlite (h : env.dump = .written) (s : Progress DbFile) :
    Blank (env.dumpToSqlite s).2.file := by
  rw [Env.dumpToSqlite, h]
  exact ⟨_, rfl, rfl, rfl⟩

theorem unreadable_persistHashes {s : Progress DbFile} (h : s.file = .absent ∨ s.file = .damaged) :
    Unreadable (env.persistHashes s).2.file := by
  unfold Env.persistHashes
  cases env.hashStore with
  | false =>
    rcases h with h | h
    · simpa [h] using unreadable_absent
    · simpa [h] using unreadable_damaged
  | true =>
    rcases h with h | h
    · intro db hdb
      simp [h, openStore, putHashes, emptyStore] at hdb
      rw [← hdb]
    · simpa [h, openStore, putHashes] using unreadable_damaged

theorem rewrite_file (reads : Nat) (failed : Bool) :
    let file := (env.persistHashes (env.dumpToSqlite
      { reads := reads, failed := failed, file := .absent }).2).2.file
    (env.dump = .written → Blank file) ∧ (env.dump ≠ .written → Unreadable file) := by
  refine ⟨fun h => blank_persistHashes (blank_dumpToSqlite h _), fun h => ?_⟩
  refine unreadable_persistHashes ?_
  unfold Env.dumpToSqlite
  cases hd : env.dump with
  | openFails => exact .inl rfl
  | writeFails => exact .inr rfl
  | written => exact absurd hd h

theorem fullRun_file (h : env.stopsReported = false) (hu : env.stopsUnreported = false) :
    (env.dump = .written → Blank (env.fullRun (Env.begun file)).2.file) ∧
    (env.dump = .openFails → (env.fullRun (Env.begun file)).2.file = file) ∧
    (env.dump = .writeFails → (env.fullRun (Env.begun file)).2.file = .damaged) := by
  obtain ⟨reads, he⟩ := Env.fullRun_dumps h hu file
  rw [he]
  refine ⟨fun hd => ?_, fun hd => ?_, fun hd => ?_⟩
  · have hz : ∀ s, (env.dumpToSqlite s).1 = 0 := fun s => by simp [Env.dumpToSqlite, hd]
    rw [Env.dumpAndPersistHashes, Stage.andThen_apply, if_neg (by simp [hz])]
    exact blank_persistHashes (blank_dumpToSqlite hd _)
  · rw [Env.dumpAndPersistHashes_openFails hd]
  · rw [Env.dumpAndPersistHashes_writeFails hd]

theorem fullRun_stopped (h : env.stopsReported = true ∨ env.stopsUnreported = true) :
    (env.fullRun (Env.begun file)).2.file = file := by
  cases hr : env.stopsReported with
  | true => exact (Env.fullRun_reported hr file).2.2
  | false => exact (Env.fullRun_unreported hr (h.resolve_left (by simp [hr])) file).2.2

theorem run_spares (h : env.Spares (.valid db)) : (env.run (.valid db)).2.file = .valid db := by
  rcases h with h | h
  · exact (Env.run_stopsFirst h (.valid db)).2
  · cases hf : env.stopsFirst with
    | true => exact (Env.run_stopsFirst hf (.valid db)).2
    | false =>
      cases hr : env.route (.valid db) with
      | upToDate => rw [Env.run_upToDate hf hr]; rfl
      | rewrite => simp [hr] at h
      | afterDelete => simp [hr] at h
      | overOld =>
        rw [Env.run_overOld hf hr]
        simp only [hr] at h
        rcases h with h | h | h
        · exact fullRun_stopped (.inl h)
        · exact fullRun_stopped (.inr h)
        · by_cases hs : env.stopsReported = true ∨ env.stopsUnreported = true
          · exact fullRun_stopped hs
          · simp only [not_or, Bool.not_eq_true] at hs
            exact (fullRun_file hs.1 hs.2).2.1 h

theorem run_rewrites (h : env.Rewrites (.valid db)) : Blank (env.run (.valid db)).2.file := by
  obtain ⟨hf, hd, h⟩ := h
  cases hr : env.route (.valid db) with
  | upToDate => simp [hr] at h
  | rewrite =>
    rw [Env.run_rewrite hf hr]
    exact (rewrite_file _ _).1 hd
  | overOld =>
    simp only [hr] at h
    rw [Env.run_overOld hf hr]
    exact (fullRun_file h.1 h.2).1 hd
  | afterDelete =>
    simp only [hr] at h
    rw [Env.run_afterDelete hf hr]
    exact (fullRun_file h.1 h.2).1 hd

theorem run_neither (hs : ¬ env.Spares (.valid db)) (hw : ¬ env.Rewrites (.valid db)) :
    Unreadable (env.run (.valid db)).2.file := by
  simp only [Env.Spares, not_or, Bool.not_eq_true] at hs
  obtain ⟨hf, hs⟩ := hs
  simp only [Env.Rewrites, hf, true_and] at hw
  cases hr : env.route (.valid db) with
  | upToDate => simp [hr] at hs
  | rewrite =>
    simp only [hr, and_true] at hw
    rw [Env.run_rewrite hf hr]
    exact (rewrite_file _ _).2 hw
  | overOld =>
    simp only [hr, not_or, Bool.not_eq_true] at hs hw
    obtain ⟨hrep, hun, hopen⟩ := hs
    rw [Env.run_overOld hf hr]
    have hd : env.dump = .writeFails := by
      cases hd : env.dump with
      | openFails => exact absurd hd hopen
      | writeFails => rfl
      | written => exact absurd ⟨hd, hrep, hun⟩ hw
    rw [(fullRun_file hrep hun).2.2 hd]
    exact unreadable_damaged
  | afterDelete =>
    simp only [hr] at hw
    rw [Env.run_afterDelete hf hr]
    by_cases hst : env.stopsReported = true ∨ env.stopsUnreported = true
    · rw [fullRun_stopped hst]
      exact unreadable_absent
    · simp only [not_or, Bool.not_eq_true] at hst
      cases hd : env.dump with
      | openFails => rw [(fullRun_file hst.1 hst.2).2.1 hd]; exact unreadable_absent
      | writeFails => rw [(fullRun_file hst.1 hst.2).2.2 hd]; exact unreadable_damaged
      | written => exact absurd ⟨hd, hst⟩ hw

end Runs

section Records

variable {legacy : Option CStr} {content : CStr}

/-- The file from which `manage_adr` returns `content`. -/
def HasAdr (legacy : Option CStr) (content : CStr) (file : DbFile) : Prop :=
  ∃ db, file = .valid db ∧ db.project = true ∧ db.summary.or legacy = some content

variable {file : DbFile}

theorem get_eq_content_iff :
    (manageAdr legacy .get file).1 = .content content ↔ HasAdr legacy content file := by
  constructor
  · intro h
    cases file with
    | absent => cases h
    | damaged => cases h
    | valid db =>
      refine ⟨db, rfl, ?_⟩
      unfold manageAdr at h
      cases hp : db.project with
      | false => simp [hp] at h
      | true =>
        simp only [hp, if_true] at h
        cases ha : db.summary.or legacy with
        | none => simp [ha] at h
        | some adr => simpa [ha] using h
  · rintro ⟨db, rfl, hp, ha⟩
    simp [manageAdr, hp, ha]

theorem hasAdr_of_blank (h : Blank file) : HasAdr legacy content file ↔ legacy = some content := by
  obtain ⟨db, rfl, hp, hs⟩ := h
  simp [HasAdr, hp, hs]

theorem not_hasAdr_of_unreadable (h : Unreadable file) : ¬ HasAdr legacy content file := by
  rintro ⟨db, rfl, hp, -⟩
  rw [h db rfl] at hp
  cases hp

theorem hasAdr_run_iff (h : HasAdr legacy content file) (call : IndexCall) :
    HasAdr legacy content (call.run file) ↔ call.Keeps legacy content file := by
  obtain ⟨db, rfl, hp, ha⟩ := id h
  cases call with
  | crossRepo edges =>
    refine iff_of_true ⟨{ db with edges := edges }, rfl, hp, ha⟩ trivial
  | pipeline env imported =>
    change HasAdr legacy content (env.run (.valid db)).2.file ↔
      env.Spares (.valid db) ∨ env.Rewrites (.valid db) ∧ legacy = some content
    by_cases hs : env.Spares (.valid db)
    · rw [run_spares hs]
      exact iff_of_true h (.inl hs)
    · by_cases hw : env.Rewrites (.valid db)
      · rw [hasAdr_of_blank (run_rewrites hw)]
        simp [hs, hw]
      · exact iff_of_false (not_hasAdr_of_unreadable (run_neither hs hw)) (by simp [hs, hw])

theorem hasAdr_all_iff : ∀ (calls : List IndexCall) {file : DbFile}, HasAdr legacy content file →
    ((∀ n ≤ calls.length, HasAdr legacy content (indexAll (calls.take n) file)) ↔
      AllKeep legacy content calls file)
  | [], file, h => by
    refine iff_of_true (fun n _ => ?_) trivial
    simpa [indexAll] using h
  | call :: rest, file, h => by
    constructor
    · intro hall
      have h₁ : HasAdr legacy content (call.run file) := by
        simpa [indexAll] using hall 1 (by simp)
      refine ⟨(hasAdr_run_iff h call).mp h₁, (hasAdr_all_iff rest h₁).mp fun n hn => ?_⟩
      simpa [indexAll] using hall (n + 1) (by simpa using hn)
    · rintro ⟨hkeep, hrest⟩ n hn
      have h₁ := (hasAdr_run_iff h call).mpr hkeep
      cases n with
      | zero => simpa [indexAll] using h
      | succ n =>
        simpa [indexAll] using (hasAdr_all_iff rest h₁).mpr hrest n (by simpa using hn)

theorem hasAdr_update (h : (manageAdr legacy (.update content) file).1 = .updated) :
    HasAdr legacy content (manageAdr legacy (.update content) file).2 := by
  cases file with
  | absent => cases h
  | damaged => cases h
  | valid db =>
    unfold manageAdr at h ⊢
    cases hp : db.project with
    | false => simp [hp] at h
    | true => exact ⟨{ db with summary := some content }, by simp [hp], hp, rfl⟩

/-- After a successful update, the record is returned after every one of a sequence of
index calls exactly when each of them leaves the database file alone, or writes it whole
while the file of the older version holds the same text. -/
theorem adr_survives_iff (legacy : Option CStr) (content : CStr) (file : DbFile)
    (calls : List IndexCall) (h : (manageAdr legacy (.update content) file).1 = .updated) :
    Survives legacy content calls (manageAdr legacy (.update content) file).2 ↔
      AllKeep legacy content calls (manageAdr legacy (.update content) file).2 := by
  rw [← hasAdr_all_iff calls (hasAdr_update h)]
  simp only [Survives, get_eq_content_iff]

end Records

def noCancel : CancelFlag where
  raised := fun _ => false
  mono := fun _ _ _ h => h

/-- A run in which `n` files have changed, on a repository of one file. -/
def runChanged (n : Nat) : Env :=
  { Env.lateCancel with flag := noCancel, fileCount := 1, changed := n }

def someText : CStr :=
  bytesOf "## PURPOSE"

theorem adr_survives_upToDate :
    Survives none someText [.pipeline (runChanged 0) none, .crossRepo []]
      (manageAdr none (.update someText) (.valid Env.oneHash)).2 :=
  (adr_survives_iff none someText (.valid Env.oneHash) _ rfl).mpr
    ⟨.inl (.inr trivial), trivial, trivial⟩

/-- After one changed file the record is gone. -/
theorem adr_lost_changed :
    (manageAdr none (.update someText) (.valid Env.oneHash)).1 = .updated ∧
      ¬ Survives none someText [.pipeline (runChanged 1) none]
        (manageAdr none (.update someText) (.valid Env.oneHash)).2 := by
  refine ⟨rfl, fun hs => ?_⟩
  have hkeep := ((hasAdr_all_iff _ (hasAdr_update rfl)).mp fun n hn =>
    get_eq_content_iff.mp (hs n hn)).1
  rcases hkeep with (h | h) | ⟨-, h⟩
  · cases h
  · exact h
  · cases h

end Pipeline
end CodebaseMemory
