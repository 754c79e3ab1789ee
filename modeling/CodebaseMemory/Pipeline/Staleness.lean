import CodebaseMemory.Pipeline.Runs

/-!
# Edits that a run does not see

A hash row says that the graph has been extracted from a file as it is now.
`persist_hashes` writes the row from a second `stat`, made when the passes are
done.  An edit between the read of a file and that `stat` is thus recorded as
indexed, and the next run takes the file for unchanged.

A run *relies* on a file from the time it has read it, or has found it
unchanged, to the time its row is written.
-/

namespace CodebaseMemory
namespace Pipeline

open Lib
open GraphBuffer
open Sqlite (CStr bytesOf DumpNode DumpEdge)

section Staleness

variable {α : Type}

/-- Something was read, and all of it is the given content. -/
def Fresh (content : α) (reads : List (Option α)) : Prop :=
  reads ≠ [] ∧ ∀ r, r ∈ reads → r = some content

/-- Where the stored stamp is the current one, the graph has been extracted from
the current content. -/
def NoneLost (s : State α) : Prop :=
  ∀ f c st h, s.disk f = .file c st → hashOf s.db.hashes f = some h → h.stamp = st →
    Fresh c (s.db.extracted f)

/-- Every edit changes `mtime_ns` or the size. -/
def ChangesStamp (s : State α) : Action α → Prop
  | .touch f (.file _ stamp) => ∀ c st, s.disk f = .file c st → stamp ≠ st
  | _ => True

/-- The run relies on the content of a file: it was found unchanged or has been
read, and its row is not written yet. -/
def Phase.ReliesOn : Phase α → CStr → Prop
  | .idle, _ => False
  | .classify job _, f => f ∈ job.unchanged ∨ f ∈ job.reads.map Prod.fst
  | .findDeleted job _, f => f ∈ job.unchanged ∨ f ∈ job.reads.map Prod.fst
  | .extract job, f => f ∈ job.unchanged ∨ f ∈ job.reads.map Prod.fst
  | .persist _ todo, f => f ∈ todo
  | .carry _, _ => False

/-- No file is written while the run relies on it, and none gets back the stamp
of a row; the run is not cancelled. -/
def Quiet (s : State α) : Action α → Prop
  | .touch f (.file _ stamp) =>
      ¬ s.phase.ReliesOn f ∧
        ∀ h, h ∈ s.db.hashes ++ s.phase.rowsAhead → h.relPath = f → h.stamp ≠ stamp
  | .dump _ => s.cancelled = false
  | _ => True

/-- If the file is there, the graph has been extracted from it. -/
def Trusted (disk : CStr → Entry α) (extracted : CStr → List (Option α)) (f : CStr) : Prop :=
  ∀ c st, disk f = .file c st → Fresh c (extracted f)

/-- What a run knows before the dump; `todo` are the files that are not
classified yet. -/
structure Knows (disk : CStr → Entry α) (db : Db α) (job : Job α) (todo : List CStr) : Prop where
  unchanged : ∀ f, f ∈ job.unchanged → Trusted disk db.extracted f
  visited : ∀ f, f ∈ job.files → f ∈ job.changed ∨ f ∈ job.unchanged ∨ f ∈ todo
  reads : ∀ r, r ∈ job.reads → ∀ c st, disk r.1 = .file c st → r.2 = some c

def PhaseKnows (disk : CStr → Entry α) (db : Db α) : Phase α → Prop
  | .idle => True
  | .classify job todo => Knows disk db job todo
  | .findDeleted job _ => Knows disk db job []
  | .extract job => Knows disk db job []
  | .persist _ todo => ∀ f, f ∈ todo → Trusted disk db.extracted f
  | .carry _ => True

/-- A row with the current stamp is right. -/
def RowTrusted (disk : CStr → Entry α) (extracted : CStr → List (Option α)) (h : FileHash) : Prop :=
  ∀ c, disk h.relPath = .file c h.stamp → Fresh c (extracted h.relPath)

structure StaleInv (s : State α) : Prop where
  shape : PhaseShape s.db s.phase
  rows : ∀ h, h ∈ s.db.hashes ++ s.phase.rowsAhead → RowTrusted s.disk s.db.extracted h
  phase : PhaseKnows s.disk s.db s.phase

theorem noneLost_iff (s : State α) :
    NoneLost s ↔ ∀ h, h ∈ s.db.hashes → RowTrusted s.disk s.db.extracted h := by
  constructor
  · intro hs h hmem c hdisk
    exact hs h.relPath c h.stamp h hdisk (hashOf_of_mem s.db.paths hmem) rfl
  · rintro hs f c st h hdisk hrow rfl
    obtain ⟨hmem, rfl⟩ := hashOf_eq_some hrow
    exact hs h hmem c hdisk

variable {disk : CStr → Entry α}
variable {todo : List CStr}
variable {f : CStr}
variable {db : Db α}
variable {job : Job α}
variable {entry : Entry α}

theorem Trusted.touch {extracted : CStr → List (Option α)} {g : CStr}
    (htrust : Trusted disk extracted f) (entry : Entry α)
    (hquiet : f = g → ∀ c st, entry ≠ .file c st) :
    Trusted (Function.update disk g entry) extracted f := by
  intro c st hdisk
  by_cases hf : f = g
  · rw [hf, Function.update_self] at hdisk
    exact absurd hdisk (hquiet hf c st)
  · rw [Function.update_of_ne hf] at hdisk
    exact htrust c st hdisk

theorem Knows.touch (h : Knows disk db job todo) {g : CStr} (entry : Entry α)
    (hquiet : g ∈ job.unchanged ∨ g ∈ job.reads.map Prod.fst → ∀ c st, entry ≠ .file c st) :
    Knows (Function.update disk g entry) db job todo where
  unchanged := by
    intro f hf
    refine (h.unchanged f hf).touch entry ?_
    rintro rfl
    exact hquiet (Or.inl hf)
  visited := h.visited
  reads := by
    intro r hr c st hdisk
    by_cases hrg : r.1 = g
    · rw [hrg, Function.update_self] at hdisk
      exact absurd hdisk (hquiet (Or.inr (hrg ▸ List.mem_map_of_mem hr)) c st)
    · rw [Function.update_of_ne hrg] at hdisk
      exact h.reads r hr c st hdisk

theorem StaleInv.touch {phase : Phase α} {c : Bool} (h : StaleInv ⟨disk, db, phase, c⟩)
    (hquiet : Quiet ⟨disk, db, phase, c⟩ (.touch f entry)) :
    StaleInv ⟨Function.update disk f entry, db, phase, c⟩ := by
  have hrelies : phase.ReliesOn f → ∀ c st, entry ≠ .file c st := by
    rintro hrel c st rfl
    exact hquiet.1 hrel
  refine ⟨h.shape, ?_, ?_⟩
  · intro row hrow c hdisk
    by_cases hf : row.relPath = f
    · change Function.update disk f entry row.relPath = _ at hdisk
      rw [hf, Function.update_self] at hdisk
      subst hdisk
      exact absurd rfl (hquiet.2 row hrow hf)
    · change Function.update disk f entry row.relPath = _ at hdisk
      rw [Function.update_of_ne hf] at hdisk
      exact h.rows row hrow c hdisk
  · have hphase := h.phase
    cases phase with
    | idle => trivial
    | classify job todo => exact Knows.touch hphase entry hrelies
    | findDeleted job todo => exact Knows.touch hphase entry hrelies
    | extract job => exact Knows.touch hphase entry hrelies
    | persist job todo =>
        intro g hg
        refine Trusted.touch (hphase g hg) entry ?_
        rintro rfl
        exact hrelies hg
    | carry todo => trivial

theorem classifyFile_eq_false {stored : List FileHash} :
    classifyFile stored entry f = false ↔
      ∃ h, hashOf stored f = some h ∧ entry.stat = some h.stamp := by
  unfold classifyFile
  cases hashOf stored f with
  | none => simp
  | some h =>
      cases hstat : entry.stat with
      | none => simp
      | some st =>
          obtain ⟨mtimeNs, size⟩ := st
          obtain ⟨-, -, mtimeNs', size'⟩ := h
          simp

theorem stat_eq_some {st : Stamp} : entry.stat = some st ↔ ∃ c, entry = .file c st := by
  cases entry with
  | file c stamp => simp [Entry.stat]
  | missing => simp [Entry.stat]
  | unknown => simp [Entry.stat]

theorem Knows.classified (h : Knows disk db job (f :: todo))
    (hrows : ∀ row, row ∈ db.hashes → RowTrusted disk db.extracted row) :
    Knows disk db (job.classified db.hashes (disk f) f) todo := by
  unfold Job.classified
  split
  · refine ⟨h.unchanged, ?_, h.reads⟩
    intro g hg
    rcases h.visited g hg with hc | hu | ht
    · exact Or.inl (List.mem_append_left _ hc)
    · exact Or.inr (Or.inl hu)
    · rcases List.mem_cons.mp ht with rfl | ht
      · exact Or.inl (List.mem_append_right _ (List.mem_singleton_self g))
      · exact Or.inr (Or.inr ht)
  · next hsame =>
      refine ⟨?_, ?_, h.reads⟩
      · intro g hg
        rcases List.mem_append.mp hg with hg | hg
        · exact h.unchanged g hg
        · -- the stamp is that of the row, and the row is right
          rw [List.mem_singleton.mp hg]
          obtain ⟨row, hrow, hstat⟩ := classifyFile_eq_false.mp (Bool.not_eq_true _ ▸ hsame)
          obtain ⟨hmem, rfl⟩ := hashOf_eq_some hrow
          intro c st hdisk
          rw [hdisk] at hstat
          obtain rfl : st = row.stamp := Option.some.inj hstat
          exact hrows row hmem c hdisk
      · intro g hg
        rcases h.visited g hg with hc | hu | ht
        · exact Or.inl hc
        · exact Or.inr (Or.inl (List.mem_append_left _ hu))
        · rcases List.mem_cons.mp ht with rfl | ht
          · exact Or.inr (Or.inl (List.mem_append_right _ (List.mem_singleton_self g)))
          · exact Or.inr (Or.inr ht)

theorem Knows.found (h : Knows disk db job todo) (repoPath : CStr) (entry : Entry α)
    (row : FileHash) : Knows disk db (job.found repoPath entry row) todo := by
  unfold Job.found
  split
  · exact h
  · split
    · exact ⟨h.unchanged, h.visited, h.reads⟩
    · exact ⟨h.unchanged, h.visited, h.reads⟩

theorem Knows.read (h : Knows disk db job todo) (f : CStr) :
    Knows disk db { job with reads := job.reads ++ [(f, (disk f).read)] } todo := by
  refine ⟨h.unchanged, h.visited, ?_⟩
  intro r hr c st hdisk
  rcases List.mem_append.mp hr with hr | hr
  · exact h.reads r hr c st hdisk
  · rw [List.mem_singleton.mp hr] at hdisk ⊢
    change (disk f).read = some c
    change disk f = .file c st at hdisk
    rw [hdisk]
    rfl

theorem Knows.trusted (h : Knows disk db job [])
    (hdone : ∀ f, f ∈ job.changed → f ∈ job.reads.map Prod.fst) (repo : Repo)
    (calls : List PassCall) (hf : f ∈ job.files) :
    Trusted disk (job.dumped repo db calls).extracted f := by
  intro c st hdisk
  change Fresh c (if f ∈ job.changed then job.readsOf f else db.extracted f)
  by_cases hchanged : f ∈ job.changed
  · rw [if_pos hchanged]
    obtain ⟨r, hr, hrf⟩ := List.mem_map.mp (hdone f hchanged)
    constructor
    · refine List.ne_nil_of_mem (a := r.2) (List.mem_map_of_mem (List.mem_filter.mpr ⟨hr, ?_⟩))
      simpa using hrf
    · intro x hx
      obtain ⟨q, hq, rfl⟩ := List.mem_map.mp hx
      obtain ⟨hmem, hqf⟩ := List.mem_filter.mp hq
      have hqf' : q.1 = f := by simpa using hqf
      refine h.reads q hmem c st ?_
      rw [hqf']
      exact hdisk
  · rw [if_neg hchanged]
    rcases h.visited f hf with hc | hu | ht
    · exact absurd hc hchanged
    · exact h.unchanged f hu c st hdisk
    · exact absurd ht List.not_mem_nil

theorem rows_upsert {rest : List FileHash} {row : FileHash}
    (hrows : ∀ h, h ∈ db.hashes ++ rest → RowTrusted disk db.extracted h)
    (hrow : RowTrusted disk db.extracted row) :
    ∀ h, h ∈ (db.upsert row).hashes ++ rest → RowTrusted disk (db.upsert row).extracted h := by
  intro h hmem
  rcases List.mem_append.mp hmem with hmem | hmem
  · rcases mem_upsertFileHash.mp hmem with rfl | ⟨hold, -⟩
    · exact hrow
    · exact hrows h (List.mem_append_left _ hold)
  · exact hrows h (List.mem_append_right _ hmem)

theorem StaleInv.step {repo : Repo} {s s' : State α} {a : Action α} (h : StaleInv s)
    (hquiet : Quiet s a) (hstep : s.step repo a = some s') : StaleInv s' := by
  have hshape := h.shape.step hstep
  have hrows := h.rows
  have hphase := h.phase
  have hold := h.shape
  cases moves_of_step hstep with
  | touch disk db phase c f entry => exact h.touch hquiet
  | cancel disk db phase c => exact ⟨hshape, hrows, hphase⟩
  | start disk db c hfiles =>
      refine ⟨hshape, hrows, fun _ hf => absurd hf List.not_mem_nil, ?_, ?_⟩
      · exact fun f hf => Or.inr (Or.inr hf)
      · exact fun _ hr => absurd hr List.not_mem_nil
  | classify disk db c job f todo ok =>
      refine ⟨hshape, hrows, Knows.classified hphase ?_⟩
      exact fun row hrow => hrows row (List.mem_append_left _ hrow)
  | classified disk db c job ok => exact ⟨hshape, hrows, hphase⟩
  | findDeleted disk db c job row todo ok => exact ⟨hshape, hrows, Knows.found hphase _ _ row⟩
  | giveUp disk db c hstop => exact ⟨hshape, hrows, trivial⟩
  | load disk db c job ok => exact ⟨hshape, hrows, hphase⟩
  | read disk db hf => exact ⟨hshape, hrows, Knows.read hphase _⟩
  | @dump disk db c job calls hdone =>
      obtain rfl : c = false := hquiet
      have hread := hdone.resolve_left (by simp)
      refine ⟨hshape, ?_, fun f hf => Knows.trusted hphase hread repo calls hf⟩
      -- only the rows that are carried over are left
      intro row hrow
      change row ∈ [] ++ job.modeSkipped at hrow
      rw [List.nil_append] at hrow
      obtain ⟨hmem, hnew⟩ := hold.skipped row hrow
      intro c hdisk
      change Fresh c (if row.relPath ∈ job.changed then _ else db.extracted row.relPath)
      rw [if_neg (fun hc => hnew (hold.changed _ hc))]
      exact hrows row (List.mem_append_left _ hmem) c hdisk
  | @persist disk db c job f todo st hstat =>
      refine ⟨hshape, rows_upsert hrows ?_, fun g hg => hphase g (List.mem_cons_of_mem f hg)⟩
      have htrust : Trusted disk db.extracted f := hphase f List.mem_cons_self
      exact fun c hdisk => htrust c st hdisk
  | @skip disk db c job f todo ok hskip =>
      exact ⟨hshape, hrows, fun g hg => hphase g (List.mem_cons_of_mem f hg)⟩
  | persisted disk db c job ok => exact ⟨hshape, hrows, trivial⟩
  | carry disk db c row todo =>
      refine ⟨hshape, rows_upsert ?_ ?_, trivial⟩
      · intro r hr
        refine hrows r ?_
        rcases List.mem_append.mp hr with hr | hr
        · exact List.mem_append_left _ hr
        · exact List.mem_append_right _ (List.mem_cons_of_mem row hr)
      · exact hrows row (List.mem_append_right _ List.mem_cons_self)
  | drop disk db c row todo =>
      refine ⟨hshape, fun r hr => hrows r ?_, trivial⟩
      rcases List.mem_append.mp hr with hr | hr
      · exact List.mem_append_left _ hr
      · exact List.mem_append_right _ (List.mem_cons_of_mem row hr)
  | done disk db c ok => exact ⟨hshape, hrows, trivial⟩

/-- In a quiet run no edit is lost, and a file that the next `classify_files`
takes for unchanged has been extracted as it is. -/
theorem noneLost_of_quiet {repo : Repo} {s s' : State α} (hidle : s.phase = .idle)
    (hs : NoneLost s) (hrun : Steps (State.step repo) Quiet s s') :
    NoneLost s' ∧ ∀ f, classifyFile s'.db.hashes (s'.disk f) f = false →
      ∃ c st, s'.disk f = .file c st ∧ Fresh c (s'.db.extracted f) := by
  have hinv : StaleInv s := by
    refine ⟨by rw [hidle]; trivial, ?_, by rw [hidle]; trivial⟩
    rw [hidle]
    intro h hmem
    change h ∈ s.db.hashes ++ [] at hmem
    rw [List.append_nil] at hmem
    exact (noneLost_iff s).mp hs h hmem
  have hinv' := hrun.invariant (fun _ _ _ h hquiet hstep => h.step hquiet hstep) hinv
  have hlost : NoneLost s' :=
    (noneLost_iff s').mpr fun h hmem => hinv'.rows h (List.mem_append_left _ hmem)
  refine ⟨hlost, fun f hf => ?_⟩
  obtain ⟨h, hrow, hstat⟩ := classifyFile_eq_false.mp hf
  obtain ⟨c, hdisk⟩ := stat_eq_some.mp hstat
  exact ⟨c, h.stamp, hdisk, hlost f c h.stamp h hdisk hrow rfl⟩

end Staleness

/-- The file `a.py` was indexed with other content. -/
def edited : State Nat :=
  { disk := fun f => if f = bytesOf "a.py" then .file 2 ⟨2, 10⟩ else .missing
    db := Db.empty [{ relPath := bytesOf "a.py", sha256 := [], stamp := ⟨1, 10⟩ }]
      (fun _ => [some 1]) (List.nodup_singleton (bytesOf "a.py"))
    phase := .idle
    cancelled := false }

/-- The run up to the first read of a pass. -/
def untilRead : List (Action Nat) :=
  [.start [bytesOf "a.py"], .next true, .next true, .next true, .next true]

def fromDump : List (Action Nat) :=
  [.dump [], .next true, .next true, .next true]

/-- An edit of `a.py`, which changes `mtime_ns`. -/
def editA : Action Nat :=
  .touch (bytesOf "a.py") (.file 3 ⟨3, 10⟩)

theorem noneLost_edited : NoneLost edited := by
  refine (noneLost_iff edited).mpr fun h hmem c hdisk => ?_
  rw [List.mem_singleton.mp hmem] at hdisk
  have hstamp : (Entry.file 2 ⟨2, 10⟩ : Entry Nat) = .file c ⟨1, 10⟩ := hdisk
  exact absurd hstamp (by simp)

/-- The edit is made before the file is read. -/
theorem noneLost_editedEarly :
    edited.phase = .idle ∧ NoneLost edited ∧
      ∃ s', Steps (State.step smallRepo) Quiet edited s' ∧
        (hashOf s'.db.hashes (bytesOf "a.py")).map FileHash.stamp = some ⟨3, 10⟩ ∧
        NoneLost s' := by
  have hend : ((runActions (State.step smallRepo) edited
      (untilRead ++ editA :: .read (bytesOf "a.py") :: fromDump)).map fun s =>
        (hashOf s.db.hashes (bytesOf "a.py")).map FileHash.stamp) = some (some ⟨3, 10⟩) := by
    decide +kernel
  obtain ⟨s', hs', hrow⟩ := Option.map_eq_some_iff.mp hend
  have hrun : Steps (State.step smallRepo) Quiet edited s' := by
    refine steps_of_runActions _ _ ?_ hs'
    refine ⟨trivial, trivial, trivial, trivial, trivial, ⟨?_, ?_⟩, trivial, rfl, trivial, trivial,
      trivial, trivial⟩
    · rintro (h | h)
      · exact absurd h List.not_mem_nil
      · exact absurd h List.not_mem_nil
    · intro h hmem _
      rw [List.mem_singleton.mp hmem]
      decide
  exact ⟨rfl, noneLost_edited, s', hrun, hrow, (noneLost_of_quiet rfl noneLost_edited hrun).1⟩

/-- The edit is made between the read and the second `stat`. -/
def lateRun : Option (State Nat) :=
  runActions (State.step smallRepo) edited
    (untilRead ++ .read (bytesOf "a.py") :: editA :: fromDump)

theorem not_noneLost_edited :
    edited.phase = .idle ∧ NoneLost edited ∧
      ∃ s', Steps (State.step smallRepo) ChangesStamp edited s' ∧ s'.phase = .idle ∧
        ¬ NoneLost s' := by
  have hidle : lateRun.map (fun s => s.phase.isIdle) = some true := by decide +kernel
  have hrows : lateRun.map (fun s => (hashOf s.db.hashes (bytesOf "a.py")).map FileHash.stamp) =
      some (some ⟨3, 10⟩) := by decide +kernel
  have hfile : lateRun.map (fun s => ((s.disk (bytesOf "a.py")).stat,
      (s.disk (bytesOf "a.py")).read)) = some (some ⟨3, 10⟩, some 3) := by decide +kernel
  have hreads : lateRun.map (fun s => s.db.extracted (bytesOf "a.py")) = some [some 2] := by
    decide +kernel
  obtain ⟨s', hs', hphase⟩ := Option.map_eq_some_iff.mp hidle
  rw [hs'] at hrows hfile hreads
  have hrow := Option.some.inj hrows
  obtain ⟨hstat, hread⟩ := Prod.mk.inj (Option.some.inj hfile)
  have hextracted : s'.db.extracted (bytesOf "a.py") = [some 2] := Option.some.inj hreads
  refine ⟨rfl, noneLost_edited, s', ?_, ?_, ?_⟩
  · refine steps_of_runActions _ _ ?_ hs'
    refine ⟨trivial, trivial, trivial, trivial, trivial, trivial, ?_, trivial, trivial, trivial,
      trivial, trivial⟩
    intro c st hdisk
    have hold : (Entry.file 2 ⟨2, 10⟩ : Entry Nat) = .file c st := hdisk
    cases hold
    decide
  · exact isIdle_iff.mp hphase
  · intro hlost
    obtain ⟨h, hhash, hstamp⟩ := Option.map_eq_some_iff.mp hrow
    obtain ⟨c, hdisk⟩ := stat_eq_some.mp hstat
    have hfresh := hlost (bytesOf "a.py") c ⟨3, 10⟩ h hdisk hhash hstamp
    rw [hdisk] at hread
    rw [hextracted] at hfresh
    have hone := hfresh.2 (some 2) (List.mem_singleton_self _)
    have hcontent : some c = some 3 := hread
    rw [hcontent] at hone
    exact absurd hone (by simp)

end Pipeline
end CodebaseMemory
