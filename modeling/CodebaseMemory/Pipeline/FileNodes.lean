import CodebaseMemory.Pipeline.Orphans
import CodebaseMemory.Pipeline.Structure

/-!
# File nodes of full and of incremental runs

A full run makes the File nodes in `pass_structure`; an incremental run makes
those of changed files with a call of its own.  The two calls disagree: the
incremental one writes the whole path as the name and `"{}"` as the properties,
and no edge.
-/

namespace CodebaseMemory
namespace Pipeline

open Lib
open GraphBuffer
open Sqlite (CStr bytesOf DumpNode DumpEdge)

/-- The labels of the nodes that `pass_structure` makes. -/
def structureLabels : List CStr :=
  [bytesOf "Project", bytesOf "Branch", bytesOf "Folder", bytesOf "File"]

def PassCall.labels : PassCall → List CStr
  | .upsert label _ _ _ _ _ _ => [heapStrdup label]
  | .merge worker => (cbmGbufForeachNode worker).map fun p => (worker.nodeAt p).label
  | .insertEdge _ _ _ _ => []
  | .setNextId _ => []

/-- The File node of a file and the edge to it from the node of its directory are
the same in both buffers. -/
structure SameFile (p : Context) (full incr : Gbuf) (rel : CStr) : Prop where
  node : content incr (fileQn p.projectName rel) = content full (fileQn p.projectName rel)
  edge : Linked incr (p.ownerQn (parentDir rel)) (fileQn p.projectName rel) containsFile ↔
    Linked full (p.ownerQn (parentDir rel)) (fileQn p.projectName rel) containsFile

/-- A node as `pass_structure` makes them: a File node has its extension in the
properties. -/
def Drawn (x : NodeFields) : Prop :=
  x.label ∈ structureLabels ∧ (x.label = bytesOf "File" → x.properties ≠ some emptyObject)

/-- Every node is as `pass_structure` makes them, and the nodes of these names are
there. -/
structure Draws (names : List CStr) (g : Gbuf) : Prop where
  named : Named g
  drawn : ∀ qn x, content g qn = some x → Drawn x
  here : ∀ qn ∈ names, (content g qn).isSome = true

theorem extensionProps_ne (name : CStr) : extensionProps name ≠ emptyObject := by
  intro h
  have hlen : emptyObject.length = 2 := by decide +kernel
  have hopen : (bytesOf "\x7b\"extension\":\"").length = 14 := by decide +kernel
  have hfits := congrArg List.length h
  unfold extensionProps at hfits
  simp only [List.length_take, List.length_append, hlen, hopen] at hfits
  omega

variable {p : Context}
variable {names : List CStr}
variable {g : Gbuf}

theorem Draws.upsert (h : Draws names g) (label : CStr) (name : Option CStr) (qn : CStr)
    (filePath : Option CStr) (props : CStr) (hlabel : label ∈ structureLabels)
    (hprops : label = bytesOf "File" → props ≠ emptyObject) :
    Draws (qn :: names)
      (cbmGbufUpsertNode g (some label) name qn filePath 0 0 (some props)).1 := by
  have hcontent := content_upsert h.named (some label) name qn filePath 0 0 (some props)
  refine ⟨h.named.upsert _ _ _ _ _ _ _, ?_, ?_⟩
  · intro qn' x hx
    rw [hcontent] at hx
    split at hx
    · obtain rfl := Option.some.inj hx
      exact ⟨hlabel, fun hfile heq => hprops hfile (Option.some.inj heq)⟩
    · exact h.drawn qn' x hx
  · intro qn' hqn'
    rw [hcontent]
    split
    · rfl
    · next hne => exact h.here qn' ((List.mem_cons.mp hqn').resolve_left hne)

theorem nodePart_linkNames (g : Gbuf) (source target type properties : CStr) :
    (linkNames g source target type properties).nodePart = g.nodePart := by
  unfold linkNames
  split
  · exact nodePart_cbmGbufInsertEdge g _ _ _ _
  · rfl

theorem Draws.congr {g' : Gbuf} (h : Draws names g) (hpart : g'.nodePart = g.nodePart) :
    Draws names g' := by
  refine ⟨h.named.congr hpart, ?_, ?_⟩
  · rw [content_of_nodePart hpart]
    exact h.drawn
  · rw [content_of_nodePart hpart]
    exact h.here

theorem Draws.mono {names' : List CStr} (h : Draws names g) (hle : ∀ qn ∈ names', qn ∈ names) :
    Draws names' g :=
  ⟨h.named, h.drawn, fun qn hqn => h.here qn (hle qn hqn)⟩

theorem Draws.upsertOther (h : Draws names g) (label : CStr) (name : Option CStr) (qn : CStr)
    (filePath : Option CStr) (props : CStr) (hlabel : label ∈ structureLabels)
    (hother : label ≠ bytesOf "File") :
    Draws names (cbmGbufUpsertNode g (some label) name qn filePath 0 0 (some props)).1 :=
  (h.upsert label name qn filePath props hlabel fun hfile => absurd hfile hother).mono
    fun _ hqn => List.mem_cons_of_mem _ hqn

theorem Draws.folderStep {st : Gbuf × Table CStr Unit} (h : Draws names st.1) (walk : CStr) :
    Draws names (folderStep p walk st).1 := by
  have hup := h.upsertOther (bytesOf "Folder") (some (baseName walk))
    (cbmPipelineFqnFolder p.projectName walk) (some walk) emptyObject (by simp [structureLabels])
    (by decide +kernel)
  exact hup.congr (nodePart_linkNames _ _ _ _ _)

theorem Draws.folderLoop (n : Nat) :
    ∀ (walk : CStr) (st : Gbuf × Table CStr Unit), Draws names st.1 →
      Draws names (folderLoop p n walk st).1 := by
  induction n with
  | zero => exact fun _ _ h => h
  | succ n ih =>
      intro walk st h
      unfold Pipeline.folderLoop
      split
      · exact ih _ _ (h.folderStep walk)
      · exact h

theorem Draws.file {st : Gbuf × Table CStr Unit} (h : Draws names st.1) (rel : CStr) :
    Draws (fileQn p.projectName rel :: names) (structureFile p st rel).1 := by
  have hup := h.upsert (bytesOf "File") (some (baseName rel)) (fileQn p.projectName rel)
    (some rel) (extensionProps (baseName rel)) (by simp [structureLabels])
    fun _ => extensionProps_ne _
  have hchain := Draws.folderLoop (p := p) (parentDir rel).length (parentDir rel)
    ((cbmGbufUpsertNode st.1 (some (bytesOf "File")) (some (baseName rel))
      (fileQn p.projectName rel) (some rel) 0 0 (some (extensionProps (baseName rel)))).1, st.2) hup
  exact hchain.congr (nodePart_linkNames _ _ _ _ _)

theorem Draws.files (files : List CStr) :
    ∀ (names : List CStr) (st : Gbuf × Table CStr Unit), Draws names st.1 →
      Draws (files.map (fileQn p.projectName) ++ names) (files.foldl (structureFile p) st).1 := by
  induction files with
  | nil => exact fun names st h => h
  | cons rel files ih =>
      intro names st h
      refine (ih _ _ (h.file rel)).mono fun qn hqn => ?_
      simp only [List.map_cons, List.cons_append, List.mem_cons, List.mem_append] at hqn ⊢
      rcases hqn with hqn | hqn | hqn
      · exact Or.inr (Or.inl hqn)
      · exact Or.inl hqn
      · exact Or.inr (Or.inr hqn)

theorem draws_root (p : Context) : Draws [] (structureRoot p (cbmGbufNew p.projectName none)) := by
  have hnew : Draws [] (cbmGbufNew p.projectName none) :=
    ⟨(owned_new _ _).named, fun qn x hx => by simp [content_new] at hx,
      fun _ hqn => absurd hqn List.not_mem_nil⟩
  have hproject := hnew.upsertOther (bytesOf "Project") (some p.projectName) p.projectName none
    emptyObject (by simp [structureLabels]) (by decide +kernel)
  unfold structureRoot
  dsimp only
  split
  · exact hproject
  · next branchQn _ =>
      have hbranch := hproject.upsertOther (bytesOf "Branch")
        (some (p.branch.getD (bytesOf "working-tree"))) branchQn none
        (p.gitProps.getD emptyObject) (by simp [structureLabels]) (by decide +kernel)
      split
      · split
        · exact hbranch.congr (nodePart_cbmGbufInsertEdge _ _ _ _ _)
        · exact hbranch
      · exact hbranch

theorem drawn_passStructure (p : Context) {files : List CStr} {rel : CStr} (hrel : rel ∈ files) :
    ∃ x, content (passStructure p (cbmGbufNew p.projectName none) files)
      (fileQn p.projectName rel) = some x ∧ Drawn x := by
  have h := Draws.files (p := p) files [] (structureRoot p (cbmGbufNew p.projectName none), ∅)
    (draws_root p)
  have hsome := h.here (fileQn p.projectName rel)
    (List.mem_append_left _ (List.mem_map_of_mem hrel))
  obtain ⟨x, hx⟩ := Option.isSome_iff_exists.mp hsome
  exact ⟨x, hx, h.drawn _ x hx⟩

/-- A node as an incremental run makes them: a File node without properties, or a node
of a pass. -/
def Bare (x : NodeFields) : Prop :=
  (x.label = bytesOf "File" ∧ x.properties = some emptyObject) ∨ x.label ∉ structureLabels

theorem not_bare_of_drawn {x : NodeFields} (h : Drawn x) : ¬ Bare x := by
  rintro (⟨hlabel, hprops⟩ | hlabel)
  · exact h.2 hlabel hprops
  · exact hlabel h.1

theorem label_run (h : Owned g) (call : PassCall) (qn : CStr) :
    content (call.run g) qn = content g qn ∨
      ∃ x, content (call.run g) qn = some x ∧ x.label ∈ call.labels := by
  cases call with
  | upsert label name qn' filePath startLine endLine properties =>
      have hup := content_upsert h.named label name qn' filePath startLine endLine properties qn
      by_cases hqn : qn = qn'
      · rw [if_pos hqn] at hup
        exact Or.inr ⟨_, hup, List.mem_singleton_self _⟩
      · rw [if_neg hqn] at hup
        exact Or.inl hup
  | insertEdge src tgt type properties =>
      have hpart := nodePart_cbmGbufInsertEdge g src tgt type properties
      exact Or.inl (congrFun (content_of_nodePart hpart) qn)
  | merge worker =>
      rcases content_merge h.named worker qn with ⟨s, hs, -, hcontent⟩ | ⟨-, hsame⟩
      · exact Or.inr ⟨_, hcontent, List.mem_map_of_mem hs⟩
      · exact Or.inl hsame
  | setNextId id => exact Or.inl rfl

/-- The node of this name is as an incremental run makes them. -/
def BareAt (g : Gbuf) (qn : CStr) : Prop :=
  ∃ x, content g qn = some x ∧ Bare x

theorem bareAt_run (h : Owned g) {call : PassCall}
    (hlabels : ∀ l ∈ call.labels, l ∉ structureLabels) {qn : CStr} (hbare : BareAt g qn) :
    BareAt (call.run g) qn := by
  rcases label_run h call qn with hsame | ⟨x, hx, hlabel⟩
  · unfold BareAt
    rwa [hsame]
  · exact ⟨x, hx, Or.inr (hlabels _ hlabel)⟩

theorem bareAt_calls {qn : CStr} (calls : List PassCall) :
    ∀ g : Gbuf, Owned g → (∀ call ∈ calls, ∀ l ∈ call.labels, l ∉ structureLabels) →
      BareAt g qn → BareAt (calls.foldl PassCall.run g) qn := by
  induction calls with
  | nil => exact fun g _ _ hbare => hbare
  | cons call calls ih =>
      intro g h hlabels hbare
      have hrest : ∀ c ∈ calls, ∀ l ∈ c.labels, l ∉ structureLabels :=
        fun c hc => hlabels c (List.mem_cons_of_mem call hc)
      exact ih _ (owned_run h call) hrest (bareAt_run h (hlabels call List.mem_cons_self) hbare)

theorem bareAt_upsertFiles {qnOf : CStr → CStr} {rel : CStr} (files : List CStr) :
    ∀ g : Gbuf, Owned g → (rel ∈ files ∨ BareAt g (qnOf rel)) →
      BareAt (files.foldl (upsertFile fun f => some (qnOf f)) g) (qnOf rel) := by
  induction files with
  | nil => exact fun g _ hbare => hbare.resolve_left List.not_mem_nil
  | cons f files ih =>
      intro g h hbare
      have hcontent := content_upsert h.named (some (bytesOf "File")) (some f) (qnOf f) (some f) 0 0
        (some emptyObject) (qnOf rel)
      refine ih _ (owned_upsertFile h _ f) ?_
      by_cases hqn : qnOf rel = qnOf f
      · rw [if_pos hqn] at hcontent
        exact Or.inr ⟨_, hcontent, Or.inl ⟨rfl, rfl⟩⟩
      · rcases hbare with hmem | hbare
        · rcases List.mem_cons.mp hmem with rfl | hmem
          · exact absurd rfl hqn
          · exact Or.inl hmem
        · rw [if_neg hqn] at hcontent
          refine Or.inr ?_
          obtain ⟨x, hx, hx'⟩ := hbare
          exact ⟨x, hcontent.trans hx, hx'⟩

/-- No changed file gets the node that a full run gives it: the passes write no nodes
with the labels of the structure. -/
theorem not_sameFile (p : Context) (files : List CStr) (r : Reindex)
    (hnames : (r.nodes.map DumpNode.qualifiedName).Nodup)
    (hqn : r.fileQn = fun f => some (fileQn p.projectName f))
    (hcalls : ∀ call ∈ r.calls, ∀ l ∈ call.labels, l ∉ structureLabels) {rel : CStr}
    (hchanged : rel ∈ r.changed) (hlisted : rel ∈ files) :
    ¬ SameFile p (passStructure p (cbmGbufNew p.projectName none) files) r.result rel := by
  intro hsame
  have hprepared : BareAt r.prepared (fileQn p.projectName rel) := by
    unfold Reindex.prepared
    rw [hqn]
    exact bareAt_upsertFiles r.changed r.purged (r.owned_purged hnames) (Or.inl hchanged)
  obtain ⟨x, hx, hbare⟩ := bareAt_calls r.calls r.prepared (r.owned_prepared hnames) hcalls hprepared
  obtain ⟨y, hy, hdrawn⟩ := drawn_passStructure p hlisted
  have hnode : some x = some y := hx.symm.trans (hsame.node.trans hy)
  rw [Option.some.inj hnode] at hbare
  exact not_bare_of_drawn hdrawn hbare

/-- The path of the only file. -/
def touchedPath : CStr := bytesOf "src/a.c"

/-- A project without a branch. -/
def touchedContext : Context :=
  { projectName := bytesOf "p", branchQn := none, branch := none, gitProps := none }

/-- The structure of a full run. -/
def touchedFull : Gbuf :=
  passStructure touchedContext (cbmGbufNew (bytesOf "p") none) [touchedPath]

/-- The run after the file was touched, on what the full run has dumped. -/
def touchedRun : Reindex where
  project := bytesOf "p"
  nodes := (buildDumpNodes touchedFull touchedFull.nextId).rows
  edges := buildDumpEdges (fun _ => none) touchedFull
    (buildDumpNodes touchedFull touchedFull.nextId).tempToFinal touchedFull.nextId
  changed := [touchedPath]
  deleted := []
  fileQn := fun f => some (fileQn (bytesOf "p") f)
  calls := []

theorem not_sameFile_touchedRun :
    touchedPath ∈ touchedRun.changed ∧
      ¬ SameFile touchedContext touchedFull touchedRun.result touchedPath := by
  refine ⟨List.mem_cons_self, ?_⟩
  refine not_sameFile touchedContext [touchedPath] touchedRun (by decide +kernel) rfl ?_
    List.mem_cons_self List.mem_cons_self
  exact fun call hcall => absurd hcall List.not_mem_nil

/-- The edges of a buffer that say that a directory has a file. -/
def fileEdges (g : Gbuf) : List Nat :=
  g.edges.filter fun q => (g.edgeAt q).type = containsFile

/-- The name, the properties and the edge are lost. -/
theorem touched_file_differs :
    ¬ SameFile touchedContext touchedFull touchedRun.result touchedPath ∧
      (content touchedFull (fileQn (bytesOf "p") touchedPath)).map NodeFields.name =
        some (bytesOf "a.c") ∧
      (content touchedRun.result (fileQn (bytesOf "p") touchedPath)).map NodeFields.name =
        some (bytesOf "src/a.c") ∧
      (fileEdges touchedFull).length = 1 ∧ (fileEdges touchedRun.result).length = 0 := by
  have hfull : (content touchedFull (fileQn (bytesOf "p") touchedPath)).map NodeFields.name =
      some (bytesOf "a.c") := by decide +kernel
  have hincr : (content touchedRun.result (fileQn (bytesOf "p") touchedPath)).map
      NodeFields.name = some (bytesOf "src/a.c") := by decide +kernel
  refine ⟨fun h => ?_, hfull, hincr, by decide +kernel, by decide +kernel⟩
  have hnode := congrArg (Option.map NodeFields.name) h.node
  have hnames : some (bytesOf "src/a.c") = some (bytesOf "a.c") :=
    hincr.symm.trans (hnode.trans hfull)
  exact absurd hnames (by decide +kernel)

end Pipeline
end CodebaseMemory
