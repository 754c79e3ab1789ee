import CodebaseMemory.GraphBuffer.Content
import CodebaseMemory.Pipeline.Fqn

/-!
# The structure pass (`src/pipeline/pipeline.c`)

`create_folder_chain` and `pass_structure`, and the tree of folders and files
that they build in the graph buffer.

The loop of `create_folder_chain` is run with as many rounds as the directory
has bytes; each round shortens it.  `seen_dirs` is a table without values.
The guards against NULL paths and the log lines are left out.

`Tree` is the abstract level: items (the project, the branch, folders and
files) and links between them, without ids, names or tables.  `growTree` is the
pass on that level.
-/

namespace CodebaseMemory
namespace Pipeline

open Lib
open GraphBuffer
open Sqlite (CStr bytesOf)

/-- The fields of `cbm_pipeline_t` that the pass reads. -/
structure Context where
  projectName : CStr
  branchQn : Option CStr
  /-- `git_ctx.branch` -/
  branch : Option CStr
  /-- what `cbm_git_context_props_json` writes, if it succeeds -/
  gitProps : Option CStr

/-- The path up to its last slash; the empty path if there is none. -/
def parentDir (path : CStr) : CStr :=
  match splitLast slash path with
  | some (dir, _) => dir
  | none => []

/-- What follows the last slash. -/
def baseName (path : CStr) : CStr :=
  match splitLast slash path with
  | some (_, name) => name
  | none => path

/-- The qualified name of the node that contains what lies in a directory. -/
def Context.ownerQn (p : Context) (dir : CStr) : CStr :=
  if dir = [] then p.branchQn.getD p.projectName else cbmPipelineFqnFolder p.projectName dir

def containsFolder : CStr := bytesOf "CONTAINS_FOLDER"

def containsFile : CStr := bytesOf "CONTAINS_FILE"

/-- Insert an edge between the nodes of two names, if both are found. -/
def linkNames (g : Gbuf) (source target type : CStr) (properties : CStr) : Gbuf :=
  match cbmGbufFindByQn g target, cbmGbufFindByQn g source with
  | some fn, some pn =>
      (cbmGbufInsertEdge g (g.nodeAt pn).id (g.nodeAt fn).id type (some properties)).1
  | _, _ => g

/-- A round of `create_folder_chain`. -/
def folderStep (p : Context) (walk : CStr) (st : Gbuf × Table CStr Unit) :
    Gbuf × Table CStr Unit :=
  let folderQn := cbmPipelineFqnFolder p.projectName walk
  let g := (cbmGbufUpsertNode st.1 (some (bytesOf "Folder")) (some (baseName walk)) folderQn
    (some walk) 0 0 (some emptyObject)).1
  (linkNames g (p.ownerQn (parentDir walk)) folderQn containsFolder emptyObject,
    st.2.insert walk ())

/-- The loop of `create_folder_chain`. -/
def folderLoop (p : Context) : Nat → CStr → Gbuf × Table CStr Unit → Gbuf × Table CStr Unit
  | 0, _, st => st
  | n + 1, walk, st =>
      if walk ≠ [] ∧ (st.2.lookup walk).isNone then
        folderLoop p n (parentDir walk) (folderStep p walk st)
      else st

def createFolderChain (p : Context) (dir : CStr) (st : Gbuf × Table CStr Unit) :
    Gbuf × Table CStr Unit :=
  folderLoop p dir.length dir st

/-- The properties of a File node, in a buffer of 256 bytes. -/
def extensionProps (basename : CStr) : CStr :=
  let ext := match splitLast dot basename with
    | some (_, ext) => dot :: ext
    | none => []
  (bytesOf "\x7b\"extension\":\"" ++ ext ++ bytesOf "\"\x7d").take 255

/-- The work of `pass_structure` on one file. -/
def structureFile (p : Context) (st : Gbuf × Table CStr Unit) (rel : CStr) :
    Gbuf × Table CStr Unit :=
  let file := fileQn p.projectName rel
  let g := (cbmGbufUpsertNode st.1 (some (bytesOf "File")) (some (baseName rel)) file (some rel) 0 0
    (some (extensionProps (baseName rel)))).1
  let st := createFolderChain p (parentDir rel) (g, st.2)
  (linkNames st.1 (p.ownerQn (parentDir rel)) file containsFile emptyObject, st.2)

/-- The nodes of the project and of the branch. -/
def structureRoot (p : Context) (g : Gbuf) : Gbuf :=
  let g := (cbmGbufUpsertNode g (some (bytesOf "Project")) (some p.projectName) p.projectName none
    0 0 (some emptyObject)).1
  match p.branchQn with
  | none => g
  | some branchQn =>
      let props := p.gitProps.getD emptyObject
      let up := cbmGbufUpsertNode g (some (bytesOf "Branch"))
        (some (p.branch.getD (bytesOf "working-tree"))) branchQn none 0 0 (some props)
      match cbmGbufFindByQn up.1 p.projectName with
      | some n =>
          if up.2 > 0 then
            (cbmGbufInsertEdge up.1 (up.1.nodeAt n).id up.2 (bytesOf "HAS_BRANCH") (some props)).1
          else up.1
      | none => up.1

def passStructure (p : Context) (g : Gbuf) (files : List CStr) : Gbuf :=
  (files.foldl (structureFile p) (structureRoot p g, ∅)).1

variable {files : List CStr}
variable {dir path : CStr}

theorem parentDir_of_mem (h : slash ∈ path) :
    ∃ name, path = parentDir path ++ slash :: name ∧ slash ∉ name := by
  unfold parentDir
  cases hsplit : splitLast slash path with
  | none => exact absurd h (splitLast_eq_none.mp hsplit)
  | some ab => exact ⟨ab.2, splitLast_eq_some.mp hsplit⟩

theorem parentDir_of_not_mem (h : slash ∉ path) : parentDir path = [] := by
  rw [parentDir, splitLast_eq_none.mpr h]

theorem parentDir_append {name : CStr} (h : slash ∉ name) :
    parentDir (dir ++ slash :: name) = dir := by
  rw [parentDir, splitLast_append h]

theorem length_parentDir (h : path ≠ []) : (parentDir path).length < path.length := by
  by_cases hmem : slash ∈ path
  · obtain ⟨name, hpath, -⟩ := parentDir_of_mem hmem
    have hlen := congrArg List.length hpath
    rw [List.length_append, List.length_cons] at hlen
    omega
  · rw [parentDir_of_not_mem hmem]
    exact List.length_pos_of_ne_nil h

theorem parentDir_ne (h : path ≠ []) : parentDir path ≠ path := fun heq =>
  absurd (length_parentDir h) (by rw [heq]; exact Nat.lt_irrefl _)

/-- A directory and those above it, without the root. -/
def dirChain : Nat → CStr → List CStr
  | 0, _ => []
  | n + 1, dir => if dir = [] then [] else dir :: dirChain n (parentDir dir)

def dirs (files : List CStr) : List CStr :=
  files.flatMap fun rel => dirChain (parentDir rel).length (parentDir rel)

/-- `dir` is the directory `path` or one above it. -/
def AtOrAbove (dir path : CStr) : Prop :=
  dir = path ∨ ∃ rest, path = dir ++ slash :: rest

theorem atOrAbove_parentDir :
    AtOrAbove dir path ↔ dir = path ∨ (slash ∈ path ∧ AtOrAbove dir (parentDir path)) := by
  refine or_congr_right ?_
  constructor
  · rintro ⟨rest, rfl⟩
    refine ⟨by simp, ?_⟩
    by_cases hrest : slash ∈ rest
    · obtain ⟨name, hname, hmem⟩ := parentDir_of_mem hrest
      refine Or.inr ⟨parentDir rest, ?_⟩
      have hpath : dir ++ slash :: rest = (dir ++ slash :: parentDir rest) ++ slash :: name := by
        rw [List.append_assoc, List.cons_append, ← hname]
      rw [hpath, parentDir_append hmem]
    · exact Or.inl (parentDir_append hrest).symm
  · rintro ⟨hmem, habove⟩
    obtain ⟨name, hname, -⟩ := parentDir_of_mem hmem
    rcases habove with rfl | ⟨rest, hrest⟩
    · exact ⟨name, hname⟩
    · refine ⟨rest ++ slash :: name, ?_⟩
      rw [hname, hrest, List.append_assoc, List.cons_append]

theorem mem_dirChain (n : Nat) :
    ∀ path : CStr, path.length ≤ n → (dir ∈ dirChain n path ↔ dir ≠ [] ∧ AtOrAbove dir path) := by
  induction n with
  | zero =>
      intro path hlen
      rw [List.eq_nil_of_length_eq_zero (Nat.le_zero.mp hlen)]
      simp [dirChain, AtOrAbove]
  | succ n ih =>
      intro path hlen
      rw [dirChain]
      by_cases hpath : path = []
      · rw [if_pos hpath, hpath]
        simp [AtOrAbove]
      · have hshort : (parentDir path).length ≤ n := by
          have := length_parentDir hpath
          omega
        rw [if_neg hpath, List.mem_cons, ih _ hshort, @atOrAbove_parentDir _ path]
        by_cases hmem : slash ∈ path
        · constructor
          · rintro (rfl | ⟨hne, habove⟩)
            · exact ⟨hpath, Or.inl rfl⟩
            · exact ⟨hne, Or.inr ⟨hmem, habove⟩⟩
          · rintro ⟨hne, rfl | ⟨-, habove⟩⟩
            · exact Or.inl rfl
            · exact Or.inr ⟨hne, habove⟩
        · rw [parentDir_of_not_mem hmem]
          constructor
          · rintro (rfl | ⟨hne, habove⟩)
            · exact ⟨hpath, Or.inl rfl⟩
            · exact absurd habove (by simp [AtOrAbove, hne])
          · rintro ⟨hne, rfl | ⟨hmem', -⟩⟩
            · exact Or.inl rfl
            · exact absurd hmem' hmem

theorem mem_dirs :
    dir ∈ dirs files ↔ dir ≠ [] ∧ ∃ rel ∈ files, ∃ rest, rel = dir ++ slash :: rest := by
  rw [dirs, List.mem_flatMap]
  constructor
  · rintro ⟨rel, hrel, hdir⟩
    obtain ⟨hne, habove⟩ := (mem_dirChain _ _ le_rfl).mp hdir
    have hmem : slash ∈ rel := by
      by_contra hmem
      rw [parentDir_of_not_mem hmem] at habove
      exact hne (by simpa [AtOrAbove] using habove)
    rcases atOrAbove_parentDir.mpr (Or.inr ⟨hmem, habove⟩) with rfl | hrest
    · rcases habove with heq | ⟨rest, hrest⟩
      · exact absurd heq.symm (parentDir_ne hne)
      · have hlen := congrArg List.length hrest
        have := length_parentDir hne
        simp only [List.length_append, List.length_cons] at hlen
        omega
    · exact ⟨hne, rel, hrel, hrest⟩
  · rintro ⟨hne, rel, hrel, rest, rfl⟩
    refine ⟨_, hrel, (mem_dirChain _ _ le_rfl).mpr ⟨hne, ?_⟩⟩
    rcases atOrAbove_parentDir.mp (Or.inr ⟨rest, rfl⟩ : AtOrAbove dir (dir ++ slash :: rest)) with
      heq | ⟨-, habove⟩
    · have hlen := congrArg List.length heq
      simp at hlen
    · exact habove

theorem dirs_parentDir (hdir : dir ∈ dirs files) :
    parentDir dir = [] ∨ parentDir dir ∈ dirs files := by
  obtain ⟨-, rel, hrel, rest, rfl⟩ := mem_dirs.mp hdir
  by_cases hmem : slash ∈ dir
  · by_cases hnil : parentDir dir = []
    · exact Or.inl hnil
    · obtain ⟨name, hname, -⟩ := parentDir_of_mem hmem
      refine Or.inr (mem_dirs.mpr ⟨hnil, _, hrel, name ++ slash :: rest, ?_⟩)
      rw [← List.cons_append, ← List.append_assoc, ← hname]
  · exact Or.inl (parentDir_of_not_mem hmem)

theorem parentDir_mem_dirs {rel : CStr} (hrel : rel ∈ files) :
    parentDir rel = [] ∨ parentDir rel ∈ dirs files := by
  by_cases hmem : slash ∈ rel
  · by_cases hnil : parentDir rel = []
    · exact Or.inl hnil
    · obtain ⟨name, hname, -⟩ := parentDir_of_mem hmem
      exact Or.inr (mem_dirs.mpr ⟨hnil, rel, hrel, name, hname⟩)
  · exact Or.inl (parentDir_of_not_mem hmem)

/-- What the pass makes a node of. -/
inductive Item where
  | project
  | branch
  | folder (dir : CStr)
  | file (rel : CStr)
deriving DecidableEq

/-- The qualified name of an item. -/
def Item.qn (p : Context) : Item → CStr
  | .project => p.projectName
  | .branch => p.branchQn.getD p.projectName
  | .folder dir => cbmPipelineFqnFolder p.projectName dir
  | .file rel => fileQn p.projectName rel

def Item.label : Item → CStr
  | .project => bytesOf "Project"
  | .branch => bytesOf "Branch"
  | .folder _ => bytesOf "Folder"
  | .file _ => bytesOf "File"

/-- Items and the links between them. -/
structure Tree where
  items : List Item
  links : List (Item × Item × CStr)

def Tree.add (T : Tree) (i : Item) : Tree :=
  { T with items := i :: T.items }

def Tree.link (T : Tree) (i j : Item) (type : CStr) : Tree :=
  if i ∈ T.items ∧ j ∈ T.items then { T with links := (i, j, type) :: T.links } else T

@[simp] theorem Tree.items_link (T : Tree) (i j : Item) (type : CStr) :
    (T.link i j type).items = T.items := by
  unfold Tree.link
  split <;> rfl

def Context.owner (p : Context) (dir : CStr) : Item :=
  if dir = [] then (if p.branchQn.isSome then .branch else .project) else .folder dir

theorem qn_owner (p : Context) (dir : CStr) : (p.owner dir).qn p = p.ownerQn dir := by
  unfold Context.owner Context.ownerQn
  by_cases hdir : dir = []
  · rw [if_pos hdir, if_pos hdir]
    cases hbranch : p.branchQn with
    | none => rfl
    | some qn =>
        rw [Option.isSome_some, if_pos rfl, Item.qn, hbranch]
  · rw [if_neg hdir, if_neg hdir]
    rfl

/-- The tree with the project and the branch. -/
def rootTree (p : Context) : Tree :=
  if p.branchQn.isSome then
    { items := [.branch, .project], links := [(.project, .branch, bytesOf "HAS_BRANCH")] }
  else { items := [.project], links := [] }

/-- A round of the folder chain. -/
def growFolder (p : Context) (walk : CStr) (T : Tree) : Tree :=
  (T.add (.folder walk)).link (p.owner (parentDir walk)) (.folder walk) containsFolder

def growChain (p : Context) : Nat → CStr → Tree → Tree
  | 0, _, T => T
  | n + 1, walk, T =>
      if walk ≠ [] ∧ Item.folder walk ∉ T.items then
        growChain p n (parentDir walk) (growFolder p walk T)
      else T

/-- A file and the folders above it. -/
def growFile (p : Context) (T : Tree) (rel : CStr) : Tree :=
  (growChain p (parentDir rel).length (parentDir rel) (T.add (.file rel))).link
    (p.owner (parentDir rel)) (.file rel) containsFile

/-- The pass on trees. -/
def growTree (p : Context) (files : List CStr) : Tree :=
  files.foldl (growFile p) (rootTree p)

def DistinctNames (p : Context) (items : List Item) : Prop :=
  ∀ i ∈ items, ∀ j ∈ items, i.qn p = j.qn p → i = j

/-- The buffer has the nodes and the links of the tree and no others. -/
structure Shows (p : Context) (k : Nat) (g : Gbuf) (T : Tree) : Prop where
  inv : LoadInv k g
  nodes : ∀ i ∈ T.items, HasNode g i.label (i.qn p)
  names : ∀ qn, (content g qn).isSome → ∃ i ∈ T.items, i.qn p = qn
  links : ∀ a b type, Linked g a b type ↔
    ∃ l ∈ T.links, l.1.qn p = a ∧ l.2.1.qn p = b ∧ l.2.2 = type

section Shows

variable {p : Context} {k : Nat} {g : Gbuf} {T : Tree} {all : List Item}

theorem Shows.mono {k' : Nat} (h : Shows p k g T) (hk : k ≤ k') : Shows p k' g T :=
  ⟨h.inv.mono hk, h.nodes, h.names, h.links⟩

theorem Shows.upsert (h : Shows p k g T) (hk : k < 2 ^ 62) (hall : DistinctNames p all)
    (hT : ∀ i ∈ T.items, i ∈ all) {i : Item} (hi : i ∈ all) (name : Option CStr)
    (filePath : Option CStr) (properties : Option CStr) :
    Shows p (k + 1)
      (cbmGbufUpsertNode g (some i.label) name (i.qn p) filePath 0 0 properties).1 (T.add i) := by
  have hcontent := content_upsert h.inv.owned.named (some i.label) name (i.qn p) filePath 0 0
    properties
  refine ⟨h.inv.upsert hk _ _ _ _ _ _ _, ?_, ?_, ?_⟩
  · intro j hj
    rw [hasNode_iff, hcontent]
    by_cases hqn : j.qn p = i.qn p
    · have hji : j = i := by
        rcases List.mem_cons.mp hj with hj | hj
        · exact hj
        · exact hall j (hT j hj) i hi hqn
      rw [if_pos hqn, hji]
      rfl
    · rcases List.mem_cons.mp hj with rfl | hj
      · exact absurd rfl hqn
      · rw [if_neg hqn]
        exact hasNode_iff.mp (h.nodes j hj)
  · intro qn hsome
    rw [hcontent] at hsome
    by_cases hqn : qn = i.qn p
    · exact ⟨i, List.mem_cons_self, hqn.symm⟩
    · rw [if_neg hqn] at hsome
      obtain ⟨j, hj, hname⟩ := h.names qn hsome
      exact ⟨j, List.mem_cons_of_mem i hj, hname⟩
  · intro a b type
    rw [h.inv.linked_upsert hk]
    exact h.links a b type

theorem Shows.mem_items (h : Shows p k g T) (hall : DistinctNames p all)
    (hT : ∀ i ∈ T.items, i ∈ all) {i : Item} (hi : i ∈ all) :
    i ∈ T.items ↔ ∃ n, cbmGbufFindByQn g (i.qn p) = some n := by
  constructor
  · intro hmem
    obtain ⟨n, hn, -⟩ := h.nodes i hmem
    exact ⟨n, hn⟩
  · rintro ⟨n, hn⟩
    have hsome : (content g (i.qn p)).isSome := by
      rw [content, Option.isSome_map]
      exact Option.isSome_of_eq_some hn
    obtain ⟨j, hj, hname⟩ := h.names _ hsome
    rw [hall i hi j (hT j hj) hname.symm]
    exact hj

theorem Shows.insertEdge (h : Shows p k g T) {i j : Item} (hi : i ∈ T.items) (hj : j ∈ T.items)
    {src tgt : Int} (type : CStr) (htype : type.length ≤ 80) (properties : Option CStr)
    (hsrc : NodeName g src (i.qn p)) (htgt : NodeName g tgt (j.qn p)) :
    Shows p (k + 1) (cbmGbufInsertEdge g src tgt type properties).1 (T.link i j type) := by
  have hpart := nodePart_cbmGbufInsertEdge g src tgt type properties
  refine ⟨h.inv.insertEdge properties hsrc htgt htype, ?_, ?_, ?_⟩
  · intro l hl
    rw [Tree.items_link] at hl
    rw [hasNode_iff, content_of_nodePart hpart]
    exact hasNode_iff.mp (h.nodes l hl)
  · rw [content_of_nodePart hpart, Tree.items_link]
    exact h.names
  · intro a b type'
    rw [h.inv.linked_insertEdge properties hsrc htgt htype, h.links, Tree.link, if_pos ⟨hi, hj⟩]
    dsimp only
    constructor
    · rintro (⟨l, hl, hnames⟩ | ⟨rfl, rfl, rfl⟩)
      · exact ⟨l, List.mem_cons_of_mem _ hl, hnames⟩
      · exact ⟨_, List.mem_cons_self, rfl, rfl, rfl⟩
    · rintro ⟨l, hl, hnames⟩
      rcases List.mem_cons.mp hl with rfl | hl
      · exact Or.inr ⟨hnames.1.symm, hnames.2.1.symm, hnames.2.2.symm⟩
      · exact Or.inl ⟨l, hl, hnames⟩

theorem Shows.link (h : Shows p k g T) (hall : DistinctNames p all)
    (hT : ∀ i ∈ T.items, i ∈ all) {i j : Item} (hi : i ∈ all) (hj : j ∈ all) (type : CStr)
    (htype : type.length ≤ 80) (properties : CStr) :
    Shows p (k + 1) (linkNames g (i.qn p) (j.qn p) type properties) (T.link i j type) := by
  have hmemi := h.mem_items hall hT hi
  have hmemj := h.mem_items hall hT hj
  unfold linkNames
  cases htgt : cbmGbufFindByQn g (j.qn p) with
  | none =>
      have hnot : j ∉ T.items := fun hmem => by simp [htgt] at hmemj; exact hmemj hmem
      rw [Tree.link, if_neg fun hboth => hnot hboth.2]
      exact h.mono (Nat.le_succ k)
  | some fn =>
      cases hsrc : cbmGbufFindByQn g (i.qn p) with
      | none =>
          have hnot : i ∉ T.items := fun hmem => by simp [hsrc] at hmemi; exact hmemi hmem
          rw [Tree.link, if_neg fun hboth => hnot hboth.1]
          exact h.mono (Nat.le_succ k)
      | some pn =>
          exact h.insertEdge (hmemi.mpr ⟨pn, hsrc⟩) (hmemj.mpr ⟨fn, htgt⟩) type htype _
            ⟨pn, hsrc, rfl⟩ ⟨fn, htgt, rfl⟩

end Shows

/-- The items of the whole pass. -/
def allItems (p : Context) (files : List CStr) : List Item :=
  (rootTree p).items ++ (dirs files).map Item.folder ++ files.map Item.file

variable {files : List CStr}
variable {p : Context}

theorem folder_mem_allItems {dir : CStr} (h : dir ∈ dirs files) :
    Item.folder dir ∈ allItems p files := by
  simp [allItems, h]

theorem file_mem_allItems {rel : CStr} (h : rel ∈ files) : Item.file rel ∈ allItems p files := by
  simp [allItems, h]

theorem owner_nil_mem (p : Context) : p.owner [] ∈ (rootTree p).items := by
  unfold Context.owner rootTree
  cases p.branchQn with
  | none => simp
  | some qn => simp

theorem owner_mem_allItems {dir : CStr} (h : dir = [] ∨ dir ∈ dirs files) :
    p.owner dir ∈ allItems p files := by
  rcases h with rfl | h
  · exact List.mem_append_left _ (List.mem_append_left _ (owner_nil_mem p))
  · rw [Context.owner, if_neg (mem_dirs.mp h).1]
    exact folder_mem_allItems h

/-- The buffer shows the tree, and the seen directories are its folders. -/
structure Simulates (p : Context) (all : List Item) (k : Nat) (st : Gbuf × Table CStr Unit)
    (T : Tree) : Prop where
  shows : Shows p k st.1 T
  within : ∀ i ∈ T.items, i ∈ all
  seen : ∀ dir, (st.2.lookup dir).isNone = true ↔ Item.folder dir ∉ T.items

section Pass

variable {p : Context} {files : List CStr} {k : Nat} {st : Gbuf × Table CStr Unit} {T : Tree}
variable (hall : DistinctNames p (allItems p files))
include hall

theorem Simulates.folderStep (h : Simulates p (allItems p files) k st T) (hk : k + 1 < 2 ^ 62)
    {walk : CStr} (hwalk : walk ∈ dirs files) :
    Simulates p (allItems p files) (k + 2) (folderStep p walk st) (growFolder p walk T) := by
  have hparent := dirs_parentDir hwalk
  have hfolder := folder_mem_allItems (p := p) hwalk
  have hup := h.shows.upsert (by omega) hall h.within hfolder (some (baseName walk)) (some walk)
    (some emptyObject)
  have hwithin : ∀ i ∈ (T.add (.folder walk)).items, i ∈ allItems p files := by
    intro i hi
    rcases List.mem_cons.mp hi with rfl | hi
    · exact hfolder
    · exact h.within i hi
  have hlink := hup.link hall hwithin (owner_mem_allItems hparent) hfolder
    containsFolder (by decide +kernel) emptyObject
  rw [qn_owner] at hlink
  refine ⟨hlink, ?_, ?_⟩
  · rw [growFolder, Tree.items_link]
    exact hwithin
  · intro dir
    rw [growFolder, Tree.items_link, Tree.add, List.mem_cons, not_or, ← h.seen dir]
    change ((st.2.insert walk ()).lookup dir).isNone = true ↔ _
    by_cases hdir : dir = walk
    · rw [hdir, AList.lookup_insert]
      simp
    · rw [AList.lookup_insert_ne hdir]
      simp [hdir]

theorem Simulates.folderLoop (n : Nat) :
    ∀ (k : Nat) (walk : CStr) (st : Gbuf × Table CStr Unit) (T : Tree),
      Simulates p (allItems p files) k st T → k + 2 * n < 2 ^ 62 →
      (walk = [] ∨ walk ∈ dirs files) →
      Simulates p (allItems p files) (k + 2 * n) (folderLoop p n walk st) (growChain p n walk T) := by
  induction n with
  | zero => exact fun k walk st T h _ _ => h
  | succ n ih =>
      intro k walk st T h hk hwalk
      rw [Pipeline.folderLoop, growChain]
      by_cases hgo : walk ≠ [] ∧ Item.folder walk ∉ T.items
      · rw [if_pos hgo, if_pos ⟨hgo.1, (h.seen walk).mpr hgo.2⟩]
        have hdir : walk ∈ dirs files := hwalk.resolve_left hgo.1
        have hstep := h.folderStep hall (by omega) hdir
        have hrest := ih (k + 2) (parentDir walk) _ _ hstep (by omega) (dirs_parentDir hdir)
        rw [show k + 2 * (n + 1) = k + 2 + 2 * n by omega]
        exact hrest
      · rw [if_neg hgo, if_neg fun hgo' => hgo ⟨hgo'.1, (h.seen walk).mp hgo'.2⟩]
        exact ⟨h.shows.mono (by omega), h.within, h.seen⟩

theorem Simulates.file (h : Simulates p (allItems p files) k st T) {rel : CStr} (hrel : rel ∈ files)
    (hk : k + 2 * (rel.length + 1) < 2 ^ 62) :
    Simulates p (allItems p files) (k + 2 * (rel.length + 1)) (structureFile p st rel)
      (growFile p T rel) := by
  have hdir := parentDir_mem_dirs hrel
  have hlen : (parentDir rel).length ≤ rel.length := by
    by_cases hrel : rel = []
    · rw [hrel]
      exact le_rfl
    · exact (length_parentDir hrel).le
  have hfile := file_mem_allItems (p := p) hrel
  have hup : Simulates p (allItems p files) (k + 1)
      ((cbmGbufUpsertNode st.1 (some (bytesOf "File")) (some (baseName rel))
        (fileQn p.projectName rel) (some rel) 0 0
        (some (extensionProps (baseName rel)))).1, st.2) (T.add (.file rel)) := by
    refine ⟨h.shows.upsert (by omega) hall h.within hfile _ _ _, ?_, ?_⟩
    · intro i hi
      rcases List.mem_cons.mp hi with rfl | hi
      · exact hfile
      · exact h.within i hi
    · intro dir
      rw [h.seen dir, Tree.add, List.mem_cons, not_or]
      simp
  have hchain := Simulates.folderLoop hall (parentDir rel).length (k + 1) (parentDir rel) _ _ hup
    (by omega) hdir
  have hlink := hchain.shows.link hall hchain.within (owner_mem_allItems hdir) hfile
    containsFile (by decide +kernel) emptyObject
  rw [qn_owner] at hlink
  refine ⟨hlink.mono (by omega), ?_, ?_⟩
  · rw [growFile, Tree.items_link]
    exact hchain.within
  · rw [growFile, Tree.items_link]
    exact hchain.seen

theorem Simulates.fileList (rels : List CStr) :
    ∀ (k : Nat) (st : Gbuf × Table CStr Unit) (T : Tree), Simulates p (allItems p files) k st T →
      (∀ rel ∈ rels, rel ∈ files) →
      k + 2 * ((rels.map List.length).sum + rels.length) < 2 ^ 62 →
      Simulates p (allItems p files) (k + 2 * ((rels.map List.length).sum + rels.length))
        (rels.foldl (structureFile p) st) (rels.foldl (growFile p) T) := by
  induction rels with
  | nil => exact fun k st T h _ _ => h
  | cons rel rels ih =>
      intro k st T h hrels hk
      rw [List.map_cons, List.sum_cons, List.length_cons] at hk ⊢
      have hfile := h.file hall (hrels rel List.mem_cons_self) (by omega)
      have hrest := ih _ _ _ hfile (fun r hr => hrels r (List.mem_cons_of_mem rel hr)) (by omega)
      rw [List.foldl_cons, List.foldl_cons]
      refine ⟨hrest.shows.mono (by omega), hrest.within, hrest.seen⟩

omit hall in
theorem shows_new : Shows p 0 (cbmGbufNew p.projectName none) { items := [], links := [] } := by
  refine ⟨loadInv_new p.projectName, ?_, ?_, ?_⟩
  · exact fun i hi => absurd hi List.not_mem_nil
  · exact fun qn hsome => absurd hsome (by simp [content_new])
  · refine fun a b type => iff_of_false ?_ ?_
    · rintro ⟨q, hq, -⟩
      exact absurd hq List.not_mem_nil
    · rintro ⟨l, hl, -⟩
      exact absurd hl List.not_mem_nil

omit hall in
theorem upsert_id_of_new {g : Gbuf} {qn : CStr} (hnew : cbmGbufFindByQn g qn = none)
    (label name filePath properties : Option CStr) :
    (cbmGbufUpsertNode g label name qn filePath 0 0 properties).2 = g.idMark := by
  unfold cbmGbufFindByQn at hnew
  unfold cbmGbufUpsertNode
  rw [hnew]
  rfl

theorem shows_structureRoot : Shows p 3 (structureRoot p (cbmGbufNew p.projectName none))
    (rootTree p) := by
  have hroot : ∀ i ∈ (rootTree p).items, i ∈ allItems p files := fun i hi =>
    List.mem_append_left _ (List.mem_append_left _ hi)
  unfold structureRoot
  unfold rootTree at hroot ⊢
  cases hbranch : p.branchQn with
  | none =>
      rw [hbranch] at hroot
      have hproject := shows_new.upsert (by omega) hall (fun i hi => absurd hi List.not_mem_nil)
        (hroot .project (by simp)) (some p.projectName) none (some emptyObject)
      exact hproject.mono (by omega)
  | some branchQn =>
      rw [hbranch] at hroot
      have hproject := shows_new.upsert (by omega) hall (fun i hi => absurd hi List.not_mem_nil)
        (hroot .project (by simp)) (some p.projectName) none (some emptyObject)
      have hwithin : ∀ i ∈ (Tree.add { items := [], links := [] } Item.project).items,
          i ∈ allItems p files := fun i hi => by
        rw [List.mem_singleton.mp hi]
        exact hroot .project (by simp)
      have hbranchAll := hroot .branch (by simp)
      have hup := hproject.upsert (by omega) hall hwithin hbranchAll
        (some (p.branch.getD (bytesOf "working-tree"))) none (some (p.gitProps.getD emptyObject))
      have hfresh : cbmGbufFindByQn (cbmGbufUpsertNode (cbmGbufNew p.projectName none)
          (some (bytesOf "Project")) (some p.projectName) p.projectName none 0 0
          (some emptyObject)).1 (Item.branch.qn p) = none := by
        rw [Option.eq_none_iff_forall_ne_some]
        intro n hn
        have hmem := (hproject.mem_items hall hwithin hbranchAll).mpr ⟨n, hn⟩
        exact absurd (List.mem_singleton.mp hmem) (by simp)
      have hid := upsert_id_of_new hfresh (some (bytesOf "Branch"))
        (some (p.branch.getD (bytesOf "working-tree"))) none (some (p.gitProps.getD emptyObject))
      have hpos := hproject.inv.ids.positive
      obtain ⟨n, hn, -⟩ := hup.nodes .project (by simp [Tree.add])
      obtain ⟨m, hm, hidm, -⟩ := (upserted hproject.inv.owned.named (some (bytesOf "Branch"))
        (some (p.branch.getD (bytesOf "working-tree"))) (Item.branch.qn p) none 0 0
        (some (p.gitProps.getD emptyObject))).self
      have hlink := hup.insertEdge (i := .project) (j := .branch) (by simp [Tree.add])
        (by simp [Tree.add]) (bytesOf "HAS_BRANCH") (by decide +kernel)
        (some (p.gitProps.getD emptyObject)) ⟨n, hn, rfl⟩ ⟨m, hm, hidm⟩
      have hqn : Item.branch.qn p = branchQn := by rw [Item.qn, hbranch, Option.getD_some]
      rw [hqn] at hn hid hlink
      dsimp only
      split
      · next n' hn' =>
          obtain rfl : n' = n := Option.some.inj (hn'.symm.trans hn)
          rw [if_pos (by rw [hid]; exact hpos)]
          exact hlink
      · next hn' => exact absurd (hn'.symm.trans hn) (by simp)

theorem shows_passStructure
    (hsize : (files.map List.length).sum + files.length < 2 ^ 60) :
    ∃ k, Shows p k (passStructure p (cbmGbufNew p.projectName none) files) (growTree p files) := by
  have hroot : Simulates p (allItems p files) 3
      (structureRoot p (cbmGbufNew p.projectName none), ∅) (rootTree p) := by
    refine ⟨shows_structureRoot hall, ?_, ?_⟩
    · exact fun i hi => List.mem_append_left _ (List.mem_append_left _ hi)
    · intro dir
      refine iff_of_true rfl ?_
      unfold rootTree
      split <;> simp
  exact ⟨_, (Simulates.fileList hall files 3 _ _ hroot (fun _ hrel => hrel) (by omega)).shows⟩

end Pass

end Pipeline
end CodebaseMemory
