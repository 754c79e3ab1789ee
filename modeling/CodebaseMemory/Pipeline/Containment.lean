import CodebaseMemory.Pipeline.Structure

/-!
# Containment

The folder chain of a file is built from the bottom up, and a folder is linked
to the folder above it only if that one has a node already.  Of the folders a
chain adds, only the topmost is linked: the others stay apart from the tree,
since a folder that was seen is not visited again.
-/

namespace CodebaseMemory
namespace Pipeline

open Lib
open GraphBuffer
open Sqlite (CStr bytesOf)

/-- A link of either containment type. -/
def Contains (g : Gbuf) (a b : CStr) : Prop :=
  Linked g a b containsFolder ∨ Linked g a b containsFile

/-- There is one edge of this type into the node of a name, and it comes from
the node of another. -/
def OnlyLink (g : Gbuf) (source target type : CStr) : Prop :=
  ∃ q, (q ∈ g.edges ∧ Connects (NodeName g) (g.edgeAt q) source target type) ∧
    ∀ q', q' ∈ g.edges → NodeName g (g.edgeAt q').targetId target → (g.edgeAt q').type = type →
      q' = q

structure ContainmentComplete (p : Context) (files : List CStr) (g : Gbuf) : Prop where
  folders : ∀ dir ∈ dirs files,
    HasNode g (bytesOf "Folder") (cbmPipelineFqnFolder p.projectName dir) ∧
      OnlyLink g (p.ownerQn (parentDir dir)) (cbmPipelineFqnFolder p.projectName dir) containsFolder
  linked : ∀ rel ∈ files, HasNode g (bytesOf "File") (fileQn p.projectName rel) ∧
    Linked g (p.ownerQn (parentDir rel)) (fileQn p.projectName rel) containsFile
  reached : ∀ rel ∈ files,
    Relation.ReflTransGen (Contains g) (p.ownerQn []) (fileQn p.projectName rel)

/-- For each file, the directory two levels up is the root or lies above an
earlier file. -/
def ParentsFirst (files : List CStr) : Prop :=
  ∀ done rel rest, files = done ++ rel :: rest →
    parentDir (parentDir rel) = [] ∨ parentDir (parentDir rel) ∈ dirs done

section Round

variable {p : Context} {walk : CStr} {T : Tree}

theorem mem_items_growFolder {i : Item} :
    i ∈ (growFolder p walk T).items ↔ i = .folder walk ∨ i ∈ T.items := by
  rw [growFolder, Tree.items_link, Tree.add, List.mem_cons]

theorem mem_links_link {i j : Item} {type : CStr} {l : Item × Item × CStr} :
    l ∈ (T.link i j type).links ↔
      l ∈ T.links ∨ (l = (i, j, type) ∧ i ∈ T.items ∧ j ∈ T.items) := by
  unfold Tree.link
  by_cases hboth : i ∈ T.items ∧ j ∈ T.items
  · rw [if_pos hboth]
    simp [hboth, or_comm]
  · rw [if_neg hboth]
    simp only [hboth, and_false, or_false]

theorem owner_mem_iff (hroot : p.owner [] ∈ T.items) (hwalk : walk ≠ []) :
    p.owner (parentDir walk) ∈ (T.add (.folder walk)).items ↔
      parentDir walk = [] ∨ Item.folder (parentDir walk) ∈ T.items := by
  rw [Tree.add, List.mem_cons]
  by_cases hparent : parentDir walk = []
  · rw [hparent]
    exact iff_of_true (Or.inr hroot) (Or.inl rfl)
  · have howner : p.owner (parentDir walk) = .folder (parentDir walk) := by
      rw [Context.owner, if_neg hparent]
    rw [howner, Item.folder.injEq]
    exact ⟨fun h => Or.inr (h.resolve_left (parentDir_ne hwalk)),
      fun h => Or.inr (h.resolve_left hparent)⟩

theorem mem_links_growFolder (hroot : p.owner [] ∈ T.items) (hwalk : walk ≠ [])
    {l : Item × Item × CStr} :
    l ∈ (growFolder p walk T).links ↔ l ∈ T.links ∨
      (l = (p.owner (parentDir walk), .folder walk, containsFolder) ∧
        (parentDir walk = [] ∨ Item.folder (parentDir walk) ∈ T.items)) := by
  rw [growFolder, mem_links_link, owner_mem_iff hroot hwalk]
  refine or_congr_right (and_congr_right fun _ => ?_)
  exact and_iff_left List.mem_cons_self

end Round

/-- The folder of `dir` is linked to what contains it. -/
def Tied (p : Context) (T : Tree) (dir : CStr) : Prop :=
  (p.owner (parentDir dir), Item.folder dir, containsFolder) ∈ T.links

def AllTied (p : Context) (T : Tree) : Prop :=
  ∀ dir, Item.folder dir ∈ T.items → Tied p T dir

/-- Folder links lead from a directory to what lies in it. -/
def Ordered (p : Context) (T : Tree) : Prop :=
  ∀ l ∈ T.links, l.2.2 = containsFolder →
    ∃ dir, l = (p.owner (parentDir dir), .folder dir, containsFolder) ∧ Item.folder dir ∈ T.items

theorem Ordered.mem {p : Context} {T : Tree} (h : Ordered p T) {dir : CStr} (htied : Tied p T dir) :
    Item.folder dir ∈ T.items := by
  obtain ⟨dir', heq, hdir'⟩ := h _ htied rfl
  have hsame : Item.folder dir = Item.folder dir' := congrArg (fun l => l.2.1) heq
  rw [hsame]
  exact hdir'

/-- With a folder the tree has the one above it, except perhaps `walk`. -/
def UpTo (walk : CStr) (T : Tree) : Prop :=
  ∀ dir, Item.folder dir ∈ T.items →
    parentDir dir = [] ∨ Item.folder (parentDir dir) ∈ T.items ∨ parentDir dir = walk

section Chain

variable {p : Context}

theorem items_growChain (n : Nat) : ∀ (walk : CStr) (T : Tree) (i : Item),
    i ∈ T.items → i ∈ (growChain p n walk T).items := by
  induction n with
  | zero => exact fun walk T i hi => hi
  | succ n ih =>
      intro walk T i hi
      rw [growChain]
      split
      · exact ih _ _ i (mem_items_growFolder.mpr (Or.inr hi))
      · exact hi

theorem links_growChain (n : Nat) : ∀ (walk : CStr) (T : Tree) (l : Item × Item × CStr),
    l ∈ T.links → l ∈ (growChain p n walk T).links := by
  induction n with
  | zero => exact fun walk T l hl => hl
  | succ n ih =>
      intro walk T l hl
      rw [growChain]
      split
      · exact ih _ _ l (mem_links_link.mpr (Or.inl hl))
      · exact hl

theorem mem_of_items_growChain (n : Nat) : ∀ (walk : CStr) (T : Tree) (i : Item),
    i ∈ (growChain p n walk T).items → i ∈ T.items ∨ ∃ dir ∈ dirChain n walk, i = .folder dir := by
  induction n with
  | zero => exact fun walk T i hi => Or.inl hi
  | succ n ih =>
      intro walk T i hi
      rw [growChain] at hi
      split at hi
      · next hgo =>
          rw [dirChain, if_neg hgo.1]
          rcases ih _ _ i hi with hi | ⟨dir, hdir, rfl⟩
          · rcases mem_items_growFolder.mp hi with rfl | hi
            · exact Or.inr ⟨walk, List.mem_cons_self, rfl⟩
            · exact Or.inl hi
          · exact Or.inr ⟨dir, List.mem_cons_of_mem walk hdir, rfl⟩
      · exact Or.inl hi

theorem upTo_growChain (n : Nat) : ∀ (walk : CStr) (T : Tree), walk.length ≤ n → UpTo walk T →
    UpTo [] (growChain p n walk T) := by
  induction n with
  | zero =>
      intro walk T hlen hup
      rw [List.eq_nil_of_length_eq_zero (Nat.le_zero.mp hlen)] at hup
      exact hup
  | succ n ih =>
      intro walk T hlen hup
      rw [growChain]
      split
      · next hgo =>
          have hshort := length_parentDir hgo.1
          refine ih _ _ (by omega) ?_
          intro dir hdir
          rcases mem_items_growFolder.mp hdir with hdir | hdir
          · rw [Item.folder.inj hdir]
            exact Or.inr (Or.inr rfl)
          · rcases hup dir hdir with hnil | hmem | hwalk
            · exact Or.inl hnil
            · exact Or.inr (Or.inl (mem_items_growFolder.mpr (Or.inr hmem)))
            · rw [hwalk]
              exact Or.inr (Or.inl (mem_items_growFolder.mpr (Or.inl rfl)))
      · next hstop =>
          intro dir hdir
          rcases hup dir hdir with hnil | hmem | hwalk
          · exact Or.inl hnil
          · exact Or.inr (Or.inl hmem)
          · rw [hwalk]
            by_cases hnil : walk = []
            · exact Or.inl hnil
            · exact Or.inr (Or.inl (by_contra fun hnot => hstop ⟨hnil, hnot⟩))

theorem dirChain_nil (n : Nat) : dirChain n [] = [] := by
  cases n with
  | zero => rfl
  | succ n => rw [dirChain, if_pos rfl]

theorem mem_of_upTo {T : Tree} (hup : UpTo [] T) (n : Nat) : ∀ walk : CStr,
    Item.folder walk ∈ T.items → ∀ dir ∈ dirChain n walk, Item.folder dir ∈ T.items := by
  induction n with
  | zero => exact fun walk _ dir hdir => absurd hdir List.not_mem_nil
  | succ n ih =>
      intro walk hwalk dir hdir
      rw [dirChain] at hdir
      split at hdir
      · exact absurd hdir List.not_mem_nil
      · rcases List.mem_cons.mp hdir with rfl | hdir
        · exact hwalk
        · rcases hup walk hwalk with hnil | hmem | hnil
          · exact absurd hdir (by simp [hnil, dirChain_nil])
          · exact ih _ hmem dir hdir
          · exact absurd hdir (by simp [hnil, dirChain_nil])

theorem ordered_growChain (n : Nat) : ∀ (walk : CStr) (T : Tree), p.owner [] ∈ T.items →
    Ordered p T → Ordered p (growChain p n walk T) := by
  induction n with
  | zero => exact fun walk T _ h => h
  | succ n ih =>
      intro walk T hroot h
      rw [growChain]
      split
      · next hgo =>
          refine ih _ _ (mem_items_growFolder.mpr (Or.inr hroot)) ?_
          intro l hl htype
          rcases (mem_links_growFolder hroot hgo.1).mp hl with hl | ⟨rfl, -⟩
          · obtain ⟨dir, hl, hdir⟩ := h l hl htype
            exact ⟨dir, hl, mem_items_growFolder.mpr (Or.inr hdir)⟩
          · exact ⟨walk, rfl, mem_items_growFolder.mpr (Or.inl rfl)⟩
      · exact h

theorem not_tied_growChain {dir : CStr} (n : Nat) : ∀ (walk : CStr) (T : Tree),
    p.owner [] ∈ T.items → Item.folder dir ∈ T.items → ¬ Tied p T dir →
    ¬ Tied p (growChain p n walk T) dir := by
  induction n with
  | zero => exact fun walk T _ _ h => h
  | succ n ih =>
      intro walk T hroot hdir h
      rw [growChain]
      split
      · next hgo =>
          refine ih _ _ (mem_items_growFolder.mpr (Or.inr hroot))
            (mem_items_growFolder.mpr (Or.inr hdir)) fun htied => ?_
          rcases (mem_links_growFolder hroot hgo.1).mp htied with htied | ⟨heq, -⟩
          · exact h htied
          · have hsame : Item.folder dir = Item.folder walk := congrArg (fun l => l.2.1) heq
            exact hgo.2 (hsame ▸ hdir)
      · exact h

theorem allTied_growChain {n : Nat} {dir : CStr} {T : Tree} (hlen : dir.length ≤ n)
    (hroot : p.owner [] ∈ T.items) (hup : UpTo [] T) (hord : Ordered p T) :
    AllTied p (growChain p n dir T) ↔
      AllTied p T ∧ (parentDir dir = [] ∨ Item.folder (parentDir dir) ∈ T.items) := by
  by_cases hgo : dir ≠ [] ∧ Item.folder dir ∉ T.items
  · cases n with
    | zero => exact absurd (List.eq_nil_of_length_eq_zero (Nat.le_zero.mp hlen)) hgo.1
    | succ n =>
        have hroot' : p.owner [] ∈ (growFolder p dir T).items :=
          mem_items_growFolder.mpr (Or.inr hroot)
        have hself : Item.folder dir ∈ (growFolder p dir T).items :=
          mem_items_growFolder.mpr (Or.inl rfl)
        rw [growChain, if_pos hgo]
        by_cases hparent : parentDir dir = [] ∨ Item.folder (parentDir dir) ∈ T.items
        · -- the next round stops at once
          have hstop : growChain p n (parentDir dir) (growFolder p dir T) = growFolder p dir T := by
            cases n with
            | zero => rfl
            | succ n =>
                rw [growChain, if_neg]
                rintro ⟨hne, hnot⟩
                exact hnot (mem_items_growFolder.mpr (Or.inr (hparent.resolve_left hne)))
          rw [hstop, and_iff_left hparent]
          constructor
          · intro h d hd
            have htied := h d (mem_items_growFolder.mpr (Or.inr hd))
            rcases (mem_links_growFolder hroot hgo.1).mp htied with htied | ⟨heq, -⟩
            · exact htied
            · have hsame : Item.folder d = Item.folder dir := congrArg (fun l => l.2.1) heq
              exact absurd (hsame ▸ hd) hgo.2
          · intro h d hd
            rcases mem_items_growFolder.mp hd with hd | hd
            · rw [Item.folder.inj hd]
              exact (mem_links_growFolder hroot hgo.1).mpr (Or.inr ⟨rfl, hparent⟩)
            · exact (mem_links_growFolder hroot hgo.1).mpr (Or.inl (h d hd))
        · refine iff_of_false (fun h => ?_) fun h => hparent h.2
          have hnot : ¬ Tied p (growFolder p dir T) dir := by
            intro htied
            rcases (mem_links_growFolder hroot hgo.1).mp htied with htied | ⟨-, hmem⟩
            · exact hgo.2 (hord.mem htied)
            · exact hparent hmem
          exact not_tied_growChain n _ _ hroot' hself hnot (h dir (items_growChain n _ _ _ hself))
  · have hstop : growChain p n dir T = T := by
      cases n with
      | zero => rfl
      | succ n => rw [growChain, if_neg hgo]
    rw [hstop]
    refine (and_iff_left ?_).symm
    by_cases hnil : dir = []
    · exact Or.inl (by rw [hnil]; rfl)
    · rcases hup dir (by_contra fun hnot => hgo ⟨hnil, hnot⟩) with hparent | hparent | hparent
      · exact Or.inl hparent
      · exact Or.inr hparent
      · exact Or.inl hparent

end Chain

/-- What the tree has after the files `done`. -/
structure Grown (p : Context) (done : List CStr) (T : Tree) : Prop where
  root : p.owner [] ∈ T.items
  folders : ∀ dir, Item.folder dir ∈ T.items ↔ dir ∈ dirs done
  files : ∀ rel ∈ done, Item.file rel ∈ T.items ∧
    (p.owner (parentDir rel), Item.file rel, containsFile) ∈ T.links
  ordered : Ordered p T

section Grown

variable {p : Context} {done : List CStr} {T : Tree}

theorem Grown.upTo (h : Grown p done T) : UpTo [] T := by
  intro dir hdir
  rcases dirs_parentDir ((h.folders dir).mp hdir) with hnil | hmem
  · exact Or.inl hnil
  · exact Or.inr (Or.inl ((h.folders _).mpr hmem))

theorem dirs_append (done : List CStr) (rel : CStr) :
    dirs (done ++ [rel]) = dirs done ++ dirChain (parentDir rel).length (parentDir rel) := by
  simp [dirs]

theorem containsFile_ne : containsFile ≠ containsFolder := by
  decide +kernel

theorem grown_rootTree (p : Context) : Grown p [] (rootTree p) := by
  refine ⟨owner_nil_mem p, ?_, ?_, ?_⟩
  · intro dir
    refine iff_of_false ?_ List.not_mem_nil
    unfold rootTree
    split <;> simp
  · exact fun rel hrel => absurd hrel List.not_mem_nil
  · intro l hl htype
    unfold rootTree at hl
    split at hl
    · rw [List.mem_singleton.mp hl] at htype
      exact absurd htype (by decide +kernel)
    · exact absurd hl List.not_mem_nil

theorem upTo_add (h : Grown p done T) (rel : CStr) (walk : CStr) : UpTo walk (T.add (.file rel)) := by
  intro dir hdir
  have hdir' : Item.folder dir ∈ T.items := by simpa [Tree.add] using hdir
  rcases h.upTo dir hdir' with hnil | hmem | hnil
  · exact Or.inl hnil
  · exact Or.inr (Or.inl (List.mem_cons_of_mem _ hmem))
  · exact Or.inl hnil

theorem ordered_add (h : Grown p done T) (rel : CStr) : Ordered p (T.add (.file rel)) := by
  intro l hl htype
  obtain ⟨dir, heq, hdir⟩ := h.ordered l hl htype
  exact ⟨dir, heq, List.mem_cons_of_mem _ hdir⟩

theorem owner_mem_growChain (h : Grown p done T) (rel : CStr) :
    p.owner (parentDir rel) ∈
      (growChain p (parentDir rel).length (parentDir rel) (T.add (.file rel))).items := by
  by_cases hnil : parentDir rel = []
  · rw [hnil]
    exact items_growChain _ _ _ _ (List.mem_cons_of_mem _ h.root)
  · obtain ⟨n, hn⟩ := Nat.exists_eq_succ_of_ne_zero
      (fun hlen => hnil (List.eq_nil_of_length_eq_zero hlen) : (parentDir rel).length ≠ 0)
    rw [Context.owner, if_neg hnil, hn, growChain]
    split
    · exact items_growChain _ _ _ _ (mem_items_growFolder.mpr (Or.inl rfl))
    · next hstop => exact by_contra fun hnot => hstop ⟨hnil, hnot⟩

theorem Grown.file (h : Grown p done T) (rel : CStr) : Grown p (done ++ [rel]) (growFile p T rel) := by
  have howner := owner_mem_growChain h rel
  have hup : UpTo [] (growChain p (parentDir rel).length (parentDir rel) (T.add (.file rel))) :=
    upTo_growChain _ _ _ le_rfl (upTo_add h rel _)
  have hfile : Item.file rel ∈
      (growChain p (parentDir rel).length (parentDir rel) (T.add (.file rel))).items :=
    items_growChain _ _ _ _ List.mem_cons_self
  refine ⟨?_, ?_, ?_, ?_⟩
  · rw [growFile, Tree.items_link]
    exact items_growChain _ _ _ _ (List.mem_cons_of_mem _ h.root)
  · intro dir
    rw [growFile, Tree.items_link, dirs_append, List.mem_append, ← h.folders dir]
    constructor
    · intro hdir
      rcases mem_of_items_growChain _ _ _ _ hdir with hdir | ⟨dir', hdir', heq⟩
      · exact Or.inl (by simpa [Tree.add] using hdir)
      · rw [Item.folder.inj heq]
        exact Or.inr hdir'
    · rintro (hdir | hdir)
      · exact items_growChain _ _ _ _ (List.mem_cons_of_mem _ hdir)
      · by_cases hnil : parentDir rel = []
        · rw [hnil, dirChain_nil] at hdir
          exact absurd hdir List.not_mem_nil
        · rw [Context.owner, if_neg hnil] at howner
          exact mem_of_upTo hup _ _ howner dir hdir
  · intro rel' hrel'
    rw [growFile, Tree.items_link, mem_links_link]
    rcases List.mem_append.mp hrel' with hrel' | hrel'
    · obtain ⟨hitem, hlink⟩ := h.files rel' hrel'
      exact ⟨items_growChain _ _ _ _ (List.mem_cons_of_mem _ hitem),
        Or.inl (links_growChain _ _ _ _ hlink)⟩
    · rw [List.mem_singleton.mp hrel']
      exact ⟨hfile, Or.inr ⟨rfl, howner, hfile⟩⟩
  · have hord := ordered_growChain (parentDir rel).length (parentDir rel) (T.add (.file rel))
      (List.mem_cons_of_mem _ h.root) (ordered_add h rel)
    intro l hl htype
    rw [growFile] at hl ⊢
    rw [Tree.items_link]
    rcases mem_links_link.mp hl with hl | ⟨rfl, -⟩
    · exact hord l hl htype
    · exact absurd htype containsFile_ne

theorem allTied_growFile (h : Grown p done T) (rel : CStr) :
    AllTied p (growFile p T rel) ↔
      AllTied p T ∧
        (parentDir (parentDir rel) = [] ∨ parentDir (parentDir rel) ∈ dirs done) := by
  have hchain := allTied_growChain (p := p) (T := T.add (.file rel)) (le_refl (parentDir rel).length)
    (List.mem_cons_of_mem _ h.root) (upTo_add h rel []) (ordered_add h rel)
  have hadd : AllTied p (T.add (.file rel)) ↔ AllTied p T := by
    unfold AllTied Tied Tree.add
    simp
  have hlink : AllTied p (growFile p T rel) ↔
      AllTied p (growChain p (parentDir rel).length (parentDir rel) (T.add (.file rel))) := by
    unfold AllTied Tied growFile
    refine forall_congr' fun dir => ?_
    rw [Tree.items_link, mem_links_link]
    refine imp_congr_right fun _ => or_iff_left ?_
    rintro ⟨heq, -⟩
    exact containsFile_ne (congrArg (fun l => l.2.2) heq).symm
  rw [hlink, hchain, hadd, ← h.folders]
  refine and_congr_right fun _ => or_congr_right ?_
  simp [Tree.add]

end Grown

theorem growTree_append (p : Context) (done : List CStr) (rel : CStr) :
    growTree p (done ++ [rel]) = growFile p (growTree p done) rel := by
  simp [growTree]

theorem grown_growTree (p : Context) (files : List CStr) : Grown p files (growTree p files) := by
  induction files using List.reverseRecOn with
  | nil => exact grown_rootTree p
  | append_singleton done rel ih =>
      rw [growTree_append]
      exact ih.file rel

theorem parentsFirst_nil : ParentsFirst [] := by
  intro done rel rest heq
  simp at heq

theorem parentsFirst_append {done : List CStr} {rel : CStr} :
    ParentsFirst (done ++ [rel]) ↔ ParentsFirst done ∧
      (parentDir (parentDir rel) = [] ∨ parentDir (parentDir rel) ∈ dirs done) := by
  constructor
  · intro h
    refine ⟨fun pre rel' rest heq => ?_, h done rel [] rfl⟩
    exact h pre rel' (rest ++ [rel]) (by rw [heq, List.append_assoc, List.cons_append])
  · rintro ⟨hdone, hrel⟩ pre rel' rest heq
    cases rest using List.reverseRecOn with
    | nil =>
        obtain ⟨rfl, hsame⟩ := List.append_inj' heq rfl
        rw [← List.singleton_inj.mp hsame]
        exact hrel
    | append_singleton rest last =>
        rw [← List.cons_append, ← List.append_assoc] at heq
        exact hdone pre rel' rest (List.append_inj' heq rfl).1

theorem allTied_growTree (p : Context) (files : List CStr) :
    AllTied p (growTree p files) ↔ ParentsFirst files := by
  induction files using List.reverseRecOn with
  | nil =>
      refine iff_of_true (fun dir hdir => ?_) parentsFirst_nil
      exact absurd (((grown_rootTree p).folders dir).mp hdir) List.not_mem_nil
  | append_singleton done rel ih =>
      rw [growTree_append, allTied_growFile (grown_growTree p done), ih, parentsFirst_append]

section Buffer

variable {p : Context} {files : List CStr} {k : Nat} {g : Gbuf}

theorem tied_of_linked (hall : DistinctNames p (allItems p files))
    (h : Shows p k g (growTree p files)) {a dir : CStr} (hdir : dir ∈ dirs files)
    (hlink : Linked g a (cbmPipelineFqnFolder p.projectName dir) containsFolder) :
    a = p.ownerQn (parentDir dir) ∧ Tied p (growTree p files) dir := by
  have hgrown := grown_growTree p files
  obtain ⟨l, hl, hsource, htarget, htype⟩ := (h.links _ _ _).mp hlink
  obtain ⟨dir', rfl, hdir'⟩ := hgrown.ordered l hl htype
  have hsame : Item.folder dir' = Item.folder dir :=
    hall _ (folder_mem_allItems ((hgrown.folders dir').mp hdir')) _ (folder_mem_allItems hdir)
      htarget
  obtain rfl := Item.folder.inj hsame
  exact ⟨hsource.symm.trans (qn_owner p _), hl⟩

theorem linked_of_tied (h : Shows p k g (growTree p files)) {dir : CStr}
    (htied : Tied p (growTree p files) dir) :
    Linked g (p.ownerQn (parentDir dir)) (cbmPipelineFqnFolder p.projectName dir) containsFolder :=
  (h.links _ _ _).mpr ⟨_, htied, qn_owner p _, rfl, rfl⟩

theorem onlyLink_of_tied (hall : DistinctNames p (allItems p files))
    (h : Shows p k g (growTree p files)) {dir : CStr} (hdir : dir ∈ dirs files)
    (htied : Tied p (growTree p files) dir) :
    OnlyLink g (p.ownerQn (parentDir dir)) (cbmPipelineFqnFolder p.projectName dir)
      containsFolder := by
  obtain ⟨q, hq, hlink⟩ := linked_of_tied h htied
  refine ⟨q, ⟨hq, hlink⟩, fun q' hq' htarget htype => ?_⟩
  obtain ⟨a, b, ha, -, -⟩ := h.inv.closed q' hq'
  have hlink' : Connects (NodeName g) (g.edgeAt q') a (cbmPipelineFqnFolder p.projectName dir)
      containsFolder := ⟨ha, htarget, htype⟩
  obtain ⟨rfl, -⟩ := tied_of_linked hall h hdir ⟨q', hq', hlink'⟩
  exact h.inv.edge_unique hq' hq hlink' hlink

theorem reached_of_allTied (h : Shows p k g (growTree p files))
    (hties : AllTied p (growTree p files)) (n : Nat) : ∀ dir : CStr, dir.length ≤ n →
      (dir = [] ∨ dir ∈ dirs files) →
      Relation.ReflTransGen (Contains g) (p.ownerQn []) (p.ownerQn dir) := by
  induction n with
  | zero =>
      intro dir hlen _
      rw [List.eq_nil_of_length_eq_zero (Nat.le_zero.mp hlen)]
  | succ n ih =>
      rintro dir hlen (rfl | hdir)
      · exact Relation.ReflTransGen.refl
      · have hne := (mem_dirs.mp hdir).1
        have hshort := length_parentDir hne
        have htied := hties dir (((grown_growTree p files).folders dir).mpr hdir)
        refine (ih _ (by omega) (dirs_parentDir hdir)).tail (Or.inl ?_)
        rw [show p.ownerQn dir = cbmPipelineFqnFolder p.projectName dir by
          rw [Context.ownerQn, if_neg hne]]
        exact linked_of_tied h htied

theorem parentsFirst_of_complete (hall : DistinctNames p (allItems p files))
    (h : Shows p k g (growTree p files)) (hcomplete : ContainmentComplete p files g) :
    ParentsFirst files := by
  rw [← allTied_growTree p files]
  intro dir hdir
  have hdir' := ((grown_growTree p files).folders dir).mp hdir
  obtain ⟨q, hlink, -⟩ := (hcomplete.folders dir hdir').2
  exact (tied_of_linked hall h hdir' ⟨q, hlink⟩).2

theorem complete_of_parentsFirst (hall : DistinctNames p (allItems p files))
    (h : Shows p k g (growTree p files)) (hfirst : ParentsFirst files) :
    ContainmentComplete p files g := by
  have hgrown := grown_growTree p files
  have hties := (allTied_growTree p files).mpr hfirst
  have hlinked : ∀ rel ∈ files, HasNode g (bytesOf "File") (fileQn p.projectName rel) ∧
      Linked g (p.ownerQn (parentDir rel)) (fileQn p.projectName rel) containsFile := by
    intro rel hrel
    obtain ⟨hitem, hlink⟩ := hgrown.files rel hrel
    exact ⟨h.nodes _ hitem, (h.links _ _ _).mpr ⟨_, hlink, qn_owner p _, rfl, rfl⟩⟩
  refine ⟨fun dir hdir => ⟨?_, ?_⟩, hlinked, fun rel hrel => ?_⟩
  · exact h.nodes _ ((hgrown.folders dir).mpr hdir)
  · exact onlyLink_of_tied hall h hdir (hties dir ((hgrown.folders dir).mpr hdir))
  · have hdir := reached_of_allTied h hties _ _ le_rfl (parentDir_mem_dirs hrel)
    exact hdir.tail (Or.inr (hlinked rel hrel).2)

end Buffer

/-- After the pass the containment tree is complete if and only if, for every
file, the directory two levels up is the root or lies above an earlier file. -/
theorem containment_iff (p : Context) (files : List CStr)
    (hnames : DistinctNames p (allItems p files))
    (hsize : (files.map List.length).sum + files.length < 2 ^ 60) :
    ContainmentComplete p files (passStructure p (cbmGbufNew p.projectName none) files) ↔
      ParentsFirst files := by
  obtain ⟨k, h⟩ := shows_passStructure hnames hsize
  exact ⟨parentsFirst_of_complete hnames h, complete_of_parentsFirst hnames h⟩

/-- A project without a branch. -/
def plainContext : Context :=
  { projectName := bytesOf "p", branchQn := none, branch := none, gitProps := none }

theorem containment_flat :
    ContainmentComplete plainContext [bytesOf "src/a.c", bytesOf "src/lib/b.c"]
      (passStructure plainContext (cbmGbufNew (bytesOf "p") none)
        [bytesOf "src/a.c", bytesOf "src/lib/b.c"]) := by
  refine (containment_iff plainContext [bytesOf "src/a.c", bytesOf "src/lib/b.c"] ?_ ?_).mpr ?_
  · unfold DistinctNames
    decide +kernel
  · decide +kernel
  · have hone : ParentsFirst ([] ++ [bytesOf "src/a.c"]) :=
      parentsFirst_append.mpr ⟨parentsFirst_nil, by decide +kernel⟩
    exact parentsFirst_append.mpr ⟨hone, by decide +kernel⟩

/-- One file two directories down: the inner folder has no link. -/
theorem not_containment_nested :
    ¬ ContainmentComplete plainContext [bytesOf "src/lib/b.c"]
      (passStructure plainContext (cbmGbufNew (bytesOf "p") none) [bytesOf "src/lib/b.c"]) := by
  intro hcomplete
  have hnames : DistinctNames plainContext (allItems plainContext [bytesOf "src/lib/b.c"]) := by
    unfold DistinctNames
    decide +kernel
  obtain ⟨k, h⟩ := shows_passStructure hnames (by decide +kernel)
  have hfirst := parentsFirst_of_complete hnames h hcomplete [] _ [] rfl
  exact absurd hfirst (by decide +kernel)

end Pipeline
end CodebaseMemory
