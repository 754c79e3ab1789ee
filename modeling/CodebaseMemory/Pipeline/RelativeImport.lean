import CodebaseMemory.Pipeline.Fqn

/-!
# Relative imports (`src/pipeline/fqn.c`)

`cbm_pipeline_resolve_relative_import`: the specifier of an import, resolved
against the path of the file that has it.  What comes out is a path without an
extension, for `cbm_pipeline_fqn_module`, which removes an extension once more.
So a dot in the name of the file is taken for the beginning of its extension,
by both of them.

Reading aids:
* The components of a path are its parts between separators, which are `/` and
  `\\`.  A specifier has its parts between `/`.
* The answers to NULL and to a failed allocation are left out.
-/

namespace CodebaseMemory
namespace Pipeline

open Lib
open Sqlite (CStr bytesOf)

def fqnPathBuf : Nat := 1024

def pathAppendSegment (buf seg : CStr) : Option CStr :=
  let sep := if buf = [] then 0 else 1
  if fqnPathBuf < buf.length + sep + seg.length + 1 then none
  else some (if buf = [] then seg else buf ++ slash :: seg)

def pathPopSegment (buf : CStr) : CStr :=
  match splitLast slash buf with
  | some (before, _) => before
  | none => []

def seedSourceDir (sourceRel : CStr) : CStr :=
  pathPopSegment ((sourceRel.take (fqnPathBuf - 1)).map fun c => if c = backslash then slash else c)

/-- `FQN_REL_KIND_NONE`, `FQN_REL_KIND_PYTHON` and `FQN_REL_KIND_JS`. -/
inductive RelKind where
  | none
  | python
  | js
deriving DecidableEq

def classifyRelativeImport (modulePath : CStr) : RelKind :=
  if modulePath.head? ≠ some dot then .none
  else if slash ∈ modulePath then .js
  else .python

/-- The loop over the segments in `resolve_python_relative`. -/
def resolvePythonLoop : List CStr → CStr → Option CStr
  | [], buf => some buf
  | seg :: segs, buf =>
      if seg = [] then resolvePythonLoop segs buf
      else (pathAppendSegment buf seg).bind (resolvePythonLoop segs)

def resolvePythonRelative (buf modulePath : CStr) : Option CStr :=
  let dots := (modulePath.takeWhile (· = dot)).length
  resolvePythonLoop ((modulePath.dropWhile (· = dot)).splitOn dot)
    (pathPopSegment^[dots - 1] buf)

def stripExt (seg : CStr) : CStr :=
  match splitLast dot seg with
  | some (before, _) => if before = [] then seg else before
  | none => seg

/-- The loop of `resolve_js_relative` over the parts between `/`; the last part is cut. -/
def resolveJsLoop : List CStr → CStr → Option CStr
  | [], buf => some buf
  | seg :: segs, buf =>
      if seg = [] ∨ seg = [dot] then resolveJsLoop segs buf
      else if seg = [dot, dot] then resolveJsLoop segs (pathPopSegment buf)
      else
        let cut := if segs = [] then stripExt seg else seg
        if cut = [] then resolveJsLoop segs buf
        else (pathAppendSegment buf cut).bind (resolveJsLoop segs)

def resolveJsRelative (buf modulePath : CStr) : Option CStr :=
  resolveJsLoop (modulePath.splitOn slash) buf

def cbmPipelineResolveRelativeImport (sourceRel modulePath : CStr) : Option CStr :=
  match classifyRelativeImport modulePath with
  | .none => none
  | .python => resolvePythonRelative (seedSourceDir sourceRel) modulePath
  | .js => resolveJsRelative (seedSourceDir sourceRel) modulePath

def pathComponents (path : CStr) : List CStr :=
  (path.map fun c => if c = backslash then slash else c).splitOn slash

/-- A text that is one part of a path. -/
structure IsPart (name : CStr) : Prop where
  ne_nil : name ≠ []
  no_slash : slash ∉ name
  no_backslash : backslash ∉ name

/-- A name of a directory or of a file. -/
structure IsComponent (name : CStr) : Prop extends IsPart name where
  ne_dot : name ≠ [dot]
  ne_dots : name ≠ [dot, dot]

/-- Where the parts of a specifier lead from a directory.  The way stays inside the repository,
and its paths are shorter than 1000 bytes. -/
inductive Leads : List CStr → List CStr → List CStr → Prop
  | done (dir) : Leads dir [] dir
  | here {dir segs target} : Leads dir segs target → Leads dir ([dot] :: segs) target
  | up {dir name segs target} : Leads dir segs target →
      Leads (dir ++ [name]) ([dot, dot] :: segs) target
  | down {dir name segs target} : IsComponent name →
      (join slash (dir ++ [name])).length < 1000 →
      Leads (dir ++ [name]) segs target → Leads dir (name :: segs) target

theorem Leads.of_nil {dir target : List CStr} (h : Leads dir [] target) : target = dir := by
  cases h
  rfl

section Texts

variable {dir : List CStr} {name : CStr}

theorem join_eq_nil_iff (h : ∀ c ∈ dir, c ≠ []) : join slash dir = [] ↔ dir = [] := by
  cases dir with
  | nil => simp [join]
  | cons c rest =>
      refine ⟨fun hnil => absurd ?_ (h c List.mem_cons_self), fun hnil => absurd hnil (by simp)⟩
      cases rest with
      | nil => rwa [join, List.intercalate_singleton] at hnil
      | cons c' rest =>
          rw [join, List.intercalate_cons_cons] at hnil
          exact (List.append_eq_nil_iff.mp (List.append_eq_nil_iff.mp hnil).1).1

theorem splitLast_join (hname : slash ∉ name) :
    splitLast slash (join slash (dir ++ [name])) =
      if dir = [] then none else some (join slash dir, name) := by
  rw [join_append_singleton]
  split
  · exact splitLast_eq_none.mpr hname
  · exact splitLast_append hname

theorem pathPopSegment_join (hname : slash ∉ name) :
    pathPopSegment (join slash (dir ++ [name])) = join slash dir := by
  rw [pathPopSegment, splitLast_join hname]
  by_cases hdir : dir = []
  · rw [if_pos hdir, hdir]
    rfl
  · rw [if_neg hdir]

theorem pathAppendSegment_join (hdir : ∀ c ∈ dir, c ≠ [])
    (hlength : (join slash (dir ++ [name])).length < 1024) :
    pathAppendSegment (join slash dir) name = some (join slash (dir ++ [name])) := by
  have hnil := join_eq_nil_iff hdir
  rw [join_append_singleton] at hlength ⊢
  rw [pathAppendSegment, fqnPathBuf]
  by_cases hempty : dir = []
  · rw [if_pos hempty] at hlength
    rw [if_pos (hnil.mpr hempty), if_pos (hnil.mpr hempty), if_pos hempty, if_neg]
    rw [hnil.mpr hempty, List.length_nil]
    omega
  · rw [if_neg hempty, List.length_append, List.length_cons] at hlength
    rw [if_neg fun h => hempty (hnil.mp h), if_neg fun h => hempty (hnil.mp h), if_neg hempty,
      if_neg (by omega)]

theorem stripFileExtension_join (hname : slash ∉ name) :
    stripFileExtension (join slash (dir ++ [name])) = join slash (dir ++ [stem name]) := by
  rw [stripFileExtension, splitLast_join hname, join_append_singleton, join_append_singleton]
  by_cases hdir : dir = []
  · rw [if_pos hdir, if_pos hdir, if_pos hdir]
  · rw [if_neg hdir, if_neg hdir, if_neg hdir]

theorem splitOn_join_of_notMem {parts : List CStr} (hne : parts ≠ [])
    (h : ∀ c ∈ parts, slash ∉ c) : (join slash parts).splitOn slash = parts :=
  List.splitOn_intercalate slash h hne

theorem cbmCanonicalizeDrive_join (hname : IsPart name) (rest : List CStr) :
    cbmCanonicalizeDrive (join slash (name :: rest)) =
      join slash (cbmCanonicalizeDrive name :: rest) := by
  cases rest with
  | nil => rw [join, join, List.intercalate_singleton, List.intercalate_singleton]
  | cons next rest =>
      rw [join, join, List.intercalate_cons_cons, List.intercalate_cons_cons]
      rcases name with _ | ⟨x, _ | ⟨y, _ | ⟨z, more⟩⟩⟩
      · exact absurd rfl hname.ne_nil
      · have hne : ¬ (97 ≤ x ∧ x ≤ 122 ∧ slash = 58 ∧ ((([slash].intercalate
            (next :: rest)).head? = some slash) ∨ [slash].intercalate (next :: rest) = [])) :=
          fun h => absurd h.2.2.1 (by decide)
        simp only [List.cons_append, List.nil_append, cbmCanonicalizeDrive, if_neg hne]
      · by_cases hdrive : 97 ≤ x ∧ x ≤ 122 ∧ y = 58
        · simp [cbmCanonicalizeDrive, hdrive]
        · simp [cbmCanonicalizeDrive, hdrive]
      · have hz : z ≠ slash := by
          rintro rfl
          exact hname.no_slash (by simp)
        simp [cbmCanonicalizeDrive, hz]

end Texts

section Drive

theorem toNat_capital {x : UInt8} (hlow : 97 ≤ x) (hhigh : x ≤ 122) :
    (x - 97 + 65).toNat = x.toNat - 32 := by
  have hx : 97 ≤ x.toNat := UInt8.le_iff_toNat_le.mp hlow
  have hx' : x.toNat ≤ 122 := UInt8.le_iff_toNat_le.mp hhigh
  have hsub : (x - 97).toNat = x.toNat - 97 := UInt8.toNat_sub_of_le _ _ hlow
  have h65 : (65 : UInt8).toNat = 65 := rfl
  rw [UInt8.toNat_add, hsub, h65]
  omega

theorem length_cbmCanonicalizeDrive (name : CStr) :
    (cbmCanonicalizeDrive name).length = name.length := by
  rcases name with _ | ⟨x, _ | ⟨y, rest⟩⟩
  · rfl
  · rfl
  · rw [cbmCanonicalizeDrive]
    split <;> rfl

/-- A name of a file that is a lower-case drive letter and a colon. -/
def IsDrive (name : CStr) : Prop :=
  ∃ x, 97 ≤ x ∧ x ≤ 122 ∧ name = [x, 58]

theorem cbmCanonicalizeDrive_eq_self_iff {name : CStr} (hslash : slash ∉ name) :
    cbmCanonicalizeDrive name = name ↔ ¬ IsDrive name := by
  rcases name with _ | ⟨x, _ | ⟨y, rest⟩⟩
  · exact ⟨fun _ h => by obtain ⟨_, _, _, h⟩ := h; exact absurd h (by simp), fun _ => rfl⟩
  · exact ⟨fun _ h => by obtain ⟨_, _, _, h⟩ := h; exact absurd h (by simp), fun _ => rfl⟩
  · rw [cbmCanonicalizeDrive]
    split
    · next h =>
        obtain ⟨hlow, hhigh, rfl, hrest⟩ := h
        have hnil : rest = [] := by
          rcases hrest with hhead | hnil
          · exact absurd (List.mem_cons_of_mem _ (List.mem_cons_of_mem _
              (List.mem_of_head? hhead))) hslash
          · exact hnil
        subst hnil
        constructor
        · intro heq
          have hx := congrArg UInt8.toNat (List.cons.inj heq).1
          have h97 : 97 ≤ x.toNat := UInt8.le_iff_toNat_le.mp hlow
          rw [toNat_capital hlow hhigh] at hx
          omega
        · exact fun h => absurd ⟨x, hlow, hhigh, rfl⟩ h
    · next h =>
        refine ⟨fun _ hdrive => h ?_, fun _ => rfl⟩
        obtain ⟨x', hlow, hhigh, heq⟩ := hdrive
        obtain ⟨rfl, hrest⟩ := List.cons.inj heq
        obtain ⟨rfl, rfl⟩ := List.cons.inj hrest
        exact ⟨hlow, hhigh, rfl, Or.inr rfl⟩

theorem mem_cbmCanonicalizeDrive {name : CStr} {c : UInt8} (hc : c.toNat < 65) :
    c ∈ cbmCanonicalizeDrive name ↔ c ∈ name := by
  rcases name with _ | ⟨x, _ | ⟨y, rest⟩⟩
  · rfl
  · rfl
  · rw [cbmCanonicalizeDrive]
    split
    · next h =>
        obtain ⟨hlow, hhigh, _⟩ := h
        have h97 : 97 ≤ x.toNat := UInt8.le_iff_toNat_le.mp hlow
        have hnew : c ≠ x - 97 + 65 := by
          intro heq
          have hnat := congrArg UInt8.toNat heq
          rw [toNat_capital hlow hhigh] at hnat
          omega
        have hold : c ≠ x := by
          rintro rfl
          omega
        simp only [List.mem_cons, hnew, hold, false_or]
    · rfl

end Drive

section Segments

variable {d : List CStr} {name : CStr}

/-- The components with a drive letter in front capitalised. -/
def canonicalFirst : List CStr → List CStr
  | [] => []
  | name :: rest => cbmCanonicalizeDrive name :: rest

theorem length_stem_le (name : CStr) : (stem name).length ≤ name.length := by
  rw [stem]
  split
  · next before after hcut => exact Nat.le_of_lt (length_splitLast hcut)
  · exact Nat.le_refl _

theorem length_stem_lt (h : dot ∈ name) : (stem name).length < name.length := by
  rw [stem]
  split
  · next before after hcut => exact length_splitLast hcut
  · next hnone => exact absurd h (splitLast_eq_none.mp hnone)

theorem stem_of_notMem (h : dot ∉ name) : stem name = name := by
  rw [stem, splitLast_eq_none.mpr h]

theorem stem_append {ext : CStr} (hext : dot ∉ ext) : stem (name ++ dot :: ext) = name := by
  rw [stem, splitLast_append hext]

theorem stripExt_eq_or (name : CStr) :
    stripExt name = name ∨ (stripExt name).length < name.length := by
  rw [stripExt]
  split
  · next before after hcut =>
      split
      · exact Or.inl rfl
      · exact Or.inr (length_splitLast hcut)
  · exact Or.inl rfl

theorem stripExt_of_notMem (h : dot ∉ name) : stripExt name = name := by
  rw [stripExt, splitLast_eq_none.mpr h]

theorem stripExt_ne_nil (h : name ≠ []) : stripExt name ≠ [] := by
  rw [stripExt]
  split
  · split
    · exact h
    · next hbefore => exact hbefore
  · exact h

theorem stem_subset (name : CStr) : stem name ⊆ name := by
  rw [stem]
  split
  · next before after hcut =>
      rw [(splitLast_eq_some.mp hcut).1]
      exact List.subset_append_left _ _
  · exact List.Subset.refl _

theorem stripExt_subset (name : CStr) : stripExt name ⊆ name := by
  rw [stripExt]
  split
  · next before after hcut =>
      split
      · exact List.Subset.refl _
      · rw [(splitLast_eq_some.mp hcut).1]
        exact List.subset_append_left _ _
  · exact List.Subset.refl _

theorem map_sep_eq_join {path : CStr} {comps : List CStr} (h : pathComponents path = comps) :
    path.map (fun c => if c = backslash then slash else c) = join slash comps := by
  rw [← h, pathComponents, join_splitOn]

theorem canonicalFirst_part (h : ∀ c ∈ d, IsPart c) :
    ∀ c ∈ canonicalFirst d, c ≠ [] ∧ slash ∉ c := by
  cases d with
  | nil => exact fun c hc => absurd hc List.not_mem_nil
  | cons x rest =>
      intro c hc
      rcases List.mem_cons.mp hc with rfl | hrest
      · have hx := h x List.mem_cons_self
        refine ⟨fun hnil => hx.ne_nil ?_, fun hmem => ?_⟩
        · rw [← List.length_eq_zero_iff, ← length_cbmCanonicalizeDrive, hnil, List.length_nil]
        · exact hx.no_slash ((mem_cbmCanonicalizeDrive (by decide)).mp hmem)
      · exact ⟨(h c (List.mem_cons_of_mem x hrest)).ne_nil,
          (h c (List.mem_cons_of_mem x hrest)).no_slash⟩

theorem length_canonicalFirst (d : List CStr) : (canonicalFirst d).length = d.length := by
  cases d <;> rfl

theorem stripFileExtension_path {path : CStr} (hpath : pathComponents path = d ++ [name])
    (h : ∀ c ∈ d ++ [name], IsPart c) :
    stripFileExtension (cbmNormalizePathSep path) =
      join slash (canonicalFirst d ++
        [stem (if d = [] then cbmCanonicalizeDrive name else name)]) := by
  rw [cbmNormalizePathSep, map_sep_eq_join hpath]
  have hname : IsPart name := h name (by simp)
  cases d with
  | nil =>
      have hslash : slash ∉ cbmCanonicalizeDrive name := fun hmem =>
        hname.no_slash ((mem_cbmCanonicalizeDrive (by decide)).mp hmem)
      have hstrip := @stripFileExtension_join [] _ hslash
      rw [List.nil_append, cbmCanonicalizeDrive_join hname, if_pos rfl]
      exact hstrip
  | cons x rest =>
      have hx : IsPart x := h x (by simp)
      rw [List.cons_append, cbmCanonicalizeDrive_join hx, if_neg (List.cons_ne_nil x rest),
        ← List.cons_append, stripFileExtension_join hname.no_slash]
      rfl

theorem stemSegments_path {path : CStr} (hpath : pathComponents path = d ++ [name])
    (h : ∀ c ∈ d ++ [name], IsPart c) (hcount : (d ++ [name]).length ≤ fqnMaxPathSegs) :
    stemSegments path = canonicalFirst d ++
      [stem (if d = [] then cbmCanonicalizeDrive name else name)].filter (· ≠ []) := by
  have hd := canonicalFirst_part fun c hc => h c (List.mem_append_left _ hc)
  have hname : IsPart name := h name (by simp)
  have hlast : slash ∉ stem (if d = [] then cbmCanonicalizeDrive name else name) := by
    intro hmem
    have hsub := stem_subset _ hmem
    split at hsub
    · exact hname.no_slash ((mem_cbmCanonicalizeDrive (by decide)).mp hsub)
    · exact hname.no_slash hsub
  rw [stemSegments, tokenizePath, stripFileExtension_path hpath h, splitOn_join_of_notMem,
    List.filter_append, List.take_of_length_le]
  · congr 1
    exact List.filter_eq_self.mpr fun c hc => decide_eq_true (hd c hc).1
  · rw [← List.filter_append]
    refine (List.length_filter_le _ _).trans ?_
    rw [List.length_append, length_canonicalFirst, List.length_singleton]
    rwa [List.length_append, List.length_singleton] at hcount
  · simp
  · intro c hc
    rcases List.mem_append.mp hc with hin | hend
    · exact (hd c hin).2
    · rwa [List.mem_singleton.mp hend]

end Segments

theorem resolveJsLoop_leads {dir segs target : List CStr} (h : Leads dir segs target)
    (hdir : ∀ c ∈ dir, IsComponent c) :
    (∀ c ∈ target, IsComponent c) ∧
      (resolveJsLoop segs (join slash dir) = some (join slash target) ∨
        ∃ front name, target = front ++ [name] ∧
          resolveJsLoop segs (join slash dir) = some (join slash (front ++ [stripExt name]))) := by
  induction h with
  | done dir => exact ⟨hdir, Or.inl rfl⟩
  | here _ ih =>
      rw [resolveJsLoop, if_pos (Or.inr rfl)]
      exact ih hdir
  | @up dir name segs target _ ih =>
      have hname := hdir name (by simp)
      have hskip : ¬ ([dot, dot] = [] ∨ [dot, dot] = [dot]) := by decide
      rw [resolveJsLoop, if_neg hskip, if_pos rfl, pathPopSegment_join hname.no_slash]
      exact ih fun c hc => hdir c (List.mem_append_left _ hc)
  | @down dir name segs target hname hlength hrest ih =>
      have hnext : ∀ c ∈ dir ++ [name], IsComponent c := by
        intro c hc
        rcases List.mem_append.mp hc with hin | hend
        · exact hdir c hin
        · rwa [List.mem_singleton.mp hend]
      have hskip : ¬ (name = [] ∨ name = [dot]) := fun h => h.elim hname.ne_nil hname.ne_dot
      have hne : ∀ c ∈ dir, c ≠ [] := fun c hc => (hdir c hc).ne_nil
      obtain ⟨htarget, hloop⟩ := ih hnext
      rw [resolveJsLoop, if_neg hskip, if_neg hname.ne_dots]
      by_cases hlast : segs = []
      · subst hlast
        have hcut : (join slash (dir ++ [stripExt name])).length < 1024 := by
          have hle : (stripExt name).length ≤ name.length := by
            rcases stripExt_eq_or name with heq | hlt
            · rw [heq]
            · exact Nat.le_of_lt hlt
          rw [join_append_singleton] at hlength ⊢
          split at hlength
          · next hempty =>
              rw [if_pos hempty]
              omega
          · next hempty =>
              rw [if_neg hempty]
              rw [List.length_append, List.length_cons] at hlength ⊢
              omega
        obtain rfl := hrest.of_nil
        refine ⟨htarget, Or.inr ⟨dir, name, rfl, ?_⟩⟩
        rw [if_pos rfl, if_neg (stripExt_ne_nil hname.ne_nil), pathAppendSegment_join hne hcut]
        rfl
      · rw [if_neg hlast, if_neg hname.ne_nil, pathAppendSegment_join hne (by omega),
          Option.bind_some]
        exact ⟨htarget, hloop⟩

theorem seedSourceDir_eq {s : CStr} {dir : List CStr} {file : CStr}
    (hs : pathComponents s = dir ++ [file]) (hfile : IsComponent file) (hlength : s.length < 1000) :
    seedSourceDir s = join slash dir := by
  rw [seedSourceDir, fqnPathBuf, List.take_of_length_le (by omega), map_sep_eq_join hs,
    pathPopSegment_join hfile.no_slash]

section Import

variable {s t spec : CStr} {dir d segs : List CStr} {file b ext up next : CStr}

theorem Leads.no_slash {target : List CStr} (h : Leads dir segs target) :
    ∀ seg ∈ segs, slash ∉ seg := by
  induction h with
  | done => exact fun seg hseg => absurd hseg List.not_mem_nil
  | here _ ih =>
      intro seg hseg
      rcases List.mem_cons.mp hseg with rfl | hrest
      · decide
      · exact ih seg hrest
  | up _ ih =>
      intro seg hseg
      rcases List.mem_cons.mp hseg with rfl | hrest
      · decide
      · exact ih seg hrest
  | down hname _ _ ih =>
      intro seg hseg
      rcases List.mem_cons.mp hseg with rfl | hrest
      · exact hname.no_slash
      · exact ih seg hrest

theorem exists_resolved (hs : pathComponents s = dir ++ [file])
    (hscomp : ∀ c ∈ dir ++ [file], IsComponent c) (hslen : s.length < 1000)
    (hup : up = [dot] ∨ up = [dot, dot]) (hleads : Leads dir (up :: next :: segs) (d ++ [b])) :
    (∀ c ∈ d ++ [b], IsComponent c) ∧
      ∃ last, (last = b ∨ last = stripExt b) ∧
        cbmPipelineResolveRelativeImport s (join slash (up :: next :: segs)) =
          some (join slash (d ++ [last])) := by
  obtain ⟨htarget, hloop⟩ := resolveJsLoop_leads hleads
    fun c hc => hscomp c (List.mem_append_left _ hc)
  have hkind : classifyRelativeImport (join slash (up :: next :: segs)) = .js := by
    rw [join, List.intercalate_cons_cons]
    rcases hup with rfl | rfl
    · simp [classifyRelativeImport]
    · simp [classifyRelativeImport]
  have hresolve : cbmPipelineResolveRelativeImport s (join slash (up :: next :: segs)) =
      resolveJsLoop (up :: next :: segs) (join slash dir) := by
    rw [cbmPipelineResolveRelativeImport, hkind]
    rw [resolveJsRelative, splitOn_join_of_notMem (List.cons_ne_nil _ _) hleads.no_slash,
      seedSourceDir_eq hs (hscomp file (by simp)) hslen]
  refine ⟨htarget, ?_⟩
  rw [hresolve]
  rcases hloop with hsame | ⟨front, name, heq, hcut⟩
  · exact ⟨b, Or.inl rfl, hsame⟩
  · obtain ⟨rfl, hb⟩ := List.append_inj' heq rfl
    obtain rfl : b = name := (List.cons.inj hb).1
    exact ⟨stripExt b, Or.inr rfl, hcut⟩

theorem stemSegments_target (ht : pathComponents t = d ++ [b ++ dot :: ext])
    (htcomp : ∀ c ∈ d ++ [b ++ dot :: ext], IsComponent c) (hext : dot ∉ ext) (hb : b ≠ [])
    (hcount : (d ++ [b]).length ≤ fqnMaxPathSegs) :
    stemSegments t = canonicalFirst d ++ [b] := by
  have hcount' : (d ++ [b ++ dot :: ext]).length ≤ fqnMaxPathSegs := by
    rw [List.length_append, List.length_singleton] at hcount ⊢
    exact hcount
  have hname := htcomp (b ++ dot :: ext) (by simp)
  have hcanon : cbmCanonicalizeDrive (b ++ dot :: ext) = b ++ dot :: ext := by
    refine (cbmCanonicalizeDrive_eq_self_iff hname.no_slash).mpr ?_
    rintro ⟨x, hlow, _, heq⟩
    have hmem : dot ∈ [x, 58] := heq ▸ List.mem_append_right b List.mem_cons_self
    rcases List.mem_cons.mp hmem with rfl | hcolon
    · exact absurd hlow (by decide)
    · exact absurd hcolon (by decide)
  rw [stemSegments_path ht (fun c hc => (htcomp c hc).toIsPart) hcount', hcanon, ite_self, stem_append hext]
  simp [hb]

theorem stemSegments_resolved {last : CStr} (hcomp : ∀ c ∈ d ++ [last], IsPart c)
    (hcount : (d ++ [last]).length ≤ fqnMaxPathSegs) :
    stemSegments (join slash (d ++ [last])) = canonicalFirst d ++
      [stem (if d = [] then cbmCanonicalizeDrive last else last)].filter (· ≠ []) := by
  refine stemSegments_path ?_ hcomp hcount
  have hsame : (join slash (d ++ [last])).map (fun c => if c = backslash then slash else c) =
      join slash (d ++ [last]) := by
    refine (List.map_congr_left fun c hc => ?_).trans (List.map_id _)
    rw [id, if_neg]
    rintro rfl
    rcases mem_join hc with hsep | ⟨part, hpart, hmem⟩
    · exact absurd hsep (by decide)
    · exact (hcomp part hpart).no_backslash hmem
  rw [pathComponents, hsame, splitOn_join_of_notMem (by simp) fun c hc => (hcomp c hc).no_slash]

theorem words_filter_singleton {x : CStr} (hb : b ≠ []) :
    words dot ([x].filter (· ≠ [])) = words dot [b] ↔ x = b := by
  have hsingle : ∀ y : CStr, words dot [y] = y.splitOn dot := fun y => by
    rw [words, List.flatMap_cons, List.flatMap_nil, List.append_nil]
  by_cases hx : x = []
  · subst hx
    rw [hsingle]
    refine ⟨fun h => absurd h.symm (List.splitOn_ne_nil _ _), fun h => absurd h.symm hb⟩
  · have hfilter : [x].filter (· ≠ []) = [x] := by simp [hx]
    rw [hfilter, hsingle, hsingle, splitOn_inj]

/-- The import has the name of the module of the file it leads to, exactly if that file has no dot
in its name apart from the extension, and is not a drive letter with a colon. -/
theorem relative_import_iff (project : CStr) (hs : pathComponents s = dir ++ [file])
    (hscomp : ∀ c ∈ dir ++ [file], IsComponent c) (hslen : s.length < 1000)
    (ht : pathComponents t = d ++ [b ++ dot :: ext])
    (htcomp : ∀ c ∈ d ++ [b ++ dot :: ext], IsComponent c) (hext : dot ∉ ext)
    (hcount : (d ++ [b]).length ≤ fqnMaxPathSegs) (hspec : spec = join slash (up :: next :: segs))
    (hup : up = [dot] ∨ up = [dot, dot]) (hleads : Leads dir (up :: next :: segs) (d ++ [b])) :
    (∃ path, cbmPipelineResolveRelativeImport s spec = some path ∧
        cbmPipelineFqnModule project path = cbmPipelineFqnModule project t) ↔
      dot ∉ b ∧ ¬ (d = [] ∧ IsDrive b) := by
  obtain ⟨htarget, last, hlast, hresolve⟩ := exists_resolved hs hscomp hslen hup hleads
  have hb : IsComponent b := htarget b (by simp)
  have hlastpart : IsPart last := by
    rcases hlast with rfl | rfl
    · exact hb.toIsPart
    · exact ⟨stripExt_ne_nil hb.ne_nil, fun h => hb.no_slash (stripExt_subset b h),
        fun h => hb.no_backslash (stripExt_subset b h)⟩
  have hcomp : ∀ c ∈ d ++ [last], IsPart c := by
    intro c hc
    rcases List.mem_append.mp hc with hin | hend
    · exact (htarget c (List.mem_append_left _ hin)).toIsPart
    · rwa [List.mem_singleton.mp hend]
  have hcount' : (d ++ [last]).length ≤ fqnMaxPathSegs := by
    rw [List.length_append, List.length_singleton] at hcount ⊢
    exact hcount
  have hname : (∃ path, cbmPipelineResolveRelativeImport s spec = some path ∧
        cbmPipelineFqnModule project path = cbmPipelineFqnModule project t) ↔
      words dot ([stem (if d = [] then cbmCanonicalizeDrive last else last)].filter (· ≠ [])) =
        words dot [b] := by
    rw [hspec, hresolve]
    have hqn := qn_eq_iff project (.module (join slash (d ++ [last]))) (.module t)
    have hwords : (Entity.module (join slash (d ++ [last]))).words = (Entity.module t).words ↔
        words dot ([stem (if d = [] then cbmCanonicalizeDrive last else last)].filter (· ≠ [])) =
          words dot [b] := by
      rw [Entity.words, Entity.words, stemSegments_resolved hcomp hcount',
        stemSegments_target ht htcomp hext hb.ne_nil hcount, words_append, words_append,
        List.append_cancel_left_eq]
    simp only [Option.some.injEq, exists_eq_left']
    exact hqn.trans hwords
  rw [hname, words_filter_singleton hb.ne_nil]
  by_cases hdot : dot ∈ b
  · -- what is left of the name is shorter than the name
    refine ⟨fun heq => absurd (congrArg List.length heq) (Nat.ne_of_lt ?_),
      fun h => absurd hdot h.1⟩
    have hlen : (if d = [] then cbmCanonicalizeDrive last else last).length = last.length := by
      split
      · exact length_cbmCanonicalizeDrive last
      · rfl
    have hshort : last = b ∨ last.length < b.length := by
      rcases hlast with rfl | rfl
      · exact Or.inl rfl
      · exact stripExt_eq_or b
    rcases hshort with rfl | hlt
    · refine (length_stem_lt ?_).trans_eq hlen
      split
      · exact (mem_cbmCanonicalizeDrive (by decide)).mpr hdot
      · exact hdot
    · exact ((length_stem_le _).trans_eq hlen).trans_lt hlt
  · have hsame : last = b := by
      rcases hlast with rfl | rfl
      · rfl
      · exact stripExt_of_notMem hdot
    subst hsame
    by_cases hd : d = []
    · have hcanon : dot ∉ cbmCanonicalizeDrive last := fun h =>
        hdot ((mem_cbmCanonicalizeDrive (by decide)).mp h)
      rw [if_pos hd, stem_of_notMem hcanon, cbmCanonicalizeDrive_eq_self_iff hb.no_slash]
      simp [hd, hdot]
    · rw [if_neg hd, stem_of_notMem hdot]
      simp [hd, hdot]

end Import

/-- `./b` in `a/m.ts`, for `a/b.ts`. -/
theorem relative_import_iff_sibling :
    (∃ path, cbmPipelineResolveRelativeImport (bytesOf "a/m.ts") (bytesOf "./b") = some path ∧
        cbmPipelineFqnModule (bytesOf "p") path =
          cbmPipelineFqnModule (bytesOf "p") (bytesOf "a/b.ts")) ↔
      dot ∉ bytesOf "b" ∧ ¬ ([bytesOf "a"] = [] ∧ IsDrive (bytesOf "b")) := by
  have hpart : ∀ c ∈ [bytesOf "a", bytesOf "b", bytesOf "m.ts", bytesOf "b.ts"],
      IsComponent c := by
    intro c hc
    simp only [List.mem_cons, List.not_mem_nil, or_false] at hc
    rcases hc with rfl | rfl | rfl | rfl <;>
      exact ⟨⟨by decide +kernel, by decide +kernel, by decide +kernel⟩, by decide +kernel,
        by decide +kernel⟩
  have hs : pathComponents (bytesOf "a/m.ts") = [bytesOf "a"] ++ [bytesOf "m.ts"] := by
    decide +kernel
  have hfile : bytesOf "b" ++ dot :: bytesOf "ts" = bytesOf "b.ts" := by
    decide +kernel
  have ht : pathComponents (bytesOf "a/b.ts") =
      [bytesOf "a"] ++ [bytesOf "b" ++ dot :: bytesOf "ts"] := by
    decide +kernel
  refine @relative_import_iff _ _ _ _ _ [] _ _ _ [dot] (bytesOf "b") (bytesOf "p") hs
    (fun c hc => ?_) (by decide +kernel) ht (fun c hc => ?_) (by decide +kernel)
    (by decide +kernel) (by decide +kernel) (Or.inl rfl) ?_
  · rcases List.mem_append.mp hc with h | h <;> rw [List.mem_singleton.mp h]
    · exact hpart _ (by simp)
    · exact hpart _ (by simp)
  · rcases List.mem_append.mp hc with h | h <;> rw [List.mem_singleton.mp h]
    · exact hpart _ (by simp)
    · exact hfile ▸ hpart _ (by simp)
  · exact .here (.down (hpart _ (by simp)) (by decide +kernel) (.done _))

/-- `./user.service` in `app.ts`, for `user.service.ts`: the import goes to `p.user`. -/
theorem not_relative_import :
    ¬ ∃ path, cbmPipelineResolveRelativeImport (bytesOf "app.ts") (bytesOf "./user.service") =
          some path ∧
        cbmPipelineFqnModule (bytesOf "p") path =
          cbmPipelineFqnModule (bytesOf "p") (bytesOf "user.service.ts") := by
  rintro ⟨path, hpath, hqn⟩
  have hresolve : cbmPipelineResolveRelativeImport (bytesOf "app.ts") (bytesOf "./user.service") =
      some (bytesOf "user") := by
    decide +kernel
  obtain rfl := Option.some.inj (hresolve.symm.trans hpath)
  exact absurd hqn (by decide +kernel)

end Pipeline
end CodebaseMemory
