import CodebaseMemory.Foundation.YamlPrint

/-!
# Printed YAML trees are read back

A run of the parser over the lines of some entries adds their nodes to the map that is
open at their indentation.
-/

namespace CodebaseMemory
namespace Foundation

open Lib
open Sqlite (CStr)

mutual

def nodeOf (key : Option CStr) : Yaml → YamlNode
  | .scalar v => nodeNew .scalar key (some v)
  | .list items =>
      .node { type := .list, key := key, value := none }
        (items.map fun v => nodeNew .scalar none (some v))
  | .map entries => .node { type := .map, key := key, value := none } (nodesOf entries)

/-- The nodes of the entries of a map. -/
def nodesOf : List (CStr × Yaml) → List YamlNode
  | [] => []
  | (k, t) :: entries => nodeOf (some k) t :: nodesOf entries

end

mutual

/-- How many maps stand one in the other. -/
def depth : Yaml → Nat
  | .scalar _ => 0
  | .list _ => 0
  | .map entries => nesting entries + 1

/-- How many maps stand one in the other below a map with these entries. -/
def nesting : List (CStr × Yaml) → Nat
  | [] => 0
  | (_, t) :: entries => max (depth t) (nesting entries)

end

section Stack

theorem popStack_append {extra below : List StackEntry} {e : StackEntry} {n : Int}
    (hextra : ∀ x ∈ extra, n ≤ x.indent) (he : e.indent < n) :
    popStack n (extra ++ e :: below) = e :: below := by
  induction extra with
  | nil =>
      cases below with
      | nil => rfl
      | cons b below => rw [List.nil_append, popStack.eq_3 _ _ _ (by simp), if_neg (by omega)]
  | cons x extra ih =>
      rw [List.cons_append, popStack.eq_3 _ _ _ (by simp),
        if_pos (hextra x List.mem_cons_self), ih fun y hy => hextra y (List.mem_cons_of_mem x hy)]

end Stack

section LastChild

variable {root nd child : YamlNode} {π : List Nat}

theorem nextChild_eq (h : root.at? π = some nd) :
    nextChild root π = π ++ [nd.children.length] := by
  rw [nextChild, h]
  rfl

theorem at?_nodeAddChild (h : root.at? π = some nd) (child : YamlNode) :
    (nodeAddChild root π child).at? π = some (nd.addAll [child]) := by
  rw [nodeAddChild, Rose.at?_modifyAt, h]
  rfl

theorem at?_nextChild (h : root.at? π = some nd) (child : YamlNode) :
    (nodeAddChild root π child).at? (nextChild root π) = some child := by
  obtain ⟨a, ts⟩ := nd
  rw [nextChild_eq h, Rose.at?_append, at?_nodeAddChild h child, Option.bind_some]
  exact Rose.at?_last a ts child

theorem modifyAt_nextChild (h : root.at? π = some nd) (f : YamlNode → YamlNode) :
    (nodeAddChild root π child).modifyAt f (nextChild root π) =
      nodeAddChild root π (f child) := by
  rw [nextChild_eq h, Rose.modifyAt_append, nodeAddChild, Rose.modifyAt_modifyAt, nodeAddChild]
  refine Rose.modifyAt_congr h ?_
  obtain ⟨a, ts⟩ := nd
  exact Rose.modifyAt_last a ts child

theorem modifyAt_nodeAddChild (ts : List YamlNode) :
    (nodeAddChild root π child).modifyAt (Rose.addAll ts) π =
      root.modifyAt (Rose.addAll (child :: ts)) π := by
  rw [nodeAddChild, Rose.modifyAt_modifyAt]
  congr 1
  exact funext fun t => Rose.addAll_addAll [child] ts t

end LastChild

section Items

variable {root nd : YamlNode} {π : List Nat} {lab : YamlLabel}

theorem listParent_map (h : root.at? π = some nd) (hmap : nd.label.type = .map)
    (hlist : lab.type = .list) (us : List YamlNode) :
    parseListItem.listParent (nodeAddChild root π (.node lab us)) π = nextChild root π := by
  rw [parseListItem.listParent, at?_nodeAddChild h, nextChild_eq h]
  dsimp only
  rw [Rose.children_addAll, List.getLast?_concat]
  dsimp only
  rw [if_pos ⟨by rw [Rose.label_addAll, hmap], hlist⟩, List.length_append, List.length_singleton,
    Nat.add_sub_cancel]

theorem listParent_list (h : root.at? π = some nd) (hlist : lab.type = .list)
    (us : List YamlNode) :
    parseListItem.listParent (nodeAddChild root π (.node lab us)) (nextChild root π) =
      nextChild root π := by
  rw [parseListItem.listParent, at?_nextChild h]
  dsimp only
  cases (Rose.node lab us).children.getLast? with
  | none => rfl
  | some last => exact if_neg fun hmap => absurd (hlist.symm.trans hmap.1) (by decide)

/-- The list, if there was room for it on the stack. -/
def listEntries (pushed : Bool) (node : List Nat) (n : Int) : List StackEntry :=
  if pushed then [{ node := node, indent := n }] else []

theorem indent_listEntries (pushed : Bool) (node : List Nat) (n : Int) :
    ∀ x ∈ listEntries pushed node n, n ≤ x.indent := by
  intro x hx
  cases pushed with
  | false => exact absurd hx List.not_mem_nil
  | true => exact le_of_eq (by rw [List.mem_singleton.mp hx])

theorem popStack_listEntries {n m : Nat} {i : Int} (hi : i < n) (hm : n ≤ m) (pushed : Bool)
    (node : List Nat) (below : List StackEntry) :
    ∃ pushed' : Bool, popStack m (listEntries pushed node n ++ ⟨π, i⟩ :: below) =
      listEntries pushed' node n ++ ⟨π, i⟩ :: below := by
  by_cases hpop : m ≤ n
  · refine ⟨false, popStack_append ?_ (by dsimp only; omega)⟩
    exact fun x hx => le_trans (Int.ofNat_le.mpr hpop) (indent_listEntries pushed node n x hx)
  · refine ⟨pushed, ?_⟩
    cases pushed with
    | false => exact @popStack_append [] _ _ _ (by simp) (by dsimp only; omega)
    | true =>
        rw [listEntries, if_pos rfl, List.singleton_append, popStack.eq_3 _ _ _ (by simp)]
        exact if_neg (by dsimp only; omega)

theorem parseLines_items {n : Nat} {items lines : List CStr} (h : PrintsItems n items lines)
    (hat : root.at? π = some nd) (hmap : nd.label.type = .map) (hlist : lab.type = .list)
    {i : Int} (hi : i < n) (below : List StackEntry) (after : List CStr) :
    ∀ (us : List YamlNode) (pushed : Bool), ∃ pushed' : Bool,
      parseLines (lines ++ after)
          { root := nodeAddChild root π (.node lab us)
            stack := listEntries pushed (nextChild root π) n ++ ⟨π, i⟩ :: below } =
        parseLines after
          { root := nodeAddChild root π
              (.node lab (us ++ items.map fun v => nodeNew .scalar none (some v)))
            stack := listEntries pushed' (nextChild root π) n ++ ⟨π, i⟩ :: below } := by
  induction h with
  | nil =>
      intro us pushed
      exact ⟨pushed, by rw [List.map_nil, List.append_nil, List.nil_append]⟩
  | noise hline _ ih =>
      intro us pushed
      rw [List.cons_append, parseLines, parseLine_noise hline]
      exact ih us pushed
  | @item items lines m v hm hv _ ih =>
      intro us pushed
      obtain ⟨pushed', hpop⟩ := popStack_listEntries hi hm pushed (nextChild root π) below
      have hparent : parseListItem.listParent (nodeAddChild root π (.node lab us))
          (topNode (listEntries pushed' (nextChild root π) n ++ ⟨π, i⟩ :: below)) =
            nextChild root π := by
        cases pushed' with
        | false => exact listParent_map hat hmap hlist us
        | true => exact listParent_list hat hlist us
      rw [List.cons_append, parseLines, parseLine_item hv, hpop]
      dsimp only
      rw [hparent, nodeAddChild, modifyAt_nextChild hat, Rose.addAll, List.map_cons]
      have hrun := ih (us ++ [nodeNew .scalar none (some v)]) pushed'
      rwa [List.append_assoc us, List.singleton_append] at hrun

end Items

section Entries

theorem depth_map_le {k : CStr} {sub entries : List (CStr × Yaml)} :
    nesting sub + 1 ≤ nesting ((k, .map sub) :: entries) := by
  rw [nesting, depth]
  exact le_max_left _ _

theorem nesting_tail_le {e : CStr × Yaml} {entries : List (CStr × Yaml)} {a b : Nat}
    (h : a + nesting (e :: entries) ≤ b) : a + nesting entries ≤ b := by
  rw [nesting] at h
  exact le_trans (Nat.add_le_add_left (le_max_right _ _) a) h

theorem type_addAll {nd : YamlNode} (hmap : nd.label.type = .map) (ts : List YamlNode) :
    (nd.addAll ts).label.type = .map := by
  rw [Rose.label_addAll, hmap]

/-- A run over the lines of some entries adds their nodes to the map at `π`.  What is above
the map on the stack, before and after the run, is popped by the next entry. -/
theorem parseLines_entries {n : Nat} {entries : List (CStr × Yaml)} {lines : List CStr}
    (h : PrintsEntries n entries lines) :
    ∀ {root nd : YamlNode} {π : List Nat} {i : Int} {extra below : List StackEntry}
      (after : List CStr),
      root.at? π = some nd → nd.label.type = .map → i < n → (∀ x ∈ extra, (n : Int) ≤ x.indent) →
      below.length + 1 + nesting entries ≤ stackRoom →
      ∃ extra' : List StackEntry, (∀ x ∈ extra', (n : Int) ≤ x.indent) ∧
        parseLines (lines ++ after) { root := root, stack := extra ++ ⟨π, i⟩ :: below } =
          parseLines after
            { root := root.modifyAt (Rose.addAll (nodesOf entries)) π
              stack := extra' ++ ⟨π, i⟩ :: below } := by
  induction h with
  | nil n =>
      intro root nd π i extra below after _ _ _ hextra _
      refine ⟨extra, hextra, ?_⟩
      have hid : Rose.addAll (nodesOf []) = (id : YamlNode → YamlNode) := funext Rose.addAll_nil
      rw [hid, Rose.modifyAt_id, List.nil_append]
  | noise hline _ ih =>
      intro root nd π i extra below after hat hmap hi hextra hroom
      rw [List.cons_append, parseLines, parseLine_noise hline]
      exact ih after hat hmap hi hextra hroom
  | @scalar n entries lines k v hk hv _ ih =>
      intro root nd π i extra below after hat hmap hi hextra hroom
      obtain ⟨extra', hextra', hrun⟩ := @ih _ _ π i [] below after
        (at?_nodeAddChild hat (nodeOf (some k) (.scalar v))) (type_addAll hmap _) hi
        (by simp) (nesting_tail_le hroom)
      refine ⟨extra', hextra', ?_⟩
      rw [List.cons_append, parseLines, parseLine_scalar hk n hv, popStack_append hextra hi]
      rw [modifyAt_nodeAddChild] at hrun
      exact hrun
  | @list n entries items itemLines lines k hk hne hitems _ ih =>
      intro root nd π i extra below after hat hmap hi hextra hroom
      -- the list is filled, then the other entries follow
      obtain ⟨pushed, hfill⟩ := @parseLines_items root nd π
        { type := .list, key := some k, value := none } n items itemLines hitems hat hmap rfl i hi
        below (lines ++ after) []
        (decide ((⟨π, i⟩ :: below : List StackEntry).length < stackRoom))
      obtain ⟨extra', hextra', hrun⟩ := @ih _ _ π i (listEntries pushed (nextChild root π) n) below
        after (at?_nodeAddChild hat (nodeOf (some k) (.list items))) (type_addAll hmap _)
        hi (indent_listEntries pushed _ n) (nesting_tail_le hroom)
      refine ⟨extra', hextra', ?_⟩
      rw [modifyAt_nodeAddChild] at hrun
      rw [List.cons_append, parseLines, parseLine_open hk, popStack_append hextra hi,
        List.append_assoc, peekIsList_items hitems hne, if_pos rfl]
      refine Eq.trans ?_ (hfill.trans hrun)
      congr 2
      by_cases hfull : (⟨π, i⟩ :: below : List StackEntry).length < stackRoom
      · rw [if_pos hfull, decide_eq_true hfull]
        rfl
      · rw [if_neg hfull, decide_eq_false hfull]
        rfl
  | @map n m entries sub subLines lines k hk hne hm hsub _ ihsub ih =>
      intro root nd π i extra below after hat hmap hi hextra hroom
      have hdeep := @depth_map_le k sub entries
      -- the map is filled, then the other entries follow
      obtain ⟨above, habove, hfill⟩ := @ihsub _ _ (nextChild root π) n [] (⟨π, i⟩ :: below)
        (lines ++ after) (at?_nextChild hat (nodeNew .map (some k) none)) rfl
        (Int.ofNat_lt.mpr hm) (by simp) (by rw [List.length_cons]; omega)
      rw [modifyAt_nextChild hat] at hfill
      obtain ⟨extra', hextra', hrun⟩ := @ih _ _ π i (above ++ [⟨nextChild root π, n⟩]) below after
        (at?_nodeAddChild hat (nodeOf (some k) (.map sub))) (type_addAll hmap _) hi
        (by
          intro x hx
          rcases List.mem_append.mp hx with hx | hx
          · exact le_trans (Int.ofNat_le.mpr hm.le) (habove x hx)
          · exact le_of_eq (by rw [List.mem_singleton.mp hx]))
        (nesting_tail_le hroom)
      refine ⟨extra', hextra', ?_⟩
      rw [modifyAt_nodeAddChild, List.append_assoc] at hrun
      have hpush : (⟨π, i⟩ :: below : List StackEntry).length < stackRoom := by
        rw [List.length_cons]
        omega
      rw [List.cons_append, parseLines, parseLine_open hk, popStack_append hextra hi,
        List.append_assoc, peekIsList_entries hsub hne, if_neg Bool.false_ne_true, if_pos hpush]
      exact hfill.trans hrun

end Entries

section Texts

theorem parseLine_congr {rest rest' : List CStr} (h : peekIsList rest = peekIsList rest')
    (line : CStr) (s : ParseState) : parseLine line rest s = parseLine line rest' s := by
  simp only [parseLine, parseKeyLine, h]

theorem peekIsList_append_blank (lines : List CStr) :
    peekIsList (lines ++ [[]]) = peekIsList lines := by
  induction lines with
  | nil => rfl
  | cons line lines ih => rw [List.cons_append, peekIsList, peekIsList, ih]

theorem parseLines_append_blank (lines : List CStr) (s : ParseState) :
    parseLines (lines ++ [[]]) s = parseLines lines s := by
  induction lines generalizing s with
  | nil => exact @parseLine_noise [] [] s (.blank 0)
  | cons line lines ih =>
      rw [List.cons_append, parseLines, parseLines, ih,
        parseLine_congr (peekIsList_append_blank lines)]

variable {lines : List CStr}
variable {n : Nat}

theorem cbmYamlParse_lines (h : ∀ line ∈ lines, 10 ∉ line) :
    cbmYamlParse ([10].intercalate lines) = (parseLines lines parseStart).root := by
  rw [cbmYamlParse]
  congr 1
  by_cases hnil : lines = []
  · subst hnil
    rfl
  · rw [pieces, List.splitOn_intercalate 10 h hnil]
    split
    case isTrue hlast =>
      obtain ⟨init, rfl⟩ := List.getLast?_eq_some_iff.mp hlast
      rw [List.dropLast_concat, parseLines_append_blank]
    case isFalse => rfl

theorem no_newline_indented {content : CStr} (h : 10 ∉ content) : 10 ∉ indented n content := by
  rw [indented, List.mem_append, not_or]
  exact ⟨fun hin => absurd (List.eq_of_mem_replicate hin) (by decide), h⟩

theorem no_newline_noise {line : CStr} (h : IsNoise line) : 10 ∉ line := by
  cases h with
  | blank n => exact no_newline_indented (by simp)
  | comment n h => exact no_newline_indented (by simpa using h)

theorem no_newline_items {items : List CStr} (h : PrintsItems n items lines) :
    ∀ line ∈ lines, 10 ∉ line := by
  induction h with
  | nil => simp
  | noise hline _ ih => exact List.forall_mem_cons.mpr ⟨no_newline_noise hline, ih⟩
  | item _ hv _ ih =>
      exact List.forall_mem_cons.mpr ⟨no_newline_indented (by simpa using hv.no_newline), ih⟩

theorem no_newline_entries {entries : List (CStr × Yaml)} (h : PrintsEntries n entries lines) :
    ∀ line ∈ lines, 10 ∉ line := by
  induction h with
  | nil => simp
  | noise hline _ ih => exact List.forall_mem_cons.mpr ⟨no_newline_noise hline, ih⟩
  | scalar hk hv _ ih =>
      refine List.forall_mem_cons.mpr ⟨no_newline_indented ?_, ih⟩
      simpa using ⟨hk.no_newline, hv.no_newline⟩
  | list hk _ hitems _ ih =>
      refine List.forall_mem_cons.mpr ⟨no_newline_indented (by simpa using hk.no_newline), ?_⟩
      exact List.forall_mem_append.mpr ⟨no_newline_items hitems, ih⟩
  | map hk _ _ _ _ ihsub ih =>
      refine List.forall_mem_cons.mpr ⟨no_newline_indented (by simpa using hk.no_newline), ?_⟩
      exact List.forall_mem_append.mpr ⟨ihsub, ih⟩

theorem cbmYamlParse_printed {entries : List (CStr × Yaml)} (h : PrintsEntries n entries lines)
    (hdeep : nesting entries < stackRoom) :
    cbmYamlParse ([10].intercalate lines) = nodeOf none (.map entries) := by
  rw [cbmYamlParse_lines (no_newline_entries h)]
  obtain ⟨extra, -, hrun⟩ := @parseLines_entries n entries lines h parseStart.root
    parseStart.root [] (-1) [] [] [] rfl rfl (by omega) (by simp)
    (by rw [List.length_nil]; omega)
  rw [List.append_nil] at hrun
  exact congrArg ParseState.root hrun

end Texts

/-- The keys of each map are different. -/
inductive DistinctKeys : List (CStr × Yaml) → Prop
  | intro {entries : List (CStr × Yaml)} (hkeys : (entries.map Prod.fst).Nodup)
      (hsub : ∀ k sub, (k, Yaml.map sub) ∈ entries → DistinctKeys sub) : DistinctKeys entries

/-- The keys of a path lead to a subtree. -/
inductive LeadsTo : List (CStr × Yaml) → List CStr → Yaml → Prop
  | here {entries : List (CStr × Yaml)} {k : CStr} {t : Yaml} (h : (k, t) ∈ entries) :
      LeadsTo entries [k] t
  | under {entries sub : List (CStr × Yaml)} {k : CStr} {path : List CStr} {t : Yaml}
      (h : (k, .map sub) ∈ entries) (hpath : LeadsTo sub path t) : LeadsTo entries (k :: path) t

section Lookups

variable {entries : List (CStr × Yaml)} {key : Option CStr}

@[simp] theorem key_nodeOf (t : Yaml) : (nodeOf key t).label.key = key := by
  cases t <;> rfl

variable {k : CStr}
variable {t : Yaml}
variable {path : List CStr}

theorem findChild_map (hkeys : (entries.map Prod.fst).Nodup) {child : YamlNode} :
    findChild (nodeOf key (.map entries)) k = some child ↔
      ∃ t, (k, t) ∈ entries ∧ child = nodeOf (some k) t := by
  rw [findChild, nodeOf, Rose.children]
  induction entries with
  | nil => simp [nodesOf]
  | cons e entries ih =>
      obtain ⟨hnew, hrest⟩ := List.nodup_cons.mp hkeys
      obtain ⟨k', t'⟩ := e
      by_cases hk : k' = k
      · subst hk
        rw [nodesOf, List.find?_cons_of_pos (by simp)]
        constructor
        · intro h
          exact ⟨t', List.mem_cons_self, (Option.some.inj h).symm⟩
        · rintro ⟨t, ht, rfl⟩
          rcases List.mem_cons.mp ht with ht | ht
          · rw [(Prod.mk.inj ht).2]
          · exact absurd (List.mem_map_of_mem ht) hnew
      · rw [nodesOf, List.find?_cons_of_neg (by simpa using hk), ih hrest]
        refine exists_congr fun t => and_congr_left fun _ => ?_
        rw [List.mem_cons, Prod.mk.injEq]
        exact ⟨Or.inr, fun h => h.resolve_left fun h => hk h.1.symm⟩

theorem findChild_leaf (ht : ∀ sub, t ≠ .map sub) (k : CStr) :
    findChild (nodeOf key t) k = none := by
  cases t with
  | scalar v => rfl
  | list items =>
      refine List.find?_eq_none.mpr fun child hchild => ?_
      obtain ⟨v, -, rfl⟩ := List.mem_map.mp hchild
      simp [nodeNew, Rose.leaf, Rose.label]
  | map sub => exact absurd rfl (ht sub)

theorem navigateFrom_cons {cur : YamlNode} (hne : k ≠ []) (hlen : k.length < segmentRoom)
    (path : List CStr) :
    navigateFrom cur (k :: path) = (findChild cur k).bind fun child => navigateFrom child path := by
  rw [navigateFrom, if_neg]
  exact not_or.mpr ⟨hne, Nat.not_le.mpr hlen⟩

theorem leadsTo_singleton : LeadsTo entries [k] t ↔ (k, t) ∈ entries := by
  refine ⟨fun h => ?_, .here⟩
  cases h with
  | here h => exact h
  | under _ h => cases h

theorem leadsTo_cons {k' : CStr} :
    LeadsTo entries (k :: k' :: path) t ↔
      ∃ sub, (k, .map sub) ∈ entries ∧ LeadsTo sub (k' :: path) t := by
  constructor
  · intro h
    cases h with
    | under h hpath => exact ⟨_, h, hpath⟩
  · rintro ⟨sub, h, hpath⟩
    exact .under h hpath

theorem navigateFrom_iff (hkeys : DistinctKeys entries)
    (hpath : ∀ segment ∈ k :: path, segment ≠ [] ∧ segment.length < segmentRoom) {node : YamlNode} :
    navigateFrom (nodeOf key (.map entries)) (k :: path) = some node ↔
      ∃ t, LeadsTo entries (k :: path) t ∧
        node = nodeOf (some ((k :: path).getLast (List.cons_ne_nil k path))) t := by
  induction path generalizing entries k key with
  | nil =>
      obtain ⟨hnodup, -⟩ := hkeys
      obtain ⟨⟨hne, hlen⟩, -⟩ := List.forall_mem_cons.mp hpath
      rw [navigateFrom_cons hne hlen]
      simp only [navigateFrom, Option.bind_fun_some, findChild_map hnodup, leadsTo_singleton,
        List.getLast_singleton]
  | cons k' path ih =>
      obtain ⟨hnodup, hsub⟩ := hkeys
      obtain ⟨⟨hne, hlen⟩, hrest⟩ := List.forall_mem_cons.mp hpath
      rw [navigateFrom_cons hne hlen, Option.bind_eq_some_iff]
      constructor
      · rintro ⟨child, hchild, hwalk⟩
        obtain ⟨t, ht, rfl⟩ := (findChild_map hnodup).mp hchild
        by_cases hmap : ∃ sub, t = .map sub
        · obtain ⟨sub, rfl⟩ := hmap
          obtain ⟨t, hleads, rfl⟩ := (ih (hsub k sub ht) hrest).mp hwalk
          exact ⟨t, leadsTo_cons.mpr ⟨sub, ht, hleads⟩, rfl⟩
        · obtain ⟨hne', hlen'⟩ := (List.forall_mem_cons.mp hrest).1
          rw [navigateFrom_cons hne' hlen', findChild_leaf (not_exists.mp hmap)] at hwalk
          cases hwalk
      · rintro ⟨t, hleads, rfl⟩
        obtain ⟨sub, ht, hleads⟩ := leadsTo_cons.mp hleads
        exact ⟨nodeOf (some k) (.map sub), (findChild_map hnodup).mpr ⟨_, ht, rfl⟩,
          (ih (hsub k sub ht) hrest).mpr ⟨t, hleads, rfl⟩⟩

theorem pieces_path (h : ∀ segment ∈ path, segment ≠ [] ∧ 46 ∉ segment) :
    pieces 46 ([46].intercalate path) = path := by
  by_cases hnil : path = []
  · subst hnil
    rfl
  · rw [pieces, List.splitOn_intercalate 46 (fun segment hs => (h segment hs).2) hnil]
    refine if_neg fun hlast => ?_
    exact (h [] (List.mem_of_mem_getLast? hlast)).1 rfl

theorem navigate_iff (hkeys : DistinctKeys entries)
    (hpath : ∀ segment ∈ path, segment ≠ [] ∧ 46 ∉ segment ∧ segment.length < segmentRoom)
    (hne : path ≠ []) {node : YamlNode} :
    navigate (nodeOf none (.map entries)) ([46].intercalate path) = some node ↔
      ∃ t, LeadsTo entries path t ∧ node = nodeOf (some (path.getLast hne)) t := by
  rw [navigate, pieces_path fun segment hs => ⟨(hpath segment hs).1, (hpath segment hs).2.1⟩]
  cases path with
  | nil => exact absurd rfl hne
  | cons k path =>
      exact navigateFrom_iff hkeys fun segment hs => ⟨(hpath segment hs).1, (hpath segment hs).2.2⟩

theorem navigateFrom_long (hk : k ∈ path) (hlen : segmentRoom ≤ k.length) (cur : YamlNode) :
    navigateFrom cur path = none := by
  induction path generalizing cur with
  | nil => exact absurd hk List.not_mem_nil
  | cons segment path ih =>
      rw [navigateFrom]
      rcases List.mem_cons.mp hk with rfl | hk
      · exact if_pos (Or.inr hlen)
      · split
        · rfl
        · exact Option.bind_eq_none_iff.mpr fun child _ => ih hk child

theorem cbmYamlGetStr_long (hdot : 46 ∉ k) (hlen : segmentRoom ≤ k.length) (root : YamlNode) :
    cbmYamlGetStr root k = none := by
  have hne : k ≠ [] := by
    rintro rfl
    exact absurd hlen (by decide)
  have hpieces : pieces 46 ([46].intercalate [k]) = [k] :=
    pieces_path fun segment hs => List.mem_singleton.mp hs ▸ ⟨hne, hdot⟩
  have hsingle : [46].intercalate [k] = k := by simp
  rw [hsingle] at hpieces
  rw [cbmYamlGetStr, navigate, hpieces, navigateFrom_long List.mem_cons_self hlen]
  rfl

theorem cbmYamlGetStr_iff (hkeys : DistinctKeys entries)
    (hpath : ∀ segment ∈ path, segment ≠ [] ∧ 46 ∉ segment ∧ segment.length < segmentRoom)
    (hne : path ≠ []) {v : CStr} :
    cbmYamlGetStr (nodeOf none (.map entries)) ([46].intercalate path) = some v ↔
      LeadsTo entries path (.scalar v) := by
  rw [cbmYamlGetStr, Option.bind_eq_some_iff]
  simp only [navigate_iff hkeys hpath hne]
  constructor
  · rintro ⟨node, ⟨t, hleads, rfl⟩, hv⟩
    cases t with
    | scalar v' =>
        obtain rfl : v' = v := Option.some.inj hv
        exact hleads
    | list items => cases hv
    | map sub => cases hv
  · intro hleads
    exact ⟨_, ⟨_, hleads, rfl⟩, rfl⟩

theorem cbmYamlGetStrList_list (hkeys : DistinctKeys entries)
    (hpath : ∀ segment ∈ path, segment ≠ [] ∧ 46 ∉ segment ∧ segment.length < segmentRoom)
    {items : List CStr} (h : LeadsTo entries path (.list items)) (maxOut : Nat) :
    cbmYamlGetStrList (nodeOf none (.map entries)) ([46].intercalate path) maxOut =
      items.take maxOut := by
  have hne : path ≠ [] := by
    rintro rfl
    cases h
  rw [cbmYamlGetStrList, (navigate_iff hkeys hpath hne).mpr ⟨_, h, rfl⟩]
  have hvalues : ((nodeOf (some (path.getLast hne)) (.list items)).children.filterMap fun child =>
      if child.label.type = .scalar then child.label.value else none) = items := by
    rw [nodeOf, Rose.children, List.filterMap_map]
    exact List.filterMap_some
  dsimp only
  rw [hvalues]
  exact if_pos rfl

theorem cbmYamlGetStrList_other (hkeys : DistinctKeys entries)
    (hpath : ∀ segment ∈ path, segment ≠ [] ∧ 46 ∉ segment ∧ segment.length < segmentRoom)
    (hne : path ≠ []) (h : ∀ items, ¬ LeadsTo entries path (.list items)) (maxOut : Nat) :
    cbmYamlGetStrList (nodeOf none (.map entries)) ([46].intercalate path) maxOut = [] := by
  rw [cbmYamlGetStrList]
  cases hnode : navigate (nodeOf none (.map entries)) ([46].intercalate path) with
  | none => rfl
  | some node =>
      obtain ⟨t, hleads, rfl⟩ := (navigate_iff hkeys hpath hne).mp hnode
      cases t with
      | scalar v => rfl
      | list items => exact absurd hleads (h items)
      | map sub => rfl

end Lookups

/-- A printed tree is read back: the look-ups give a leaf of the tree for the path that leads to
it, and nothing for the other paths. -/
theorem cbmYaml_read_back {n : Nat} {entries : List (CStr × Yaml)} {lines : List CStr}
    (h : PrintsEntries n entries lines) (hkeys : DistinctKeys entries)
    (hdeep : nesting entries < stackRoom) {path : List CStr}
    (hpath : ∀ key ∈ path, key ≠ [] ∧ 46 ∉ key ∧ key.length < segmentRoom) (hne : path ≠ []) :
    (∀ v, cbmYamlGetStr (cbmYamlParse ([10].intercalate lines)) ([46].intercalate path) = some v ↔
      LeadsTo entries path (.scalar v)) ∧
    (∀ items, LeadsTo entries path (.list items) → ∀ maxOut,
      cbmYamlGetStrList (cbmYamlParse ([10].intercalate lines)) ([46].intercalate path) maxOut =
        items.take maxOut) ∧
    ((∀ items, ¬ LeadsTo entries path (.list items)) → ∀ maxOut,
      cbmYamlGetStrList (cbmYamlParse ([10].intercalate lines)) ([46].intercalate path) maxOut =
        []) := by
  rw [cbmYamlParse_printed h hdeep]
  exact ⟨fun v => cbmYamlGetStr_iff hkeys hpath hne,
    fun items hleads => cbmYamlGetStrList_list hkeys hpath hleads,
    cbmYamlGetStrList_other hkeys hpath hne⟩

/-- A map in a map with a list at the indentation of its key, and a comment. -/
theorem cbmYaml_read_back_map :
    let lines : List CStr :=
      [[115, 58], [32, 32, 112, 58], [35, 32, 120], [32, 32, 45, 32, 119], [32, 32, 45, 32, 97]]
    cbmYamlGetStrList (cbmYamlParse ([10].intercalate lines)) [115, 46, 112] 8 = [[119], [97]] := by
  have hs : PlainKey [115] := .of_letters (by simp) (by simp)
  have hp : PlainKey [112] := .of_letters (by simp) (by simp)
  have hw : PlainScalar [119] := .of_letters (by simp) (by simp)
  have ha : PlainScalar [97] := .of_letters (by simp) (by simp)
  have hitems : PrintsItems 2 [[119], [97]]
      [[35, 32, 120], [32, 32, 45, 32, 119], [32, 32, 45, 32, 97]] :=
    .noise (.comment 0 (by simp)) (.item (le_refl 2) hw (.item (le_refl 2) ha .nil))
  have hlines : PrintsEntries 0 [([115], .map [([112], .list [[119], [97]])])]
      [[115, 58], [32, 32, 112, 58], [35, 32, 120], [32, 32, 45, 32, 119], [32, 32, 45, 32, 97]] :=
    @PrintsEntries.map 0 2 [] _ _ [] _ hs (by simp) (by decide)
      (@PrintsEntries.list 2 [] _ _ [] _ hp (by simp) hitems (.nil 2)) (.nil 0)
  have hkeys : DistinctKeys [([115], .map [([112], .list [[119], [97]])])] := by
    refine .intro (by simp) fun k sub hin => ?_
    obtain ⟨-, rfl⟩ : k = [115] ∧ sub = [([112], .list [[119], [97]])] := by simpa using hin
    exact .intro (by simp) fun k sub hin => by simp at hin
  have hleads : LeadsTo [([115], .map [([112], .list [[119], [97]])])] [[115], [112]]
      (.list [[119], [97]]) := .under List.mem_cons_self (.here List.mem_cons_self)
  exact (cbmYaml_read_back hlines hkeys (by decide) (by simp [segmentRoom]) (by simp)).2.1 _
    hleads 8

/-- A key that has no room in the buffer is parsed but never found, a line with a tab alone
closes the maps that are open, and a key loses a blank at its end. -/
theorem cbmYaml_not_read_back :
    let long : CStr := List.replicate 256 97
    let tree : List (CStr × Yaml) := [([115], .map [([112], .scalar [119]), ([113], .scalar [97])])]
    (PrintsEntries 0 [(long, .scalar [119])] [long ++ [58, 32, 119]] ∧
      LeadsTo [(long, .scalar [119])] [long] (.scalar [119]) ∧
      cbmYamlGetStr (cbmYamlParse (long ++ [58, 32, 119])) long = none) ∧
    (PrintsEntries 0 tree
        [[115, 58], [32, 112, 58, 32, 119], [32, 113, 58, 32, 97]] ∧
      LeadsTo tree [[115], [113]] (.scalar [97]) ∧
      cbmYamlGetStr
        (cbmYamlParse ([10].intercalate
          [[115, 58], [32, 112, 58, 32, 119], [9], [32, 113, 58, 32, 97]]))
        [115, 46, 113] = none) ∧
    cbmYamlGetStr (cbmYamlParse [115, 32, 58, 32, 119]) [115, 32] = none := by
  have hw : PlainScalar [119] := .of_letters (by simp) (by simp)
  have ha : PlainScalar [97] := .of_letters (by simp) (by simp)
  have hlong : PlainKey (List.replicate 256 97) := by
    refine .of_letters (fun c hc => ?_) ?_
    · rw [List.eq_of_mem_replicate hc]
      decide
    · rw [Ne, List.replicate_eq_nil_iff]
      decide
  refine ⟨⟨?_, .here List.mem_cons_self, ?_⟩, ⟨?_, ?_, by decide⟩, by decide⟩
  · exact .scalar hlong hw (.nil 0)
  · exact cbmYamlGetStr_long hlong.no_dot (le_of_eq (List.length_replicate).symm) _
  · have hs : PlainKey [115] := .of_letters (by simp) (by simp)
    have hp : PlainKey [112] := .of_letters (by simp) (by simp)
    have hq : PlainKey [113] := .of_letters (by simp) (by simp)
    exact @PrintsEntries.map 0 1 [] _ _ [] _ hs (by simp) (by decide)
      (.scalar hp hw (.scalar hq ha (.nil 1))) (.nil 0)
  · exact .under List.mem_cons_self (.here (List.mem_cons_of_mem _ List.mem_cons_self))

end Foundation
end CodebaseMemory
