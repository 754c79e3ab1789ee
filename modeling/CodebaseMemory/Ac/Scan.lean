import CodebaseMemory.Ac.Failure

/-!
# The scan is exact

The automaton that `cbm_ac_build` makes follows the longest suffix of the text
that is a prefix of a pattern, and the outputs of a state are the patterns that
end its word.
-/

namespace CodebaseMemory
namespace Ac

open Lib

section Root

variable {words images : List (List Nat)} {ac : Automaton}

theorem foldl_rootLoop (ac : Automaton) (n : Nat) :
    (List.range n).foldl rootLoop ac =
      { ac with
        goTable := fun i =>
          if i < n ∧ ac.goTable i = none then some 0 else ac.goTable i } := by
  induction n with
  | zero => simp
  | succ n ih =>
      rw [List.range_succ, List.foldl_append, ih, List.foldl_cons, List.foldl_nil, rootLoop]
      simp only [Nat.lt_irrefl, false_and, if_false]
      cases hn : ac.goTable n with
      | some t =>
          simp only
          congr 1
          funext i
          by_cases hi : i = n
          · subst hi
            simp [hn]
          · have hlt : i < n + 1 ↔ i < n := by omega
            simp only [hlt]
      | none =>
          simp only
          congr 1
          funext i
          by_cases hi : i = n
          · subst hi
            simp [hn]
          · have hlt : i < n + 1 ↔ i < n := by omega
            rw [Function.update_of_ne hi]
            simp only [hlt]

theorem cell_zero (alphaSize c : Nat) : cell alphaSize 0 c = c := by
  rw [cell, Nat.zero_mul, Nat.zero_add]

def rootChild (goTable : Nat → Option Nat) (c : Nat) : Option Nat :=
  match goTable c with
  | some (s + 1) => some (s + 1)
  | _ => none

theorem foldl_pushRootChild (ac : Automaton) (n : Nat) :
    (List.range n).foldl pushRootChild { ac := ac, fail := fun _ => some 0, queue := [] } =
      { ac := ac, fail := fun _ => some 0,
        queue := (List.range n).filterMap (rootChild ac.goTable) } := by
  induction n with
  | zero => rfl
  | succ n ih =>
      rw [List.range_succ, List.foldl_append, ih, List.foldl_cons, List.foldl_nil,
        List.filterMap_append, pushRootChild]
      simp only [List.filterMap_cons, List.filterMap_nil, rootChild]
      rcases ac.goTable n with _ | _ | s
      · simp
      · simp
      · simp

theorem doneCell_root (h : Trie words ac) {c : Nat} (hc : c < ac.alphaSize) :
    DoneCell words (((List.range ac.alphaSize).foldl rootLoop ac).goTable c) 0 c := by
  intro w hw
  obtain rfl : [] = w := Option.some.inj (h.isWords.root.symm.trans hw)
  have hcell := h.go_cell 0 c hc
  rw [cell_zero] at hcell
  rw [foldl_rootLoop]
  cases hgo : ac.goTable c with
  | some t =>
      obtain ⟨w, hw0, ht⟩ := (hcell t).mp hgo
      obtain rfl : [] = w := Option.some.inj (h.isWords.root.symm.trans hw0)
      refine ⟨t, by simp [hgo], ?_⟩
      rw [longestSuffix_of_mem (List.mem_of_getElem? ht)]
      exact ht
  | none =>
      have hnew : [] ++ [c] ∉ words := by
        intro hmem
        obtain ⟨t, ht⟩ := List.mem_iff_getElem?.mp hmem
        have hsome := (hcell t).mpr ⟨[], h.isWords.root, ht⟩
        exact absurd (hgo.symm.trans hsome) (by simp)
      refine ⟨0, by simp [hgo, hc], ?_⟩
      rw [longestSuffix_of_notMem hnew]
      exact h.isWords.root

theorem trieCell_rootLoop (h : Trie words ac) {s c : Nat} (hs : s ≠ 0) (hc : c < ac.alphaSize) :
    TrieCell words
      (((List.range ac.alphaSize).foldl rootLoop ac).goTable (cell ac.alphaSize s c)) s c := by
  have hlarge : ¬ cell ac.alphaSize s c < ac.alphaSize := by
    have hle : 1 * ac.alphaSize ≤ s * ac.alphaSize :=
      Nat.mul_le_mul_right _ (Nat.one_le_iff_ne_zero.mpr hs)
    rw [cell]
    omega
  rw [foldl_rootLoop]
  simp only [hlarge, false_and, if_false]
  exact h.go_cell s c hc

theorem rootChild_eq_some_iff (h : Trie words ac) {c s : Nat} (hc : c < ac.alphaSize) :
    rootChild ((List.range ac.alphaSize).foldl rootLoop ac).goTable c = some s ↔
      words[s]? = some [c] := by
  obtain ⟨t, ht, htw⟩ := doneCell_root h hc [] h.isWords.root
  rw [List.nil_append] at htw
  rw [rootChild, ht]
  constructor
  · intro hchild
    cases t with
    | zero => exact absurd hchild (by simp)
    | succ t =>
        obtain rfl : t + 1 = s := Option.some.inj hchild
        by_cases hmem : [c] ∈ words
        · rwa [longestSuffix_of_mem hmem] at htw
        · rw [longestSuffix_of_notMem hmem] at htw
          exact absurd ((h.isWords.eq_zero_iff htw).mpr rfl) (by simp)
  · intro hsw
    rw [longestSuffix_of_mem (List.mem_of_getElem? hsw)] at htw
    obtain rfl : t = s := h.isWords.state_unique htw hsw
    have ht0 : t ≠ 0 := fun hzero => absurd ((h.isWords.eq_zero_iff htw).mp hzero) (by simp)
    obtain ⟨t, rfl⟩ := Nat.exists_eq_succ_of_ne_zero ht0
    rfl

/-- The children of the root, as they come into the queue. -/
def rootChildren (ac : Automaton) : List Nat :=
  (List.range ac.alphaSize).filterMap
    (rootChild ((List.range ac.alphaSize).foldl rootLoop ac).goTable)

theorem mem_rootChildren_iff (h : Trie words ac) {s : Nat} :
    s ∈ rootChildren ac ↔ ∃ c, c < ac.alphaSize ∧ words[s]? = some [c] := by
  rw [rootChildren, List.mem_filterMap]
  constructor
  · rintro ⟨c, hc, hchild⟩
    have hlt := List.mem_range.mp hc
    exact ⟨c, hlt, (rootChild_eq_some_iff h hlt).mp hchild⟩
  · rintro ⟨c, hc, hsw⟩
    exact ⟨c, List.mem_range.mpr hc, (rootChild_eq_some_iff h hc).mpr hsw⟩

theorem nodup_rootChildren (h : Trie words ac) : (rootChildren ac).Nodup := by
  rw [rootChildren, List.Nodup, List.pairwise_filterMap]
  refine List.Pairwise.imp_of_mem (fun {c c'} hc hc' hne s hs s' hs' heq => ?_)
    List.nodup_range
  subst heq
  have hsc := (rootChild_eq_some_iff h (List.mem_range.mp hc)).mp hs
  have hsc' := (rootChild_eq_some_iff h (List.mem_range.mp hc')).mp hs'
  exact hne (List.cons.inj (Option.some.inj (hsc.symm.trans hsc'))).1

theorem depth_rootChild (h : Trie words ac) {s : Nat} (hs : s ∈ rootChildren ac) :
    depth words s = 1 := by
  obtain ⟨c, _, hsw⟩ := (mem_rootChildren_iff h).mp hs
  rw [depth_eq hsw, List.length_singleton]

theorem inv_start (h : Trie words ac) (hout : Outputs words images ac)
    (hne : ∀ u ∈ images, u ≠ []) (hnext : ∀ s, ac.outputNext s = none) :
    Inv ac.alphaSize words images (RowsDone ac.alphaSize []) ([] ++ rootChildren ac)
      { ac := (List.range ac.alphaSize).foldl rootLoop ac
        fail := fun _ => some 0
        queue := rootChildren ac } := by
  have hw := h.isWords
  have houtput : ((List.range ac.alphaSize).foldl rootLoop ac).output = ac.output := by
    rw [foldl_rootLoop]
  have hsize : ((List.range ac.alphaSize).foldl rootLoop ac).alphaSize = ac.alphaSize := by
    rw [foldl_rootLoop]
  rw [List.nil_append]
  refine ⟨hsize, ?_, ?_, ?_, ?_, ?_, ?_, ?_, nodup_rootChildren h, ?_⟩
  · rintro s c hc ⟨_, rfl | hmem⟩
    · rw [cell_zero]
      exact doneCell_root h hc
    · exact absurd hmem (by simp)
  · intro s c hc hDone
    exact trieCell_rootLoop h (fun hzero => hDone ⟨hc, Or.inl hzero⟩) hc
  · intro s
    rw [mem_rootChildren_iff h]
    constructor
    · rintro ⟨c, hc, hs⟩
      exact ⟨[], c, 0, hs, hw.root, hc, Or.inl rfl⟩
    · rintro ⟨w, c, x, hs, hx, hc, rfl | hmem⟩
      · obtain rfl : [] = w := Option.some.inj (hw.root.symm.trans hx)
        exact ⟨c, hc, hs⟩
      · exact absurd hmem (by simp)
  · intro s hs w hsw
    obtain ⟨c, _, hsc⟩ := (mem_rootChildren_iff h).mp hs
    obtain rfl : [c] = w := Option.some.inj (hsc.symm.trans hsw)
    exact ⟨0, rfl, hw.root⟩
  · -- a pattern that ends a word of at most one symbol is that word
    intro s hs w hsw p
    have hlen : w.length ≤ 1 := by
      rcases hs with rfl | hs
      · rw [(hw.eq_zero_iff hsw).mp rfl]
        exact Nat.zero_le 1
      · exact Nat.le_of_eq ((depth_eq hsw).symm.trans (depth_rootChild h hs))
    simp only [houtput]
    rw [hout.output_iff s w hsw p]
    refine and_congr_right fun _ => ?_
    constructor
    · exact fun hp => ⟨w, hp, List.suffix_rfl⟩
    · rintro ⟨u, hp, hu⟩
      have hpos : 0 < u.length := List.length_pos_of_ne_nil (hne u (List.mem_of_getElem? hp))
      rwa [← hu.eq_of_length_le (by omega)]
  · intro s _ _ w hsw p
    simp only [houtput]
    exact hout.output_iff s w hsw p
  · intro s f hf
    have hkept : ((List.range ac.alphaSize).foldl rootLoop ac).outputNext s = none := by
      rw [foldl_rootLoop]
      exact hnext s
    exact absurd (hkept.symm.trans hf) (by simp)
  · refine List.Pairwise.imp_of_mem (fun {x y} hx hy _ => ?_) (nodup_rootChildren h)
    rw [depth_rootChild h hx, depth_rootChild h hy]

end Root

/-- An automaton that follows longest suffixes and has the outputs of its words. -/
structure Complete (words images : List (List Nat)) (ac : Automaton) : Prop where
  isWords : Words ac.alphaSize words
  subset : ∀ u ∈ images, u ∈ words
  go_cell : ∀ s c, c < ac.alphaSize → DoneCell words (ac.goTable (cell ac.alphaSize s c)) s c
  output_iff : ∀ s w, words[s]? = some w → ∀ p,
    (ac.output s).getLsbD p = true ↔ p < 64 ∧ ∃ u, images[p]? = some u ∧ u <:+ w
  next_eq : ∀ s f, ac.outputNext s = some f → ∀ w, words[s]? = some w →
    w ≠ [] ∧ words[f]? = some (longestSuffix words w.tail)

theorem failCell_alphaMap (r : Nat) (b : Bfs) (c : Nat) :
    (failCell r b c).ac.alphaMap = b.ac.alphaMap := by
  rw [failCell]
  split <;> rfl

theorem foldl_failCell_alphaMap (r : Nat) (cs : List Nat) :
    ∀ b : Bfs, (cs.foldl (failCell r) b).ac.alphaMap = b.ac.alphaMap := by
  induction cs with
  | nil => exact fun _ => rfl
  | cons c cs ih => exact fun b => (ih _).trans (failCell_alphaMap r b c)

theorem drain_alphaMap (fuel : Nat) : ∀ b : Bfs, (drain fuel b).ac.alphaMap = b.ac.alphaMap := by
  induction fuel with
  | zero => exact fun _ => rfl
  | succ fuel ih =>
      intro b
      rw [drain]
      split
      · rfl
      · exact (ih _).trans (foldl_failCell_alphaMap _ _ _)

theorem complete_buildFailure {words images : List (List Nat)} {ac : Automaton}
    (h : Trie words ac) (hout : Outputs words images ac) (hne : ∀ u ∈ images, u ≠ [])
    (hnext : ∀ s, ac.outputNext s = none) :
    Complete words images (buildFailure ((List.range ac.alphaSize).foldl rootLoop ac)) ∧
      SameSetting ac (buildFailure ((List.range ac.alphaSize).foldl rootLoop ac)) := by
  have hsize : ((List.range ac.alphaSize).foldl rootLoop ac).alphaSize = ac.alphaSize := by
    rw [foldl_rootLoop]
  have hstates : ((List.range ac.alphaSize).foldl rootLoop ac).numStates = words.length := by
    rw [foldl_rootLoop]
    exact h.numStates_eq
  have hmap : ((List.range ac.alphaSize).foldl rootLoop ac).alphaMap = ac.alphaMap := by
    rw [foldl_rootLoop]
  obtain ⟨all, hall⟩ := Inv.drain h.isWords hout.subset words.length [] (rootChildren ac)
    _ (inv_start h hout hne hnext) rfl (Nat.le_add_right _ _)
  have hbuild : buildFailure ((List.range ac.alphaSize).foldl rootLoop ac) =
      (drain words.length
        { ac := (List.range ac.alphaSize).foldl rootLoop ac
          fail := fun _ => some 0
          queue := rootChildren ac }).ac := by
    rw [buildFailure, hsize, hstates, foldl_pushRootChild]
    rfl
  rw [hbuild]
  refine ⟨⟨?_, hout.subset, ?_, ?_, hall.next_eq⟩, hall.alphaSize_eq, ?_⟩
  · rw [hall.alphaSize_eq]
    exact h.isWords
  · intro s c hc w hsw
    rw [hall.alphaSize_eq] at hc ⊢
    exact hall.done_cell s c hc ⟨hc, hall.all_popped h.isWords w s hsw⟩ w hsw
  · intro s w hsw p
    exact hall.out_done s (hall.all_popped h.isWords w s hsw) w hsw p
  · exact (drain_alphaMap _ _).trans hmap

theorem trie_acNew (patterns : List (List UInt8)) (alphaMap : Option (UInt8 → UInt8))
    (alphaSize : Int) : Trie [[]] (acNew patterns alphaMap alphaSize) where
  isWords :=
    { nodup := List.nodup_singleton _
      root := rfl
      of_append := fun w c h => absurd (List.mem_singleton.mp h) (by simp)
      lt_alphaSize := by
        intro w hw c hc
        rw [List.mem_singleton.mp hw] at hc
        exact absurd hc (by simp) }
  numStates_eq := rfl
  go_cell := by
    intro s c _ t
    constructor
    · exact fun h => absurd h (by simp [acNew])
    · rintro ⟨w, _, ht⟩
      exact absurd (List.mem_singleton.mp (List.mem_of_getElem? ht)) (by simp)

theorem outputs_acNew (patterns : List (List UInt8)) (alphaMap : Option (UInt8 → UInt8))
    (alphaSize : Int) : Outputs [[]] [] (acNew patterns alphaMap alphaSize) where
  subset := fun u hu => absurd hu (by simp)
  output_iff := by
    intro s w _ p
    simp [acNew]
  output_new := fun _ _ => rfl

theorem exists_complete {patterns : List (List UInt8)} {alphaMap : Option (UInt8 → UInt8)}
    {alphaSize : Int} {ac : Automaton}
    (hmap : ∀ b, (effectiveMap alphaMap b).toNat < effectiveSize alphaSize)
    (hne : ∀ pattern ∈ patterns, pattern ≠ [])
    (hbuild : acBuild patterns alphaMap alphaSize = some ac) :
    (∃ words, Complete words (patterns.map (List.map ac.symbol)) ac) ∧
      ac.alphaSize = effectiveSize alphaSize ∧ ac.alphaMap = effectiveMap alphaMap := by
  rw [acBuild] at hbuild
  split at hbuild
  · exact absurd hbuild (by simp)
  · obtain rfl := Option.some.inj hbuild
    obtain ⟨words, htrie, hout, hset⟩ := @exists_trie_patterns patterns [[]] []
      (acNew patterns alphaMap alphaSize) 0 hmap (trie_acNew patterns alphaMap alphaSize)
      (outputs_acNew patterns alphaMap alphaSize) rfl
    rw [List.nil_append] at hout
    have hnonempty : ∀ u ∈ patterns.map
        (List.map (acNew patterns alphaMap alphaSize).symbol), u ≠ [] := by
      intro u hu
      obtain ⟨pattern, hpattern, rfl⟩ := List.mem_map.mp hu
      simpa using hne pattern hpattern
    have hnext : ∀ s, (patterns.zipIdx.foldl addPattern
        (acNew patterns alphaMap alphaSize)).outputNext s = none := by
      intro s
      rw [foldl_addPattern_outputNext]
      rfl
    obtain ⟨hcomplete, hset'⟩ := complete_buildFailure htrie hout hnonempty hnext
    have hall := hset.trans hset'
    have hloops : (List.range (acNew patterns alphaMap alphaSize).alphaSize).foldl rootLoop
        (patterns.zipIdx.foldl addPattern (acNew patterns alphaMap alphaSize)) =
        (List.range (patterns.zipIdx.foldl addPattern
          (acNew patterns alphaMap alphaSize)).alphaSize).foldl rootLoop
          (patterns.zipIdx.foldl addPattern (acNew patterns alphaMap alphaSize)) := by
      rw [hset.alphaSize_eq]
    rw [buildTrie, hloops]
    refine ⟨⟨words, ?_⟩, hall.alphaSize_eq, hall.alphaMap_eq⟩
    have hsymbols : patterns.map (List.map (acNew patterns alphaMap alphaSize).symbol) =
        patterns.map (List.map (buildFailure _).symbol) :=
      List.map_congr_left fun u _ => List.map_congr_left fun b _ => (hall.symbol_eq b).symm
    rw [← hsymbols]
    exact hcomplete

section Scan

variable {words images : List (List Nat)} {ac : Automaton}

theorem Complete.scan (h : Complete words images ac) (hne : ∀ u ∈ images, u ≠ [])
    (hsymbol : ∀ b, ac.symbol b < ac.alphaSize) (text : List UInt8) :
    (∃ s, (text.foldl (scanStep ac) (some 0, 0)).1 = some s ∧
      words[s]? = some (longestSuffix words (text.map ac.symbol))) ∧
    ∀ p, (text.foldl (scanStep ac) (some 0, 0)).2.getLsbD p = true ↔
      p < 64 ∧ ∃ u, images[p]? = some u ∧ u <:+: text.map ac.symbol := by
  induction text using List.reverseRecOn with
  | nil =>
      refine ⟨⟨0, rfl, h.isWords.root⟩, fun p => ⟨fun hbit => absurd hbit (by simp), ?_⟩⟩
      rintro ⟨_, u, hp, hu⟩
      exact absurd (List.infix_nil.mp hu) (hne u (List.mem_of_getElem? hp))
  | append_singleton text b ih =>
      obtain ⟨⟨s, hs, hsw⟩, hbits⟩ := ih
      obtain ⟨t, ht, htw⟩ := h.go_cell s (ac.symbol b) (hsymbol b) _ hsw
      rw [← longestSuffix_append_singleton h.isWords.prefixClosed] at htw
      have hstate : ((text ++ [b]).foldl (scanStep ac) (some 0, 0)).1 = some t := by
        rw [List.foldl_append, List.foldl_cons, List.foldl_nil, scanStep, hs]
        exact ht
      have hresult : ((text ++ [b]).foldl (scanStep ac) (some 0, 0)).2 =
          (text.foldl (scanStep ac) (some 0, 0)).2 ||| ac.output t := by
        rw [List.foldl_append, List.foldl_cons, List.foldl_nil, scanStep, hs, Option.bind_some, ht]
        rfl
      rw [List.map_append, List.map_singleton]
      refine ⟨⟨t, hstate, htw⟩, fun p => ?_⟩
      rw [hresult, BitVec.getLsbD_or, Bool.or_eq_true, hbits, h.output_iff t _ htw, ← and_or_left]
      refine and_congr_right fun _ => ?_
      constructor
      · rintro (⟨u, hp, hu⟩ | ⟨u, hp, hu⟩)
        · exact ⟨u, hp, List.infix_concat_iff.mpr (Or.inr hu)⟩
        · have hmem := h.subset u (List.mem_of_getElem? hp)
          exact ⟨u, hp, ((suffix_longestSuffix_iff hmem).mp hu).isInfix⟩
      · rintro ⟨u, hp, hu⟩
        have hmem := h.subset u (List.mem_of_getElem? hp)
        rcases List.infix_concat_iff.mp hu with hsuffix | hinfix
        · exact Or.inr ⟨u, hp, (suffix_longestSuffix_iff hmem).mpr hsuffix⟩
        · exact Or.inl ⟨u, hp, hinfix⟩

end Scan

/-- A bit of the result is set exactly if the symbols of the pattern stand in those of the text. -/
theorem scan_exact (patterns : List (List UInt8)) (alphaMap : Option (UInt8 → UInt8))
    (alphaSize : Int) (text : List UInt8) (hlength : patterns.length ≤ 64)
    (hne : ∀ pattern ∈ patterns, pattern ≠ [])
    (hmap : ∀ b, (effectiveMap alphaMap b).toNat < effectiveSize alphaSize)
    {p : Nat} {pattern : List UInt8} (hp : patterns[p]? = some pattern) :
    ∃ ac, acBuild patterns alphaMap alphaSize = some ac ∧
      ((scanBitmask ac text).getLsbD p = true ↔
        pattern.map (fun b => (effectiveMap alphaMap b).toNat) <:+:
          text.map fun b => (effectiveMap alphaMap b).toNat) := by
  have hnil : patterns ≠ [] := by
    rintro rfl
    exact absurd hp (by simp)
  have hbuild : acBuild patterns alphaMap alphaSize =
      some (buildFailure (buildTrie (acNew patterns alphaMap alphaSize) patterns)) := by
    rw [acBuild, if_neg hnil]
  refine ⟨_, hbuild, ?_⟩
  obtain ⟨⟨words, hcomplete⟩, hsize, halpha⟩ := exists_complete hmap hne hbuild
  generalize buildFailure (buildTrie (acNew patterns alphaMap alphaSize) patterns) = ac at *
  have hsymbol : ac.symbol = fun b => (effectiveMap alphaMap b).toNat := by
    funext b
    rw [Automaton.symbol, halpha]
  have hsymbol_lt : ∀ b, ac.symbol b < ac.alphaSize := by
    intro b
    rw [hsymbol, hsize]
    exact hmap b
  have himages : ∀ u ∈ patterns.map (List.map ac.symbol), u ≠ [] := by
    intro u hu
    obtain ⟨pat, hpat, rfl⟩ := List.mem_map.mp hu
    simpa using hne pat hpat
  have hp64 : p < 64 := Nat.lt_of_lt_of_le (List.getElem?_eq_some_iff.mp hp).1 hlength
  rw [scanBitmask, (hcomplete.scan himages hsymbol_lt text).2 p, ← hsymbol]
  simp [hp, hp64]

/-- The patterns `he`, `she` and `hers` in `ushers`. -/
theorem scan_exact_ushers :
    ∃ ac, acBuild [[104, 101], [115, 104, 101], [104, 101, 114, 115]] none 0 = some ac ∧
      ((scanBitmask ac [117, 115, 104, 101, 114, 115]).getLsbD 2 = true ↔
        [104, 101, 114, 115].map (fun b : UInt8 => (effectiveMap none b).toNat) <:+:
          [117, 115, 104, 101, 114, 115].map fun b : UInt8 => (effectiveMap none b).toNat) :=
  scan_exact [[104, 101], [115, 104, 101], [104, 101, 114, 115]] none 0
    [117, 115, 104, 101, 114, 115] (by decide) (by decide) (fun b => b.toNat_lt) rfl

end Ac
end CodebaseMemory
