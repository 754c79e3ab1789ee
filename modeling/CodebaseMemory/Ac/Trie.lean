import CodebaseMemory.Lib.LongestSuffix
import Mathlib.Data.List.Nodup

/-!
# The trie of the patterns

A state of the trie stands for a word of symbols, the path that leads to it.
The list of these words, in the order of the states, describes the transition
table and grows by one word when a state is made.
-/

namespace CodebaseMemory
namespace Ac

open Lib

/-!
## The Aho–Corasick automaton (`internal/cbm/ac.c`)

`cbm_ac_build` with its two phases, and `cbm_ac_scan_bitmask`.

Reading aids:
* An array is a function from its indexes.  In `goTable`, `outputList`,
  `outputNext` and `fail` the value -1 is `none`; a cell of the state -1 is not
  read, and would give `none`.
* `numStates` is the local counter of `ac_build_trie` until that returns.
* `ac_shrink_tables` keeps all cells of the states that there are, and is left
  out, with the allocations that fail.  The number of cells is taken to fit an
  `int`.
-/

/-- `CBMAutomaton`. -/
structure Automaton where
  numStates : Nat
  numPatterns : Nat
  alphaSize : Nat
  alphaMap : UInt8 → UInt8
  goTable : Nat → Option Nat
  output : Nat → BitVec 64
  outputList : Nat → Option Nat
  outputNext : Nat → Option Nat

def Automaton.symbol (ac : Automaton) (b : UInt8) : Nat :=
  (ac.alphaMap b).toNat

/-- The index of a cell of the transition table. -/
def cell (alphaSize state c : Nat) : Nat :=
  state * alphaSize + c

/-- One byte of a pattern in `ac_build_trie`, from a state. -/
def trieStep (pos : Automaton × Nat) (b : UInt8) : Automaton × Nat :=
  let idx := cell pos.1.alphaSize pos.2 (pos.1.symbol b)
  match pos.1.goTable idx with
  | some s => (pos.1, s)
  | none =>
      ({ pos.1 with
          goTable := Function.update pos.1.goTable idx (some pos.1.numStates)
          numStates := pos.1.numStates + 1 },
        pos.1.numStates)

/-- One pattern in `ac_build_trie`. -/
def addPattern (ac : Automaton) (pattern : List UInt8 × Nat) : Automaton :=
  let stop := pattern.1.foldl trieStep (ac, 0)
  { stop.1 with
    output :=
      if pattern.2 < 64 then
        Function.update stop.1.output stop.2 (stop.1.output stop.2 ||| BitVec.twoPow 64 pattern.2)
      else stop.1.output
    outputList := Function.update stop.1.outputList stop.2 (some pattern.2) }

/-- The self-loop of the root for a symbol that no pattern begins with. -/
def rootLoop (ac : Automaton) (c : Nat) : Automaton :=
  match ac.goTable c with
  | some _ => ac
  | none => { ac with goTable := Function.update ac.goTable c (some 0) }

/-- `ac_build_trie`. -/
def buildTrie (ac : Automaton) (patterns : List (List UInt8)) : Automaton :=
  (List.range ac.alphaSize).foldl rootLoop (patterns.zipIdx.foldl addPattern ac)

/-- The automaton, `fail` and the queue. -/
structure Bfs where
  ac : Automaton
  fail : Nat → Option Nat
  queue : List Nat

/-- The first loop of `ac_build_failure`. -/
def pushRootChild (b : Bfs) (c : Nat) : Bfs :=
  match b.ac.goTable c with
  | some (s + 1) =>
      { b with fail := Function.update b.fail (s + 1) (some 0), queue := b.queue ++ [s + 1] }
  | _ => b

/-- The transition from the failure state of `r`. -/
def Bfs.viaFail (b : Bfs) (r c : Nat) : Option Nat :=
  (b.fail r).bind fun f => b.ac.goTable (cell b.ac.alphaSize f c)

/-- One round of the inner loop of `ac_build_failure`. -/
def failCell (r : Nat) (b : Bfs) (c : Nat) : Bfs :=
  match b.ac.goTable (cell b.ac.alphaSize r c) with
  | some s =>
      { ac := { b.ac with
          output := Function.update b.ac.output s
            (b.ac.output s ||| ((b.viaFail r c).map b.ac.output).getD 0)
          outputNext :=
            if b.ac.outputNext s = none ∧ (b.viaFail r c).bind b.ac.outputList ≠ none then
              Function.update b.ac.outputNext s (b.viaFail r c)
            else b.ac.outputNext }
        fail := Function.update b.fail s (b.viaFail r c)
        queue := b.queue ++ [s] }
  | none =>
      { b with
        ac := { b.ac with
          goTable := Function.update b.ac.goTable (cell b.ac.alphaSize r c) (b.viaFail r c) } }

/-- The loop over the queue; every state comes into it once. -/
def drain : Nat → Bfs → Bfs
  | 0, b => b
  | fuel + 1, b =>
      match b.queue with
      | [] => b
      | r :: rest =>
          drain fuel ((List.range b.ac.alphaSize).foldl (failCell r) { b with queue := rest })

/-- `ac_build_failure`. -/
def buildFailure (ac : Automaton) : Automaton :=
  (drain ac.numStates
    ((List.range ac.alphaSize).foldl pushRootChild
      { ac := ac, fail := fun _ => some 0, queue := [] })).ac

/-- The alphabet size that `cbm_ac_build` works with. -/
def effectiveSize (alphaSize : Int) : Nat :=
  if alphaSize ≤ 0 then 256 else alphaSize.toNat

/-- The map that `cbm_ac_build` works with: the identity for NULL. -/
def effectiveMap (alphaMap : Option (UInt8 → UInt8)) : UInt8 → UInt8 :=
  alphaMap.getD id

/-- The automaton before `ac_build_trie`. -/
def acNew (patterns : List (List UInt8)) (alphaMap : Option (UInt8 → UInt8)) (alphaSize : Int) :
    Automaton :=
  { numStates := 1
    numPatterns := patterns.length
    alphaSize := effectiveSize alphaSize
    alphaMap := effectiveMap alphaMap
    goTable := fun _ => none
    output := fun _ => 0
    outputList := fun _ => none
    outputNext := fun _ => none }

/-- `cbm_ac_build`. -/
def acBuild (patterns : List (List UInt8)) (alphaMap : Option (UInt8 → UInt8))
    (alphaSize : Int) : Option Automaton :=
  if patterns = [] then none
  else some (buildFailure (buildTrie (acNew patterns alphaMap alphaSize) patterns))

/-- One byte of the text in `cbm_ac_scan_bitmask`. -/
def scanStep (ac : Automaton) (pos : Option Nat × BitVec 64) (b : UInt8) :
    Option Nat × BitVec 64 :=
  let state := pos.1.bind fun s => ac.goTable (cell ac.alphaSize s (ac.symbol b))
  (state, pos.2 ||| (state.map ac.output).getD 0)

/-- `cbm_ac_scan_bitmask`. -/
def scanBitmask (ac : Automaton) (text : List UInt8) : BitVec 64 :=
  (text.foldl (scanStep ac) (some 0, 0)).2

theorem cell_inj {alphaSize s c s' c' : Nat} (hc : c < alphaSize) (hc' : c' < alphaSize) :
    cell alphaSize s c = cell alphaSize s' c' ↔ s = s' ∧ c = c' := by
  constructor
  · intro h
    have hdiv := congrArg (· / alphaSize) h
    have hmod := congrArg (· % alphaSize) h
    have hpos : 0 < alphaSize := Nat.zero_lt_of_lt hc
    simp only [cell, Nat.mul_comm _ alphaSize, Nat.mul_add_div hpos, Nat.div_eq_of_lt hc,
      Nat.div_eq_of_lt hc', Nat.add_zero] at hdiv
    simp only [cell, Nat.mul_comm _ alphaSize, Nat.mul_add_mod, Nat.mod_eq_of_lt hc,
      Nat.mod_eq_of_lt hc'] at hmod
    exact ⟨hdiv, hmod⟩
  · rintro ⟨rfl, rfl⟩
    rfl

/-- A list of words that can be those of the states of a trie. -/
structure Words (alphaSize : Nat) (words : List (List Nat)) : Prop where
  nodup : words.Nodup
  root : words[0]? = some []
  of_append : ∀ w c, w ++ [c] ∈ words → w ∈ words
  lt_alphaSize : ∀ w ∈ words, ∀ c ∈ w, c < alphaSize

section WordFacts

variable {alphaSize : Nat} {words : List (List Nat)} (hw : Words alphaSize words)
include hw

theorem Words.prefixClosed : PrefixClosed words :=
  ⟨List.mem_of_getElem? hw.root, hw.of_append⟩

theorem Words.state_unique {s t : Nat} {w : List Nat} (hs : words[s]? = some w)
    (ht : words[t]? = some w) : s = t := by
  have hlt : s < words.length := (List.getElem?_eq_some_iff.mp hs).1
  exact (List.getElem?_inj hlt hw.nodup).mp (hs.trans ht.symm)

theorem Words.eq_zero_iff {s : Nat} {w : List Nat} (hs : words[s]? = some w) : s = 0 ↔ w = [] := by
  constructor
  · rintro rfl
    exact Option.some.inj (hs.symm.trans hw.root)
  · rintro rfl
    exact hw.state_unique hs hw.root

theorem Words.concat {s c : Nat} {w : List Nat} (hs : words[s]? = some w) (hc : c < alphaSize)
    (hnew : w ++ [c] ∉ words) : Words alphaSize (words ++ [w ++ [c]]) where
  nodup := by
    rw [List.nodup_append]
    refine ⟨hw.nodup, List.nodup_singleton _, fun a ha b hb hab => ?_⟩
    subst hab
    exact hnew (List.mem_singleton.mp hb ▸ ha)
  root := by
    rw [List.getElem?_append_left (List.getElem?_eq_some_iff.mp hw.root).1]
    exact hw.root
  of_append := by
    intro v d hv
    rcases List.mem_append.mp hv with hold | hlast
    · exact List.mem_append_left _ (hw.of_append v d hold)
    · obtain ⟨rfl, _⟩ := List.append_inj' (List.mem_singleton.mp hlast) rfl
      exact List.mem_append_left _ (List.mem_of_getElem? hs)
  lt_alphaSize := by
    intro v hv d hd
    rcases List.mem_append.mp hv with hold | hlast
    · exact hw.lt_alphaSize v hold d hd
    · rw [List.mem_singleton.mp hlast, List.mem_append, List.mem_singleton] at hd
      rcases hd with hd | rfl
      · exact hw.lt_alphaSize w (List.mem_of_getElem? hs) d hd
      · exact hc

end WordFacts

/-- A cell of a trie: the state of the word with one more symbol, if there is one. -/
def TrieCell (words : List (List Nat)) (go : Option Nat) (s c : Nat) : Prop :=
  ∀ t, go = some t ↔ ∃ w, words[s]? = some w ∧ words[t]? = some (w ++ [c])

structure Trie (words : List (List Nat)) (ac : Automaton) : Prop where
  isWords : Words ac.alphaSize words
  numStates_eq : ac.numStates = words.length
  go_cell : ∀ s c, c < ac.alphaSize → TrieCell words (ac.goTable (cell ac.alphaSize s c)) s c

section Step

variable {words : List (List Nat)} {ac : Automaton} {s : Nat} {w : List Nat} {b : UInt8}

theorem trieCell_concat (hwords : Words ac.alphaSize words) {c : Nat} (hs : words[s]? = some w)
    (hnew : w ++ [c] ∉ words) {go : Option Nat} {s' c' : Nat} (hne : ¬ (s' = s ∧ c' = c))
    (hcell : TrieCell words go s' c') : TrieCell (words ++ [w ++ [c]]) go s' c' := by
  intro t
  rw [hcell t]
  constructor
  · rintro ⟨v, hv, ht⟩
    refine ⟨v, ?_, ?_⟩
    · rw [List.getElem?_append_left (List.getElem?_eq_some_iff.mp hv).1, hv]
    · rw [List.getElem?_append_left (List.getElem?_eq_some_iff.mp ht).1, ht]
  · rintro ⟨v, hv, ht⟩
    -- the new word has no successors, and is one of `w` only
    rw [List.getElem?_append] at hv
    split at hv
    · rw [List.getElem?_append] at ht
      split at ht
      · exact ⟨v, hv, ht⟩
      · have hlast := List.mem_singleton.mp (List.mem_of_getElem? ht)
        obtain ⟨rfl, hc⟩ := List.append_inj' hlast rfl
        exact absurd ⟨hwords.state_unique hv hs, (List.cons.inj hc).1⟩ hne
    · obtain rfl := List.mem_singleton.mp (List.mem_of_getElem? hv)
      have hmem : w ++ [c] ++ [c'] ∈ words ++ [w ++ [c]] := List.mem_of_getElem? ht
      rcases List.mem_append.mp hmem with hold | hlast
      · exact absurd (hwords.of_append _ _ hold) hnew
      · have hlen := congrArg List.length (List.mem_singleton.mp hlast)
        simp at hlen

theorem Trie.step (h : Trie words ac) (hs : words[s]? = some w) (hb : ac.symbol b < ac.alphaSize) :
    ∃ words', words <+: words' ∧ Trie words' (trieStep (ac, s) b).1 ∧
      words'[(trieStep (ac, s) b).2]? = some (w ++ [ac.symbol b]) := by
  have hcell := h.go_cell s (ac.symbol b) hb
  rw [trieStep]
  cases hgo : ac.goTable (cell ac.alphaSize s (ac.symbol b)) with
  | some t =>
      obtain ⟨w', hw', ht⟩ := (hcell t).mp hgo
      obtain rfl : w' = w := Option.some.inj (hw'.symm.trans hs)
      exact ⟨words, List.prefix_rfl, h, ht⟩
  | none =>
      have hnew : w ++ [ac.symbol b] ∉ words := by
        intro hmem
        obtain ⟨t, ht⟩ := List.mem_iff_getElem?.mp hmem
        exact absurd ((hcell t).mpr ⟨w, hs, ht⟩) (by simp [hgo])
      have hwords' := h.isWords.concat hs hb hnew
      have hlast : (words ++ [w ++ [ac.symbol b]])[ac.numStates]? = some (w ++ [ac.symbol b]) := by
        rw [h.numStates_eq]
        simp
      refine ⟨words ++ [w ++ [ac.symbol b]], List.prefix_append _ _, ⟨hwords', ?_, ?_⟩, hlast⟩
      · rw [List.length_append, ← h.numStates_eq]
        rfl
      · intro s' c' hc'
        by_cases hsame : s' = s ∧ c' = ac.symbol b
        · obtain ⟨rfl, rfl⟩ := hsame
          intro t
          have hs' : (words ++ [w ++ [ac.symbol b]])[s']? = some w := by
            rw [List.getElem?_append_left (List.getElem?_eq_some_iff.mp hs).1, hs]
          simp only [Function.update_self]
          constructor
          · intro ht
            obtain rfl : ac.numStates = t := Option.some.inj ht
            exact ⟨w, hs', hlast⟩
          · rintro ⟨v, hv, ht⟩
            obtain rfl : w = v := Option.some.inj (hs'.symm.trans hv)
            exact congrArg some (hwords'.state_unique hlast ht)
        · have hne : cell ac.alphaSize s' c' ≠ cell ac.alphaSize s (ac.symbol b) :=
            fun heq => hsame ((cell_inj hc' hb).mp heq)
          simp only [Function.update_of_ne hne]
          exact trieCell_concat h.isWords hs hnew hsame (h.go_cell s' c' hc')

theorem trieStep_alphaSize (pos : Automaton × Nat) (b : UInt8) :
    (trieStep pos b).1.alphaSize = pos.1.alphaSize := by
  rw [trieStep]
  split <;> rfl

theorem trieStep_alphaMap (pos : Automaton × Nat) (b : UInt8) :
    (trieStep pos b).1.alphaMap = pos.1.alphaMap := by
  rw [trieStep]
  split <;> rfl

theorem trieStep_output (pos : Automaton × Nat) (b : UInt8) :
    (trieStep pos b).1.output = pos.1.output := by
  rw [trieStep]
  split <;> rfl

theorem trieStep_outputNext (pos : Automaton × Nat) (b : UInt8) :
    (trieStep pos b).1.outputNext = pos.1.outputNext := by
  rw [trieStep]
  split <;> rfl

theorem foldl_trieStep_outputNext (pattern : List UInt8) (pos : Automaton × Nat) :
    (pattern.foldl trieStep pos).1.outputNext = pos.1.outputNext := by
  induction pattern generalizing pos with
  | nil => rfl
  | cons b pattern ih => rw [List.foldl_cons, ih, trieStep_outputNext]

end Step

section Pattern

variable {words : List (List Nat)} {ac : Automaton}

/-- What a pattern leaves as it is. -/
structure SameSetting (ac ac' : Automaton) : Prop where
  alphaSize_eq : ac'.alphaSize = ac.alphaSize
  alphaMap_eq : ac'.alphaMap = ac.alphaMap

theorem SameSetting.symbol_eq {ac' : Automaton} (h : SameSetting ac ac') (b : UInt8) :
    ac'.symbol b = ac.symbol b := by
  rw [Automaton.symbol, Automaton.symbol, h.alphaMap_eq]

theorem SameSetting.trans {ac' ac'' : Automaton} (h : SameSetting ac ac')
    (h' : SameSetting ac' ac'') : SameSetting ac ac'' :=
  ⟨h'.alphaSize_eq.trans h.alphaSize_eq, h'.alphaMap_eq.trans h.alphaMap_eq⟩

theorem exists_trie_foldl (pattern : List UInt8) :
    ∀ {words : List (List Nat)} {ac : Automaton} {s : Nat} {w : List Nat},
      (∀ b, ac.symbol b < ac.alphaSize) → Trie words ac → words[s]? = some w →
      ∃ words', words <+: words' ∧ Trie words' (pattern.foldl trieStep (ac, s)).1 ∧
        words'[(pattern.foldl trieStep (ac, s)).2]? = some (w ++ pattern.map ac.symbol) ∧
        (pattern.foldl trieStep (ac, s)).1.output = ac.output ∧
        SameSetting ac (pattern.foldl trieStep (ac, s)).1 := by
  induction pattern with
  | nil =>
      intro words ac s w _ h hs
      exact ⟨words, List.prefix_rfl, h, by simpa using hs, rfl, rfl, rfl⟩
  | cons b pattern ih =>
      intro words ac s w hb h hs
      have hset : SameSetting ac (trieStep (ac, s) b).1 :=
        ⟨trieStep_alphaSize (ac, s) b, trieStep_alphaMap (ac, s) b⟩
      obtain ⟨words₁, hpre₁, htrie₁, hs₁⟩ := h.step hs (hb b)
      have hb₁ : ∀ b', (trieStep (ac, s) b).1.symbol b' < (trieStep (ac, s) b).1.alphaSize :=
        fun b' => by rw [hset.symbol_eq, hset.alphaSize_eq]; exact hb b'
      obtain ⟨words₂, hpre₂, htrie₂, hs₂, hout₂, hset₂⟩ := ih hb₁ htrie₁ hs₁
      refine ⟨words₂, hpre₁.trans hpre₂, htrie₂, ?_, hout₂.trans (trieStep_output (ac, s) b),
        hset.trans hset₂⟩
      have hmap : pattern.map (trieStep (ac, s) b).1.symbol = pattern.map ac.symbol :=
        List.map_congr_left fun b' _ => hset.symbol_eq b'
      rw [List.foldl_cons, hs₂, hmap, List.map_cons, List.append_assoc]
      rfl

/-- The outputs after some patterns: each state has the bits of the patterns that are its word. -/
structure Outputs (words done : List (List Nat)) (ac : Automaton) : Prop where
  subset : ∀ u ∈ done, u ∈ words
  output_iff : ∀ s w, words[s]? = some w → ∀ p,
    (ac.output s).getLsbD p = true ↔ p < 64 ∧ done[p]? = some w
  output_new : ∀ s, words.length ≤ s → ac.output s = 0

theorem getElem?_of_isPrefix {words' : List (List Nat)} (hpre : words <+: words') {s : Nat}
    (hs : s < words.length) : words'[s]? = words[s]? := by
  obtain ⟨more, rfl⟩ := hpre
  exact List.getElem?_append_left hs

theorem Outputs.grow {words' done : List (List Nat)} {ac' : Automaton} (h : Outputs words done ac)
    (hpre : words <+: words') (hnodup : words'.Nodup) (hout : ac'.output = ac.output) :
    Outputs words' done ac' where
  subset := fun u hu => hpre.subset (h.subset u hu)
  output_iff := by
    intro s w hs p
    rw [hout]
    by_cases hlt : s < words.length
    · refine h.output_iff s w ?_ p
      rw [← getElem?_of_isPrefix hpre hlt]
      exact hs
    · rw [h.output_new s (Nat.le_of_not_lt hlt)]
      refine ⟨fun hbit => absurd hbit (by simp), ?_⟩
      rintro ⟨_, hp⟩
      -- a pattern that is done has its state among the old ones
      obtain ⟨t, ht⟩ := List.mem_iff_getElem?.mp (h.subset w (List.mem_of_getElem? hp))
      have htlt : t < words.length := (List.getElem?_eq_some_iff.mp ht).1
      have ht' : words'[t]? = some w := (getElem?_of_isPrefix hpre htlt).trans ht
      have hslt : s < words'.length := (List.getElem?_eq_some_iff.mp hs).1
      have heq : s = t := (List.getElem?_inj hslt hnodup).mp (hs.trans ht'.symm)
      omega
  output_new := by
    intro s hs
    rw [hout]
    exact h.output_new s (hpre.length_le.trans hs)

theorem Outputs.addPattern {done : List (List Nat)} {u : List Nat} {s : Nat}
    (h : Outputs words done ac) (hs : words[s]? = some u) (hnodup : words.Nodup) :
    Outputs words (done ++ [u])
      { ac with
        output :=
          if done.length < 64 then
            Function.update ac.output s (ac.output s ||| BitVec.twoPow 64 done.length)
          else ac.output
        outputList := Function.update ac.outputList s (some done.length) } where
  subset := by
    intro v hv
    rcases List.mem_append.mp hv with hold | hlast
    · exact h.subset v hold
    · rw [List.mem_singleton.mp hlast]
      exact List.mem_of_getElem? hs
  output_iff := by
    intro t w ht p
    have hold := h.output_iff t w ht p
    have hdone : (done ++ [u])[p]? = some w ↔
        done[p]? = some w ∨ (p = done.length ∧ u = w) := by
      rw [List.getElem?_append]
      by_cases hp : p < done.length
      · have hne : p ≠ done.length := Nat.ne_of_lt hp
        simp [hp, hne]
      · have hnone : done[p]? = none := List.getElem?_eq_none (Nat.le_of_not_lt hp)
        rw [if_neg hp, hnone, List.getElem?_singleton]
        by_cases heq : p = done.length
        · simp [heq]
        · have hne : p - done.length ≠ 0 := by omega
          simp [heq, hne]
    have hst : s = t ↔ u = w := by
      constructor
      · rintro rfl
        exact Option.some.inj (hs.symm.trans ht)
      · rintro rfl
        exact (List.getElem?_inj (List.getElem?_eq_some_iff.mp hs).1 hnodup).mp (hs.trans ht.symm)
    rw [hdone]
    by_cases h64 : done.length < 64
    · simp only [h64, if_true]
      by_cases heq : s = t
      · subst heq
        rw [Function.update_self, BitVec.getLsbD_or, Bool.or_eq_true, hold, BitVec.getLsbD_twoPow]
        have huw : u = w := hst.mp rfl
        simp only [h64, decide_true, Bool.true_and, decide_eq_true_eq, huw, and_true]
        constructor
        · rintro (⟨hp, hd⟩ | rfl)
          · exact ⟨hp, Or.inl hd⟩
          · exact ⟨h64, Or.inr rfl⟩
        · rintro ⟨hp, hd | rfl⟩
          · exact Or.inl ⟨hp, hd⟩
          · exact Or.inr rfl
      · rw [Function.update_of_ne (Ne.symm heq), hold]
        have huw : u ≠ w := fun huw => heq (hst.mpr huw)
        simp [huw]
    · simp only [h64, if_false]
      rw [hold]
      constructor
      · exact fun ⟨hp, hd⟩ => ⟨hp, Or.inl hd⟩
      · rintro ⟨hp, hd | ⟨rfl, _⟩⟩
        · exact ⟨hp, hd⟩
        · exact absurd hp h64
  output_new := by
    intro t ht
    have hne : t ≠ s := by
      rintro rfl
      exact absurd (List.getElem?_eq_some_iff.mp hs).1 (Nat.not_lt.mpr ht)
    simp only
    split
    · rw [Function.update_of_ne hne]
      exact h.output_new t ht
    · exact h.output_new t ht

end Pattern

theorem foldl_addPattern_outputNext (patterns : List (List UInt8 × Nat)) (ac : Automaton) :
    (patterns.foldl addPattern ac).outputNext = ac.outputNext := by
  induction patterns generalizing ac with
  | nil => rfl
  | cons pattern patterns ih =>
      rw [List.foldl_cons, ih]
      exact foldl_trieStep_outputNext pattern.1 (ac, 0)

theorem exists_trie_patterns (patterns : List (List UInt8)) :
    ∀ {words done : List (List Nat)} {ac : Automaton} {start : Nat},
      (∀ b, ac.symbol b < ac.alphaSize) → Trie words ac → Outputs words done ac →
      start = done.length →
      ∃ words', Trie words' ((patterns.zipIdx start).foldl addPattern ac) ∧
        Outputs words' (done ++ patterns.map (List.map ac.symbol))
          ((patterns.zipIdx start).foldl addPattern ac) ∧
        SameSetting ac ((patterns.zipIdx start).foldl addPattern ac) := by
  induction patterns with
  | nil =>
      intro words done ac start _ htrie hout _
      exact ⟨words, htrie, by simpa using hout, rfl, rfl⟩
  | cons pattern patterns ih =>
      intro words done ac start hb htrie hout hstart
      subst hstart
      obtain ⟨words₁, hpre, htrie₁, hs, houtput, hset⟩ :=
        exists_trie_foldl pattern hb htrie htrie.isWords.root
      rw [List.nil_append] at hs
      have hgrown := hout.grow hpre htrie₁.isWords.nodup houtput
      have hadded := hgrown.addPattern hs htrie₁.isWords.nodup
      have htrie₂ : Trie words₁ (addPattern ac (pattern, done.length)) :=
        ⟨htrie₁.isWords, htrie₁.numStates_eq, htrie₁.go_cell⟩
      have hset₂ : SameSetting ac (addPattern ac (pattern, done.length)) :=
        ⟨hset.alphaSize_eq, hset.alphaMap_eq⟩
      have hb₂ : ∀ b, (addPattern ac (pattern, done.length)).symbol b <
          (addPattern ac (pattern, done.length)).alphaSize :=
        fun b => by rw [hset₂.symbol_eq, hset₂.alphaSize_eq]; exact hb b
      have hlength : done.length + 1 = (done ++ [pattern.map ac.symbol]).length := by simp
      obtain ⟨words₃, htrie₃, hout₃, hset₃⟩ := ih hb₂ htrie₂ hadded hlength
      have hmap : patterns.map (List.map (addPattern ac (pattern, done.length)).symbol) =
          patterns.map (List.map ac.symbol) :=
        List.map_congr_left fun u _ => List.map_congr_left fun b _ => hset₂.symbol_eq b
      rw [List.zipIdx_cons, List.foldl_cons]
      refine ⟨words₃, htrie₃, ?_, hset₂.trans hset₃⟩
      rw [hmap, List.append_assoc] at hout₃
      exact hout₃

end Ac
end CodebaseMemory
