import CodebaseMemory.Ac.Scan

/-!
# Scanning a list of names (`internal/cbm/ac.c`)

`cbm_ac_scan_batch`, which writes a pair for each pattern that it finds in a
name.  At each byte it follows the output links from the state; at each state of
the chain it writes the patterns of the bit mask that it has not yet written for
the name.

Reading aids:
* The loop over the bits of a word, lowest first, is a loop over the list of
  these bits.
* The chain of output links is followed with fuel, and `none` says that it ran
  out.  A link leads to a shorter word, and the word of the state is a part of
  what has been read, so the fuel is one more than the length of the name.
* `outputList`, which has the numbers of the patterns beyond the bit mask, is
  not read.
-/

namespace CodebaseMemory
namespace Ac

open Lib

/-- `CBMMatchResult`. -/
structure MatchResult where
  nameIndex : Nat
  patternId : Nat
deriving DecidableEq

/-- What has been written, and `seen`, the patterns that were written for the name. -/
structure Batch where
  out : List MatchResult
  seen : BitVec 64

/-- The numbers of the bits that are set, lowest first. -/
def setBits (bits : BitVec 64) : List Nat :=
  (List.range 64).filter fun pid => bits.getLsbD pid

/-- The loop over the bits of `bits`. -/
def emitBits (nameIndex maxMatches : Nat) : List Nat → Batch → Batch
  | [], b => b
  | pid :: pids, b =>
      if b.out.length < maxMatches then
        emitBits nameIndex maxMatches pids
          { out := b.out ++ [⟨nameIndex, pid⟩], seen := b.seen ||| BitVec.twoPow 64 pid }
      else b

/-- The chain of output links from the state `s`. -/
def walkChain (ac : Automaton) (nameIndex maxMatches : Nat) : Nat → Nat → Batch → Option Batch
  | 0, _, _ => none
  | fuel + 1, s, b =>
      if 0 < s ∧ b.out.length < maxMatches then
        let b' := emitBits nameIndex maxMatches (setBits (ac.output s &&& ~~~b.seen)) b
        match ac.outputNext s with
        | none => some b'
        | some next =>
            if next = s then some b' else walkChain ac nameIndex maxMatches fuel next b'
      else some b

/-- One byte of a name; without a state there is no chain. -/
def batchStep (ac : Automaton) (nameIndex maxMatches fuel : Nat)
    (pos : Option Nat × Option Batch) (byte : UInt8) : Option Nat × Option Batch :=
  let state := pos.1.bind fun s => ac.goTable (cell ac.alphaSize s (ac.symbol byte))
  (state, pos.2.bind fun b =>
    match state with
    | some s => walkChain ac nameIndex maxMatches fuel s b
    | none => some b)

def scanName (ac : Automaton) (nameIndex maxMatches : Nat) (text : List UInt8)
    (out : List MatchResult) : Option (List MatchResult) :=
  (text.foldl (batchStep ac nameIndex maxMatches (text.length + 1))
    (some 0, some { out := out, seen := 0 })).2.map Batch.out

/-- The loop over the names, from the number `start`. -/
def scanNames (ac : Automaton) (maxMatches : Nat) :
    Nat → List (List UInt8) → List MatchResult → Option (List MatchResult)
  | _, [], out => some out
  | start, name :: names, out =>
      if out.length < maxMatches then
        (scanName ac start maxMatches name out).bind
          (scanNames ac maxMatches (start + 1) names)
      else some out

/-- `cbm_ac_scan_batch`: what is in `out_matches`. -/
def scanBatch (ac : Automaton) (names : List (List UInt8)) (maxMatches : Nat) :
    Option (List MatchResult) :=
  scanNames ac maxMatches 0 names []

theorem mem_setBits {bits : BitVec 64} {pid : Nat} :
    pid ∈ setBits bits ↔ bits.getLsbD pid = true := by
  rw [setBits, List.mem_filter, List.mem_range]
  refine ⟨fun h => h.2, fun h => ⟨?_, h⟩⟩
  exact BitVec.lt_of_getLsbD h

theorem nodup_setBits (bits : BitVec 64) : (setBits bits).Nodup :=
  List.nodup_range.filter _

section Emit

variable {nameIndex maxMatches : Nat}

theorem emitBits_spec (pids : List Nat) :
    ∀ b : Batch, b.out.length + pids.length ≤ maxMatches →
      (emitBits nameIndex maxMatches pids b).out = b.out ++ pids.map (MatchResult.mk nameIndex) ∧
        ∀ p, (emitBits nameIndex maxMatches pids b).seen.getLsbD p = true ↔
          b.seen.getLsbD p = true ∨ (p < 64 ∧ p ∈ pids) := by
  induction pids with
  | nil =>
      intro b _
      exact ⟨(List.append_nil _).symm, fun p => by simp [emitBits]⟩
  | cons pid pids ih =>
      intro b hroom
      rw [List.length_cons] at hroom
      have hlt : b.out.length < maxMatches := by omega
      obtain ⟨hout, hseen⟩ := ih
        { out := b.out ++ [⟨nameIndex, pid⟩], seen := b.seen ||| BitVec.twoPow 64 pid } (by
          rw [List.length_append, List.length_singleton]
          omega)
      rw [emitBits, if_pos hlt]
      refine ⟨by rw [hout, List.append_assoc, List.singleton_append, List.map_cons], fun p => ?_⟩
      rw [hseen, BitVec.getLsbD_or, Bool.or_eq_true, BitVec.getLsbD_twoPow, List.mem_cons]
      simp only [Bool.and_eq_true, decide_eq_true_eq]
      constructor
      · rintro ((hold | ⟨hp, heq⟩) | ⟨hp, hin⟩)
        · exact Or.inl hold
        · exact Or.inr ⟨heq ▸ hp, Or.inl heq.symm⟩
        · exact Or.inr ⟨hp, Or.inr hin⟩
      · rintro (hold | ⟨hp, heq | hin⟩)
        · exact Or.inl (Or.inl hold)
        · exact Or.inl (Or.inr ⟨heq ▸ hp, heq.symm⟩)
        · exact Or.inr ⟨hp, hin⟩

end Emit

section Chain

variable {words images : List (List Nat)} {ac : Automaton} {nameIndex maxMatches : Nat}

/-- The patterns of a state that were all written before. -/
def SeenAll (ac : Automaton) (s : Nat) (b : Batch) : Prop :=
  ∀ p, (ac.output s).getLsbD p = true → b.seen.getLsbD p = true

theorem setBits_of_seenAll {s : Nat} {b : Batch} (h : SeenAll ac s b) :
    setBits (ac.output s &&& ~~~b.seen) = [] := by
  refine List.eq_nil_iff_forall_not_mem.mpr fun p hp => ?_
  rw [mem_setBits, BitVec.getLsbD_and, Bool.and_eq_true, BitVec.getLsbD_not] at hp
  have hseen := h p hp.1
  simp [hseen] at hp

theorem Complete.next (h : Complete words images ac) {s next : Nat} {w : List Nat}
    (hs : words[s]? = some w) (hnext : ac.outputNext s = some next) :
    ∃ v, words[next]? = some v ∧ v.length < w.length ∧
      ∀ p, (ac.output next).getLsbD p = true → (ac.output s).getLsbD p = true := by
  obtain ⟨hne, hv⟩ := h.next_eq s next hnext w hs
  have hsuffix : longestSuffix words w.tail <:+ w.tail := longestSuffix_suffix _
  refine ⟨_, hv, ?_, fun p hp => ?_⟩
  · have hle := hsuffix.length_le
    have hpos := List.length_pos_of_ne_nil hne
    rw [List.length_tail] at hle
    omega
  · rw [h.output_iff next _ hv] at hp
    obtain ⟨hp64, u, hu, hsuf⟩ := hp
    exact (h.output_iff s w hs p).mpr
      ⟨hp64, u, hu, hsuf.trans (hsuffix.trans (List.tail_suffix w))⟩

theorem walkChain_of_seen (h : Complete words images ac) (fuel : Nat) :
    ∀ {s : Nat} {w : List Nat} {b : Batch}, words[s]? = some w → w.length < fuel →
      SeenAll ac s b → walkChain ac nameIndex maxMatches fuel s b = some b := by
  induction fuel with
  | zero => exact fun _ hlt _ => absurd hlt (Nat.not_lt_zero _)
  | succ fuel ih =>
      intro s w b hs hlt hseen
      rw [walkChain, setBits_of_seenAll hseen, emitBits]
      split
      · cases hnext : ac.outputNext s with
        | none => rfl
        | some next =>
            obtain ⟨v, hv, hshort, hsub⟩ := h.next hs hnext
            have hrest := ih hv (by omega) fun p hp => hseen p (hsub p hp)
            dsimp only
            split
            · rfl
            · exact hrest
      · rfl

theorem mem_newBits {s : Nat} {b : Batch} {p : Nat} :
    p ∈ setBits (ac.output s &&& ~~~b.seen) ↔
      (ac.output s).getLsbD p = true ∧ b.seen.getLsbD p = false := by
  rw [mem_setBits, BitVec.getLsbD_and, BitVec.getLsbD_not, Bool.and_eq_true]
  refine and_congr_right fun hp => ?_
  have hlt := BitVec.lt_of_getLsbD hp
  simp [hlt]

theorem walkChain_spec (h : Complete words images ac) (hne : ∀ u ∈ images, u ≠ [])
    {fuel s : Nat} {w : List Nat} {b : Batch} (hs : words[s]? = some w) (hfuel : w.length < fuel)
    (hroom : b.out.length + (setBits (ac.output s &&& ~~~b.seen)).length ≤ maxMatches) :
    ∃ b', walkChain ac nameIndex maxMatches fuel s b = some b' ∧
      b'.out = b.out ++ (setBits (ac.output s &&& ~~~b.seen)).map (MatchResult.mk nameIndex) ∧
      ∀ p, b'.seen.getLsbD p = true ↔
        b.seen.getLsbD p = true ∨ (ac.output s).getLsbD p = true := by
  obtain ⟨hout, hseen⟩ := @emitBits_spec nameIndex maxMatches
    (setBits (ac.output s &&& ~~~b.seen)) b hroom
  have hmarked : ∀ p, (emitBits nameIndex maxMatches (setBits (ac.output s &&& ~~~b.seen))
      b).seen.getLsbD p = true ↔ b.seen.getLsbD p = true ∨ (ac.output s).getLsbD p = true := by
    intro p
    rw [hseen, mem_newBits]
    cases hold : b.seen.getLsbD p with
    | true => simp
    | false =>
        simp only [Bool.false_eq_true, false_or, and_true]
        exact ⟨fun hp => hp.2, fun hp => ⟨BitVec.lt_of_getLsbD hp, hp⟩⟩
  obtain ⟨fuel, rfl⟩ : ∃ k, fuel = k + 1 := Nat.exists_eq_succ_of_ne_zero (by omega)
  by_cases hguard : 0 < s ∧ b.out.length < maxMatches
  · refine ⟨_, ?_, hout, hmarked⟩
    rw [walkChain, if_pos hguard]
    cases hnext : ac.outputNext s with
    | none => rfl
    | some next =>
        obtain ⟨v, hv, hshort, hsub⟩ := h.next hs hnext
        have hrest := @walkChain_of_seen _ _ _ nameIndex maxMatches h fuel _ _ _ hv (by omega)
          fun p hp => (hmarked p).mpr (Or.inr (hsub p hp))
        dsimp only
        split
        · rfl
        · exact hrest
  · -- the root has no patterns, and without room there are no new ones
    have hnil : setBits (ac.output s &&& ~~~b.seen) = [] := by
      rcases not_and_or.mp hguard with hroot | hfull
      · obtain rfl : s = 0 := Nat.eq_zero_of_not_pos hroot
        refine List.eq_nil_iff_forall_not_mem.mpr fun p hp => ?_
        obtain ⟨_, u, hu, hsuffix⟩ := (h.output_iff 0 [] h.isWords.root p).mp (mem_newBits.mp hp).1
        exact hne u (List.mem_of_getElem? hu) (List.suffix_nil.mp hsuffix)
      · exact List.eq_nil_of_length_eq_zero (by omega)
    refine ⟨b, by rw [walkChain, if_neg hguard], by rw [hnil, List.map_nil, List.append_nil],
      fun p => ?_⟩
    rw [← hmarked, hnil, emitBits]

end Chain

section Names

variable {words images : List (List Nat)} {ac : Automaton} {nameIndex maxMatches : Nat}

/-- A pattern with a number in the bit mask that stands in a text. -/
def FoundIn (images : List (List Nat)) (text : List Nat) (p : Nat) : Prop :=
  p < 64 ∧ ∃ u, images[p]? = some u ∧ u <:+: text

theorem FoundIn.mono {text whole : List Nat} {p : Nat} (h : FoundIn images text p)
    (hpre : text <+: whole) : FoundIn images whole p := by
  obtain ⟨hp, u, hu, hinf⟩ := h
  exact ⟨hp, u, hu, hinf.trans hpre.isInfix⟩

/-- What a name adds: the patterns that stand in the part that has been read, once each. -/
structure NameRead (images : List (List Nat)) (nameIndex : Nat) (out : List MatchResult)
    (text : List Nat) (b : Batch) : Prop where
  written : ∃ pids : List Nat, pids.Nodup ∧ (∀ p, p ∈ pids ↔ FoundIn images text p) ∧
    b.out = out ++ pids.map (MatchResult.mk nameIndex)
  seen_iff : ∀ p, b.seen.getLsbD p = true ↔ FoundIn images text p

theorem scanName_loop (h : Complete words images ac) (hne : ∀ u ∈ images, u ≠ [])
    (hsymbol : ∀ b, ac.symbol b < ac.alphaSize) {fuel : Nat} {out : List MatchResult}
    {whole : List UInt8}
    (hroom : ∀ pids : List Nat, pids.Nodup →
      (∀ p ∈ pids, FoundIn images (whole.map ac.symbol) p) →
        out.length + pids.length ≤ maxMatches)
    (text : List UInt8) (hpre : text <+: whole) (hfuel : text.length < fuel) :
    (∃ s, (text.foldl (batchStep ac nameIndex maxMatches fuel)
        (some 0, some { out := out, seen := 0 })).1 = some s ∧
      words[s]? = some (longestSuffix words (text.map ac.symbol))) ∧
    ∃ b, (text.foldl (batchStep ac nameIndex maxMatches fuel)
        (some 0, some { out := out, seen := 0 })).2 = some b ∧
      NameRead images nameIndex out (text.map ac.symbol) b := by
  induction text using List.reverseRecOn with
  | nil =>
      have hnone : ∀ p, ¬ FoundIn images [] p := by
        rintro p ⟨_, u, hu, hinf⟩
        exact hne u (List.mem_of_getElem? hu) (List.infix_nil.mp hinf)
      refine ⟨⟨0, rfl, h.isWords.root⟩, _, rfl, ⟨[], List.nodup_nil, fun p => ?_, ?_⟩, fun p => ?_⟩
      · simpa using hnone p
      · exact (List.append_nil _).symm
      · simpa using hnone p
  | append_singleton text byte ih =>
      have hpre' : text <+: whole := (List.prefix_append _ _).trans hpre
      rw [List.length_append, List.length_singleton] at hfuel
      obtain ⟨⟨s, hs, hsw⟩, b, hb, ⟨pids, hnodup, hpids, hout⟩, hseen⟩ := ih hpre' (by omega)
      obtain ⟨t, ht, htw⟩ := h.go_cell s (ac.symbol byte) (hsymbol byte) _ hsw
      rw [← longestSuffix_append_singleton h.isWords.prefixClosed] at htw
      have hfound : ∀ p, FoundIn images ((text ++ [byte]).map ac.symbol) p ↔
          FoundIn images (text.map ac.symbol) p ∨ (ac.output t).getLsbD p = true := by
        intro p
        rw [h.output_iff t _ htw, FoundIn, FoundIn, ← and_or_left, List.map_append,
          List.map_singleton]
        refine and_congr_right fun _ => ?_
        constructor
        · rintro ⟨u, hp, hu⟩
          have hmem := h.subset u (List.mem_of_getElem? hp)
          rcases List.infix_concat_iff.mp hu with hsuffix | hold
          · exact Or.inr ⟨u, hp, (suffix_longestSuffix_iff hmem).mpr hsuffix⟩
          · exact Or.inl ⟨u, hp, hold⟩
        · rintro (⟨u, hp, hu⟩ | ⟨u, hp, hu⟩)
          · exact ⟨u, hp, List.infix_concat_iff.mpr (Or.inr hu)⟩
          · have hmem := h.subset u (List.mem_of_getElem? hp)
            exact ⟨u, hp, ((suffix_longestSuffix_iff hmem).mp hu).isInfix⟩
      -- the new patterns are not among those that were written
      have hnew : ∀ p, p ∈ setBits (ac.output t &&& ~~~b.seen) ↔
          (ac.output t).getLsbD p = true ∧ p ∉ pids := by
        intro p
        rw [mem_newBits, hpids, ← hseen, Bool.not_eq_true]
      have hall : ∀ p, p ∈ pids ++ setBits (ac.output t &&& ~~~b.seen) ↔
          FoundIn images ((text ++ [byte]).map ac.symbol) p := by
        intro p
        rw [List.mem_append, hnew, hfound, hpids]
        by_cases hold : FoundIn images (text.map ac.symbol) p
        · simp [hold]
        · simp [hold]
      have hboth : (pids ++ setBits (ac.output t &&& ~~~b.seen)).Nodup :=
        List.nodup_append.mpr ⟨hnodup, nodup_setBits _,
          fun p hp q hq heq => ((hnew q).mp hq).2 (heq ▸ hp)⟩
      have hfits : b.out.length + (setBits (ac.output t &&& ~~~b.seen)).length ≤ maxMatches := by
        have hle := hroom _ hboth fun p hp => ((hall p).mp hp).mono (hpre.map _)
        rw [List.length_append] at hle
        rw [hout, List.length_append, List.length_map]
        omega
      have hshort : (longestSuffix words ((text ++ [byte]).map ac.symbol)).length < fuel := by
        have hle := (@longestSuffix_suffix _ _ words ((text ++ [byte]).map ac.symbol)).length_le
        rw [List.length_map, List.length_append, List.length_singleton] at hle
        omega
      rw [List.map_append, List.map_singleton] at hshort
      obtain ⟨b', hwalk, hout', hseen'⟩ :=
        @walkChain_spec _ _ _ nameIndex maxMatches h hne fuel _ _ _ htw hshort hfits
      have hstep : (text ++ [byte]).foldl (batchStep ac nameIndex maxMatches fuel)
          (some 0, some { out := out, seen := 0 }) = (some t, some b') := by
        rw [List.foldl_append, List.foldl_cons, List.foldl_nil, batchStep, hs, hb,
          Option.bind_some, ht, Option.bind_some]
        exact congrArg (Prod.mk (some t)) hwalk
      rw [hstep]
      refine ⟨⟨t, rfl, ?_⟩, b', rfl, ⟨_, hboth, hall, ?_⟩, fun p => ?_⟩
      · rw [List.map_append, List.map_singleton]
        exact htw
      · rw [hout', hout, List.map_append, List.append_assoc]
      · rw [hseen', hseen, ← hfound]

theorem scanName_spec (h : Complete words images ac) (hne : ∀ u ∈ images, u ≠ [])
    (hsymbol : ∀ b, ac.symbol b < ac.alphaSize) {out : List MatchResult} {name : List UInt8}
    (hroom : ∀ pids : List Nat, pids.Nodup →
      (∀ p ∈ pids, FoundIn images (name.map ac.symbol) p) →
        out.length + pids.length ≤ maxMatches) :
    ∃ pids : List Nat, pids.Nodup ∧ (∀ p, p ∈ pids ↔ FoundIn images (name.map ac.symbol) p) ∧
      scanName ac nameIndex maxMatches name out =
        some (out ++ pids.map (MatchResult.mk nameIndex)) := by
  obtain ⟨_, b, hb, ⟨pids, hnodup, hpids, hout⟩, _⟩ :=
    @scanName_loop _ _ _ nameIndex maxMatches h hne hsymbol _ _ _ hroom name List.prefix_rfl
      (Nat.lt_succ_self name.length)
  refine ⟨pids, hnodup, hpids, ?_⟩
  rw [scanName, hb, Option.map_some, hout]

end Names

section Matches

variable (sym : UInt8 → Nat)

/-- The pairs of a name and a pattern whose symbols stand in those of the name. -/
def allMatches (patterns names : List (List UInt8)) : List MatchResult :=
  names.zipIdx.flatMap fun name =>
    (patterns.zipIdx.filter fun pattern => pattern.1.map sym <:+: name.1.map sym).map
      fun pattern => ⟨name.2, pattern.2⟩

variable {sym} {patterns names : List (List UInt8)}

theorem mem_allMatches {n p : Nat} :
    ⟨n, p⟩ ∈ allMatches sym patterns names ↔
      ∃ name pattern, names[n]? = some name ∧ patterns[p]? = some pattern ∧
        pattern.map sym <:+: name.map sym := by
  simp only [allMatches, List.mem_flatMap, List.mem_map, List.mem_filter, decide_eq_true_eq,
    Prod.exists, List.mem_zipIdx_iff_getElem?, MatchResult.mk.injEq]
  constructor
  · rintro ⟨name, n', hn, pattern, p', ⟨hp, hinf⟩, rfl, rfl⟩
    exact ⟨name, pattern, hn, hp, hinf⟩
  · rintro ⟨name, pattern, hn, hp, hinf⟩
    exact ⟨name, n, hn, pattern, p, ⟨hp, hinf⟩, rfl, rfl⟩

theorem nodup_snd_zipIdx {α : Type} (l : List α) : (l.zipIdx.map Prod.snd).Nodup := by
  rw [List.zipIdx_map_snd]
  exact List.nodup_range'

theorem nodup_allMatches : (allMatches sym patterns names).Nodup := by
  refine List.nodup_flatMap.mpr ⟨fun name _ => ?_, ?_⟩
  · -- the patterns of a name have different numbers
    refine List.Nodup.of_map MatchResult.patternId ?_
    rw [List.map_map]
    exact (nodup_snd_zipIdx patterns).sublist (List.filter_sublist.map _)
  · refine (List.pairwise_map.mp (nodup_snd_zipIdx names)).imp fun hdiff => ?_
    intro m hm hm'
    obtain ⟨_, _, rfl⟩ := List.mem_map.mp hm
    obtain ⟨_, _, heq⟩ := List.mem_map.mp hm'
    exact hdiff (congrArg MatchResult.nameIndex heq).symm

theorem nameIndex_lt {m : MatchResult} (h : m ∈ allMatches sym patterns names) :
    m.nameIndex < names.length := by
  obtain ⟨name, _, hn, _⟩ := mem_allMatches.mp h
  exact (List.getElem?_eq_some_iff.mp hn).1

theorem foundIn_iff {name : List UInt8} {n p : Nat} (hn : names[n]? = some name) :
    FoundIn (patterns.map (List.map sym)) (name.map sym) p ↔
      p < 64 ∧ ⟨n, p⟩ ∈ allMatches sym patterns names := by
  rw [FoundIn, mem_allMatches]
  refine and_congr_right fun _ => ?_
  simp only [List.getElem?_map, Option.map_eq_some_iff]
  constructor
  · rintro ⟨_, ⟨pattern, hp, rfl⟩, hinf⟩
    exact ⟨name, pattern, hn, hp, hinf⟩
  · rintro ⟨name', pattern, hn', hp, hinf⟩
    obtain rfl : name = name' := Option.some.inj (hn.symm.trans hn')
    exact ⟨_, ⟨pattern, hp, rfl⟩, hinf⟩

/-- What has been written before the name with the number `start`. -/
structure Written (sym : UInt8 → Nat) (patterns names : List (List UInt8)) (start : Nat)
    (out : List MatchResult) : Prop where
  nodup : out.Nodup
  mem_iff : ∀ m, m ∈ out ↔
    m ∈ allMatches sym patterns names ∧ m.patternId < 64 ∧ m.nameIndex < start
  sorted : out.Pairwise fun a b => a.nameIndex ≤ b.nameIndex

theorem Written.name {start : Nat} {out : List MatchResult} {name : List UInt8} {pids : List Nat}
    (h : Written sym patterns names start out) (hn : names[start]? = some name)
    (hnodup : pids.Nodup)
    (hpids : ∀ p, p ∈ pids ↔ FoundIn (patterns.map (List.map sym)) (name.map sym) p) :
    Written sym patterns names (start + 1) (out ++ pids.map (MatchResult.mk start)) where
  nodup := by
    refine List.nodup_append.mpr ⟨h.nodup, ?_, fun m hm m' hm' heq => ?_⟩
    · exact hnodup.map fun p q hpq => (MatchResult.mk.inj hpq).2
    · obtain ⟨p, _, rfl⟩ := List.mem_map.mp hm'
      subst heq
      exact Nat.lt_irrefl _ ((h.mem_iff _).mp hm).2.2
  mem_iff := by
    rintro ⟨n, p⟩
    rw [List.mem_append, h.mem_iff, List.mem_map]
    constructor
    · rintro (⟨hall, h64, hlt⟩ | ⟨q, hq, heq⟩)
      · exact ⟨hall, h64, Nat.lt_succ_of_lt hlt⟩
      · obtain ⟨rfl, rfl⟩ := MatchResult.mk.inj heq
        obtain ⟨h64, hall⟩ := (foundIn_iff hn).mp ((hpids _).mp hq)
        exact ⟨hall, h64, Nat.lt_succ_self _⟩
    · rintro ⟨hall, h64, hlt⟩
      rcases Nat.lt_succ_iff_lt_or_eq.mp hlt with hold | rfl
      · exact Or.inl ⟨hall, h64, hold⟩
      · exact Or.inr ⟨p, (hpids p).mpr ((foundIn_iff hn).mpr ⟨h64, hall⟩), rfl⟩
  sorted := by
    refine List.pairwise_append.mpr ⟨h.sorted, ?_, fun m hm m' hm' => ?_⟩
    · rw [List.pairwise_map]
      exact List.pairwise_of_forall fun _ _ => Nat.le_refl _
    · obtain ⟨p, _, rfl⟩ := List.mem_map.mp hm'
      exact Nat.le_of_lt ((h.mem_iff m).mp hm).2.2

theorem length_le_allMatches {l : List MatchResult} (hnodup : l.Nodup)
    (h : ∀ m ∈ l, m ∈ allMatches sym patterns names) :
    l.length ≤ (allMatches sym patterns names).length :=
  (hnodup.subperm h).length_le

end Matches

section Batch

variable {words : List (List Nat)} {ac : Automaton} {patterns names : List (List UInt8)}
variable {maxMatches : Nat}

theorem scanNames_spec (h : Complete words (patterns.map (List.map ac.symbol)) ac)
    (hne : ∀ u ∈ patterns.map (List.map ac.symbol), u ≠ [])
    (hsymbol : ∀ b, ac.symbol b < ac.alphaSize)
    (hmax : (allMatches ac.symbol patterns names).length ≤ maxMatches) (rest : List (List UInt8)) :
    ∀ {front : List (List UInt8)} {out : List MatchResult}, names = front ++ rest →
      Written ac.symbol patterns names front.length out →
      ∃ result, scanNames ac maxMatches front.length rest out = some result ∧
        Written ac.symbol patterns names names.length result := by
  induction rest with
  | nil =>
      intro front out hnames hout
      rw [List.append_nil] at hnames
      exact ⟨out, rfl, hnames ▸ hout⟩
  | cons name rest ih =>
      intro front out hnames hout
      have hn : names[front.length]? = some name := by
        rw [hnames, List.getElem?_append_right (Nat.le_refl _)]
        simp
      rw [scanNames]
      split
      · have hroom : ∀ pids : List Nat, pids.Nodup →
            (∀ p ∈ pids, FoundIn (patterns.map (List.map ac.symbol)) (name.map ac.symbol) p) →
              out.length + pids.length ≤ maxMatches := by
          intro pids hnodup hpids
          rw [← @List.length_map _ _ pids (MatchResult.mk front.length), ← List.length_append]
          refine (length_le_allMatches (List.nodup_append.mpr ⟨hout.nodup, ?_, ?_⟩)
            fun m hm => ?_).trans hmax
          · exact hnodup.map fun p q hpq => (MatchResult.mk.inj hpq).2
          · rintro m hm _ hm' rfl
            obtain ⟨p, _, rfl⟩ := List.mem_map.mp hm'
            exact Nat.lt_irrefl _ ((hout.mem_iff _).mp hm).2.2
          · rcases List.mem_append.mp hm with hold | hnew
            · exact ((hout.mem_iff m).mp hold).1
            · obtain ⟨p, hp, rfl⟩ := List.mem_map.mp hnew
              exact ((foundIn_iff hn).mp (hpids p hp)).2
        obtain ⟨pids, hnodup, hpids, hscan⟩ :=
          @scanName_spec _ _ _ front.length maxMatches h hne hsymbol out name hroom
        have hnext := hout.name hn hnodup hpids
        have hlength : front.length + 1 = (front ++ [name]).length := by simp
        rw [hlength] at hnext
        rw [hscan, Option.bind_some, hlength]
        exact ih (by rw [hnames, List.append_assoc, List.singleton_append]) hnext
      · next hfull =>
          -- there is no room only if everything has been written
          have hsub : ∀ m ∈ out, m ∈ allMatches ac.symbol patterns names :=
            fun m hm => ((hout.mem_iff m).mp hm).1
          refine ⟨out, rfl, hout.nodup, fun m => ⟨fun hm => ?_, fun hm => ?_⟩, hout.sorted⟩
          · obtain ⟨hall, h64, _⟩ := (hout.mem_iff m).mp hm
            exact ⟨hall, h64, nameIndex_lt hall⟩
          · refine ((List.subperm_of_subset hout.nodup hsub).perm_of_length_le ?_).mem_iff.mpr hm.1
            exact hmax.trans (Nat.le_of_not_lt hfull)

theorem exists_written {alphaMap : Option (UInt8 → UInt8)} {alphaSize : Int} {sym : UInt8 → Nat}
    (hsym : sym = fun b => (effectiveMap alphaMap b).toNat) (hnil : patterns ≠ [])
    (hne : ∀ pattern ∈ patterns, pattern ≠ [])
    (hmap : ∀ b, (effectiveMap alphaMap b).toNat < effectiveSize alphaSize)
    (hmax : (allMatches sym patterns names).length ≤ maxMatches) :
    ∃ ac result, acBuild patterns alphaMap alphaSize = some ac ∧
      scanBatch ac names maxMatches = some result ∧
        Written sym patterns names names.length result := by
  have hbuild : acBuild patterns alphaMap alphaSize =
      some (buildFailure (buildTrie (acNew patterns alphaMap alphaSize) patterns)) := by
    rw [acBuild, if_neg hnil]
  obtain ⟨⟨words, hcomplete⟩, hsize, halpha⟩ := exists_complete hmap hne hbuild
  generalize buildFailure (buildTrie (acNew patterns alphaMap alphaSize) patterns) = ac at *
  obtain rfl : ac.symbol = sym := by
    rw [hsym]
    funext b
    rw [Automaton.symbol, halpha]
  have hsymbol : ∀ b, ac.symbol b < ac.alphaSize := by
    intro b
    rw [hsize, Automaton.symbol, halpha]
    exact hmap b
  have himages : ∀ u ∈ patterns.map (List.map ac.symbol), u ≠ [] := by
    intro u hu
    obtain ⟨pattern, hpattern, rfl⟩ := List.mem_map.mp hu
    simpa using hne pattern hpattern
  have hstart : Written ac.symbol patterns names ([] : List (List UInt8)).length [] :=
    ⟨List.nodup_nil, fun m => by simp, List.Pairwise.nil⟩
  obtain ⟨result, hresult, hwritten⟩ :=
    scanNames_spec hcomplete himages hsymbol hmax names (List.nil_append names).symm hstart
  exact ⟨ac, result, hbuild, hresult, hwritten⟩

end Batch

def ReportsAll (sym : UInt8 → Nat) (patterns names : List (List UInt8))
    (result : List MatchResult) : Prop :=
  result.Perm (allMatches sym patterns names) ∧
    result.Pairwise fun a b => a.nameIndex ≤ b.nameIndex

/-- Every match is reported exactly if no pattern beyond the bit mask stands in a name. -/
theorem batch_reports_iff (patterns names : List (List UInt8)) (maxMatches : Nat)
    (alphaMap : Option (UInt8 → UInt8)) (alphaSize : Int) (hnil : patterns ≠ [])
    (hne : ∀ pattern ∈ patterns, pattern ≠ [])
    (hmap : ∀ b, (effectiveMap alphaMap b).toNat < effectiveSize alphaSize)
    {sym : UInt8 → Nat} (hsym : sym = fun b => (effectiveMap alphaMap b).toNat)
    (hmax : (allMatches sym patterns names).length ≤ maxMatches) :
    ∃ ac result, acBuild patterns alphaMap alphaSize = some ac ∧
      scanBatch ac names maxMatches = some result ∧
        (ReportsAll sym patterns names result ↔
          ∀ p pattern, patterns[p]? = some pattern → 64 ≤ p →
            ∀ name ∈ names, ¬ pattern.map sym <:+: name.map sym) := by
  obtain ⟨ac, result, hbuild, hresult, hwritten⟩ := exists_written hsym hnil hne hmap hmax
  refine ⟨ac, result, hbuild, hresult, fun h p pattern hp h64 name hname hinf => ?_, fun h => ?_⟩
  · obtain ⟨n, hn⟩ := List.mem_iff_getElem?.mp hname
    have hall : ⟨n, p⟩ ∈ allMatches sym patterns names :=
      mem_allMatches.mpr ⟨name, pattern, hn, hp, hinf⟩
    have hlt := ((hwritten.mem_iff _).mp (h.1.mem_iff.mpr hall)).2.1
    exact absurd hlt (Nat.not_lt.mpr h64)
  · refine ⟨(List.perm_ext_iff_of_nodup hwritten.nodup nodup_allMatches).mpr fun m => ?_,
      hwritten.sorted⟩
    rw [hwritten.mem_iff]
    refine ⟨fun hm => hm.1, fun hall => ⟨hall, ?_, nameIndex_lt hall⟩⟩
    obtain ⟨name, pattern, hn, hp, hinf⟩ := mem_allMatches.mp hall
    by_contra hlarge
    exact h _ pattern hp (Nat.le_of_not_lt hlarge) name (List.mem_of_getElem? hn) hinf

/-- The patterns `he` and `she` in `ushers` and `he`. -/
theorem batch_reports_iff_ushers :
    ∃ ac result, acBuild [[104, 101], [115, 104, 101]] none 0 = some ac ∧
      scanBatch ac [[117, 115, 104, 101, 114, 115], [104, 101]] 3 = some result ∧
        (ReportsAll UInt8.toNat [[104, 101], [115, 104, 101]]
            [[117, 115, 104, 101, 114, 115], [104, 101]] result ↔
          ∀ (p : Nat) (pattern : List UInt8),
            [[104, 101], [115, 104, 101]][p]? = some pattern → 64 ≤ p →
              ∀ name ∈ ([[117, 115, 104, 101, 114, 115], [104, 101]] : List (List UInt8)),
                ¬ pattern.map UInt8.toNat <:+: name.map UInt8.toNat) :=
  batch_reports_iff [[104, 101], [115, 104, 101]]
    [[117, 115, 104, 101, 114, 115], [104, 101]] 3 none 0 (by decide) (by decide)
    (fun b => b.toNat_lt) rfl (by decide)

def bytePatterns : List (List UInt8) :=
  (List.range 65).map fun i => [UInt8.ofNat i]

/-- The pattern with the number 64 stands in the name and is not reported. -/
theorem not_reportsAll :
    bytePatterns.Nodup ∧ (∀ pattern ∈ bytePatterns, pattern ≠ []) ∧
      (allMatches UInt8.toNat bytePatterns [[64]]).length ≤ 1 ∧
      ∃ ac result, acBuild bytePatterns none 0 = some ac ∧
        scanBatch ac [[64]] 1 = some result ∧
          ¬ ReportsAll UInt8.toNat bytePatterns [[64]] result := by
  have hne : ∀ pattern ∈ bytePatterns, pattern ≠ [] := by decide
  have hmax : (allMatches UInt8.toNat bytePatterns [[64]]).length ≤ 1 := by decide
  obtain ⟨ac, result, hbuild, hresult, hwritten⟩ := @exists_written bytePatterns [[64]] 1 none 0
    UInt8.toNat rfl (by decide) hne (fun b => b.toNat_lt) hmax
  refine ⟨by decide, hne, hmax, ac, result, hbuild, hresult, fun h => ?_⟩
  have hall : ⟨0, 64⟩ ∈ allMatches UInt8.toNat bytePatterns [[64]] := by decide
  exact Nat.lt_irrefl 64 ((hwritten.mem_iff _).mp (h.1.mem_iff.mpr hall)).2.1

end Ac
end CodebaseMemory
