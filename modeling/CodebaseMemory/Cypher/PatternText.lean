import CodebaseMemory.Cypher.OrderBy
import CodebaseMemory.Cypher.Printing
import CodebaseMemory.Cypher.Spelling

/-!
# Written patterns are read back

A chain of nodes and relationships is printed as a list of tokens, which is written as
a text.  A relationship without anything in its brackets can do without them.
-/

namespace CodebaseMemory
namespace Cypher

open Lib
open Lib.Parser (isTok startsAs)
open Sqlite (CStr bytesOf)
open Computability
open TokenType

def printedVar : Option CStr → Lang
  | none => 1
  | some var => textTok tokIdent var

/-- Names with bars between them. -/
def printedNames (first : CStr) (more : List CStr) : Lang :=
  textTok tokIdent first * Yields.rounds tokPipe (textTok tokIdent) more

def printedAlternation (label : CStr) : Lang :=
  {w | ∃ first more, first ++ (more.map (124 :: ·)).flatten = label ∧
    label.length < labelRoom ∧ w ∈ printedNames first more}

def printedLabel : Option CStr → Lang
  | none => 1
  | some label => tok tokColon * printedAlternation label

def printedProp (f : PropFilter) : Lang :=
  textTok tokIdent f.key * (tok tokColon * textTok tokString f.value)

/-- Properties with commas between them. -/
def printedPropList : List PropFilter → Lang
  | [] => 1
  | [f] => printedProp f
  | f :: g :: fs => printedProp f * (tok tokComma * printedPropList (g :: fs))

def printedProps : List PropFilter → Lang
  | [] => 1
  | f :: fs => tok tokLbrace * (printedPropList (f :: fs) * tok tokRbrace)

def printedNode (n : NodePattern) : Lang :=
  tok tokLparen *
    (printedVar n.var * (printedLabel n.label * (printedProps n.props * tok tokRparen)))

def printedTypes : List CStr → Lang
  | [] => 1
  | t :: ts => tok tokColon * printedNames t ts

def printedHop (n : Nat) : Lang :=
  onlyIf (n < 2 ^ 31) (textTok tokNumber (decimalNat n))

/-- The upper end of a range of hops; without a number there is no bound. -/
def printedMaxHops (n : Nat) : Lang :=
  onlyIf (n = 0) 1 + printedHop n

def printedRange (minHops maxHops : Nat) : Lang :=
  onlyIf (minHops = 1 ∧ maxHops = 0) 1 +
    (onlyIf (minHops = 1) (printedHop maxHops) +
      (printedHop minHops * (tok tokDotdot * printedMaxHops maxHops) +
        onlyIf (minHops = 1) (tok tokDotdot * printedMaxHops maxHops)))

def printedHops (minHops maxHops : Nat) : Lang :=
  onlyIf (minHops = 1 ∧ maxHops = 1) 1 + tok tokStar * printedRange minHops maxHops

def printedBracket (r : RelPattern) : Lang :=
  onlyIf (r.var = none ∧ r.types = [] ∧ r.minHops = 1 ∧ r.maxHops = 1) 1 +
    tok tokLbracket *
      (printedVar r.var *
        (printedTypes r.types * (printedHops r.minHops r.maxHops * tok tokRbracket)))

def printedHead (there : Bool) (k : TokenType) : Lang :=
  if there then tok k else 1

def printedRel (r : RelPattern) : Lang :=
  printedHead (r.direction = .inbound) tokLt *
    (tok tokDash *
      (printedBracket r * (tok tokDash * printedHead (r.direction = .outbound) tokGt)))

def printedSteps : List (RelPattern × NodePattern) → Lang
  | [] => 1
  | (r, n) :: steps => (printedRel r * printedNode n) * printedSteps steps

def printedPattern (p : Pattern) : Lang :=
  printedNode p.start * printedSteps p.steps

section Nodes

variable {N : Nat} {ok : List (Token TokenType) → Prop}

theorem yields_var (var : Option CStr) :
    Yields N (Parser.ifMatch .tokIdent (fun t => pure (some t.text)) (pure none) : P (Option CStr))
      var (printedVar var) (Avoids [.tokIdent]) := by
  cases var with
  | none => exact .ifMatch_miss (.pure none) follows_self
  | some s =>
      refine .ifMatch_one (ofKind_text _ _) ?_
      rintro t rfl
      exact .pure _

theorem yields_labelAlts (alts : List CStr) (n ll : Nat)
    (hroom : ll + ((alts.map (124 :: ·)).flatten).length < labelRoom) :
    Yields n (parseLabelAlts n ll) alts (Yields.rounds tokPipe (textTok tokIdent) alts)
      (Avoids [.tokPipe]) := by
  induction alts generalizing n ll with
  | nil =>
      cases n with
      | zero => exact .zero
      | succ n => exact .ifMatch_miss (.pure []) follows_self
  | cons alt alts ih =>
      cases n with
      | zero => exact .zero
      | succ n =>
          rw [List.map_cons, List.flatten_cons, List.length_append, List.length_cons] at hroom
          rw [Yields.rounds_cons]
          refine .ifMatch (ofKind_tok _) fun _ _ => .expect (ofKind_text _ _) ?_
          rintro t rfl
          rw [if_neg (by omega)]
          exact ((ih n _ (by omega)).map).mono (by omega)

theorem yields_label (label : CStr) :
    Yields N parseLabel label (printedAlternation label) (Avoids [.tokPipe]) := by
  rintro p w r hN ⟨first, more, rfl, hroom, hw⟩ hrest hr
  rw [List.length_append] at hroom
  have h : Yields N parseLabel (first ++ (more.map (124 :: ·)).flatten)
      (printedNames first more) (Avoids [.tokPipe]) := by
    refine .expect (ofKind_text _ _) ?_
    rintro t rfl
    have halts : ∀ M, Yields M (Parser.withFuel fun fuel => parseLabelAlts fuel t.text.length) more
        (Yields.rounds tokPipe (textTok tokIdent) more) (Avoids [.tokPipe]) :=
      fun M => .withFuel fun n => (yields_labelAlts more n _ hroom).mono (Nat.min_le_left n M)
    have hvalue : (t.text ++ (more.map (124 :: ·)).flatten).take (labelRoom - 1) =
        t.text ++ (more.map (124 :: ·)).flatten :=
      List.take_of_length_le (by rw [List.length_append]; omega)
    have hmap := (halts (N - 1)).map (g := fun alts =>
      (t.text ++ (alts.map (124 :: ·)).flatten).take (labelRoom - 1))
    rw [hvalue] at hmap
    exact hmap
  exact h hN hw hrest hr

theorem yields_prop (f : PropFilter) {b : Bool} {L : Lang}
    (hcomma : ∀ M, Yields M (Parser.optional .tokComma : P Bool) b L ok) :
    Yields N parseProp f (textTok tokIdent f.key * (tok tokColon * (textTok tokString f.value * L)))
      ok := by
  obtain ⟨key, value⟩ := f
  refine .expect (ofKind_text _ _) ?_
  rintro k rfl
  refine .expect (ofKind_tok _) fun _ _ => .expect (ofKind_text _ _) ?_
  rintro v rfl
  exact (hcomma _).map

theorem yields_lastProp (f : PropFilter) :
    Yields N parseProp f (printedProp f) (Avoids [.tokComma]) := by
  have h := @yields_prop N _ f false 1 fun M => .ifMatch_miss (.pure false) follows_self
  rwa [mul_one] at h

theorem yields_propComma (f : PropFilter) :
    Yields N parseProp f (printedProp f * tok tokComma) ok := by
  have h := @yields_prop N ok f true (tok tokComma) fun M =>
    .ifMatch_one (ofKind_tok _) fun _ _ => .pure true
  rwa [← mul_assoc, ← mul_assoc, mul_assoc (textTok tokIdent f.key)] at h

/-- The brace that ends the properties is next. -/
def AtRbrace (r : List (Token TokenType)) : Prop :=
  notYet .tokRbrace r = false

theorem AtRbrace.avoids {r : List (Token TokenType)} (h : AtRbrace r) : Avoids [.tokComma] r := by
  intro t ht hcomma
  obtain ⟨r, rfl⟩ := List.head?_eq_some_iff.mp ht
  have htype : t.type = .tokComma := List.mem_singleton.mp hcomma
  simp [AtRbrace, notYet, startsAs, htype] at h

theorem propRound_starts (f : PropFilter) (L : Lang) :
    ∀ w ∈ printedProp f * L, ∀ r, w ≠ [] ∧ notYet .tokRbrace (w ++ r) = true := by
  intro w hw r
  obtain ⟨u, hu, v, -, rfl⟩ := Language.mem_mul.mp hw
  obtain ⟨x, ⟨t, ht, -, rfl⟩, y, -, rfl⟩ := Language.mem_mul.mp hu
  exact ⟨by simp, by simp [notYet, startsAs, ht]⟩

theorem yields_propList (fs : List PropFilter) (n : Nat) :
    Yields n (Parser.loop (notYet .tokRbrace) (pure ()) (fun _ => parseProp) n) fs
      (printedPropList fs) AtRbrace := by
  induction fs generalizing n with
  | nil => exact .loop_nil (fun _ hr => hr) n
  | cons f fs ih =>
      cases n with
      | zero => exact .zero
      | succ n =>
          cases fs with
          | nil =>
              have h := Yields.loop_cons (fun N => yields_lastProp f)
                (mul_one (printedProp f) ▸ propRound_starts f 1) (ih n)
                (follows_one fun _ => AtRbrace.avoids)
              rwa [printedPropList, mul_one] at h
          | cons g fs =>
              have h := Yields.loop_cons (fun N => yields_propComma f)
                (propRound_starts f _) (ih n) follows_true
              rwa [mul_assoc] at h

theorem yields_props (fs : List PropFilter) :
    Yields N (Parser.ifRest (check .tokLbrace) parseProps (pure []) : P (List PropFilter)) fs
      (printedProps fs) (Avoids [.tokLbrace]) := by
  cases fs with
  | nil =>
      refine .ifRest_neg (.pure []) fun w hw r hr => ?_
      rw [(Language.mem_one w).mp hw]
      exact Parses.startsAs_eq_false (fun _ => Parses.isTok_type) hr
  | cons f fs =>
      have hloop : ∀ M, Yields M (Parser.withFuel (Parser.loop (notYet .tokRbrace) (pure ())
          (fun _ => parseProp))) (f :: fs) (printedPropList (f :: fs)) AtRbrace :=
        fun M => .withFuel fun n => (yields_propList _ n).mono (Nat.min_le_left n M)
      refine .ifRest_pos (.ifMatch (ofKind_tok _) fun _ _ =>
        (hloop _).bind (.goOn_expect (ofKind_tok _) _) ?_) ?_
      · rintro v ⟨t, ht, rfl⟩ r _
        simp [AtRbrace, notYet, startsAs, ht]
      · exact fun w hw r _ => Yields.startsAs_ofKind (ofKind_tok _) hw r

theorem follows_props_mul (fs : List PropFilter) {ks : List TokenType} (hbrace : .tokLbrace ∉ ks)
    (hparen : .tokRparen ∉ ks) :
    Follows (printedProps fs * tok tokRparen) ok (Avoids ks) := by
  cases fs with
  | nil =>
      rw [printedProps, one_mul]
      exact follows_tok hparen
  | cons f fs =>
      rw [printedProps, mul_assoc]
      exact follows_tok_mul hbrace

theorem yields_node (n : NodePattern) : Yields N parseNode n (printedNode n) ok := by
  obtain ⟨var, label, props⟩ := n
  have hlabel : ∀ M, Yields M (Parser.ifMatch .tokColon (fun _ => do
      let label ← parseLabel
      pure (some label)) (pure none) : P (Option CStr)) label (printedLabel label)
      (Avoids [.tokColon, .tokPipe]) := by
    intro M
    cases label with
    | none => exact .ifMatch_miss (.pure none) (follows_one fun _ => Avoids.head)
    | some label =>
        refine .ifMatch (ofKind_tok _) fun _ _ => ?_
        exact (yields_label label).map.le le_rfl fun _ => Avoids.tail
  refine .expect (ofKind_tok _) fun _ _ => (yields_var var).bind ((hlabel _).bind
    ((yields_props props).bind (.expect_one (ofKind_tok _) fun _ _ => .pure _) (by simp)) ?_) ?_
  · exact follows_props_mul props (by simp) (by simp)
  · cases label with
    | none =>
        rw [printedLabel, one_mul]
        exact follows_props_mul props (by simp) (by simp)
    | some label =>
        rw [printedLabel, mul_assoc]
        exact follows_tok_mul (by simp)

end Nodes

section Relationships

variable {N : Nat} {ok : List (Token TokenType) → Prop}

theorem decimalNat_byte {n : Nat} {c : UInt8} (hc : c ∈ decimalNat n) : 48 ≤ c ∧ c ≤ 57 := by
  rw [UInt8.le_iff_toNat_le, UInt8.le_iff_toNat_le]
  exact byte_bounds hc

theorem foldl_digits (s : CStr) (v : Nat) (h : ∀ c ∈ s, 48 ≤ c ∧ c ≤ 57) :
    s.foldl (fun (v : Int) c => 10 * v + (c.toNat - 48)) v = (digitsValue v s : Int) := by
  induction s generalizing v with
  | nil => rfl
  | cons c s ih =>
      obtain ⟨hc, hs⟩ := List.forall_mem_cons.mp h
      have hlow : 48 ≤ c.toNat := UInt8.le_iff_toNat_le.mp hc.1
      have hval : 10 * (v : Int) + ((c.toNat : Int) - 48) =
          ((v * 10 + (c.toNat - 48) : Nat) : Int) := by
        rw [Nat.cast_add, Nat.cast_mul, Nat.cast_sub hlow, mul_comm]
        rfl
      rw [List.foldl_cons, hval, ih _ hs, digitsValue, if_pos hc]

theorem digitsInt_decimalNat (n : Nat) : digitsInt (decimalNat n) = n := by
  have h := foldl_digits (decimalNat n) 0 fun c hc => decimalNat_byte hc
  rw [digitsValue_decimalNat] at h
  exact h

theorem strtolInt_decimalNat {n : Nat} (h : n < 2 ^ 31) : strtolInt (decimalNat n) = n := by
  have hhead : (decimalNat n).head? ≠ some 45 := by
    intro hhead
    obtain ⟨s, hs⟩ := List.head?_eq_some_iff.mp hhead
    exact decimalNat_ne_cons_minus n s hs
  have hvalue : decimalValue (decimalNat n) = n := by
    rw [decimalValue, if_neg hhead, digitsInt_decimalNat]
  have hdigits : looksNumeric (decimalNat n) = true := by
    rw [looksNumeric, if_neg hhead, Bool.and_eq_true, List.all_eq_true]
    refine ⟨decide_eq_true (decimalNat_ne_nil n), fun c hc => ?_⟩
    have hbounds := decimalNat_byte hc
    rw [Bool.and_eq_true]
    exact ⟨decide_eq_true hbounds.1, decide_eq_true hbounds.2⟩
  have hdecimal : isDecimal64 (decimalNat n) = true := by
    rw [isDecimal64, hdigits, hvalue, Bool.true_and, decide_eq_true_iff]
    omega
  rw [strtolInt_of_isDecimal64 (Or.inr hdecimal), hvalue]
  omega

theorem onlyIf_mul (q : Prop) (L M : Lang) : onlyIf q L * M = onlyIf q (L * M) := by
  ext w
  constructor
  · intro hw
    obtain ⟨u, ⟨hq, hu⟩, v, hv, rfl⟩ := Language.mem_mul.mp hw
    exact ⟨hq, Language.mem_mul.mpr ⟨u, hu, v, hv, rfl⟩⟩
  · rintro ⟨hq, hw⟩
    obtain ⟨u, hu, v, hv, rfl⟩ := Language.mem_mul.mp hw
    exact Language.mem_mul.mpr ⟨u, ⟨hq, hu⟩, v, hv, rfl⟩

theorem follows_onlyIf {q : Prop} {L : Lang} {ok' : List (Token TokenType) → Prop}
    (h : Follows L ok' ok) : Follows (onlyIf q L) ok' ok :=
  fun v hv => h v hv.2

theorem yields_maxHops (n : Nat) :
    Yields N parseMaxHops n (printedMaxHops n) (Avoids [.tokNumber]) := by
  refine .add (yields_onlyIf ?_) (yields_onlyIf fun hn => ?_)
  · rintro rfl
    exact .ifMatch_miss (.pure 0) follows_self
  · refine .ifMatch_one (ofKind_text _ _) fun t ht => ?_
    rw [ht, strtolInt_decimalNat hn, Int.toNat_natCast]
    exact .pure n

theorem yields_hopRange (a b : Nat) :
    Yields N parseHopRange (a, b) (printedRange a b) (Avoids [.tokNumber, .tokDotdot]) := by
  have hhead : ∀ r : List (Token TokenType), Avoids [.tokNumber, .tokDotdot] r →
      Avoids [.tokNumber] r := fun _ => Avoids.head
  refine .add ?_ (.add ?_ (.add ?_ ?_))
  · refine yields_onlyIf ?_
    rintro ⟨rfl, rfl⟩
    exact .ifMatch_miss (.ifMatch_miss (.pure (1, 0)) (follows_one fun _ => Avoids.tail))
      (follows_one hhead)
  · refine yields_onlyIf ?_
    rintro rfl
    refine yields_onlyIf fun hb => .ifMatch_one (ofKind_text _ _) fun t ht => ?_
    rw [ht, strtolInt_decimalNat hb, Int.toNat_natCast]
    exact .ifMatch_miss (.pure (1, b)) (follows_one fun _ => Avoids.tail)
  · rw [printedHop, onlyIf_mul]
    refine yields_onlyIf fun ha => .ifMatch (ofKind_text _ _) fun t ht => ?_
    rw [ht, strtolInt_decimalNat ha, Int.toNat_natCast]
    exact .ifMatch (ofKind_tok _) fun _ _ => (yields_maxHops b).map.le le_rfl hhead
  · refine yields_onlyIf ?_
    rintro rfl
    exact .ifMatch_miss (.ifMatch (ofKind_tok _) fun _ _ => (yields_maxHops b).map.le le_rfl hhead)
      (follows_tok_mul (by simp))

theorem yields_hops (a b : Nat) :
    Yields N (Parser.ifMatch .tokStar (fun _ => parseHopRange) (pure (1, 1)) : P (Nat × Nat)) (a, b)
      (printedHops a b) (Avoids [.tokStar, .tokNumber, .tokDotdot]) := by
  refine .add (yields_onlyIf ?_) (.ifMatch (ofKind_tok _) fun _ _ => ?_)
  · rintro ⟨rfl, rfl⟩
    exact .ifMatch_miss (.pure (1, 1)) (follows_one fun _ => Avoids.head)
  · exact (yields_hopRange a b).le le_rfl fun _ => Avoids.tail

theorem follows_hops_mul (a b : Nat) {ks : List TokenType} (hstar : .tokStar ∉ ks)
    (hbracket : .tokRbracket ∉ ks) :
    Follows (printedHops a b * tok tokRbracket) ok (Avoids ks) := by
  rw [printedHops, add_mul, onlyIf_mul, one_mul, mul_assoc, follows_add]
  exact ⟨follows_onlyIf (follows_tok hbracket), follows_tok_mul hstar⟩

theorem yields_types (types : List CStr) :
    Yields N (Parser.ifMatch .tokColon (fun _ => parseRelTypes) (pure []) : P (List CStr)) types
      (printedTypes types) (Avoids [.tokColon, .tokPipe]) := by
  cases types with
  | nil => exact .ifMatch_miss (.pure []) (follows_one fun _ => Avoids.head)
  | cons t ts =>
      refine .ifMatch (ofKind_tok _) fun _ _ => .expect (ofKind_text _ _) ?_
      rintro t rfl
      have hname : ∀ M name, Yields M (do
          let t ← expectTok .tokIdent
          pure t.text : P CStr) name (textTok tokIdent name) (Avoids []) := by
        refine fun M name => .expect_one (ofKind_text _ _) ?_
        rintro t rfl
        exact .pure _
      have hmore := Yields.whileMatch (k := .tokPipe) (hname (N - 1 - 1)) List.not_mem_nil ts
      exact hmore.map.le le_rfl fun _ => Avoids.tail

theorem follows_types_mul (types : List CStr) {L : Lang} {ks : List TokenType}
    (hcolon : .tokColon ∉ ks) (hL : Follows L ok (Avoids ks)) :
    Follows (printedTypes types * L) ok (Avoids ks) := by
  cases types with
  | nil => rwa [printedTypes, one_mul]
  | cons t ts =>
      rw [printedTypes, mul_assoc]
      exact follows_tok_mul hcolon

theorem yields_bracket (r : RelPattern) :
    Yields N (Parser.ifMatch .tokLbracket (fun _ => parseRelBracket)
      (pure { var := none, types := [], hops := (1, 1) }) : P RelBracket)
      { var := r.var, types := r.types, hops := (r.minHops, r.maxHops) } (printedBracket r)
      (Avoids [.tokLbracket]) := by
  obtain ⟨var, types, direction, minHops, maxHops⟩ := r
  refine .add (yields_onlyIf ?_) (.ifMatch (ofKind_tok _) fun _ _ => ?_)
  · rintro ⟨hvar, htypes, hmin, hmax⟩
    dsimp only at hvar htypes hmin hmax ⊢
    rw [hvar, htypes, hmin, hmax]
    exact .ifMatch_miss (.pure _) follows_self
  · refine (yields_var var).bind ((yields_types types).bind ((yields_hops minHops maxHops).bind
      (.expect_one (ofKind_tok _) fun _ _ => .pure _) (by simp)) ?_) ?_
    · exact follows_hops_mul minHops maxHops (by simp) (by simp)
    · exact follows_types_mul types (by simp)
        (follows_hops_mul minHops maxHops (by simp) (by simp))

theorem yields_head (there : Bool) (k : TokenType) :
    Yields N (Parser.optional k : P Bool) there (printedHead there k) (Avoids [k]) := by
  cases there with
  | true => exact .ifMatch_one (ofKind_tok _) fun _ _ => .pure true
  | false => exact .ifMatch_miss (.pure false) follows_self

theorem yields_rel (r : RelPattern) : Yields N parseRel r (printedRel r) (Avoids [.tokGt]) := by
  have hvalue : relDirection (r.direction = .inbound) (r.direction = .outbound) = r.direction := by
    cases r.direction <;> rfl
  have h : Yields N parseRel
      { var := r.var, types := r.types
        direction := relDirection (r.direction = .inbound) (r.direction = .outbound)
        minHops := r.minHops, maxHops := r.maxHops }
      (printedRel r) (Avoids [.tokGt]) := by
    refine (yields_head _ _).bind (.expect (ofKind_tok _) fun _ _ => (yields_bracket r).bind
      (.expect (ofKind_tok _) fun _ _ => (yields_head _ _).map) ?_) ?_
    · exact follows_tok_mul (by simp)
    · exact follows_tok_mul (by simp)
  rwa [hvalue] at h

theorem yields_step (r : RelPattern) (n : NodePattern) :
    Yields N parseStep (r, n) (printedRel r * printedNode n) ok :=
  (yields_rel r).bind (yields_node n).map (follows_tok_mul (by simp))

theorem step_starts (r : RelPattern) (n : NodePattern) :
    ∀ w ∈ printedRel r * printedNode n, ∀ rest, w ≠ [] ∧
      startsAs (fun t : Token TokenType => t.type = .tokDash ∨ t.type = .tokLt) (w ++ rest) =
        true := by
  intro w hw rest
  obtain ⟨u, hu, v, -, rfl⟩ := Language.mem_mul.mp hw
  obtain ⟨x, hx, y, hy, rfl⟩ := Language.mem_mul.mp hu
  obtain ⟨z, ⟨t, ht, rfl⟩, z', -, rfl⟩ := Language.mem_mul.mp hy
  unfold printedHead at hx
  split at hx
  · obtain ⟨t', ht', rfl⟩ := hx
    exact ⟨by simp, by simp [startsAs, ht']⟩
  · rw [(Language.mem_one x).mp hx]
    exact ⟨by simp, by simp [startsAs, ht]⟩

theorem yields_steps (steps : List (RelPattern × NodePattern)) (n : Nat) :
    Yields n (Parser.loop (startsAs fun t : Token TokenType => t.type = .tokDash ∨ t.type = .tokLt)
      (pure ()) (fun _ => parseStep) n) steps (printedSteps steps)
      (Avoids [.tokDash, .tokLt]) := by
  induction steps generalizing n with
  | nil =>
      refine .loop_nil (fun r hr => ?_) n
      refine Parses.startsAs_eq_false (fun t ht => ?_) hr
      simpa using ht
  | cons step steps ih =>
      cases n with
      | zero => exact .zero
      | succ n =>
          exact Yields.loop_cons (fun N => yields_step step.1 step.2) (step_starts step.1 step.2)
            (ih n) follows_true

theorem yields_pattern (p : Pattern) :
    Yields N parseMatchPattern p (printedPattern p) (Avoids [.tokDash, .tokLt]) := by
  have hsteps : ∀ M, Yields M (Parser.withFuel (Parser.loop
      (startsAs fun t : Token TokenType => t.type = .tokDash ∨ t.type = .tokLt) (pure ())
      (fun _ => parseStep))) p.steps (printedSteps p.steps) (Avoids [.tokDash, .tokLt]) :=
    fun M => .withFuel fun n => (yields_steps _ n).mono (Nat.min_le_left n M)
  exact (yields_node p.start).bind (hsteps N).map follows_true

end Relationships

/-- What the lexer and the parser of patterns make of a text: the pattern, and the tokens that
are left. -/
def parsePatternText (text : CStr) : Option Pattern × List (Token TokenType) :=
  let result := parseMatchPattern.run (startCursor (cbmLex text))
  (result.1, result.2.rest)

/-- A written pattern is read back, and a literal is one token with its text. -/
theorem lex_pattern (p : Pattern) {toks : List (Token TokenType)} (htoks : toks ∈ printedPattern p)
    {text : CStr} (htext : Writes 0 toks text) {quote : UInt8} (hquote : quote = 34 ∨ quote = 39)
    (s : CStr) :
    parsePatternText text = (some p, [{ type := tokEof, text := [], pos := text.length }]) ∧
    cbmLex (literal quote s) =
      [{ type := tokString, text := s.take literalRoom, pos := 0 },
        { type := tokEof, text := [], pos := (literal quote s).length }] := by
  refine ⟨?_, cbmLex_literal hquote s⟩
  have hrest : (startCursor (cbmLex text)).rest =
      toks ++ [{ type := tokEof, text := [], pos := text.length }] := cbmLex_writes htext
  obtain ⟨q, hrun, hq, -, -⟩ := yields_pattern p (Nat.lt_succ_self _) htoks hrest
    (avoids_cons.mpr (by simp))
  rw [parsePatternText, hrun]
  exact congrArg (Prod.mk _) hq

/-- A relationship without brackets, with a blank between its dashes. -/
theorem lex_pattern_any :
    parsePatternText [40, 97, 41, 45, 32, 45, 40, 98, 41] =
      (some
        { start := { var := some [97], label := none, props := [] }
          steps :=
            [({ var := none, types := [], direction := .any, minHops := 1, maxHops := 1 },
              { var := some [98], label := none, props := [] })] },
        [{ type := tokEof, text := [], pos := 9 }]) := by
  have hident : ∀ c : UInt8, isAlpha c = true → keywordLookup [c] = tokIdent → IsIdent [c] :=
    fun c hc hkeyword => ⟨⟨c, [], rfl, by rw [hc]; rfl⟩,
      fun d hd => by rw [List.mem_singleton.mp hd, isWordByte, hc]; rfl, hkeyword⟩
  have hpunct : ∀ c ∈ punctuation, Spelling (lexSingleChar c) [c] [c] := fun _ => .punct
  have htext : Writes 0
      [⟨tokLparen, [40], 0⟩, ⟨tokIdent, [97], 1⟩, ⟨tokRparen, [41], 2⟩, ⟨tokDash, [45], 3⟩,
        ⟨tokDash, [45], 5⟩, ⟨tokLparen, [40], 6⟩, ⟨tokIdent, [98], 7⟩, ⟨tokRparen, [41], 8⟩]
      [40, 97, 41, 45, 32, 45, 40, 98, 41] := by
    refine @Writes.next ⟨tokLparen, [40], 0⟩ _ [40] _ (hpunct 40 (by decide)) ?_ ?_
    refine @Writes.next ⟨tokIdent, [97], 1⟩ _ [97] _ (.ident (hident 97 rfl (by decide))) ?_ ?_
    refine @Writes.next ⟨tokRparen, [41], 2⟩ _ [41] _ (hpunct 41 (by decide)) ?_ ?_
    -- the blank between the dashes
    refine @Writes.cons 3 [] [45] _ ⟨tokDash, [45], 3⟩ _ (by simp) rfl (hpunct 45 (by decide)) ?_
      fun _ _ _ => ⟨32, rfl, rfl⟩
    refine @Writes.cons 4 [32] [45] _ ⟨tokDash, [45], 5⟩ _ (by simp [isSpace]) rfl
      (hpunct 45 (by decide)) ?_ ?_
    refine @Writes.next ⟨tokLparen, [40], 6⟩ _ [40] _ (hpunct 40 (by decide)) ?_ ?_
    refine @Writes.next ⟨tokIdent, [98], 7⟩ _ [98] _ (.ident (hident 98 rfl (by decide))) ?_ ?_
    refine @Writes.next ⟨tokRparen, [41], 8⟩ _ [41] _ (hpunct 41 (by decide))
      (@Writes.nil 9 [] (by simp)) ?_
    all_goals simp [NeedsGap, IsWord]
  have hmem : ∀ t : Token TokenType, [t] ∈ tok t.type := fun t => ⟨t, rfl, rfl⟩
  have hname : ∀ t : Token TokenType, [t] ∈ textTok t.type t.text := fun t => ⟨t, rfl, rfl, rfl⟩
  have hnode : ∀ (c : UInt8) (i j k : Nat),
      [⟨tokLparen, [40], i⟩, ⟨tokIdent, [c], j⟩, ⟨tokRparen, [41], k⟩] ∈
        printedNode { var := some [c], label := none, props := [] } := fun c i j k =>
    Language.append_mem_mul (hmem ⟨tokLparen, [40], i⟩) (Language.append_mem_mul
      (hname ⟨tokIdent, [c], j⟩) (Language.append_mem_mul Language.nil_mem_one
        (Language.append_mem_mul Language.nil_mem_one (hmem ⟨tokRparen, [41], k⟩))))
  have hbracket : [] ∈ printedBracket
      { var := none, types := [], direction := .any, minHops := 1, maxHops := 1 } :=
    Or.inl ⟨⟨rfl, rfl, rfl, rfl⟩, Language.nil_mem_one⟩
  have hrel : [⟨tokDash, [45], 3⟩, ⟨tokDash, [45], 5⟩] ∈ printedRel
      { var := none, types := [], direction := .any, minHops := 1, maxHops := 1 } :=
    Language.append_mem_mul Language.nil_mem_one (Language.append_mem_mul
      (hmem ⟨tokDash, [45], 3⟩) (Language.append_mem_mul hbracket (Language.append_mem_mul
        (hmem ⟨tokDash, [45], 5⟩) Language.nil_mem_one)))
  have hpattern := Language.append_mem_mul (hnode 97 0 1 2) (Language.append_mem_mul
    (Language.append_mem_mul hrel (hnode 98 6 7 8)) Language.nil_mem_one)
  exact (lex_pattern
    { start := { var := some [97], label := none, props := [] }
      steps :=
        [({ var := none, types := [], direction := .any, minHops := 1, maxHops := 1 },
          { var := some [98], label := none, props := [] })] }
    hpattern htext (Or.inl rfl) []).1

/-- Two dashes begin a comment, so that a relationship without brackets is lost, and a literal
loses what its buffer has no room for. -/
theorem not_lex_pattern :
    (parsePatternText (bytesOf "(a)-->(b)")).1.map (fun p => p.steps.length) = some 0 ∧
    (parsePatternText (bytesOf "(a)<--(b)")).1.isNone = true ∧
    (cbmLex (literal 34 (List.replicate 4096 97))).head?.map (fun t => t.text.length) =
      some 4095 := by
  refine ⟨by decide, by decide, ?_⟩
  rw [cbmLex_literal (Or.inl rfl), List.head?_cons, Option.map_some, List.length_take,
    List.length_replicate]
  rfl

end Cypher
end CodebaseMemory
