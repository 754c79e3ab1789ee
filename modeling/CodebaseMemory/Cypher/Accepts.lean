import CodebaseMemory.Cypher.Items

/-!
# Which texts the parser accepts

A query that the parser accepts without a slip, and up to the EOF token, is a word
of the grammar, and the other way round.  The parser itself asks for neither: it
stops after the last clause it knows, and goes on after many a missing token.
-/

namespace CodebaseMemory
namespace Cypher

open Lib
open Lib.Parser (startsAs isTok)
open Computability
open TokenType

variable {N : Nat} {ok : List (Token TokenType) → Prop}

theorem parses_unwindValue :
    Parses N parseUnwindValue (literalL * opt (tok tokComma)) (Avoids [tokComma]) := by
  have hvalue : Parses N (Parser.ifMatch tokString (fun t => pure (34 :: t.text ++ [34])) <|
      Parser.ifMatch tokNumber (fun t => pure t.text) (do
        let _ ← Parser.slip
        let _ ← Parser.advance fun _ => true
        pure []) : P Sqlite.CStr) (tok tokString * 1 + (tok tokNumber * 1 + 0)) (fun _ => True) := by
    refine .ifMatch (fun _ => .pure _) (.ifMatch (fun _ => .pure _) .slip ?_) ?_
    · simp
    · simp
  rw [mul_one, mul_one, add_zero] at hvalue
  exact hvalue.bind (fun _ => Parses.optional.map) follows_true

theorem parses_unwindExpr : Parses N parseUnwindExpr
    (brackets ((literalL * opt (tok tokComma))∗) + tok tokIdent) ok := by
  have hS : Begins (1 * (literalL * opt (tok tokComma))) [tokString, tokNumber] := by
    rw [one_mul]
    exact .mul (.add (.tok (by decide)) (.tok (by decide)))
  have hlist : Parses (N - 1) (Parser.withFuel (Parser.loop (notYet tokRbracket) (pure ())
      (fun _ => parseUnwindValue))) ((1 * (literalL * opt (tok tokComma)))∗)
      (AtClose tokRbracket) :=
    parses_until (.pure ()) (fun _ => parses_unwindValue) follows_true hS (by decide) (by decide)
      (by decide) (by decide)
  rw [one_mul] at hlist
  have h : Parses N parseUnwindExpr (tok tokLbracket * ((literalL * opt (tok tokComma))∗ *
      tok tokRbracket) + (tok tokIdent * 1 + 0)) ok := by
    refine .ifMatch (fun _ => hlist.bind (fun _ => Parses.expect.goOn.map) follows_close_tok)
      (.ifMatch (fun _ => .pure _) .slip ?_) ?_
    · simp
    · simp
  simpa only [brackets, mul_one, add_zero, mul_assoc] using h

theorem parses_unwindClause : Parses N parseUnwindClause unwindL ok := by
  have hexpr : Parses (N - 1) parseUnwindExpr
      (brackets ((literalL * opt (tok tokComma))∗) + tok tokIdent) (fun _ => True) :=
    parses_unwindExpr
  have h : Parses N parseUnwindClause (single (isTok tokUnwind) *
      ((brackets ((literalL * opt (tok tokComma))∗) + tok tokIdent) *
        (tok tokAs * tok tokIdent))) ok :=
    .advance_bind fun _ => hexpr.bind
      (fun _ => .goOn_expect_bind fun _ => Parses.expect.goOn.map) follows_true
  simpa only [unwindL, single_isTok, mul_assoc] using h

theorem parses_matchKw : Parses N parseMatchKw (opt (tok tokOptional) * tok tokMatch) ok :=
  .optional_bind (fun _ => Parses.expect.map) (by simp)

/-- What may not follow a chain of patterns. -/
def chainEnd : List TokenType := [tokMatch, tokOptional, tokDash, tokLt]

theorem parses_matchChain : Parses N parseMatchChain (matchL∗) (Avoids chainEnd) := by
  have hS : Begins (opt (tok tokOptional) * tok tokMatch * patternL) [tokOptional, tokMatch] :=
    .mul (.opt_mul (.tok (by decide)) (.tok (by decide)))
  have hback : ∀ opt : Bool, Parses N (do
      let pat ← parseMatchPattern
      pure (pat, opt)) patternL (Avoids [tokDash, tokLt]) := fun _ => parses_matchPattern.map
  refine .loop_begins parses_matchKw hback follows_true hS (by decide) rfl ?_ ?_
  · intro t _ ht
    simpa [startsAs, or_comm] using ht
  · intro r hr
    refine ⟨Parses.startsAs_eq_false (S := [tokMatch, tokOptional]) ?_ (hr.mono (by decide)),
      hr.mono (by decide)⟩
    exact fun t ht => by simpa using ht

/-- What may not follow the part of a query before WITH and RETURN. -/
def matchPartEnd : List TokenType := chainEnd ++ [tokWhere, tokOr, tokXor, tokAnd]

/-- The rest of a query after its first pattern. -/
noncomputable def matchTailL : Lang := matchL∗ * opt (whereL * matchL∗)

theorem loose_le_matchTailL : matchL∗ * (opt whereL * matchL∗) ≤ matchTailL := by
  have hstar : matchL∗ * matchL∗ ≤ matchTailL := by
    rw [kstar_mul_kstar, matchTailL, opt, mul_add, mul_one]
    exact le_add_self
  rw [opt, add_mul, one_mul, mul_add]
  refine add_le_of_le ?_ hstar
  rw [matchTailL, opt, mul_add]
  exact le_self_add

theorem follows_chain_where :
    Follows (whereL * matchL∗) (Avoids matchPartEnd) (Avoids chainEnd) := by
  rw [whereL, mul_assoc]
  exact follows_tok_mul (by decide)

theorem follows_where_chain :
    Follows (matchL∗) (Avoids matchPartEnd) (Avoids [tokWhere, tokOr, tokXor, tokAnd]) := by
  simp [matchL, matchPartEnd, chainEnd, mul_assoc]

theorem parses_matchTail {α : Type}
    (build : List (Pattern × Bool) → Option WhereClause → List (Pattern × Bool) → α) :
    Parses N (do
      let more ← parseMatchChain
      let whereClause ← parseWhere
      let again ← parseMatchChain
      pure (build more whereClause again)) matchTailL (Avoids matchPartEnd) where
  sound := by
    have hchain : Parses 0 parseMatchChain (matchL∗) (fun _ => True) :=
      (parses_matchChain (N := 0)).zero le_rfl
    have hwhere : Parses 0 parseWhere (opt whereL) (fun _ => True) :=
      (parses_where (N := 0)).zero le_rfl
    have hloose := hchain.bind (fun more => hwhere.bind
      (fun whereClause => hchain.map (g := build more whereClause)) follows_true) follows_true
    have htail : Parses 0 _ matchTailL (fun _ => True) := hloose.zero loose_le_matchTailL
    intro p q a hrun hslip
    exact htail.sound hrun hslip
  complete := by
    intro p w r hN hw hrest hr
    obtain ⟨u, hu, v, hv, rfl⟩ := Language.mem_mul.mp hw
    -- both chains and the condition, where the first chain ends before the condition
    obtain ⟨x, hx, y, hy, rfl, hnext⟩ : ∃ x ∈ opt whereL, ∃ y ∈ matchL∗, v = x ++ y ∧
        Avoids chainEnd (x ++ y ++ r) := by
      rcases hv with hv | rfl
      · obtain ⟨x, hx, y, hy, rfl⟩ := Language.mem_mul.mp hv
        exact ⟨x, Or.inl hx, y, hy, rfl, follows_chain_where _ hv r hr⟩
      · exact ⟨[], Or.inr rfl, [], Language.nil_mem_kstar _, rfl, hr.mono (by decide)⟩
    rw [List.append_assoc] at hrest
    have hlen := hN
    rw [hrest] at hlen
    simp only [List.length_append] at hlen
    refine (parses_matchChain.complete hN hu hrest hnext).bind fun _ q hq _ => ?_
    rw [List.append_assoc] at hq
    refine (parses_where.complete (N := N) ?_ hx hq (follows_where_chain y hy r hr)).bind
      fun _ q' hq' _ => ?_
    · rw [hq]
      simp only [List.length_append]
      omega
    · refine (parses_matchChain (N := N)).map.complete ?_ hy hq' (hr.mono (by decide))
      rw [hq', List.length_append]
      omega

/-- The keywords of clauses that are not supported. -/
def unsupportedTypes : List TokenType :=
  [tokCreate, tokDelete, tokDetach, tokSet, tokRemove, tokMerge, tokYield, tokCall, tokForeach,
    tokMandatory, tokDrop, tokConstraint]

theorem isUnsupported_type (t : Token TokenType) (h : isUnsupported t.type = true) :
    t.type ∈ unsupportedTypes := by
  revert h
  cases t.type <;> decide

theorem begins_matchPartL : Begins matchPartL [tokUnwind, tokOptional, tokMatch] := by
  have hmatch : Begins (matchL * (matchL∗ * opt (whereL * matchL∗)))
      [tokUnwind, tokOptional, tokMatch] :=
    .mul (.mul (.opt_mul (.tok (by decide)) (.tok (by decide))))
  have hunwind : Begins unwindL [tokUnwind, tokOptional, tokMatch] :=
    .mul (.mul (.mul (.tok (by decide))))
  have h := hunwind.opt_mul hmatch
  simpa only [matchPartL, mul_assoc] using h

theorem parses_matchPart : Parses N parseMatchPart matchPartL (Avoids matchPartEnd) := by
  have hunwind : Parses N (Parser.ifRest (check tokUnwind)
      (do
        let u ← parseUnwindClause
        pure (some u))
      (pure none)) (opt unwindL) (Avoids [tokUnwind]) := by
    have hclause : Parses N (do
        let u ← parseUnwindClause
        pure (some u)) unwindL (Avoids [tokUnwind]) := parses_unwindClause.map
    simp only [unwindL, mul_assoc] at hclause ⊢
    exact hclause.ifTok (.pure _) follows_self
  have h : Parses N parseMatchPart (opt unwindL * (opt (tok tokOptional) * (tok tokMatch *
      (patternL * matchTailL)))) (Avoids matchPartEnd) := by
    have hbegins := begins_matchPartL
    simp only [matchPartL, matchL, mul_assoc] at hbegins
    refine .reject (hunwind.bind (fun _ => .optional_bind (fun _ => .expect_bind fun _ =>
      parses_matchPattern.bind (fun _ => parses_matchTail _) ?_) ?_) ?_) isUnsupported_type ?_
    · simp [matchTailL, matchL, whereL, matchPartEnd, chainEnd, mul_assoc]
    · simp
    · simp
    · simp only [matchTailL, matchL, mul_assoc]
      exact hbegins.follows (by decide)
  simpa only [matchPartL, matchTailL, matchL, mul_assoc] using h

/-- What may not follow a query: what the parser would take for more of it, and the
keywords that make it fail. -/
def queryEnd : List TokenType :=
  tokReturn :: tokWith :: (clauseEnd ++ matchPartEnd ++ unsupportedTypes)

theorem parses_returnOrWith (isWith : Bool) : Parses N (parseReturnOrWith isWith)
    (opt (tok (if isWith then tokWith else tokReturn) * clauseL isWith))
    (Avoids ((if isWith then tokWith else tokReturn) :: clauseEnd)) :=
  .ifMatch_pure fun _ => (parses_clause isWith).map

/-- The clause WITH and its condition, where WITH is next. -/
def parseWithClause : P (Option ReturnClause × Option WhereClause) :=
  Parser.ifMatch tokWith
    (fun _ => do
      let r ← parseClause true
      let w ← parseWhere
      pure (some r, w))
    (pure (none, none))

theorem ifRest_parseWith :
    Parser.ifRest (check tokWith) parseWith (pure (none, none)) = parseWithClause := by
  refine Parser.ifRest_congr (fun p hp => ?_) (fun _ _ => rfl)
  have hclause : (parseReturnOrWith true).run p = (do
      let _ ← Parser.advance (isTok tokWith)
      let r ← parseClause true
      pure (some r) : P (Option ReturnClause)).run p := Parser.run_ifRest_pos hp
  unfold parseWith
  rw [Parser.run_bind_congr _ hclause, Parser.bind_bind]
  simp only [Parser.bind_bind]
  rfl

theorem parses_withClause : Parses N parseWithClause (opt withL)
    (Avoids (tokWith :: tokWhere :: tokOr :: tokXor :: tokAnd :: clauseEnd)) := by
  have hwhere : Parses (N - 1) parseWhere (opt whereL)
      (Avoids (tokWhere :: tokOr :: tokXor :: tokAnd :: clauseEnd)) :=
    parses_where.congr rfl fun _ => Avoids.mono (by decide)
  have hbody : Parses (N - 1) (do
      let r ← parseClause true
      let w ← parseWhere
      pure (some r, w)) (clauseL true * opt whereL)
      (Avoids (tokWhere :: tokOr :: tokXor :: tokAnd :: clauseEnd)) :=
    (parses_clause true).bind (fun _ => hwhere.map) (by simp [whereL, clauseEnd])
  rw [withL, mul_assoc]
  exact .ifMatch_pure fun _ => hbody

/-- `parse_post_where` when WITH does not belong to STARTS. -/
def parseClauses : P ((Option ReturnClause × Option WhereClause) × Option ReturnClause) :=
  rejectUnsupported do
    let withPart ← parseWithClause
    let ret ← parseReturnOrWith false
    pure (withPart, ret)

def parseReturnOnly : P ((Option ReturnClause × Option WhereClause) × Option ReturnClause) :=
  rejectUnsupported do
    let ret ← parseReturnOrWith false
    pure ((none, none), ret)

variable {r ts w : List (Token TokenType)}
variable {p : Cursor TokenType ParseError}

theorem run_rejectUnsupported {α : Type} {f g : P α} (h : f.run p = g.run p) :
    (rejectUnsupported f).run p = (rejectUnsupported g).run p := by
  change (if _ then _ else f.run p) = if _ then _ else g.run p
  rw [h]

theorem run_parsePostWhere (hp : standalone p.before = true) :
    parsePostWhere.run p = parseClauses.run p := by
  refine run_rejectUnsupported (Parser.run_bind_congr _ ?_)
  rw [← ifRest_parseWith]
  cases hc : check tokWith p.rest with
  | true =>
      rw [Parser.run_ifRest_pos hc, Parser.run_ifRest_pos hc]
      exact if_pos hp
  | false => rw [Parser.run_ifRest_neg hc, Parser.run_ifRest_neg hc]

theorem run_parsePostWhere_starts (hp : standalone p.before = false) :
    parsePostWhere.run p = parseClauses.run p ∨ parsePostWhere.run p = parseReturnOnly.run p := by
  cases hc : check tokWith p.rest with
  | true =>
      refine Or.inr (run_rejectUnsupported ?_)
      have hnone : (Parser.ifRest (check tokWith)
          (Parser.ifBefore standalone parseWith (pure (none, none))) (pure (none, none))).run p =
            (pure (none, none) : P (Option ReturnClause × Option WhereClause)).run p := by
        rw [Parser.run_ifRest_pos hc]
        exact if_neg (Bool.eq_false_iff.mp hp)
      exact Parser.run_bind_congr _ hnone
  | false =>
      refine Or.inl (run_rejectUnsupported (Parser.run_bind_congr _ ?_))
      rw [← ifRest_parseWith, Parser.run_ifRest_neg hc, Parser.run_ifRest_neg hc]

theorem parses_return :
    Parses N (parseReturnOrWith false) (opt returnL) (Avoids queryEnd) :=
  (parses_returnOrWith false).congr rfl fun _ => Avoids.mono (by decide)

theorem parses_clauses : Parses N parseClauses clausesL (Avoids queryEnd) := by
  refine .reject (parses_withClause.bind (fun _ => parses_return.map) ?_) isUnsupported_type ?_
  · simp [returnL, queryEnd, clauseEnd, matchPartEnd, chainEnd]
  · have hend : Avoids queryEnd ≤ Avoids unsupportedTypes := fun _ => Avoids.mono (by decide)
    rw [clausesL, withL, returnL, mul_assoc]
    simp only [follows_opt_mul, follows_opt, mul_assoc]
    exact ⟨follows_tok_mul (by decide), follows_tok_mul (by decide), follows_one hend⟩

theorem parses_returnOnly : Parses N parseReturnOnly (opt returnL) (Avoids queryEnd) := by
  refine .reject parses_return.map isUnsupported_type ?_
  rw [returnL, follows_opt]
  exact ⟨follows_tok_mul (by decide), follows_one fun _ => Avoids.mono (by decide)⟩

theorem parsePostWhere_sound {q : Cursor TokenType ParseError}
    {a : (Option ReturnClause × Option WhereClause) × Option ReturnClause}
    (hrun : parsePostWhere.run p = (some a, q)) (hslip : q.slipped = false) :
    ∃ w ∈ clausesL, p.rest = w ++ q.rest := by
  have hclauses : parseClauses.run p = (some a, q) → ∃ w ∈ clausesL, p.rest = w ++ q.rest :=
    fun h => (parses_clauses (N := 0)).sound h hslip
  cases hp : standalone p.before with
  | true => exact hclauses (run_parsePostWhere hp ▸ hrun)
  | false =>
      rcases run_parsePostWhere_starts hp with h | h
      · exact hclauses (h ▸ hrun)
      · obtain ⟨w, hw, hrest⟩ := (parses_returnOnly (N := 0)).sound (h ▸ hrun) hslip
        exact ⟨w, Language.append_mem_mul (a := []) (Or.inr rfl) hw, hrest⟩

/-- A query up to UNION. -/
noncomputable def partL : Lang := matchPartL * clausesL

theorem parseQuery_sound {q : Cursor TokenType ParseError} {a : ParsedQuery}
    (hrun : parseQuery.run p = (some a, q)) (hslip : q.slipped = false) :
    ∃ w ∈ partL, p.rest = w ++ q.rest := by
  have hmatch : Parses 0 parseMatchPart matchPartL (fun _ => True) :=
    (parses_matchPart (N := 0)).zero le_rfl
  have hpost : Parses 0 parsePostWhere clausesL (fun _ => True) :=
    ⟨parsePostWhere_sound, fun hlt => absurd hlt (Nat.not_lt_zero _)⟩
  have hquery : Parses 0 parseQuery (matchPartL * (clausesL * 1)) (fun _ => True) :=
    hmatch.bind (fun ⟨_, _⟩ => hpost.bind (fun ⟨⟨_, _⟩, _⟩ => .pure _) follows_true) follows_true
  rw [mul_one] at hquery
  exact hquery.sound hrun hslip

theorem standalone_of_matchPartL (hw : w ∈ matchPartL) : standalone w.reverse = true := by
  have hlast := good_ends.matchPartL_le hw
  cases hrev : w.reverse with
  | nil => rfl
  | cons t u =>
      have ht : t.type ≠ tokStarts := by
        refine hlast t ?_
        rw [← List.head?_reverse, hrev]
        rfl
      cases u with
      | nil => rfl
      | cons t' u => exact decide_eq_true ht

theorem parseQuery_reads (hp : p.before = []) (hw : w ∈ partL) (hrest : p.rest = w ++ r)
    (hr : Avoids queryEnd r) : parseQuery.Reads p w r := by
  obtain ⟨u, hu, v, hv, rfl⟩ := Language.mem_mul.mp hw
  rw [List.append_assoc] at hrest
  have hnext : Follows clausesL (Avoids queryEnd) (Avoids matchPartEnd) := by
    rw [clausesL, withL, returnL, mul_assoc]
    simp only [follows_opt_mul, follows_opt, mul_assoc]
    exact ⟨follows_tok_mul (by decide), follows_tok_mul (by decide),
      follows_one fun _ => Avoids.mono (by decide)⟩
  refine (parses_matchPart.complete (Nat.lt_succ_self _) hu hrest (hnext v hv r hr)).bind
    fun _ q hq hbefore => ?_
  have hstandalone : standalone q.before = true := by
    rw [hbefore, hp, List.append_nil]
    exact standalone_of_matchPartL hu
  have hpost : parsePostWhere.Reads q v r := by
    unfold Parser.Reads
    rw [run_parsePostWhere hstandalone]
    exact parses_clauses.complete (Nat.lt_succ_self _) hv hq hr
  exact hpost.build fun _ => ⟨_, rfl⟩

theorem parses_union : Parses N parseUnion (tok tokUnion * opt (tok tokAll)) (Avoids [tokAll]) := by
  rw [← single_isTok]
  exact .advance_bind fun _ => .optional

theorem queryL_eq : queryL = partL * (tok tokUnion * opt (tok tokAll)) * queryL + partL := by
  have h := kstar_mul (partL * (tok tokUnion * opt (tok tokAll))) partL
  simpa only [queryL, partL, mul_assoc] using h

theorem begins_queryL : Begins queryL [tokUnwind, tokOptional, tokMatch] := by
  rw [queryL_eq]
  exact .add (.mul (.mul (.mul begins_matchPartL))) (.mul begins_matchPartL)

theorem parseUnion_total (h : check tokUnion p.rest = true) :
    ∃ b, (parseUnion.run p).1 = some b := by
  cases hrest : p.rest with
  | nil =>
      rw [hrest] at h
      cases h
  | cons t r =>
      rw [hrest] at h
      have ht : isTok tokUnion t = true := h
      obtain ⟨b, q, hrun⟩ := Parser.optional_total (ε := ParseError) tokAll
        { p with before := t :: p.before, rest := r }
      refine ⟨b, ?_⟩
      change (Parser.bindRun (Parser.advance (isTok tokUnion)) (fun _ => Parser.optional tokAll) p).1
        = some b
      simp [Parser.bindRun, Parser.advance, hrest, ht, hrun]

theorem cbmParseFuel_sound (n : Nat) {qs : List (ParsedQuery × Option Bool)}
    (hrun : cbmParseFuel n ts = (some qs, p)) (hslip : p.slipped = false) :
    ∃ w ∈ queryL, ts = w ++ p.rest := by
  induction n generalizing ts qs p with
  | zero => cases hrun
  | succ n ih =>
      rw [queryL_eq]
      unfold cbmParseFuel at hrun
      split at hrun
      · cases hrun
      · next q p₁ hq =>
          split at hrun
          · next hunion =>
              obtain ⟨hqs, rfl⟩ := Prod.mk.inj hrun
              obtain ⟨qs', hsub, -⟩ := Option.map_eq_some_iff.mp hqs
              obtain ⟨hslip₁, hslip₂⟩ := Bool.or_eq_false_iff.mp hslip
              obtain ⟨b, hb⟩ := parseUnion_total hunion
              obtain ⟨u, hu, hrest₁⟩ := (parses_union (N := 0)).sound (Prod.ext hb rfl) hslip₁
              obtain ⟨a, ha, hrest₀⟩ := parseQuery_sound hq (parseUnion.not_slipped hslip₁)
              obtain ⟨w, hw, hrest₂⟩ := ih (Prod.ext hsub rfl) hslip₂
              refine ⟨a ++ u ++ w, Or.inl (Language.append_mem_mul
                (Language.append_mem_mul ha hu) hw), ?_⟩
              calc ts
                  _ = a ++ p₁.rest := hrest₀
                  _ = a ++ (u ++ (parseUnion.run p₁).2.rest) := congrArg (a ++ ·) hrest₁
                  _ = a ++ (u ++ (w ++ _)) := congrArg (fun x => a ++ (u ++ x)) hrest₂
                  _ = a ++ u ++ w ++ _ := by simp only [List.append_assoc]
          · obtain ⟨-, rfl⟩ := Prod.mk.inj hrun
            obtain ⟨a, ha, hrest⟩ := parseQuery_sound hq hslip
            exact ⟨a, Or.inr ha, hrest⟩

/-- Nothing is left, or the EOF token is next. -/
def AtEof (r : List (Token TokenType)) : Prop :=
  ∀ t ∈ r.head?, t.type = tokEof

theorem AtEof.avoids {ks : List TokenType} (h : AtEof r) (hks : tokEof ∉ ks) : Avoids ks r := by
  intro t ht
  rw [h t ht]
  exact hks

theorem cbmParseFuel_complete (n : Nat) (hn : ts.length < n) (hw : w ∈ queryL) (hts : ts = w ++ r)
    (hr : AtEof r) : ∃ qs p, cbmParseFuel n ts = (some qs, p) ∧ p.slipped = false ∧ p.rest = r := by
  induction n generalizing ts w with
  | zero => exact absurd hn (Nat.not_lt_zero _)
  | succ n ih =>
      rw [queryL_eq] at hw
      unfold cbmParseFuel
      rcases hw with hw | hw
      · obtain ⟨au, hau, w', hw', rfl⟩ := Language.mem_mul.mp hw
        obtain ⟨a, ha, u, hu, rfl⟩ := Language.mem_mul.mp hau
        simp only [List.append_assoc] at hts
        have hnext : Avoids queryEnd (u ++ (w' ++ r)) := by
          have hfollows : Follows (tok tokUnion * opt (tok tokAll)) (fun _ => True)
              (Avoids queryEnd) := follows_tok_mul (by decide)
          exact hfollows u hu _ trivial
        obtain ⟨q, p₁, hrun₁, hp₁, hslip₁, -⟩ :=
          parseQuery_reads (p := startCursor ts) rfl ha hts hnext
        have hall : Avoids [tokAll] (w' ++ r) := begins_queryL.avoids (by decide) hw' r
        obtain ⟨b, p₂, hrun₂, hp₂, hslip₂, -⟩ :=
          parses_union.complete (Nat.lt_succ_self _) hu hp₁ hall
        obtain ⟨t, v, ht, -, rfl⟩ := mem_tok_mul.mp hu
        have hunion : check tokUnion p₁.rest = true := by
          rw [hp₁]
          exact decide_eq_true ht
        have hlen : p₂.rest.length < n := by
          rw [hts] at hn
          rw [hp₂]
          simp only [List.length_append, List.length_cons] at hn ⊢
          omega
        obtain ⟨qs, p₃, hrun₃, hslip₃, hp₃⟩ := ih hlen hw' hp₂
        refine ⟨(q, some b) :: qs, { p₃ with slipped := p₂.slipped || p₃.slipped }, ?_, ?_, hp₃⟩
        · simp only [hrun₁, hunion, if_true, hrun₂, hrun₃, Option.map_some]
        · rw [hslip₂, hslip₁, hslip₃]
          rfl
      · obtain ⟨q, p, hrun, hp, hslip, -⟩ :=
          parseQuery_reads (p := startCursor ts) rfl hw hts (hr.avoids (by decide))
        have hunion : check tokUnion p.rest = false := by
          rw [hp]
          exact Parses.startsAs_eq_false (fun _ => Parses.isTok_type) (hr.avoids (by decide))
        refine ⟨[(q, none)], p, ?_, hslip, hp⟩
        simp only [hrun, hunion, if_neg Bool.false_ne_true]

def upToEof (ts : List (Token TokenType)) : List (Token TokenType) :=
  ts.takeWhile fun t => t.type ≠ tokEof

/-- `cbm_parse` returns 0. -/
def accepts (ts : List (Token TokenType)) : Bool :=
  (cbmParse ts).1.isSome

/-- The tokens before EOF make a query, with every bracket closed. -/
def Derived (ts : List (Token TokenType)) : Prop :=
  upToEof ts ∈ queryL ∧ WellBracketed shape (upToEof ts)

theorem atEof_dropWhile (ts : List (Token TokenType)) :
    AtEof (ts.dropWhile fun t => t.type ≠ tokEof) := by
  intro t ht
  by_contra hne
  have hhead := List.head?_dropWhile_not (fun t : Token TokenType => decide (t.type ≠ tokEof)) ts
  rw [Option.mem_def.mp ht] at hhead
  simp [hne] at hhead

theorem upToEof_append (hw : ∀ t ∈ w, t.type ≠ tokEof) (hr : AtEof r) : upToEof (w ++ r) = w := by
  unfold upToEof
  rw [List.takeWhile_append_of_pos fun t ht => decide_eq_true (hw t ht)]
  cases r with
  | nil => simp
  | cons t r =>
      have ht : t.type = tokEof := hr t rfl
      simp [ht]

theorem ne_eof_of_queryL (hw : w ∈ queryL) : ∀ t ∈ w, t.type ≠ tokEof := by
  intro t ht heof
  refine ne_never_of_readBrackets (good_neutral.queryL_le hw []) t ht ?_
  rw [heof]
  rfl

theorem cbmParse_sound (haccepts : accepts ts = true) (hslip : (cbmParse ts).2.slipped = false)
    (heof : AtEof (cbmParse ts).2.rest) : Derived ts := by
  obtain ⟨qs, hqs⟩ := Option.isSome_iff_exists.mp haccepts
  obtain ⟨w, hw, hts⟩ := cbmParseFuel_sound _ (Prod.ext hqs rfl) hslip
  have hup : upToEof ts = w := by
    rw [hts]
    exact upToEof_append (ne_eof_of_queryL hw) heof
  unfold Derived
  rw [hup]
  exact ⟨hw, .of_neutral (good_neutral.queryL_le hw)⟩

theorem cbmParse_complete (h : upToEof ts ∈ queryL) :
    accepts ts = true ∧ (cbmParse ts).2.slipped = false ∧ AtEof (cbmParse ts).2.rest := by
  have hts : ts = upToEof ts ++ ts.dropWhile fun t => t.type ≠ tokEof :=
    List.takeWhile_append_dropWhile.symm
  obtain ⟨qs, p, hrun, hslip, hp⟩ :=
    cbmParseFuel_complete (ts.length + 1) (Nat.lt_succ_self _) h hts (atEof_dropWhile ts)
  have hparse : cbmParse ts = (some qs, p) := hrun
  unfold accepts
  rw [hparse, hp]
  exact ⟨rfl, hslip, atEof_dropWhile ts⟩

/-- `MATCH (n) RETURN n foo`. -/
def trailingQuery : List (Token TokenType) :=
  tokensOf [tokMatch, tokLparen, tokIdent, tokRparen, tokReturn, tokIdent, tokIdent, tokEof]

/-- `MATCH (n) WHERE (n.x = 1`. -/
def openQuery : List (Token TokenType) :=
  tokensOf [tokMatch, tokLparen, tokIdent, tokRparen, tokWhere, tokLparen, tokIdent, tokDot,
    tokIdent, tokEq, tokNumber, tokEof]

end Cypher
end CodebaseMemory
