import CodebaseMemory.Lib.Like
import CodebaseMemory.Sqlite.Record

/-!
# Globs as LIKE patterns (`src/store/store.c`)

`cbm_glob_to_like` turns `*` and `**` into `%` and `?` into `_`, and leaves out the
slashes beside `**`.  All other bytes are copied, also `_` and `%`, which are
wildcards of LIKE.
-/

namespace CodebaseMemory
namespace Query

open Lib
open Sqlite (CStr)

/-- The loop of `cbm_glob_to_like`; before `%` for `**` a slash goes. -/
def globLoop : CStr → CStr → CStr
  | [], out => out
  | 42 :: 42 :: 47 :: pattern, out =>
      globLoop pattern ((if out.getLast? = some 47 then out.dropLast else out) ++ [37])
  | 42 :: 42 :: pattern, out =>
      globLoop pattern ((if out.getLast? = some 47 then out.dropLast else out) ++ [37])
  | 42 :: pattern, out => globLoop pattern (out ++ [37])
  | 63 :: pattern, out => globLoop pattern (out ++ [95])
  | c :: pattern, out => globLoop pattern (out ++ [c])

def cbmGlobToLike (pattern : CStr) : CStr :=
  globLoop pattern []

inductive GlobMatch : List Char → List Char → Prop
  | nil : GlobMatch [] []
  | char {c : Char} {pattern path : List Char} (hstar : c ≠ '*') (hone : c ≠ '?') :
      GlobMatch pattern path → GlobMatch (c :: pattern) (c :: path)
  | one {c : Char} {pattern path : List Char} (hslash : c ≠ '/') :
      GlobMatch pattern path → GlobMatch ('?' :: pattern) (c :: path)
  | star {run pattern path : List Char} (hslash : '/' ∉ run) (hnext : pattern.head? ≠ some '*') :
      GlobMatch pattern path → GlobMatch ('*' :: pattern) (run ++ path)
  | any {run pattern path : List Char} (hnext : pattern.head? ≠ some '/') :
      GlobMatch pattern path → GlobMatch ('*' :: '*' :: pattern) (run ++ path)
  | dirs {dirs pattern path : List Char} (hdirs : dirs = [] ∨ dirs.getLast? = some '/') :
      GlobMatch pattern path → GlobMatch ('*' :: '*' :: '/' :: pattern) (dirs ++ path)

/-- Two characters that differ at most in their case, as ASCII letters do. -/
def SameCase (c d : Char) : Prop :=
  c.toLower = d.toLower

def SqliteLike (pattern text : CStr) : Prop :=
  ∃ p t : List Char, utf8 p = pattern ∧ utf8 t = text ∧ Like SameCase '_' '%' p t

def EqualUpToCase (text text' : List Char) : Prop :=
  text.map Char.toLower = text'.map Char.toLower

/-- Every path that matches the glob is kept, and a glob without wildcards keeps no
other path. -/
def KeepsMatches (pattern : List Char) : Prop :=
  (∀ path, GlobMatch pattern path → SqliteLike (cbmGlobToLike (utf8 pattern)) (utf8 path)) ∧
    ('*' ∉ pattern → '?' ∉ pattern →
      ∀ path, SqliteLike (cbmGlobToLike (utf8 pattern)) (utf8 path) → EqualUpToCase path pattern)

/-- The loop, on the characters that the bytes stand for. -/
def globChars : List Char → List Char → List Char
  | [], out => out
  | '*' :: '*' :: '/' :: pattern, out =>
      globChars pattern ((if out.getLast? = some '/' then out.dropLast else out) ++ ['%'])
  | '*' :: '*' :: pattern, out =>
      globChars pattern ((if out.getLast? = some '/' then out.dropLast else out) ++ ['%'])
  | '*' :: pattern, out => globChars pattern (out ++ ['%'])
  | '?' :: pattern, out => globChars pattern (out ++ ['_'])
  | c :: pattern, out => globChars pattern (out ++ [c])

theorem sameCase_refl (c : Char) : SameCase c c := rfl

theorem like_trim {out left : List Char} (h : Like SameCase '_' '%' out left) (run : List Char) :
    Like SameCase '_' '%'
      ((if out.getLast? = some '/' then out.dropLast else out) ++ ['%']) (left ++ run) := by
  split
  · next hlast =>
      rw [← List.dropLast_append_getLast? '/' hlast] at h
      obtain ⟨left', slash, rfl, hleft, -⟩ := h.of_append
      rw [List.append_assoc]
      exact hleft.append (like_many (slash ++ run))
  · exact h.append (like_many run)

theorem like_globChars (pattern out : List Char) :
    ∀ {left path : List Char}, Like SameCase '_' '%' out left → GlobMatch pattern path →
      Like SameCase '_' '%' (globChars pattern out) (left ++ path) := by
  fun_induction globChars pattern out with
  | case1 out =>
      intro left path hout hmatch
      cases hmatch
      rwa [List.append_nil]
  | case2 pattern out ih =>
      intro left path hout hmatch
      cases hmatch with
      | char hstar _ _ => exact absurd rfl hstar
      | star _ hnext _ => exact absurd rfl hnext
      | any hnext _ => exact absurd rfl hnext
      | dirs _ hrest =>
          rw [← List.append_assoc]
          exact ih (like_trim hout _) hrest
  | case3 pattern out hslash ih =>
      intro left path hout hmatch
      cases hmatch with
      | char hstar _ _ => exact absurd rfl hstar
      | star _ hnext _ => exact absurd rfl hnext
      | any _ hrest =>
          rw [← List.append_assoc]
          exact ih (like_trim hout _) hrest
      | dirs _ _ => exact absurd rfl (hslash _)
  | case4 pattern out hdirs hany ih =>
      intro left path hout hmatch
      cases hmatch with
      | char hstar _ _ => exact absurd rfl hstar
      | star _ _ hrest =>
          rw [← List.append_assoc]
          exact ih (hout.append (like_many _)) hrest
      | any _ _ => exact absurd rfl (hany _)
      | dirs _ _ => exact absurd rfl (hany _)
  | case5 pattern out ih =>
      intro left path hout hmatch
      cases hmatch with
      | char _ hone _ => exact absurd rfl hone
      | one _ hrest =>
          rw [List.append_cons left]
          exact ih (hout.append (.one _ .nil)) hrest
  | case6 c pattern out hdirs hany hstar hone ih =>
      intro left path hout hmatch
      cases hmatch with
      | char _ _ hrest =>
          rw [List.append_cons left]
          exact ih (hout.append (like_self sameCase_refl [c])) hrest
      | one _ _ => exact absurd rfl hone
      | star _ _ _ => exact absurd rfl hstar
      | any _ _ => exact absurd rfl hstar
      | dirs _ _ => exact absurd rfl hstar

theorem exists_cons_of_utf8 {a : Char} (ha : a.val.toNat ≤ 127) {text : List Char} {rest : CStr}
    (h : utf8 text = UInt8.ofNat a.val.toNat :: rest) : ∃ text', text = a :: text' := by
  cases text with
  | nil => cases h
  | cons c text =>
      obtain ⟨b, bs, hbytes⟩ := List.exists_cons_of_ne_nil (String.utf8EncodeChar_ne_nil (c := c))
      rw [utf8_cons, hbytes, List.cons_append, List.cons.injEq] at h
      have hmem : UInt8.ofNat a.val.toNat ∈ String.utf8EncodeChar c := by
        rw [hbytes, ← h.1]
        exact List.mem_cons_self
      exact ⟨text, congrArg (· :: text) (mem_utf8EncodeChar ha hmem)⟩

theorem trim_utf8 (out : List Char) :
    utf8 ((if out.getLast? = some '/' then out.dropLast else out) ++ ['%']) =
      (if (utf8 out).getLast? = some 47 then (utf8 out).dropLast else utf8 out) ++ [37] := by
  rcases List.eq_nil_or_concat out with rfl | ⟨init, c, rfl⟩
  · rfl
  · rw [List.concat_eq_append, List.getLast?_concat, List.dropLast_concat]
    by_cases hc : c = '/'
    · subst hc
      rw [if_pos rfl, utf8_append, utf8_append]
      change _ = (if (utf8 init ++ [47]).getLast? = some 47 then (utf8 init ++ [47]).dropLast
        else utf8 init ++ [47]) ++ [37]
      rw [List.getLast?_concat, if_pos rfl, List.dropLast_concat]
      rfl
    · have hlast : (utf8 (init ++ [c])).getLast? ≠ some 47 := by
        intro hlast
        rw [utf8_append, utf8_cons, utf8_nil, List.append_nil,
          List.getLast?_append_of_ne_nil _ String.utf8EncodeChar_ne_nil] at hlast
        exact hc (mem_utf8EncodeChar (a := '/') (by decide) (List.mem_of_getLast? hlast))
      rw [if_neg fun h => hc (Option.some.inj h), if_neg hlast, utf8_append]
      rfl

theorem globLoop_copy (bytes : CStr) :
    ∀ {pattern out : CStr}, 42 ∉ bytes → 63 ∉ bytes →
      globLoop (bytes ++ pattern) out = globLoop pattern (out ++ bytes) := by
  induction bytes with
  | nil =>
      intro pattern out _ _
      rw [List.append_nil, List.nil_append]
  | cons b bytes ih =>
      intro pattern out hstar hone
      rw [List.mem_cons, not_or] at hstar hone
      rw [List.cons_append, List.append_cons out,
        globLoop.eq_6 _ _ _ (fun _ h => absurd h.symm hstar.1) (fun _ h => absurd h.symm hstar.1)
          (fun h => hstar.1 h.symm) (fun h => hone.1 h.symm)]
      exact ih hstar.2 hone.2

theorem globLoop_utf8 (pattern out : List Char) :
    globLoop (utf8 pattern) (utf8 out) = utf8 (globChars pattern out) := by
  fun_induction globChars pattern out with
  | case1 out => rfl
  | case2 pattern out ih =>
      change globLoop (42 :: 42 :: 47 :: utf8 pattern) (utf8 out) = _
      rw [globLoop.eq_2, ← trim_utf8, ih]
  | case3 pattern out hslash ih =>
      change globLoop (42 :: 42 :: utf8 pattern) (utf8 out) = _
      rw [globLoop.eq_3, ← trim_utf8, ih]
      intro rest hrest
      obtain ⟨pattern', hpattern⟩ := exists_cons_of_utf8 (a := '/') (by decide) hrest
      exact hslash pattern' hpattern
  | case4 pattern out hdirs hany ih =>
      have hnext : ∀ rest, utf8 pattern ≠ 42 :: rest := by
        intro rest hrest
        obtain ⟨pattern', hpattern⟩ := exists_cons_of_utf8 (a := '*') (by decide) hrest
        exact hany pattern' hpattern
      change globLoop (42 :: utf8 pattern) (utf8 out) = _
      rw [globLoop.eq_4 _ _ (fun _ h => hnext _ h) (fun _ h => hnext _ h), ← ih, utf8_append]
      rfl
  | case5 pattern out ih =>
      change globLoop (63 :: utf8 pattern) (utf8 out) = _
      rw [globLoop.eq_5, ← ih, utf8_append]
      rfl
  | case6 c pattern out hdirs hany hstar hone ih =>
      have hcopy : ∀ a : Char, a.val.toNat ≤ 127 → c ≠ a →
          UInt8.ofNat a.val.toNat ∉ String.utf8EncodeChar c :=
        fun a ha hne hmem => hne (mem_utf8EncodeChar ha hmem)
      rw [utf8_cons, globLoop_copy _ (hcopy '*' (by decide) hstar) (hcopy '?' (by decide) hone),
        ← ih, utf8_append, utf8_cons, utf8_nil, List.append_nil]

theorem cbmGlobToLike_utf8 (pattern : List Char) :
    cbmGlobToLike (utf8 pattern) = utf8 (globChars pattern []) :=
  globLoop_utf8 pattern []

variable {path pattern : List Char}

theorem like_of_globMatch (h : GlobMatch pattern path) :
    SqliteLike (cbmGlobToLike (utf8 pattern)) (utf8 path) :=
  ⟨_, path, (cbmGlobToLike_utf8 pattern).symm, rfl, like_globChars pattern [] .nil h⟩

theorem globChars_literal (hstar : '*' ∉ pattern) (hone : '?' ∉ pattern) (out : List Char) :
    globChars pattern out = out ++ pattern := by
  induction pattern generalizing out with
  | nil => exact (List.append_nil out).symm
  | cons c pattern ih =>
      rw [List.mem_cons, not_or] at hstar hone
      rw [globChars.eq_6 _ _ _ (fun _ h => absurd h.symm hstar.1) (fun _ h => absurd h.symm hstar.1)
        (fun h => hstar.1 h.symm) (fun h => hone.1 h.symm), ih hstar.2 hone.2,
        ← List.append_cons out]

theorem sqliteLike_literal (hstar : '*' ∉ pattern) (hone : '?' ∉ pattern) :
    SqliteLike (cbmGlobToLike (utf8 pattern)) (utf8 path) ↔ Like SameCase '_' '%' pattern path := by
  rw [cbmGlobToLike_utf8, globChars_literal hstar hone, List.nil_append]
  constructor
  · rintro ⟨p, t, hp, ht, hlike⟩
    rwa [← utf8_injective hp, ← utf8_injective ht]
  · intro hlike
    exact ⟨pattern, path, rfl, rfl, hlike⟩

theorem forall₂_sameCase_iff : List.Forall₂ SameCase pattern path ↔ EqualUpToCase path pattern := by
  rw [EqualUpToCase, eq_comm, ← List.forall₂_eq_eq_eq, List.forall₂_map_left_iff,
    List.forall₂_map_right_iff]
  rfl

theorem not_keepsMatches_of_underscore (hstar : '*' ∉ pattern) (hone : '?' ∉ pattern)
    (hmem : '_' ∈ pattern) : ¬ KeepsMatches pattern := by
  intro hkeeps
  obtain ⟨left, right, hpattern⟩ := List.append_of_mem hmem
  have hlike : Like SameCase '_' '%' pattern (left ++ 'x' :: right) := by
    rw [hpattern]
    exact (like_self sameCase_refl left).append (.one 'x' (like_self sameCase_refl right))
  have hequal := hkeeps.2 hstar hone _ ((sqliteLike_literal hstar hone).mpr hlike)
  rw [EqualUpToCase, hpattern, List.map_append, List.map_append, List.append_cancel_left_eq,
    List.map_cons, List.map_cons, List.cons.injEq] at hequal
  exact absurd hequal.1 (by decide)

theorem not_keepsMatches_of_percent (hstar : '*' ∉ pattern) (hone : '?' ∉ pattern)
    (hmem : '%' ∈ pattern) : ¬ KeepsMatches pattern := by
  intro hkeeps
  obtain ⟨left, right, hpattern⟩ := List.append_of_mem hmem
  have hlike : Like SameCase '_' '%' pattern (left ++ ([] ++ right)) := by
    rw [hpattern]
    exact (like_self sameCase_refl left).append (.many [] (like_self sameCase_refl right))
  have hequal := hkeeps.2 hstar hone _ ((sqliteLike_literal hstar hone).mpr hlike)
  have hlength := congrArg List.length hequal
  simp only [hpattern, List.length_map, List.length_append, List.length_cons,
    List.length_nil] at hlength
  omega

/-- Every match is kept; a glob without wildcards keeps nothing else exactly if it
has no wildcard of LIKE either. -/
theorem keepsMatches_iff (pattern : List Char) :
    KeepsMatches pattern ↔
      ('*' ∉ pattern → '?' ∉ pattern → '_' ∉ pattern ∧ '%' ∉ pattern) := by
  constructor
  · intro hkeeps hstar hone
    exact ⟨fun hmem => not_keepsMatches_of_underscore hstar hone hmem hkeeps,
      fun hmem => not_keepsMatches_of_percent hstar hone hmem hkeeps⟩
  · intro hliteral
    refine ⟨fun path h => like_of_globMatch h, fun hstar hone path hlike => ?_⟩
    obtain ⟨hunderscore, hpercent⟩ := hliteral hstar hone
    rw [sqliteLike_literal hstar hone, like_literal_iff hunderscore hpercent] at hlike
    exact forall₂_sameCase_iff.mp hlike

/-- `a_b` also stands for `axb`. -/
theorem not_keepsMatches_underscore : ¬ KeepsMatches ['a', '_', 'b'] :=
  not_keepsMatches_of_underscore (by decide) (by decide) (by decide)

end Query
end CodebaseMemory
