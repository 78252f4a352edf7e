import CssPrune.Proofs.NormalText
import CssPrune.Token.Literal

/-!
# Normal text piece by piece

A raw text is read from left to right as strings, comments, blanks and other characters (`pieces`).
Comments and blanks are gaps.  Squeezing writes the pieces between two gaps as they are and one space
for each gap between two of them (`squeeze_eq_lay`); put the other way round, the normal text is what
the gaps part, joined by single spaces (`normalize_canonical`).
-/

namespace CssPrune.Text

/-! ### Pieces -/

/-- A stretch of raw text: a string, a comment, or a single character.  The body of a string or of a
comment has its end in it, if there is one. -/
inductive Piece where
  | string (quote : Char) (body : List Char)
  | comment (body : List Char)
  | blank (c : Char)
  | other (c : Char)
deriving DecidableEq, Repr

namespace Piece

/-- The characters the piece was read from. -/
def text : Piece → List Char
  | .string quote body => quote :: body
  | .comment body => '/' :: '*' :: body
  | .blank c | .other c => [c]

/-- What parts the pieces around it. -/
def isGap : Piece → Bool
  | .comment _ | .blank _ => true
  | .string _ _ | .other _ => false

end Piece

/-- The text of the pieces, one behind the other. -/
def textOf (ps : List Piece) : List Char := ps.flatMap Piece.text

/-- The text behind the next quote that no backslash precedes; a backslash may itself stand behind
one. -/
def behindQuote (quote : Char) : List Char → List Char
  | [] => []
  | '\\' :: _ :: cs => behindQuote quote cs
  | c :: cs => if c = quote then cs else behindQuote quote cs

theorem behindQuote_suffix (quote : Char) (cs : List Char) : behindQuote quote cs <:+ cs := by
  fun_induction behindQuote quote cs with
  | case1 => exact List.suffix_refl _
  | case2 c cs ih => exact ih.trans ⟨['\\', c], rfl⟩
  | case3 => exact List.suffix_cons _ _
  | case4 c cs _ _ ih => exact ih.trans (List.suffix_cons _ _)

/-- The text behind the star and slash that close a comment. -/
def behindComment (cs : List Char) : List Char := (Token.readComment cs).2

theorem behindComment_suffix (cs : List Char) : behindComment cs <:+ cs :=
  Token.readComment_suffix cs

open Token (upTo upTo_append)

/-- The pieces of a raw text, from left to right. -/
def pieces : List Char → List Piece
  | [] => []
  | c :: cs =>
    if isQuote c then .string c (upTo cs (behindQuote c cs)) :: pieces (behindQuote c cs)
    else if c = '/' ∧ cs.head? = some '*' then
      .comment (upTo (cs.drop 1) (behindComment (cs.drop 1))) :: pieces (behindComment (cs.drop 1))
    else if isBlank c then .blank c :: pieces cs
    else .other c :: pieces cs
termination_by cs => cs.length
decreasing_by
  · have := (behindQuote_suffix c cs).length_le
    simp only [List.length_cons]; omega
  · have := (behindComment_suffix (cs.drop 1)).length_le
    have := List.drop_suffix 1 cs |>.length_le
    simp only [List.length_cons]; omega
  · simp
  · simp

/-- No character is lost and none is read twice. -/
theorem textOf_pieces (cs : List Char) : textOf (pieces cs) = cs := by
  fun_induction pieces cs with
  | case1 => rfl
  | case2 c cs _ ih =>
      show c :: (upTo cs _ ++ textOf _) = c :: cs
      rw [ih, upTo_append (behindQuote_suffix c cs)]
  | case3 c cs _ h ih =>
      obtain ⟨rfl, hs⟩ := h
      obtain ⟨cs, rfl⟩ := List.head?_eq_some_iff.1 hs
      show '/' :: '*' :: (upTo cs _ ++ textOf _) = '/' :: '*' :: cs
      rw [ih]
      exact congrArg (fun x => '/' :: '*' :: x) (upTo_append (behindComment_suffix cs))
  | case4 c cs _ _ _ ih => exact congrArg (c :: ·) ih
  | case5 c cs _ _ _ ih => exact congrArg (c :: ·) ih

/-! ### Squeezing a piece -/

/-- What is taken of a text up to a later part begins with its first character. -/
theorem upTo_cons {c : Char} {cs rest : List Char} (h : rest <:+ cs) :
    upTo (c :: cs) rest = c :: upTo cs rest := by
  obtain ⟨u, rfl⟩ := h
  rw [Token.upTo_suffix, ← List.cons_append, Token.upTo_suffix]

/-- A string is written as it stands. -/
theorem squeeze_string (quote : Char) (written : Written) (cs : List Char) :
    squeeze (.quoted quote false) written cs =
      upTo cs (behindQuote quote cs) ++ squeeze .plain .flush (behindQuote quote cs) := by
  fun_induction behindQuote quote cs generalizing written with
  | case1 => rfl
  | case2 c cs ih =>
      have hs := behindQuote_suffix quote cs
      rw [upTo_cons (hs.trans (List.suffix_cons _ _)), upTo_cons hs, List.cons_append,
        List.cons_append, ← ih .flush]
      rfl
  | case3 cs hlast =>
      have hup : upTo (quote :: cs) cs = [quote] := Token.upTo_suffix [quote] cs
      rw [hup, squeeze, if_neg Bool.false_ne_true]
      split
      · next hb =>
          -- a backslash that nothing follows
          cases cs with
          | nil => rfl
          | cons d cs => exact absurd rfl (hlast d cs hb)
      · rw [if_pos rfl]; rfl
  | case4 c cs hlast hc ih =>
      rw [upTo_cons (behindQuote_suffix quote cs), List.cons_append, ← ih .flush, squeeze,
        if_neg Bool.false_ne_true]
      split
      · next hb =>
          cases cs with
          | nil => rfl
          | cons d cs => exact absurd rfl (hlast d cs hb)
      · rfl

/-- A star closes a comment only in front of a slash. -/
theorem squeeze_star (written : Written) {cs : List Char} (h : cs.head? ≠ some '/') :
    squeeze (.comment true) written cs = squeeze (.comment false) written cs := by
  cases cs with
  | nil => rfl
  | cons c cs =>
      have hc : c ≠ '/' := fun e => h (congrArg some e)
      rw [squeeze, squeeze, if_neg fun e => hc e.2, if_neg fun e => hc e.2]

/-- A comment writes nothing. -/
theorem squeeze_comment (written : Written) (cs : List Char) :
    squeeze (.comment false) written cs = squeeze .plain written (behindComment cs) := by
  unfold behindComment
  fun_induction Token.readComment cs with
  | case1 => rfl
  | case2 cs => rfl
  | case3 c cs hlast ih =>
      rw [squeeze, if_neg fun e => Bool.false_ne_true e.1, ← ih]
      by_cases hc : c = '*'
      · subst hc
        exact squeeze_star written fun hs => by
          obtain ⟨ds, rfl⟩ := List.head?_eq_some_iff.1 hs
          exact hlast ds rfl rfl
      · rw [decide_eq_false hc]

/-! ### Squeezing the pieces -/

/-- The pieces one behind the other, with the space that gaps leave in front of the next one. -/
def lay : Written → List Piece → List Char
  | _, [] => []
  | written, p :: ps =>
    if p.isGap then lay written.gap ps else written.space ++ (p.text ++ lay .flush ps)

/-- **Squeezing a text writes its pieces.** -/
theorem squeeze_eq_lay (written : Written) (cs : List Char) :
    squeeze .plain written cs = lay written (pieces cs) := by
  fun_induction pieces cs generalizing written with
  | case1 => rfl
  | case2 c cs hq ih =>
      have hs : ¬OpensComment c cs := by
        rintro ⟨rfl, -⟩; cases hq
      rw [squeeze_visible (not_isBlank_of_isQuote hq) hs, hq, if_pos rfl, squeeze_string, ih]
      rfl
  | case3 c cs _ h ih =>
      obtain ⟨rfl, hs⟩ := h
      obtain ⟨cs, rfl⟩ := List.head?_eq_some_iff.1 hs
      exact (squeeze_opening ⟨rfl, rfl⟩).trans ((squeeze_comment _ cs).trans (ih _))
  | case4 c cs _ _ hb ih => exact (squeeze_blank hb).trans (ih _)
  | case5 c cs hq hs hb ih =>
      rw [squeeze_visible (Bool.not_eq_true _ ▸ hb) hs, if_neg hq, ih]
      rfl

/-- What the runs of pieces between gaps are written as; two gaps may stand side by side. -/
def stretches (runs : List (List Piece)) : List (List Char) :=
  (runs.filter fun run => !run.isEmpty).map textOf

/-- The pieces between gaps, with one space between two stretches of them. -/
def spaced (ps : List Piece) : List Char :=
  [' '].intercalate (stretches (ps.splitOnP Piece.isGap))

/-- Joined parts are the first part, and the others with a space in front of each. -/
theorem intercalate_cons (x : List Char) (xs : List (List Char)) :
    [' '].intercalate (x :: xs) = x ++ xs.flatMap (' ' :: ·) := by
  induction xs generalizing x with
  | nil => simp [List.intercalate]
  | cons y xs ih =>
      rw [List.intercalate_cons_cons, ih, List.flatMap_cons]
      simp

theorem splitOnP_gap {p : Piece} (hp : p.isGap = true) (ps : List Piece) :
    (p :: ps).splitOnP Piece.isGap = [] :: ps.splitOnP Piece.isGap := by
  rw [List.splitOnP_cons_eq_if_modifyHead, if_pos hp]

/-- Any other piece belongs to the first one. -/
theorem splitOnP_visible {p : Piece} (hp : p.isGap = false) {ps run : List Piece}
    {rest : List (List Piece)} (h : ps.splitOnP Piece.isGap = run :: rest) :
    (p :: ps).splitOnP Piece.isGap = (p :: run) :: rest := by
  rw [List.splitOnP_cons_eq_if_modifyHead, if_neg (Bool.eq_false_iff.1 hp), h]
  rfl

/-- Behind something visible come the pieces up to the first gap and the other stretches, each
behind a space; where a space is owed, every stretch comes behind one. -/
theorem lay_behind {ps run : List Piece} {rest : List (List Piece)}
    (h : ps.splitOnP Piece.isGap = run :: rest) :
    lay .flush ps = textOf run ++ (stretches rest).flatMap (' ' :: ·) ∧
      lay .owing ps = (stretches (run :: rest)).flatMap (' ' :: ·) := by
  induction ps generalizing run rest with
  | nil => cases h; exact ⟨rfl, rfl⟩
  | cons p ps ih =>
      obtain ⟨run', rest', h'⟩ := List.exists_cons_of_ne_nil (List.splitOnP_ne_nil Piece.isGap ps)
      obtain ⟨hflush, howing⟩ := ih h'
      cases hp : p.isGap with
      | true =>
          rw [splitOnP_gap hp, h'] at h
          obtain ⟨rfl, rfl⟩ := List.cons.inj h
          rw [lay, lay, if_pos hp, if_pos hp]
          exact ⟨howing, howing⟩
      | false =>
          rw [splitOnP_visible hp h'] at h
          obtain ⟨rfl, rfl⟩ := List.cons.inj h
          have htext : p.text ++ lay .flush ps =
              textOf (p :: run') ++ (stretches rest').flatMap (' ' :: ·) := by
            rw [hflush, ← List.append_assoc]; rfl
          rw [lay, lay, if_neg (Bool.eq_false_iff.1 hp), if_neg (Bool.eq_false_iff.1 hp), htext]
          exact ⟨rfl, rfl⟩

/-- From the beginning, the pieces are written as their stretches with single spaces between. -/
theorem lay_nothing (ps : List Piece) : lay .nothing ps = spaced ps := by
  induction ps with
  | nil => rfl
  | cons p ps ih =>
      cases hp : p.isGap with
      | true =>
          rw [lay, if_pos hp, spaced, splitOnP_gap hp]
          exact ih
      | false =>
          obtain ⟨run, rest, h⟩ := List.exists_cons_of_ne_nil (List.splitOnP_ne_nil Piece.isGap ps)
          have hstretch : stretches ((p :: run) :: rest) = textOf (p :: run) :: stretches rest := rfl
          rw [lay, if_neg (Bool.eq_false_iff.1 hp), spaced, splitOnP_visible hp h, hstretch,
            intercalate_cons, (lay_behind h).1, Written.space, List.nil_append, ← List.append_assoc]
          rfl

/-- **Normal text is canonical.**  A raw text is made of its pieces; its normal form is made of the
strings and other characters among them, as they are and in order, with one space wherever blanks and
comments stand between two of them and none at the ends; and it is its own normal form. -/
theorem normalize_canonical (raw : List Char) :
    textOf (pieces raw) = raw ∧ normalize raw = spaced (pieces raw) ∧
      normalize (normalize raw) = normalize raw :=
  ⟨textOf_pieces raw, (squeeze_eq_lay .nothing raw).trans (lay_nothing _), normalize_normalize raw⟩

example : pieces "/**/a \\t'b  /*' /**/c ".toList =
    [.comment ['*', '/'], .other 'a', .blank ' ', .other '\\', .other 't',
      .string '\'' "b  /*'".toList, .blank ' ', .comment ['*', '/'], .other 'c', .blank ' '] := by
  cbv

end CssPrune.Text
