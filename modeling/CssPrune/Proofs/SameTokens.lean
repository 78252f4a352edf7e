import CssPrune.Proofs.Arguments

/-!
# The tokens of normal text

Squeezing is a tokenizer of its own, and a simpler one.  Where the two agree on what is a string, a
comment and a blank, the normal text has the tokens of the text it was made from.

* `readString_quoted`: a string is read from the squeezed text, whatever stands in it.
* `read_flush`: so is every other legible token.
* `tokens_normalize`: a text of legible lexemes has the same tokens in normal form, but for white space
  and comments.
-/

namespace CssPrune.Text

open Token (isSpace isHexDigit isNewline startsNewline startsName startsNumeral dropNewline
  readEscape readName readNumeric readNamed readHash readAt readMark readUrlToken readString
  readComment)

/-! ### Strings -/

section Strings

variable {cs : List Char} {quote : Char}

/-- Within quotes the first character stays the first. -/
theorem head?_quoted (escaped : Bool) (written : Written) (cs : List Char) :
    (squeeze (.quoted quote escaped) written cs).head? = cs.head? := by
  cases cs with
  | nil => rfl
  | cons c cs =>
      obtain ⟨next, -, hstep⟩ := squeeze_quoted (c := c) quote escaped
      rw [hstep]; rfl

/-- Within a string, every character but a backslash or a quote is written as it is. -/
theorem quoted_cons (hq : isQuote quote = true) {c : Char} (hc : isQuote c = false) (hb : c ≠ '\\')
    (written : Written) (cs : List Char) :
    squeeze (.quoted quote false) written (c :: cs) =
      c :: squeeze (.quoted quote false) .flush cs := by
  have hne : c ≠ quote := by
    rintro rfl
    rw [hq] at hc
    cases hc
  rw [squeeze, if_neg Bool.false_ne_true, if_neg hb, if_neg hne]

theorem quoted_space (hq : isQuote quote = true) {c : Char} (hc : isSpace c = true)
    (cs : List Char) :
    squeeze (.quoted quote false) .flush (c :: cs) =
      c :: squeeze (.quoted quote false) .flush cs :=
  quoted_cons hq (not_isQuote_of_isBlank (isBlank_of_isSpace hc)) (by rintro rfl; cases hc) _ cs

/-- Digits within a string stay, and none come in. -/
theorem carries_quoted (hq : isQuote quote = true) :
    Carries isHexDigit (squeeze (.quoted quote false) .flush) where
  step c cs h := by
    obtain ⟨-, hc, -, hb⟩ := isSteady_iff.1 (isSteady_of_isHexDigit h)
    exact quoted_cons hq hc hb _ cs
  stop cs h := by rwa [head?_quoted]

/-- A line break at the head can be left out before the string is squeezed, or after. -/
theorem dropNewline_quoted (hq : isQuote quote = true) (cs : List Char) :
    dropNewline (squeeze (.quoted quote false) .flush cs) =
      squeeze (.quoted quote false) .flush (dropNewline cs) := by
  cases hn : startsNewline cs with
  | false =>
      rw [dropNewline_of_head hn, dropNewline_of_head]
      rwa [startsNewline, head?_quoted]
  | true =>
      cases cs with
      | nil => cases hn
      | cons c cs =>
          have hc : isNewline c = true := hn
          rw [quoted_space hq (isSpace_of_isNewline hc), Token.dropNewline_cons,
            Token.dropNewline_cons, head?_quoted, if_pos hc, if_pos hc]
          split
          · next hr =>
              obtain ⟨ds, rfl⟩ := List.head?_eq_some_iff.1 hr.2
              rw [quoted_space hq rfl]; rfl
          · rfl

/-- A blank at the head can be left out before the string is squeezed, or after. -/
theorem dropSpace_quoted (hq : isQuote quote = true) (cs : List Char) :
    Token.dropSpace (squeeze (.quoted quote false) .flush cs) =
      squeeze (.quoted quote false) .flush (Token.dropSpace cs) := by
  cases hs : cs.head?.any isSpace with
  | false =>
      rw [dropSpace_of_head hs, dropSpace_of_head]
      rwa [head?_quoted]
  | true =>
      cases cs with
      | nil => cases hs
      | cons c cs =>
          have hline := dropNewline_quoted hq (c :: cs)
          rw [quoted_space hq hs] at hline ⊢
          rw [Token.dropSpace, Token.dropSpace]
          split
          · rfl
          · exact hline

/-- Behind a backslash the first character is kept whatever it is. -/
theorem readEscape_quoted (hq : isQuote quote = true) (written : Written) (cs : List Char) :
    readEscape (squeeze (.quoted quote true) written cs) =
      ((readEscape cs).1, squeeze (.quoted quote false) .flush (readEscape cs).2) := by
  cases cs with
  | nil => rfl
  | cons c cs =>
      have hsqueeze : squeeze (.quoted quote true) written (c :: cs) =
          c :: squeeze (.quoted quote false) .flush cs := rfl
      rw [hsqueeze]
      cases hc : isHexDigit c with
      | false => rw [readEscape_single hc, readEscape_single hc]
      | true =>
          have hd : (c :: cs).head?.any isHexDigit = true := hc
          rw [← (carries_quoted hq).step c cs hc, (carries_quoted hq).readEscape hd,
            dropSpace_quoted hq, readEscape_digits hd]

theorem quoted_backslash (cs : List Char) :
    squeeze (.quoted quote false) .flush ('\\' :: cs) =
      '\\' :: squeeze (.quoted quote true) .flush cs := by
  rw [squeeze, if_neg Bool.false_ne_true, if_pos rfl]

/-- A string that its quote closes is read from the squeezed text. -/
theorem readString_quoted (hq : isQuote quote = true) (h : (readString quote cs).2.1 = true) :
    readString quote (squeeze (.quoted quote false) .flush cs) =
      ((readString quote cs).1, true, flush (readString quote cs).2.2) := by
  have hback : quote ≠ '\\' := by rintro rfl; cases hq
  fun_induction readString quote cs with
  | case1 => rw [squeeze, readString]; rfl
  | case2 cs =>
      rw [squeeze, if_neg Bool.false_ne_true, if_neg hback, if_pos rfl, readString, if_pos rfl]
      rfl
  | case3 => cases h
  | case4 hne hline =>
      rw [quoted_backslash, squeeze, readString, if_neg hne, if_neg hline, if_pos rfl, if_pos rfl]
      rfl
  | case5 cs hcs hnew hne hline ih =>
      -- the newline is kept like any character that a backslash protects
      obtain ⟨n, ds, rfl⟩ := List.exists_cons_of_ne_nil hcs
      have hkeep : squeeze (.quoted quote true) .flush (n :: ds) =
          squeeze (.quoted quote false) .flush (n :: ds) :=
        (quoted_space hq (isSpace_of_isNewline hnew) ds).symm
      have hnew' : startsNewline (squeeze (.quoted quote true) .flush (n :: ds)) = true := hnew
      rw [quoted_backslash, readString, if_neg hne, if_neg hline, if_pos rfl,
        if_neg (squeeze_quoted_ne_nil _ _ _ hcs), if_pos hnew', hkeep, dropNewline_quoted hq, ih h]
  | case6 cs hcs hnew e s hne hline ih =>
      have hnew' : ¬startsNewline (squeeze (.quoted quote true) .flush cs) = true := by
        rwa [startsNewline, head?_quoted]
      rw [quoted_backslash, readString, if_neg hne, if_neg hline, if_pos rfl,
        if_neg (squeeze_quoted_ne_nil _ _ _ hcs), if_neg hnew']
      simp only [readEscape_quoted hq]
      rw [ih h]
  | case7 c cs hne hline hb s ih =>
      rw [squeeze, if_neg Bool.false_ne_true, if_neg hb, if_neg hne, readString, if_neg hne,
        if_neg hline, if_neg hb]
      simp only [ih h]
      rfl

end Strings

/-! ### Tokens -/

section Tokens

variable {c : Char} {cs : List Char}

/-- A token that is not read as white space, a comment or a string. -/
def IsBare : Token → Prop
  | .space _ | .comment _ | .string _ | .badString _ => False
  | _ => True

/-- A name is read as no string, comment or white space. -/
theorem isBare_readNamed (cs : List Char) : IsBare (readNamed cs).1 := by
  by_cases hp : (readName cs).2.head? = some '('
  · obtain ⟨r, hr⟩ := List.head?_eq_some_iff.1 hp
    rw [Token.readNamed_paren hr]
    split
    · cases ht : readUrlToken r with
      | none => trivial
      | some t =>
          obtain ⟨t, left⟩ := t
          rcases readUrlToken_kind ht with ⟨value, rfl⟩ | ⟨text, rfl⟩ <;> trivial
    · trivial
  · rw [Token.readNamed_ident hp]
    trivial

theorem isBare_readMark (c : Char) (cs : List Char) : IsBare (readMark c cs).1 := by
  unfold readMark
  split <;> trivial

/-- How a character is read that is no white space and no quote. -/
theorem read_other (hs : isSpace c = false) (hq : isQuote c = false) (cs : List Char) :
    Token.read c cs =
      if startsNumeral (c :: cs) then readNumeric (c :: cs)
      else if c = '-' && cs.take 2 = ['-', '>'] then (.cdc, cs.drop 2)
      else if startsName (c :: cs) then readNamed (c :: cs)
      else if c = '#' then readHash cs
      else if c = '@' then readAt cs
      else if c = '/' && cs.head? = some '*' then
        let t := readComment (cs.drop 1)
        (.comment (String.ofList t.1), t.2)
      else readMark c cs := by
  have hq : ¬(c = '"' || c = '\'') = true := Bool.eq_false_iff.1 hq
  rw [Token.read, if_neg (Bool.eq_false_iff.1 hs), if_neg hq]

theorem not_comment (hm : ¬OpensComment c cs) : ¬(c = '/' && cs.head? = some '*') = true := by
  rwa [Bool.and_eq_true, decide_eq_true_eq, decide_eq_true_eq]

/-- Only a blank, a quote or the beginning of a comment is. -/
theorem isBare_read (hs : isSpace c = false) (hq : isQuote c = false) (hm : ¬OpensComment c cs) :
    IsBare (Token.read c cs).1 := by
  rw [read_other hs hq, if_neg (not_comment hm)]
  split
  · simp only [readNumeric]
    split
    · trivial
    · split <;> trivial
  split
  · trivial
  split
  · exact isBare_readNamed _
  split
  · simp only [readHash]
    split
    · trivial
    · split <;> trivial
  split
  · simp only [readAt]
    split <;> trivial
  · exact isBare_readMark c cs

/-- Of the text `cs` the token `p` is read, and of the squeezed text `q`, the same if `p` is legible
and no bad argument of `url(`. -/
def Reads (cs : List Char) (p q : Token × List Char) : Prop :=
  LegibleTo false cs p.2 → NoBreak p.2 → (∀ text, p.1 ≠ .badUrl text) → Same p q

theorem Reads.of_flush {p q : Token × List Char} (h : q = (p.1, flush p.2)) : Reads cs p q :=
  fun _ _ _ => Same.of_flush h

/-- Two readers that choose alike read alike, if both choices do. -/
theorem Reads.ite {a b a' b' : Token × List Char} {s t : Prop} [Decidable s] [Decidable t]
    (hst : s → LegibleTo false cs a.2 → t) (hts : t → s) (ha : s → Reads cs a a')
    (hb : ¬s → Reads cs b b') : Reads cs (if s then a else b) (if t then a' else b') := by
  intro hl hn hbad
  by_cases h : s
  · rw [if_pos h] at hl hn hbad ⊢
    rw [if_pos (hst h hl)]
    exact ha h hl hn hbad
  · rw [if_neg h] at hl hn hbad ⊢
    rw [if_neg (mt hts h)]
    exact hb h hl hn hbad

/-- The end of a comment in the style of markup is kept. -/
theorem startsCdc_flush (cs : List Char) :
    (flush cs).take 2 = ['-', '>'] ↔ cs.take 2 = ['-', '>'] := by
  have h := prefix_flush (w := ['-', '>']) rfl cs
  rw [List.prefix_iff_eq_take, List.prefix_iff_eq_take] at h
  exact eq_comm.trans (h.trans eq_comm)

/-- A visible token other than a string is read from the squeezed text. -/
theorem read_flush (hb : isBlank c = false) (hq : isQuote c = false) (hm : ¬OpensComment c cs)
    (hnb : NoBreak (c :: cs)) : Reads (c :: cs) (Token.read c cs) (Token.read c (flush cs)) := by
  have hflush : flush (c :: cs) = c :: flush cs := flush_visible hb hq hm
  have hstar : ¬OpensComment c (flush cs) := fun e => hm ⟨e.1, head?_squeeze_flush e.2⟩
  have hs : isSpace c = false := not_isSpace_of_not_isBlank hb
  rw [read_other hs hq, read_other hs hq, if_neg (not_comment hm), if_neg (not_comment hstar),
    startsNumeral_flush, decide_eq_decide.2 (startsCdc_flush cs)]
  refine .ite (fun h _ => h) id (fun _ h hn _ => hflush ▸ readNumeric_flush h hn) fun _ => ?_
  refine .ite (fun h _ => h) id (fun h => ?_) fun _ => ?_
  · obtain ⟨rfl, htake⟩ := (by simpa using h : c = '-' ∧ cs.take 2 = ['-', '>'])
    obtain ⟨ds, rfl⟩ : ['-', '>'] <+: cs := List.prefix_iff_eq_take.2 htake.symm
    exact .of_flush rfl
  refine .ite (fun h hl => ?_) (fun h => ?_) (fun _ h hn hbad => ?_) fun _ => ?_
  · exact hflush ▸ startsName_flush h
      (hl.upTo (Token.readName_suffix _) (Token.readNamed_suffix _))
  · by_contra hname
    rw [← hflush, startsName_flush_not ((Bool.not_eq_true _).mp hname) hnb] at h
    cases h
  · exact hflush ▸ readNamed_flush h hn hbad
  refine .ite (fun h _ => h) id (fun hc h hn _ => ?_) fun _ => ?_
  · subst hc
    exact readHash_flush (h.cons (Token.readHash_suffix cs)).2 hn
  refine .ite (fun h _ => h) id (fun hc h hn _ => ?_) fun _ => .of_flush (readMark_flush c cs)
  subst hc
  exact readAt_flush (h.cons (Token.readAt_suffix cs)).2 hn

/-- A legible backslash stands in front of no line break. -/
theorem noBreak_of_isLegible (h : isLegible false c cs = true) : NoBreak (c :: cs) := by
  rintro ds ⟨⟩
  have hk := ((isLegible_iff.1 h).2.2 rfl).2 rfl
  by_contra hn
  cases cs with
  | nil => exact hn rfl
  | cons n cs =>
      have hn : isNewline n = true := (Bool.not_eq_false _).mp hn
      have hb := isBlank_of_isSpace (isSpace_of_isNewline hn)
      have hx : isHexDigit n = false := by
        by_contra hx
        rw [(isSteady_iff.1 (isSteady_of_isHexDigit ((Bool.not_eq_false _).mp hx))).1] at hb
        cases hb
      have hne : n ≠ ' ' := by rintro rfl; cases hn
      rw [keepsEscape, if_neg (by rw [hx]; exact Bool.false_ne_true), hb, decide_eq_false hne] at hk
      cases hk

end Tokens

end CssPrune.Text

namespace CssPrune

open Text (LegibleTo legibleTo IsBare NoBreak Same Follows flush isQuote isBlank OpensComment)
open Token (isSpace)

/-! ### Whole texts -/

namespace Lexeme

/-- The lexeme is the same in the normal text, where `rest` is behind it: a string, white space, a
comment, or another token whose text is legible. -/
def isLegible (rest : List Char) (x : Lexeme) : Bool :=
  match x.token with
  | .space _ | .comment _ | .string _ => true
  | .badString _ | .badUrl _ => false
  | _ => legibleTo rest false x.text

/-- All lexemes of a text are legible. -/
def legible : List Lexeme → Bool
  | [] => true
  | x :: xs => x.isLegible (textOf xs) && legible xs

/-- Every character of a legible lexeme is legible, and it is no spoiled address. -/
theorem legibleTo_of_isBare {rest : List Char} {x : Lexeme} (hb : IsBare x.token)
    (h : x.isLegible rest = true) :
    legibleTo rest false x.text = true ∧ ∀ text, x.token ≠ .badUrl text := by
  obtain ⟨t, u⟩ := x
  cases t with
  | space | comment | string | badString => exact hb.elim
  | badUrl => cases h
  | _ => exact ⟨h, fun _ e => by cases e⟩

end Lexeme

/-- The tokens of a text other than white space and comments. -/
def tokens (cs : List Char) : List Token :=
  ((Lexeme.scan cs).map Lexeme.token).filter fun t => !t.isBlank

section Tokens

variable {c : Char} {cs rest : List Char}

/-- The tokens of a text are the first one, unless it is blank, and those behind it. -/
theorem tokens_cons (c : Char) (cs : List Char) :
    tokens (c :: cs) =
      [(Token.read c cs).1].filter (fun t => !t.isBlank) ++ tokens (Token.read c cs).2 := by
  rw [tokens, tokens, Lexeme.scan_cons, ← List.filter_append]
  rfl

/-- Blanks in front of a text have no tokens. -/
theorem tokens_dropWhile (cs : List Char) : tokens (cs.dropWhile isSpace) = tokens cs := by
  cases cs with
  | nil => rfl
  | cons c cs =>
      by_cases hs : isSpace c = true
      · rw [List.dropWhile_cons_of_pos hs, tokens_cons, Token.read, if_pos hs]
        rfl
      · rw [List.dropWhile_cons_of_neg hs]

theorem tokens_space (hs : isSpace c = true) (cs : List Char) : tokens (c :: cs) = tokens cs := by
  rw [← tokens_dropWhile (c :: cs), List.dropWhile_cons_of_pos hs, tokens_dropWhile]

theorem tokens_flush (cs : List Char) : tokens (flush cs) = tokens (Text.normalize cs) := by
  rcases Text.flush_eq cs with h | h
  · rw [h]
  · rw [h, tokens_space rfl]

/-- What is left of the squeezed text has the tokens of what is left of the text, if the normal form
of that has. -/
theorem Text.Follows.tokens_eq {left : List Char} (h : Follows left rest) :
    tokens left = tokens (Text.normalize rest) := by
  rcases h with rfl | ⟨rfl, -⟩
  · exact tokens_flush rest
  · rfl

/-- A token that is read from the normal text is followed there by the tokens that follow it. -/
theorem tokens_same {x y : List Char} (hx : x = c :: y)
    (h : Same (Token.read c cs) (Token.read c y))
    (hrest : tokens (Text.normalize (Token.read c cs).2) = tokens (Token.read c cs).2) :
    tokens x = tokens (c :: cs) := by
  rw [hx, tokens_cons, tokens_cons, h.1, h.2.tokens_eq, hrest]

/-- A legible text begins with a legible token. -/
theorem legible_cons (hs : isSpace c = false) (hq : isQuote c = false) (hm : ¬OpensComment c cs)
    (h : Lexeme.legible (Lexeme.scan (c :: cs)) = true) :
    LegibleTo false (c :: cs) (Token.read c cs).2 ∧
      ∀ text, (Token.read c cs).1 ≠ .badUrl text := by
  rw [Lexeme.scan_cons, Lexeme.legible, Bool.and_eq_true, Lexeme.textOf_scan] at h
  have hsuf := (Token.read_suffix c cs).trans (List.suffix_cons c cs)
  obtain ⟨hl, hbad⟩ := Lexeme.legibleTo_of_isBare (Text.isBare_read hs hq hm) h.1
  exact ⟨⟨_, (Token.upTo_append hsuf).symm, hl⟩, hbad⟩

/-- A legible text does not begin with a broken line. -/
theorem noBreak_of_legible (h : Lexeme.legible (Lexeme.scan cs) = true) : NoBreak cs := by
  cases cs with
  | nil => intro ds e; cases e
  | cons c cs =>
      by_cases hc : c = '\\'
      · subst hc
        have hl := (legible_cons rfl rfl (fun e => by cases e.1) h).1
        exact Text.noBreak_of_isLegible (hl.cons (Token.read_suffix _ cs)).1
      · exact Text.noBreak_cons hc cs

theorem read_quote (hq : isQuote c = true) (cs : List Char) :
    Token.read c cs = Token.stringToken (Token.readString c cs) := by
  rcases (by simpa [isQuote] using hq : c = '"' ∨ c = '\'') with rfl | rfl <;> rfl

/-- No bad string is legible. -/
theorem closed_of_isLegible {text : List Char} (hq : isQuote c = true)
    (h : Lexeme.isLegible rest ⟨(Token.read c cs).1, text⟩ = true) :
    (Token.readString c cs).2.1 = true := by
  rw [read_quote hq] at h
  generalize Token.readString c cs = s at h ⊢
  obtain ⟨value, closed, left⟩ := s
  cases closed with
  | true => rfl
  | false => cases h

/-- A string is read from the normal text as it is from the text. -/
theorem same_string (hq : isQuote c = true) (hclosed : (Token.readString c cs).2.1 = true) :
    Same (Token.read c cs) (Token.read c (Text.squeeze (.quoted c false) .flush cs)) := by
  rw [read_quote hq, read_quote hq, Text.readString_quoted hq hclosed]
  generalize Token.readString c cs = s at hclosed ⊢
  obtain ⟨value, closed, left⟩ := s
  obtain rfl : closed = true := hclosed
  exact .of_flush rfl

/-- A text of legible lexemes has the same tokens in normal form. -/
theorem tokens_normalize {raw : List Char} (h : Lexeme.legible (Lexeme.scan raw) = true) :
    tokens (Text.normalize raw) = tokens raw := by
  induction raw using Lexeme.scan.induct with
  | case1 => rfl
  -- the first lexeme keeps its token, and what it leaves is the normal form of what is left
  | case2 c cs t ih =>
      have hcons := h
      rw [Lexeme.scan_cons, Lexeme.legible, Bool.and_eq_true, Lexeme.textOf_scan] at hcons
      obtain ⟨hfirst, hlegible⟩ := hcons
      have hrest : tokens (Text.normalize (Token.read c cs).2) = tokens (Token.read c cs).2 :=
        ih hlegible
      by_cases hs : isSpace c = true
      · have hread : (Token.read c cs).2 = cs.dropWhile isSpace := by rw [Token.read, if_pos hs]
        rw [hread, Text.normalize_dropWhile, tokens_dropWhile] at hrest
        rw [tokens_space hs, Text.normalize, Text.squeeze_blank (Text.isBlank_of_isSpace hs)]
        exact hrest
      rw [Bool.not_eq_true] at hs
      cases hq : isQuote c with
      | true =>
          have hm : ¬OpensComment c cs := by
            rintro ⟨rfl, -⟩
            cases hq
          have hnorm : Text.normalize (c :: cs) = c :: Text.squeeze (.quoted c false) .flush cs := by
            rw [Text.normalize, Text.squeeze_visible (Text.not_isBlank_of_isQuote hq) hm, if_pos hq]
            rfl
          exact tokens_same hnorm (same_string hq (closed_of_isLegible hq hfirst)) hrest
      | false =>
          by_cases hm : OpensComment c cs
          · obtain ⟨rfl, hstar⟩ := hm
            obtain ⟨ds, rfl⟩ := List.head?_eq_some_iff.1 hstar
            have hnorm : Text.normalize ('/' :: '*' :: ds) = Text.normalize (Text.behindComment ds) :=
              (Text.squeeze_opening ⟨rfl, rfl⟩).trans (Text.squeeze_comment _ ds)
            rw [hnorm, tokens_cons]
            exact hrest
          -- a blank of other kinds than the tokenizer's is not legible, so the character is visible
          · obtain ⟨hl, hbad⟩ := legible_cons hs hq hm h
            have hleg := (hl.cons (Token.read_suffix c cs)).1
            have hb := Text.not_isBlank_of_isLegible hleg hs
            exact tokens_same (Text.normalize_visible hb hq hm) (Text.read_flush hb hq hm (Text.noBreak_of_isLegible hleg) hl
              (noBreak_of_legible hlegible) hbad) hrest

/-- A text with escapes, strings, comments and an address without quotes. -/
theorem tokens_normalize_escapes :
    Text.normalize "/*a*/ .\\31 b  url( c\\29  )\t\"d  /*\"  e\\:f".toList =
        ".\\31 b url( c\\29 ) \"d  /*\" e\\:f".toList ∧
      tokens (Text.normalize "/*a*/ .\\31 b  url( c\\29  )\t\"d  /*\"  e\\:f".toList) =
        tokens "/*a*/ .\\31 b  url( c\\29  )\t\"d  /*\"  e\\:f".toList :=
  ⟨by decide +kernel, tokens_normalize (by decide +kernel)⟩

/-- A text need not have the same tokens in normal form, and no condition on its lexemes can be left
out: comments and quotes in other tokens, white space that is none to the tokenizer, blanks behind a
backslash and behind digits, bad strings and bad arguments of `url(`. -/
theorem not_tokens_normalize :
    (¬∀ raw : List Char, tokens (Text.normalize raw) = tokens raw) ∧
      (["url(/*b*/a)", "\\/*b*/", "\\\" a  \"  b", "a\u00a0b", "\\ ", "\\\tb", "\\  b", "\\31  b",
          "\\31/**/b", "\\\nb", "\"a\n\"  b  \"", "url(a  b)"].all fun raw =>
        tokens (Text.normalize raw.toList) ≠ tokens raw.toList) = true := by
  refine ⟨fun h => ?_, by decide +kernel⟩
  have hurl : tokens (Text.normalize "url(/*b*/a)".toList) ≠ tokens "url(/*b*/a)".toList := by
    decide +kernel
  exact hurl (h _)

end Tokens

end CssPrune
