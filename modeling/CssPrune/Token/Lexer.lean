import CssPrune.Token.Literal

/-!
# Reading tokens

`Token.read` takes the token at the head of a text; `Lexeme.scan` cuts a whole text into lexemes.
Every character belongs to exactly one lexeme: the texts of the lexemes, put together, are the text
(`Lexeme.textOf_scan`).
-/

namespace CssPrune

namespace Token

/-! ### One token -/

/-- A sign may precede the digits. -/
def startsNumeral : List Char → Bool
  | c :: cs => if c = '+' || c = '-' then startsUnsigned cs else startsUnsigned (c :: cs)
  | [] => false

/-- A name, and what a parenthesis directly behind it makes of it. -/
def readNamed (cs : List Char) : Token × List Char :=
  let n := readName cs
  let name := String.ofList n.1
  match n.2 with
  | '(' :: rest =>
    if n.1.map Char.toLower = ['u', 'r', 'l'] then
      (readUrlToken rest).getD (.function name, rest)
    else (.function name, rest)
  | rest => (.ident name, rest)

/-- What follows a `#`. -/
def readHash (cs : List Char) : Token × List Char :=
  let n := readName cs
  if startsName cs then (.idHash (String.ofList n.1), n.2)
  else if cs.head?.any fun c => c.isDigit || c = '-' then (.hash (String.ofList n.1), n.2)
  else (.delim '#', cs)

/-- What follows an `@`. -/
def readAt (cs : List Char) : Token × List Char :=
  if startsName cs then
    let n := readName cs
    (.atKeyword (String.ofList n.1), n.2)
  else (.delim '@', cs)

/-- Tokens that are marks of one to four characters; a character of no other meaning is a token of
its own. -/
def readMark : Char → List Char → Token × List Char
  | '<', '!' :: '-' :: '-' :: cs => (.cdo, cs)
  | '~', '=' :: cs => (.includeMatch, cs)
  | '|', '=' :: cs => (.dashMatch, cs)
  | '^', '=' :: cs => (.prefixMatch, cs)
  | '$', '=' :: cs => (.suffixMatch, cs)
  | '*', '=' :: cs => (.substringMatch, cs)
  | ':', cs => (.colon, cs)
  | ';', cs => (.semicolon, cs)
  | ',', cs => (.comma, cs)
  | '(', cs => (.openParen, cs)
  | '[', cs => (.openSquare, cs)
  | '\x7b', cs => (.openCurly, cs)
  | ')', cs => (.closeParen, cs)
  | ']', cs => (.closeSquare, cs)
  | '\x7d', cs => (.closeCurly, cs)
  | c, cs => (.delim c, cs)

/-- The token at the head of the text `c :: cs`, and the text behind it. -/
def read (c : Char) (cs : List Char) : Token × List Char :=
  if isSpace c then
    (.space (String.ofList (c :: cs.takeWhile isSpace)), cs.dropWhile isSpace)
  else if c = '"' || c = '\'' then stringToken (readString c cs)
  else if startsNumeral (c :: cs) then readNumeric (c :: cs)
  else if c = '-' && cs.take 2 = ['-', '>'] then (.cdc, cs.drop 2)
  else if startsName (c :: cs) then readNamed (c :: cs)
  else if c = '#' then readHash cs
  else if c = '@' then readAt cs
  else if c = '/' && cs.head? = some '*' then
    let t := readComment (cs.drop 1)
    (.comment (String.ofList t.1), t.2)
  else readMark c cs

/-! ### A token is not empty -/

theorem stringToken_suffix (quote : Char) (cs : List Char) :
    (stringToken (readString quote cs)).2 <:+ cs :=
  readString_suffix quote cs

theorem readHash_suffix (cs : List Char) : (readHash cs).2 <:+ cs := by
  simp only [readHash]
  split
  · exact readName_suffix cs
  · split
    · exact readName_suffix cs
    · exact List.suffix_refl _

theorem readAt_suffix (cs : List Char) : (readAt cs).2 <:+ cs := by
  unfold readAt
  split
  · exact readName_suffix cs
  · exact List.suffix_refl _

/-- What follows a mark ends the text. -/
theorem readMark_suffix (c : Char) (cs : List Char) : (readMark c cs).2 <:+ cs := by
  unfold readMark
  split <;> first
    | exact List.suffix_refl _
    | exact List.suffix_cons _ _
    | exact ⟨['!', '-', '-'], rfl⟩

/-- A name that starts here has a first character. -/
theorem readName_shorter {c : Char} {cs : List Char} (h : startsName (c :: cs) = true) :
    (readName (c :: cs)).2 <:+ cs := by
  rw [readName]
  split
  · next hc =>
    subst hc
    split
    · next hn => simp [startsName, hn] at h
    · exact (readName_suffix _).trans (readEscape_suffix cs)
  · split
    · exact readName_suffix cs
    · next hb hn =>
      refine absurd ?_ hn
      unfold startsName at h
      split at h
      · next heq => cases heq; decide
      · next heq => cases heq; exact absurd rfl hb
      · next heq => cases heq; simp [isNameChar, h]
      · next heq => cases heq

/-- A name takes at least one character. -/
theorem readNamed_shorter {c : Char} {cs : List Char} (h : startsName (c :: cs) = true) :
    (readNamed (c :: cs)).2 <:+ cs := by
  have hs := readName_shorter h
  simp only [readNamed]
  split
  · next heq =>
    rw [heq] at hs
    have hs := (List.suffix_cons _ _).trans hs
    split
    · cases hu : readUrlToken _ with
      | none => exact hs
      | some t => exact (readUrlToken_suffix hu).trans hs
    · exact hs
  · exact hs

/-- A numeral takes at least one character: a sign or a point has a digit behind it. -/
theorem readNumeral_shorter {c : Char} {cs : List Char} (h : startsNumeral (c :: cs) = true) :
    (readNumeral (c :: cs)).2 <:+ cs := by
  refine (readExponent_suffix _).trans ?_
  simp only [startsNumeral] at h
  by_cases hsign : c = '+' ∨ c = '-'
  · have hr : (readSign (c :: cs)).2 = cs := by
      rcases hsign with rfl | rfl <;> rfl
    rw [hr]
    exact (readFraction_suffix _).trans (readDigits_suffix cs)
  · have hplus : c ≠ '+' := fun e => hsign (.inl e)
    have hminus : c ≠ '-' := fun e => hsign (.inr e)
    have hr : (readSign (c :: cs)).2 = c :: cs := by
      unfold readSign
      split
      · next heq => cases heq; exact absurd rfl hplus
      · next heq => cases heq; exact absurd rfl hminus
      · rfl
    rw [hr]
    simp only [hplus, hminus, decide_false, Bool.or_self, Bool.false_eq_true, if_false] at h
    by_cases hd : c.isDigit = true
    · refine (readFraction_suffix _).trans ?_
      have : (readDigits (c :: cs)).2 = cs.dropWhile Char.isDigit := by
        simp [readDigits, hd]
      rw [this]
      exact List.dropWhile_suffix _
    · have : (readDigits (c :: cs)).2 = c :: cs := by
        simp [readDigits, hd]
      rw [this]
      unfold startsUnsigned at h
      split at h
      · next heq =>
        cases heq
        simp only [readFraction, h, if_true]
        exact readDigits_suffix cs
      · simp [startsDigit, hd] at h

/-- A number takes at least one character, with what follows its numeral. -/
theorem readNumeric_shorter {c : Char} {cs : List Char} (h : startsNumeral (c :: cs) = true) :
    (readNumeric (c :: cs)).2 <:+ cs := by
  have hs := readNumeral_shorter h
  simp only [readNumeric]
  split
  · next heq => rw [heq] at hs; exact (List.suffix_cons _ _).trans hs
  · split
    · exact (readName_suffix _).trans hs
    · exact hs

/-- What a token leaves unread lies behind its first character. -/
theorem read_suffix (c : Char) (cs : List Char) : (read c cs).2 <:+ cs := by
  unfold read
  split
  · exact List.dropWhile_suffix _
  split
  · exact stringToken_suffix c cs
  split
  · next h => exact readNumeric_shorter h
  split
  · exact List.drop_suffix _ _
  split
  · next h => exact readNamed_shorter h
  split
  · exact readHash_suffix cs
  split
  · exact readAt_suffix cs
  split
  · exact (readComment_suffix _).trans (List.drop_suffix _ _)
  · exact readMark_suffix c cs

end Token

/-! ### A whole text -/

namespace Lexeme

/-- Cuts a text into its lexemes. -/
def scan : List Char → List Lexeme
  | [] => []
  | c :: cs =>
    let t := Token.read c cs
    ⟨t.1, Token.upTo (c :: cs) t.2⟩ :: scan t.2
termination_by cs => cs.length
decreasing_by
  have := (Token.read_suffix c cs).length_le
  simp only [List.length_cons]; omega

/-- The characters of a list of lexemes. -/
def textOf (xs : List Lexeme) : List Char := xs.flatMap Lexeme.text

/-- No character is lost and none is read twice. -/
theorem textOf_scan (cs : List Char) : textOf (scan cs) = cs := by
  fun_induction scan cs with
  | case1 => rfl
  | case2 c cs t ih =>
    have h : t.2 <:+ c :: cs := (Token.read_suffix c cs).trans (List.suffix_cons _ _)
    have e : textOf (⟨t.1, Token.upTo (c :: cs) t.2⟩ :: scan t.2) =
        Token.upTo (c :: cs) t.2 ++ textOf (scan t.2) := rfl
    rw [e, ih]
    exact Token.upTo_append h

end Lexeme

end CssPrune
