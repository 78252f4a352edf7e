import CssPrune.Token.Name

/-!
# Literals

Quoted strings, comments, numerals and the arguments of `url(`.  Each reader takes the text behind
the characters that announce the literal and gives its value and the text left unread, which is an
end of that text.
-/

namespace CssPrune.Token

/-! ### Strings -/

/-- Reads a string up to its closing quote or the end of the text.  The flag is lost when a newline
cuts the string short; that newline stays unread. -/
def readString (quote : Char) : List Char → List Char × Bool × List Char
  | [] => ([], true, [])
  | c :: cs =>
    if c = quote then ([], true, cs)
    else if isNewline c then ([], false, c :: cs)
    else if c = '\\' then
      if cs = [] then ([], true, [])
      else if startsNewline cs then readString quote (dropNewline cs)
      else
        let e := readEscape cs
        let s := readString quote e.2
        (e.1 :: s.1, s.2)
    else
      let s := readString quote cs
      (denull c :: s.1, s.2)
termination_by cs => cs.length
decreasing_by
  · have := (dropNewline_suffix cs).length_le
    simp only [List.length_cons]; omega
  · have := (readEscape_suffix cs).length_le
    simp only [List.length_cons]; omega
  · simp only [List.length_cons]; omega

/-- What follows a string ends the text. -/
theorem readString_suffix (quote : Char) (cs : List Char) : (readString quote cs).2.2 <:+ cs := by
  fun_induction readString quote cs with
  | case1 => exact List.suffix_refl _
  | case2 => exact List.suffix_cons _ _
  | case3 => exact List.suffix_refl _
  | case4 => exact List.nil_suffix
  | case5 cs _ _ _ _ ih => exact (ih.trans (dropNewline_suffix cs)).trans (List.suffix_cons _ _)
  | case6 cs _ _ _ _ e s ih =>
    exact (ih.trans (readEscape_suffix cs)).trans (List.suffix_cons _ _)
  | case7 c cs _ _ _ s ih => exact ih.trans (List.suffix_cons _ _)

/-- The token of a string, by whether its quote was found. -/
def stringToken : List Char × Bool × List Char → Token × List Char
  | (value, closed, rest) =>
    (if closed then .string (String.ofList value) else .badString (String.ofList value), rest)

/-! ### Comments -/

/-- Reads a comment up to the star and slash that close it or the end of the text. -/
def readComment : List Char → List Char × List Char
  | [] => ([], [])
  | '*' :: '/' :: cs => ([], cs)
  | c :: cs => (c :: (readComment cs).1, (readComment cs).2)

/-- What follows a comment ends the text. -/
theorem readComment_suffix (cs : List Char) : (readComment cs).2 <:+ cs := by
  fun_induction readComment cs with
  | case1 => exact List.suffix_refl _
  | case2 cs => exact ⟨['*', '/'], rfl⟩
  | case3 c cs _ ih => exact ih.trans (List.suffix_cons _ _)

/-! ### Numerals -/

def startsDigit (cs : List Char) : Bool := cs.head?.any Char.isDigit

/-- A digit, or a point with a digit behind it. -/
def startsUnsigned : List Char → Bool
  | '.' :: cs => startsDigit cs
  | cs => startsDigit cs

def readDigits (cs : List Char) : List Char × List Char :=
  (cs.takeWhile Char.isDigit, cs.dropWhile Char.isDigit)

def readSign : List Char → Option Sign × List Char
  | '+' :: cs => (some .plus, cs)
  | '-' :: cs => (some .minus, cs)
  | cs => (none, cs)

/-- The digits behind a point; a point without digits is not read. -/
def readFraction : List Char → List Char × List Char
  | '.' :: cs => if startsDigit cs then readDigits cs else ([], '.' :: cs)
  | cs => ([], cs)

/-- An exponent is read only when it has a digit. -/
def readExponent (cs : List Char) : Option Exponent × List Char :=
  match cs with
  | c :: rest =>
    if c = 'e' || c = 'E' then
      let s := readSign rest
      if startsDigit s.2 then
        let d := readDigits s.2
        (some ⟨s.1, d.1⟩, d.2)
      else (none, cs)
    else (none, cs)
  | [] => (none, cs)

/-- The parts of a numeral, one behind the other. -/
def readNumeral (cs : List Char) : Numeral × List Char :=
  let s := readSign cs
  let w := readDigits s.2
  let f := readFraction w.2
  let e := readExponent f.2
  (⟨s.1, w.1, f.1, e.1⟩, e.2)

theorem readDigits_suffix (cs : List Char) : (readDigits cs).2 <:+ cs :=
  List.dropWhile_suffix _

theorem readSign_suffix (cs : List Char) : (readSign cs).2 <:+ cs := by
  unfold readSign
  split
  · exact List.suffix_cons _ _
  · exact List.suffix_cons _ _
  · exact List.suffix_refl _

theorem readFraction_suffix (cs : List Char) : (readFraction cs).2 <:+ cs := by
  unfold readFraction
  split
  · split
    · exact (readDigits_suffix _).trans (List.suffix_cons _ _)
    · exact List.suffix_refl _
  · exact List.suffix_refl _

/-- What follows an exponent ends the text, whether or not one was read. -/
theorem readExponent_suffix (cs : List Char) : (readExponent cs).2 <:+ cs := by
  unfold readExponent
  split
  · split
    · simp only
      split
      · exact ((readDigits_suffix _).trans (readSign_suffix _)).trans (List.suffix_cons _ _)
      · exact List.suffix_refl _
    · exact List.suffix_refl _
  · exact List.suffix_refl _

/-- A numeral and what makes it a percentage or a dimension. -/
def readNumeric (cs : List Char) : Token × List Char :=
  let n := readNumeral cs
  match n.2 with
  | '%' :: rest => (.percentage n.1, rest)
  | rest =>
    if startsName rest then
      let u := readName rest
      (.dimension n.1 (String.ofList u.1), u.2)
    else (.number n.1, rest)

/-! ### Arguments of `url(` -/

/-- Characters that an argument without quotes cannot hold. -/
def isUnquotable (c : Char) : Bool :=
  ('\x01' ≤ c && c ≤ '\x08') || c = '\x0b' || ('\x0e' ≤ c && c ≤ '\x1f') || c = '\x7f' ||
    c = '"' || c = '\'' || c = '('

/-- Reads on to the closing parenthesis, which is not part of the text; a backslash protects a
parenthesis or a backslash behind it. -/
def readBadUrl : List Char → List Char × List Char
  | [] => ([], [])
  | ')' :: cs => ([], cs)
  | '\\' :: ')' :: cs => ('\\' :: ')' :: (readBadUrl cs).1, (readBadUrl cs).2)
  | '\\' :: '\\' :: cs => ('\\' :: '\\' :: (readBadUrl cs).1, (readBadUrl cs).2)
  | c :: cs => (c :: (readBadUrl cs).1, (readBadUrl cs).2)

/-- What follows an argument that went wrong ends the text. -/
theorem readBadUrl_suffix (cs : List Char) : (readBadUrl cs).2 <:+ cs := by
  fun_induction readBadUrl cs with
  | case1 => exact List.suffix_refl _
  | case2 => exact List.suffix_cons _ _
  | case3 cs ih => exact ih.trans ⟨['\\', ')'], rfl⟩
  | case4 cs ih => exact ih.trans ⟨['\\', '\\'], rfl⟩
  | case5 c cs _ _ _ ih => exact ih.trans (List.suffix_cons _ _)

/-- How the argument of `url(` ends: well, or with a character it cannot hold, which is read. -/
inductive UrlEnd where
  | closed
  | bad
deriving DecidableEq

/-- Behind the argument only white space may precede the parenthesis. -/
def readUrlEnd (cs : List Char) : UrlEnd × List Char :=
  match cs.dropWhile isSpace with
  | [] => (.closed, [])
  | c :: rest => if c = ')' then (.closed, rest) else (.bad, rest)

/-- Reads an argument without quotes. -/
def readUrl : List Char → List Char × UrlEnd × List Char
  | [] => ([], .closed, [])
  | c :: cs =>
    if c = ')' then ([], .closed, cs)
    else if isSpace c then ([], readUrlEnd cs)
    else if isUnquotable c then ([], .bad, cs)
    else if c = '\\' then
      if startsNewline cs then ([], .bad, cs)
      else
        let e := readEscape cs
        let u := readUrl e.2
        (e.1 :: u.1, u.2)
    else
      let u := readUrl cs
      (denull c :: u.1, u.2)
termination_by cs => cs.length
decreasing_by
  · have := (readEscape_suffix cs).length_le
    simp only [List.length_cons]; omega
  · simp only [List.length_cons]; omega

theorem readUrlEnd_suffix (cs : List Char) : (readUrlEnd cs).2 <:+ cs := by
  have h := List.dropWhile_suffix (l := cs) isSpace
  unfold readUrlEnd
  split
  · exact List.nil_suffix
  · next heq =>
    rw [heq] at h
    split <;> exact (List.suffix_cons _ _).trans h

/-- What follows an argument ends the text. -/
theorem readUrl_suffix (cs : List Char) : (readUrl cs).2.2 <:+ cs := by
  fun_induction readUrl cs with
  | case1 => exact List.suffix_refl _
  | case2 => exact List.suffix_cons _ _
  | case3 => exact (readUrlEnd_suffix _).trans (List.suffix_cons _ _)
  | case4 => exact List.suffix_cons _ _
  | case5 => exact List.suffix_cons _ _
  | case6 cs _ _ _ _ e u ih =>
    exact (ih.trans (readEscape_suffix cs)).trans (List.suffix_cons _ _)
  | case7 c cs _ _ _ _ u ih => exact ih.trans (List.suffix_cons _ _)

/-- The characters of `whole` in front of its end `rest`. -/
def upTo (whole rest : List Char) : List Char := whole.take (whole.length - rest.length)

/-- A text is what stands in front of one of its ends, and that end. -/
theorem upTo_append {whole rest : List Char} (h : rest <:+ whole) :
    upTo whole rest ++ rest = whole := by
  obtain ⟨t, rfl⟩ := h
  simp [upTo]

/-- In front of the second of two texts stands the first. -/
@[simp] theorem upTo_suffix (u v : List Char) : upTo (u ++ v) v = u :=
  List.append_cancel_right (upTo_append (List.suffix_append u v))

/-- The token of `url(` with what follows; `none` when the argument is quoted, so that `url` is a
function like any other.  A bad argument is kept as it is spelt. -/
def readUrlToken (cs : List Char) : Option (Token × List Char) :=
  let arg := cs.dropWhile isSpace
  if arg.head? = some '"' ∨ arg.head? = some '\'' then none
  else
    match readUrl arg with
    | (value, .closed, rest) => some (.url (String.ofList value), rest)
    | (_, .bad, rest) =>
      let tail := readBadUrl rest
      some (.badUrl (String.ofList (upTo arg rest ++ tail.1)), tail.2)

/-- What follows the token of `url(` ends the text. -/
theorem readUrlToken_suffix {cs : List Char} {t : Token × List Char}
    (h : readUrlToken cs = some t) : t.2 <:+ cs := by
  have hd := List.dropWhile_suffix (l := cs) isSpace
  have hu := readUrl_suffix (cs.dropWhile isSpace)
  simp only [readUrlToken] at h
  split at h
  · cases h
  · split at h
    · next heq => cases h; rw [heq] at hu; exact hu.trans hd
    · next heq =>
      cases h; rw [heq] at hu
      exact ((readBadUrl_suffix _).trans hu).trans hd

end CssPrune.Token
