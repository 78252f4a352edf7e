import CssPrune.Token

/-!
# Names and escapes

A name is a run of name characters and escapes, read to its value.  An escape is a backslash before
up to six hexadecimal digits and one white space, or before any other character.  What is left
unread is always an end of the text (`readEscape_suffix`, `readName_suffix`).
-/

namespace CssPrune.Token

/-! ### Characters -/

/-- The characters that end a line. -/
def isNewline (c : Char) : Bool := c = '\n' || c = '\x0c' || c = '\r'

/-- White space between tokens; only these five characters are. -/
def isSpace (c : Char) : Bool := c = ' ' || c = '\t' || isNewline c

def isHexDigit (c : Char) : Bool :=
  c.isDigit || ('a' ≤ c && c ≤ 'f') || ('A' ≤ c && c ≤ 'F')

/-- The characters a name can begin with. -/
def isNameStart (c : Char) : Bool := c.isAlpha || c = '_' || c = '\x00' || 0x80 ≤ c.toNat

/-- The characters of a name. -/
def isNameChar (c : Char) : Bool := isNameStart c || c.isDigit || c = '-'

/-- Stands for a character that cannot be written down. -/
def replacement : Char := '\ufffd'

/-- A null character in the text counts as the replacement character. -/
def denull (c : Char) : Char := if c = '\x00' then replacement else c

def startsNewline (cs : List Char) : Bool := cs.head?.any isNewline

/-- Whether a name can be read here.  A backslash begins one unless a newline follows it; after a
hyphen it always does. -/
def startsName : List Char → Bool
  | '-' :: c :: _ => isNameStart c || c = '-' || c = '\\'
  | '\\' :: cs => !startsNewline cs
  | c :: _ => isNameStart c
  | [] => false

/-! ### Line ends -/

/-- The text behind one newline; a carriage return and a line feed are one. -/
def dropNewline : List Char → List Char
  | '\r' :: '\n' :: cs => cs
  | c :: cs => if isNewline c then cs else c :: cs
  | [] => []

/-- The text behind at most one white space. -/
def dropSpace : List Char → List Char
  | c :: cs => if c = ' ' || c = '\t' then cs else dropNewline (c :: cs)
  | [] => []

/-- What follows a newline ends the text. -/
theorem dropNewline_suffix (cs : List Char) : dropNewline cs <:+ cs := by
  unfold dropNewline
  split
  · exact ⟨['\r', '\n'], rfl⟩
  · split
    · exact List.suffix_cons _ _
    · exact List.suffix_refl _
  · exact List.suffix_refl _

theorem dropSpace_suffix (cs : List Char) : dropSpace cs <:+ cs := by
  unfold dropSpace
  split
  · split
    · exact List.suffix_cons _ _
    · exact dropNewline_suffix _
  · exact List.suffix_refl _

/-! ### Escapes -/

/-- The value of a hexadecimal digit. -/
def hexValue (c : Char) : Nat :=
  if c.isDigit then c.toNat - '0'.toNat
  else if 'a' ≤ c then c.toNat - 'a'.toNat + 10
  else c.toNat - 'A'.toNat + 10

/-- The character of a code point; zero and numbers that are none give the replacement character. -/
def charOfCode (n : Nat) : Char := denull (Char.ofNat n)

/-- The character of a code point in hexadecimal digits. -/
def charOfHex (ds : List Char) : Char := charOfCode (ds.foldl (fun n d => 16 * n + hexValue d) 0)

/-- Reads what follows a backslash that begins an escape. -/
def readEscape : List Char → Char × List Char
  | [] => (replacement, [])
  | c :: cs =>
    let ds := ((c :: cs).take 6).takeWhile isHexDigit
    if ds = [] then (denull c, cs)
    else (charOfHex ds, dropSpace ((c :: cs).drop ds.length))

/-- What follows an escape ends the text. -/
theorem readEscape_suffix (cs : List Char) : (readEscape cs).2 <:+ cs := by
  cases cs with
  | nil => exact List.suffix_refl _
  | cons c cs =>
    simp only [readEscape]
    split
    · exact List.suffix_cons _ _
    · exact (dropSpace_suffix _).trans (List.drop_suffix _ _)

/-! ### Names -/

/-- The value of the name that stands here and the text behind it; the name may be empty. -/
def readName : List Char → List Char × List Char
  | [] => ([], [])
  | c :: cs =>
    if c = '\\' then
      if startsNewline cs then ([], c :: cs)
      else
        let e := readEscape cs
        let n := readName e.2
        (e.1 :: n.1, n.2)
    else if isNameChar c then
      let n := readName cs
      (denull c :: n.1, n.2)
    else ([], c :: cs)
termination_by cs => cs.length
decreasing_by
  · have := (readEscape_suffix cs).length_le
    simp only [List.length_cons]; omega
  · simp only [List.length_cons]; omega

/-- What follows a name ends the text. -/
theorem readName_suffix (cs : List Char) : (readName cs).2 <:+ cs := by
  fun_induction readName cs with
  | case1 => exact List.suffix_refl _
  | case2 => exact List.suffix_refl _
  | case3 cs _ e n ih =>
    exact (ih.trans (readEscape_suffix cs)).trans (List.suffix_cons _ _)
  | case4 c cs _ _ n ih => exact ih.trans (List.suffix_cons _ _)
  | case5 => exact List.suffix_refl _

end CssPrune.Token
