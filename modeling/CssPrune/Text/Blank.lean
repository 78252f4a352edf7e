/-!
# Blank characters

Unicode's `White_Space` property, and what is cut by it: the blank ends of a text (`trim`) and the
words between its blanks (`words`).
-/

namespace CssPrune.Text

/-- Unicode `White_Space`. -/
def isBlank (c : Char) : Bool :=
  ('\t' ≤ c && c ≤ '\r') || c = ' ' || c = '\u0085' || c = '\u00a0' || c = '\u1680' ||
    ('\u2000' ≤ c && c ≤ '\u200a') || c = '\u2028' || c = '\u2029' || c = '\u202f' ||
    c = '\u205f' || c = '\u3000'

/-! ### Blank ends -/

/-- The text without the blanks in front. -/
def trimStart (s : List Char) : List Char := s.dropWhile isBlank

/-- The text without the blanks at its end. -/
def trimEnd (s : List Char) : List Char := (s.reverse.dropWhile isBlank).reverse

/-- The text without blank ends. -/
def trim (s : List Char) : List Char := trimEnd (trimStart s)

/-- Nothing but blanks, or nothing at all. -/
def allBlank (s : List Char) : Bool := s.all isBlank

/-! ### Words -/

/-- Puts a character in front of the words of the text after it: it opens a word of its own unless
that text goes on with one. -/
def consWord (c : Char) (rest : List Char) (ws : List (List Char)) : List (List Char) :=
  match ws with
  | [] => [[c]]
  | w :: ws => if rest.head?.all isBlank then [c] :: w :: ws else (c :: w) :: ws

/-- The maximal runs of characters that are not blank, from left to right. -/
def words : List Char → List (List Char)
  | [] => []
  | c :: cs => if isBlank c then words cs else consWord c cs (words cs)

end CssPrune.Text
