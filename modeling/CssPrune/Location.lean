import CssPrune.Token.Name

/-!
# Places in a text

A place is an offset, counted in characters from the start of the text.  People are told a line and
a column instead: lines end at a line feed, a form feed or a carriage return, with a line feed
behind it or not, and columns count UTF-16 code units.
-/

namespace CssPrune

/-- Both are counted from one. -/
structure Location where
  line : Nat
  column : Nat
deriving DecidableEq, Repr

namespace Location

def origin : Location := ⟨1, 1⟩

/-- The number of UTF-16 code units of a character. -/
def units (c : Char) : Nat := if c.toNat < 0x10000 then 1 else 2

/-- The first column of the line below. -/
def nextLine (l : Location) : Location := ⟨l.line + 1, 1⟩

/-- The location behind a text that starts at `l`. -/
def advance (l : Location) : List Char → Location
  | [] => l
  | '\r' :: '\n' :: cs => advance l.nextLine cs
  | c :: cs =>
    if Token.isNewline c then advance l.nextLine cs
    else advance ⟨l.line, l.column + units c⟩ cs

/-- The location of an offset in a text. -/
def ofOffset (text : List Char) (offset : Nat) : Location := origin.advance (text.take offset)

end Location

end CssPrune
