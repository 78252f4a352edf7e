import CssPrune.Text.Blank

/-!
# Normal text

`normalize` takes comments out of a piece of style sheet text and squeezes blanks: whatever blanks
and comments stand between two visible characters become one space, and the ends carry none.  Quoted
strings are copied as they are.
-/

namespace CssPrune.Text

/-- What the reader of raw text is inside of.  `opening` is the place between the two characters
that open a comment. -/
inductive Within where
  | plain
  | quoted (quote : Char) (escaped : Bool)
  | opening
  | comment (star : Bool)
deriving DecidableEq

/-- What has been written: nothing yet, something that ends at its last visible character, or
something that blanks or comments have followed since. -/
inductive Written where
  | nothing
  | flush
  | owing
deriving DecidableEq

namespace Written

/-- After a blank or a comment. -/
def gap : Written → Written
  | .nothing => .nothing
  | .flush | .owing => .owing

/-- The space that goes before the next visible character. -/
def space : Written → List Char
  | .owing => [' ']
  | .nothing | .flush => []

end Written

def isQuote (c : Char) : Bool := c = '"' || c = '\''

/-- Squeezes the rest of a text that is read within `within`, behind what has been `written`. -/
def squeeze (within : Within) (written : Written) : List Char → List Char
  | [] => []
  | c :: cs =>
    match within with
    | .plain =>
      if isQuote c then written.space ++ c :: squeeze (.quoted c false) .flush cs
      else if c = '/' ∧ cs.head? = some '*' then squeeze .opening written.gap cs
      else if isBlank c then squeeze .plain written.gap cs
      else written.space ++ c :: squeeze .plain .flush cs
    | .quoted quote escaped =>
      if escaped then c :: squeeze (.quoted quote false) .flush cs
      else if c = '\\' then c :: squeeze (.quoted quote true) .flush cs
      else if c = quote then c :: squeeze .plain .flush cs
      else c :: squeeze (.quoted quote false) .flush cs
    | .opening => squeeze (.comment false) written cs
    | .comment star =>
      if star ∧ c = '/' then squeeze .plain written cs
      else squeeze (.comment (c = '*')) written cs

/-- The normal form of a text. -/
def normalize (raw : List Char) : List Char := squeeze .plain .nothing raw

/-- The string form of `normalize`. -/
def normalString (raw : List Char) : String := String.ofList (normalize raw)

end CssPrune.Text
