import CssPrune.Numeral

/-!
# Tokens

The tokens of a style sheet.  Names and strings are held with their escapes resolved; a lexeme pairs
a token with the characters it was read from.
-/

namespace CssPrune

/-- A token, with its value. -/
inductive Token where
  | ident (name : String)
  | atKeyword (name : String)
  | hash (name : String)
  | idHash (name : String)
  | string (value : String)
  | badString (value : String)
  | url (value : String)
  | badUrl (text : String)
  | delim (c : Char)
  | number (n : Numeral)
  | percentage (n : Numeral)
  | dimension (n : Numeral) (unit : String)
  | space (text : String)
  | comment (text : String)
  | colon
  | semicolon
  | comma
  | includeMatch
  | dashMatch
  | prefixMatch
  | suffixMatch
  | substringMatch
  | cdo
  | cdc
  | function (name : String)
  | openParen
  | openSquare
  | openCurly
  | closeParen
  | closeSquare
  | closeCurly
deriving DecidableEq, Repr

/-- The kinds of brackets. -/
inductive Bracket where
  | paren
  | square
  | curly
deriving DecidableEq, Repr

namespace Token

/-- The bracket a token opens; a function name comes with its parenthesis. -/
def opens? : Token → Option Bracket
  | .function _ | .openParen => some .paren
  | .openSquare => some .square
  | .openCurly => some .curly
  | _ => none

/-- The bracket a token closes. -/
def closes? : Token → Option Bracket
  | .closeParen => some .paren
  | .closeSquare => some .square
  | .closeCurly => some .curly
  | _ => none

/-- White space and comments separate tokens and mean nothing else. -/
def isBlank : Token → Bool
  | .space _ | .comment _ => true
  | _ => false

end Token

/-- A token and the text it was read from. -/
structure Lexeme where
  token : Token
  text : List Char
deriving DecidableEq, Repr

end CssPrune
