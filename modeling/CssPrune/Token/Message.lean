import CssPrune.Token
import CssPrune.Text.Quoted

/-!
# Tokens in messages

How a token is shown in an error message: its kind, and its parts between parentheses or, for
numerals, between braces.
-/

namespace CssPrune

/-- Single-precision numbers are shown without an exponent from 1e-4 up to, but not including,
1e16. -/
def Token.floatFormat : Decimal.FloatFormat := ⟨-4, 15, .away, false⟩

namespace Numeral

def signField (n : Numeral) : String := "has_sign: " ++ toString n.hasSign

def integerField (n : Numeral) : String :=
  "int_value: " ++
    match n.integer? with
    | some k => "Some(" ++ toString k ++ ")"
    | none => "None"

def floatField (label : String) (x : Float) : String :=
  label ++ ": " ++ Token.floatFormat.text32 x.toFloat32

end Numeral

namespace Token

/-- A kind of token and a text that goes with it. -/
def withText (kind : String) (text : String) : String :=
  kind ++ "(" ++ Text.quoteString text ++ ")"

/-- A kind of token and its named parts. -/
def withFields (kind : String) (fields : List String) : String :=
  kind ++ " \x7b " ++ ", ".intercalate fields ++ " \x7d"

/-- A token as messages show it. -/
def describe : Token → String
  | .ident name => withText "Ident" name
  | .atKeyword name => withText "AtKeyword" name
  | .hash name => withText "Hash" name
  | .idHash name => withText "IDHash" name
  | .string value => withText "QuotedString" value
  | .badString value => withText "BadString" value
  | .url value => withText "UnquotedUrl" value
  | .badUrl text => withText "BadUrl" text
  | .delim c => "Delim(" ++ Text.quoteChar c ++ ")"
  | .number n =>
    withFields "Number" [n.signField, Numeral.floatField "value" n.value, n.integerField]
  | .percentage n =>
    withFields "Percentage"
      [n.signField, Numeral.floatField "unit_value" (n.value / 100), n.integerField]
  | .dimension n unit =>
    withFields "Dimension"
      [n.signField, Numeral.floatField "value" n.value, n.integerField,
        "unit: " ++ Text.quoteString unit]
  | .space text => withText "WhiteSpace" text
  | .comment text => withText "Comment" text
  | .colon => "Colon"
  | .semicolon => "Semicolon"
  | .comma => "Comma"
  | .includeMatch => "IncludeMatch"
  | .dashMatch => "DashMatch"
  | .prefixMatch => "PrefixMatch"
  | .suffixMatch => "SuffixMatch"
  | .substringMatch => "SubstringMatch"
  | .cdo => "CDO"
  | .cdc => "CDC"
  | .function name => withText "Function" name
  | .openParen => "ParenthesisBlock"
  | .openSquare => "SquareBracketBlock"
  | .openCurly => "CurlyBracketBlock"
  | .closeParen => "CloseParenthesis"
  | .closeSquare => "CloseSquareBracket"
  | .closeCurly => "CloseCurlyBracket"

end Token

end CssPrune
