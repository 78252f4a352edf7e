import CssPrune.Text.Visible

/-!
# Quoted text

A string between double quotes or a character between single ones, with every character that does
not show as itself written as an escape.  Only the quote that closes the literal is escaped in it.
-/

namespace CssPrune.Text

/-- Lowercase hexadecimal digits, without leading zeros. -/
def hex (n : Nat) : String := String.ofList (Nat.toDigits 16 n)

/-- One character of a literal that ends at `quote`. -/
def escaped (quote c : Char) : String :=
  match c with
  | '\x00' => "\\0"
  | '\t' => "\\t"
  | '\n' => "\\n"
  | '\r' => "\\r"
  | '\\' => "\\\\"
  | c =>
    if c = quote then "\\" ++ c.toString
    else if isVisible c then c.toString
    else "\\u\x7b" ++ hex c.toNat ++ "\x7d"

/-- A string as a literal. -/
def quoteString (s : String) : String :=
  "\"" ++ String.join (s.toList.map (escaped '"')) ++ "\""

/-- A character as a literal. -/
def quoteChar (c : Char) : String := "'" ++ escaped '\'' c ++ "'"

end CssPrune.Text
