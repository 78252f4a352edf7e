import CssPrune.Location
import CssPrune.Token.Message
import CssPrune.Text.Blank

/-!
# Faults

What can be wrong with a statement.  A `Fault` knows its cause, the place to point at and the span
of text that is given up; a `SyntaxError` says the same to people, in words and with the text
itself.
-/

namespace CssPrune

/-- Why a statement cannot be read. -/
inductive Cause where
  /-- A token that cannot stand where it stands. -/
  | unexpected (t : Token)
  /-- The text or the block ends too early. -/
  | endOfInput
  /-- An at-rule with a block where it cannot have one. -/
  | atRuleBody
  /-- A rule that is none, because it has no selector or looks like a custom property. -/
  | rule
deriving DecidableEq, Repr

/-- The cause in words. -/
def Cause.message : Cause → String
  | .unexpected t => "Basic(UnexpectedToken(" ++ t.describe ++ "))"
  | .endOfInput => "Basic(EndOfInput)"
  | .atRuleBody => "Basic(AtRuleBodyInvalid)"
  | .rule => "Basic(QualifiedRuleInvalid)"

/-- The offsets are those of the text that is read; the span runs from `start` to `stop`. -/
structure Fault where
  cause : Cause
  place : Nat
  start : Nat
  stop : Nat
deriving DecidableEq, Repr

/-- A report of text that could not be read. -/
structure SyntaxError where
  message : String
  /-- The text that was given up, unless it is blank. -/
  source : Option String
  line : Nat
  column : Nat
  /-- The number of rules at top level that were read before. -/
  ruleIndex : Nat
deriving DecidableEq, Repr

/-- The characters of a text from one offset to another. -/
def slice (text : List Char) (start stop : Nat) : List Char :=
  (text.drop start).take (stop - start)

/-- Reports a fault of a text, with the line and column of the place to point at. -/
def Fault.report (text : List Char) (ruleIndex : Nat) (f : Fault) : SyntaxError :=
  let place := Location.ofOffset text f.place
  let source := slice text f.start f.stop
  { message := f.cause.message
    source := if Text.allBlank source then none else some (String.ofList source)
    line := place.line
    column := place.column
    ruleIndex := ruleIndex }

namespace SyntaxError

/-- Order by the rule index, then by the place. -/
def before (a b : SyntaxError) : Bool :=
  a.ruleIndex < b.ruleIndex || a.ruleIndex = b.ruleIndex &&
    (a.line < b.line || a.line = b.line && a.column ≤ b.column)

end SyntaxError

end CssPrune
