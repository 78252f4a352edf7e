import CssPrune.Text.Letter
import CssPrune.Text.Normal

/-!
# Rules

The rules of a style sheet.  Selectors, preludes and values are kept as normal text; names are
lowercase, custom properties excepted.
-/

namespace CssPrune

/-- A property and its value, without the mark of importance. -/
structure Declaration where
  name : String
  value : String
  important : Bool
deriving DecidableEq, Repr

mutual

/-- A rule of a style sheet. -/
inductive Rule where
  /-- Declarations under a list of selectors. -/
  | style (selectors : List String) (declarations : List Declaration)
  /-- An at-rule around a list of rules, such as `@media`. -/
  | group (name prelude : String) (rules : List Rule)
  /-- An at-rule with any other block, such as `@font-face`. -/
  | block (name prelude : String) (items : List BlockItem)
  /-- An at-rule that ends at a semicolon, such as `@import`. -/
  | statement (name prelude : String)

/-- What the block of an at-rule holds. -/
inductive BlockItem where
  | declaration (d : Declaration)
  | rule (r : Rule)

end

/-! ### Equality -/

mutual

def Rule.decEq : (r s : Rule) → Decidable (r = s)
  | .style ss ds, .style ss' ds' => decidable_of_iff (ss = ss' ∧ ds = ds') (by simp)
  | .group n p rs, .group n' p' rs' =>
    have := Rule.decEqAll rs rs'
    decidable_of_iff (n = n' ∧ p = p' ∧ rs = rs') (by simp)
  | .block n p is, .block n' p' is' =>
    have := BlockItem.decEqAll is is'
    decidable_of_iff (n = n' ∧ p = p' ∧ is = is') (by simp)
  | .statement n p, .statement n' p' => decidable_of_iff (n = n' ∧ p = p') (by simp)
  | .style .., .group .. | .style .., .block .. | .style .., .statement ..
  | .group .., .style .. | .group .., .block .. | .group .., .statement ..
  | .block .., .style .. | .block .., .group .. | .block .., .statement ..
  | .statement .., .style .. | .statement .., .group .. | .statement .., .block .. =>
    isFalse (by simp)

def Rule.decEqAll : (rs ss : List Rule) → Decidable (rs = ss)
  | [], [] => isTrue rfl
  | r :: rs, s :: ss =>
    have := Rule.decEq r s
    have := Rule.decEqAll rs ss
    decidable_of_iff (r = s ∧ rs = ss) (by simp)
  | [], _ :: _ | _ :: _, [] => isFalse (by simp)

def BlockItem.decEq : (i j : BlockItem) → Decidable (i = j)
  | .declaration d, .declaration e => decidable_of_iff (d = e) (by simp)
  | .rule r, .rule s =>
    have := Rule.decEq r s
    decidable_of_iff (r = s) (by simp)
  | .declaration _, .rule _ | .rule _, .declaration _ => isFalse (by simp)

def BlockItem.decEqAll : (is js : List BlockItem) → Decidable (is = js)
  | [], [] => isTrue rfl
  | i :: is, j :: js =>
    have := BlockItem.decEq i j
    have := BlockItem.decEqAll is js
    decidable_of_iff (i = j ∧ is = js) (by simp)
  | [], _ :: _ | _ :: _, [] => isFalse (by simp)

end

instance : DecidableEq Rule := Rule.decEq

instance : DecidableEq BlockItem := BlockItem.decEq

/-! ### Declarations -/

namespace Declaration

/-- The mark behind a value that is important. -/
def importantMark : List Char := "!important".toList

/-- Takes the importance mark off the end of a value.  Only the exact lowercase word is one. -/
def splitImportant (raw : List Char) : List Char × Bool :=
  let value := Text.trim raw
  if importantMark.isSuffixOf value then
    let head := value.take (value.length - importantMark.length)
    (Text.normalize (Text.trimEnd head), true)
  else (Text.normalize value, false)

/-- Custom properties have names that begin with two hyphens. -/
def isCustom (name : String) : Bool := ['-', '-'].isPrefixOf name.toList

/-- The name of a property; a custom property keeps its letter case. -/
def normalName (name : String) : String := if isCustom name then name else Text.lower name

/-- The declaration with this name and this text behind the colon. -/
def ofText (name : String) (raw : List Char) : Declaration :=
  let (value, important) := splitImportant raw
  ⟨normalName name, String.ofList value, important⟩

end Declaration

/-! ### Groups and selectors -/

namespace Rule

/-- The names of the at-rules whose block is a list of rules. -/
def groupNames : List String :=
  ["media", "supports", "container", "document", "-moz-document", "layer", "scope",
    "starting-style"]

/-- The selectors of a style rule. -/
def selectors? : Rule → Option (List String)
  | .style selectors _ => some selectors
  | _ => none

mutual

/-- The selectors of the style rules that a rule reaches through groups, in order. -/
def reachable : Rule → List String
  | .style selectors _ => selectors
  | .group _ _ rules => reachableAll rules
  | .block .. | .statement .. => []

def reachableAll : List Rule → List String
  | [] => []
  | r :: rs => r.reachable ++ reachableAll rs

end

/-- The selectors by which a rule is judged; at-rules that are no groups have none. -/
def judged? : Rule → Option (List String)
  | .block .. | .statement .. => none
  | r => some r.reachable

end Rule

end CssPrune
