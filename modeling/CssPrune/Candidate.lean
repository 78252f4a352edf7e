import CssPrune.Options
import CssPrune.Selector
import CssPrune.Sheet

/-!
# Candidates

A candidate is a piece of output and when to keep it.  Rules become candidates by the selectors
they reach; text that could not be read is kept for every document.  In the output such fragments
come behind all rules, those that are closed before those that could take in what follows them.
-/

namespace CssPrune

/-- When a candidate is kept. -/
inductive Retention where
  | always
  /-- Kept by a document that mentions one of the names; an empty dependency is never met. -/
  | dependent (d : Dependency)
deriving DecidableEq

/-- A piece of output. -/
structure Candidate where
  css : String
  retention : Retention
deriving DecidableEq

namespace Candidate

/-- A piece that no document loses. -/
def always (css : String) : Candidate := ⟨css, .always⟩

def dependent (css : String) (d : Dependency) : Candidate := ⟨css, .dependent d⟩

def isAlways (c : Candidate) : Bool := c.retention = .always

/-- The names that keep the candidate, unless it is always kept. -/
def dependency? (c : Candidate) : Option Dependency :=
  match c.retention with
  | .always => none
  | .dependent d => some d

/-- No document can keep the candidate. -/
def isUnreachable (c : Candidate) : Bool := c.dependency?.any Dependency.isEmpty

/-- Whether a document keeps the candidate, by its classes and, where they count, its ids. -/
def isRetainedBy (c : Candidate) (classes : NameSet) (ids : Option NameSet) : Bool :=
  match c.retention with
  | .always => true
  | .dependent d =>
    d.classes.toList.any classes.contains || ids.any fun ids => d.ids.toList.any ids.contains

/-! ### Rules -/

/-- A rule that reaches no selector is always kept, and so, on demand, is one whose selectors
mention no name. -/
def ofRule (print : Layout → Rule → String) (o : Options) (r : Rule) : Candidate :=
  let css := print o.layout r
  let d := Selector.analyzeAll r.reachable
  if r.reachable = [] then .always css
  else if d.isEmpty && o.keepUnanchoredRules then .always css
  else .dependent css d

/-! ### Fragments -/

/-- A closed fragment ends, blanks aside, in a closing bracket or a semicolon. -/
def isClosed (source : List Char) : Bool :=
  (Text.trimEnd source).getLast?.any fun c => c = '\x7d' || c = ';'

/-- The texts of the errors that have one, in the order of the sheet. -/
def fragments (errors : List SyntaxError) : List String := errors.filterMap SyntaxError.source

/-- Fragments behind which other text can stand. -/
def closedFragments (errors : List SyntaxError) : List String :=
  (fragments errors).filter fun s => isClosed s.toList

/-- Fragments that might take in what stands behind them. -/
def openFragments (errors : List SyntaxError) : List String :=
  (fragments errors).filter fun s => !isClosed s.toList

/-- The candidates of a sheet, in the order of the output. -/
def ofSheet (print : Layout → Rule → String) (o : Options) (sheet : Stylesheet) :
    List Candidate :=
  sheet.rules.map (ofRule print o) ++
    (closedFragments sheet.errors ++ openFragments sheet.errors).map always

end Candidate

end CssPrune
