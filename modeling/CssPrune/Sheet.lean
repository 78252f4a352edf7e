import CssPrune.Rule.Printer
import CssPrune.Sheet.Block

/-!
# Style sheets

Reading a whole sheet never fails: what cannot be read is reported with its text, and reading goes
on behind it.  A leading `@charset` counts as a rule; at the head of any list of rules another one
is passed over in silence.
-/

namespace CssPrune

/-- The rules of a sheet, and reports of what could not be read. -/
structure Stylesheet where
  rules : List Rule
  /-- Rules that could not be read, in the order of the text. -/
  errors : List SyntaxError
  /-- Declarations and other items that were dropped from the blocks of rules. -/
  dropped : List SyntaxError

/-! ### Rules -/

/-- A group and the rules of its block.  The faults inside its rules come first. -/
def groupRule (name prelude : String) (block : List (Outcome Rule)) : Outcome Rule :=
  ⟨.ok (.group name prelude (Outcome.values block)),
    Outcome.allInner block ++ Outcome.faults block, Outcome.allDropped block⟩

namespace Statement

/-- The name of a custom property with a colon behind it. -/
def looksCustom (s : Statement) : Bool :=
  match s.head.head?.map Component.token with
  | some (.ident name) => Declaration.isCustom name && Grammar.declares s.head
  | _ => false

/-- Reads a rule that is not an at-rule. -/
def plainRule (s : Statement) : Outcome Rule :=
  if s.looksCustom then .plain (.error (s.fault .rule s.start))
  else
    match s.ending with
    | .block _ body _ =>
      let selectors := Component.selectors s.head
      if selectors = [] then .plain (.error (s.fault .rule s.bodyStop))
      else styleRule selectors (readDeclarations s.bodyStart body)
    | .semicolon | .missing => .plain (.error (s.fault .endOfInput s.stop))

/-- An at-rule without a block.  Of the groups only a layer can do without. -/
def bareAtRule (s : Statement) (name : String) : Outcome Rule :=
  if Rule.groupNames.contains name ∧ name ≠ "layer" then
    .plain (.error (s.fault (.unexpected .semicolon) s.stop))
  else .plain (.ok (.statement name s.prelude))

/-- An at-rule that names the encoding of the sheet. -/
def isCharset (s : Statement) : Bool := s.atName?.any fun name => Text.lower name = "charset"

end Statement

namespace Grammar

/-- The rules of a list, less a `@charset` at its head. -/
def ruleStatements (pos : Nat) (cs : List Component) : List Statement :=
  match rules.statements pos cs with
  | s :: ss => if s.isCharset then ss else s :: ss
  | [] => []

/-- Only a `@charset` is passed over, so every rule of a list is one of its statements. -/
theorem mem_of_mem_ruleStatements {pos : Nat} {cs : List Component} {s : Statement}
    (h : s ∈ ruleStatements pos cs) : s ∈ rules.statements pos cs := by
  unfold ruleStatements at h
  split at h
  · next heq =>
    rw [heq]
    split at h
    · exact List.mem_cons_of_mem _ h
    · exact h
  · cases h

end Grammar

mutual

/-- Reads a statement of a list of rules. -/
def Statement.rule (s : Statement) : Outcome Rule :=
  match s.atName? with
  | none => s.plainRule
  | some name =>
    match _h : s.ending with
    | .block _ body _ =>
      if Rule.groupNames.contains (Text.lower name) then
        groupRule (Text.lower name) s.prelude (readRules s.bodyStart body)
      else blockRule (Text.lower name) s.prelude (readItems s.bodyStart body)
    | .semicolon | .missing => s.bareAtRule (Text.lower name)
termination_by 2 * s.ending.count
decreasing_by
  rw [_h]; simp only [Ending.count]; omega

/-- Reads a list of rules whose text starts at the offset `pos`. -/
def readRules (pos : Nat) (cs : List Component) : List (Outcome Rule) :=
  (Grammar.ruleStatements pos cs).attach.map fun s => s.1.rule
termination_by 2 * Component.countOf cs + 1
decreasing_by
  have h := Grammar.count_ending_le Grammar.rules pos cs s.1
    (Grammar.mem_of_mem_ruleStatements s.2)
  omega

end

theorem readRules_eq (pos : Nat) (cs : List Component) :
    readRules pos cs = (Grammar.ruleStatements pos cs).map Statement.rule := by
  rw [readRules]; exact List.attach_map_val

/-! ### A sheet -/

/-- The `@charset` rule at the head of a sheet, up to its semicolon, and what follows it. -/
def leadingCharset (cs : List Component) : Option (Statement × List Component) :=
  let start := Component.widthOf (cs.takeWhile Component.isBlank)
  let r := Terminators.cut ⟨true, false⟩ (cs.dropWhile Component.isBlank)
  let s : Statement := ⟨start, r.1, r.2.1⟩
  if s.isCharset then some (s, r.2.2) else none

/-- A sheet that is being read.  `finished` counts the rules at top level that have been read, and
labels the faults inside the rule that is being read. -/
structure Progress where
  finished : Nat
  rules : List Rule
  inner : List SyntaxError
  outer : List SyntaxError
  dropped : List SyntaxError

namespace Progress

def start (rules : List Rule) : Progress := ⟨rules.length, rules, [], [], []⟩

/-- Takes in what the next statement at top level has come to. -/
def step (text : List Char) (p : Progress) (o : Outcome Rule) : Progress :=
  { finished := p.finished + o.value?.toList.length
    rules := p.rules ++ o.value?.toList
    inner := p.inner ++ o.inner.map (Fault.report text p.finished)
    outer := p.outer ++ o.fault?.toList.map (Fault.report text p.rules.length)
    dropped := p.dropped ++ o.dropped.map (Fault.report text p.finished) }

/-- The sheet that has been read; its reports come in the order of the text. -/
def sheet (p : Progress) : Stylesheet :=
  ⟨p.rules, (p.inner ++ p.outer).mergeSort SyntaxError.before, p.dropped⟩

end Progress

/-- Reads the components of a sheet. -/
def Progress.read (text : List Char) (cs : List Component) : Progress :=
  match leadingCharset cs with
  | some (s, rest) =>
    (readRules s.stop rest).foldl (Progress.step text) (.start [.statement "charset" s.prelude])
  | none => (readRules 0 cs).foldl (Progress.step text) (.start [])

namespace Stylesheet

/-- Reads a whole sheet. -/
def parse (css : String) : Stylesheet :=
  (Progress.read css.toList (Component.ofText css.toList)).sheet

/-- Writes the rules of a sheet. -/
def print (layout : Layout) (sheet : Stylesheet) : String := Rule.printAll layout sheet.rules

end Stylesheet

end CssPrune
