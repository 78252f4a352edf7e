import CssPrune.Rule
import CssPrune.Sheet.Outcome
import CssPrune.Sheet.Selectors

/-!
# Reading blocks

The block of a style rule holds declarations; the block of an at-rule that is no group holds
declarations and rules of any kind.  What cannot be read is dropped and reported.
-/

namespace CssPrune

namespace Statement

/-- Reads a name, a colon and a value. -/
def asDeclaration (s : Statement) (name : String) : Except Fault Declaration :=
  match s.tail.dropWhile Component.isBlank with
  | [] => .error (s.fault .endOfInput s.headStop)
  | c :: value =>
    if c.token = .colon then .ok (Declaration.ofText name (Component.textOf value))
    else .error (s.fault (.unexpected c.token) s.firstStop)

/-- An at-rule cannot stand among declarations.  If anything but blanks follows its keyword, that is
what is reported, and the block or semicolon behind it is not part of what is given up. -/
def asStrayAtRule (s : Statement) : Fault :=
  match s.tail.find? (!·.isBlank) with
  | some c => { s.fault (.unexpected c.token) s.firstStop with stop := s.headStop }
  | none =>
    match s.ending with
    | .block .. => s.fault .atRuleBody s.bodyStart
    | .semicolon | .missing => s.fault (.unexpected .semicolon) s.stop

/-- Reads a statement of the block of a style rule. -/
def declaration (s : Statement) : Except Fault Declaration :=
  match s.head with
  | [] => .error (s.fault .endOfInput s.headStop)
  | c :: _ =>
    match c.token with
    | .ident name => s.asDeclaration name
    | .atKeyword _ => .error s.asStrayAtRule
    | t => .error (s.fault (.unexpected t) s.start)

end Statement

/-- Reads the block of a style rule, whose text starts at the offset `pos`. -/
def readDeclarations (pos : Nat) (cs : List Component) : List (Except Fault Declaration) :=
  (Grammar.declarations.statements pos cs).map Statement.declaration

/-- A style rule and its block. -/
def styleRule (selectors : List String) (block : List (Except Fault Declaration)) : Outcome Rule :=
  let ds := block.map Outcome.plain
  ⟨.ok (.style selectors (Outcome.values ds)), [], Outcome.faults ds⟩

/-- An at-rule that is no group and its block.  The faults inside its items come first. -/
def blockRule (name prelude : String) (block : List (Outcome BlockItem)) : Outcome Rule :=
  ⟨.ok (.block name prelude (Outcome.values block)), [],
    Outcome.allDropped block ++ Outcome.faults block⟩

namespace Statement

/-- The normal text between an at-keyword and the end of its head. -/
def prelude (s : Statement) : String := Text.normalString (Component.textOf s.tail)

/-- Reads a statement that is not an at-rule among the items of a block.  A block makes it a style
rule; without one it is a declaration or nothing. -/
def plainItem (s : Statement) : Outcome BlockItem :=
  match s.ending, s.head.head?.map Component.token with
  | .block _ body _, _ =>
    (styleRule (Component.selectors s.head) (readDeclarations s.bodyStart body)).map .rule
  | _, some (.ident name) => .plain ((s.asDeclaration name).map .declaration)
  | .semicolon, _ => .plain (.error (s.fault (.unexpected .semicolon) s.headStop))
  | .missing, _ => .plain (.error (s.fault .endOfInput s.headStop))

end Statement

mutual

/-- Reads a statement among the items of a block. -/
def Statement.item (s : Statement) : Outcome BlockItem :=
  match s.atName? with
  | none => s.plainItem
  | some name =>
    match _h : s.ending with
    | .block _ body _ =>
      (blockRule (Text.lower name) s.prelude (readItems s.bodyStart body)).map .rule
    | .semicolon | .missing => .plain (.ok (.rule (.statement (Text.lower name) s.prelude)))
termination_by 2 * s.ending.count
decreasing_by
  rw [_h]; simp only [Ending.count]; omega

/-- Reads the block of an at-rule that is no group, whose text starts at the offset `pos`. -/
def readItems (pos : Nat) (cs : List Component) : List (Outcome BlockItem) :=
  (Grammar.items.statements pos cs).attach.map fun s => s.1.item
termination_by 2 * Component.countOf cs + 1
decreasing_by
  have h := Grammar.count_ending_le Grammar.items pos cs s.1 s.2
  omega

end

/-- The items of a block are read statement by statement. -/
theorem readItems_eq (pos : Nat) (cs : List Component) :
    readItems pos cs = (Grammar.items.statements pos cs).map Statement.item := by
  rw [readItems]; exact List.attach_map_val

end CssPrune
