import CssPrune.Rule

/-!
# Writing rules

A `Writer` appends text and knows how deep it is.  The compressed layout has no blanks that it could
do without; the pretty one puts selectors, declarations and nested rules on lines of their own,
indented by two spaces for every block around them.
-/

namespace CssPrune

/-- How rules are written. -/
inductive Layout where
  | compressed
  | pretty
deriving DecidableEq, Repr

namespace Layout

def ofCompress (compress : Bool) : Layout := if compress then .compressed else .pretty

/-- Text that only the pretty layout has. -/
def only (l : Layout) (text : String) : String :=
  match l with
  | .compressed => ""
  | .pretty => text

end Layout

/-- What has been written, and the number of blocks around the place where it ends. -/
structure Writer where
  layout : Layout
  out : String
  depth : Nat

namespace Writer

def start (layout : Layout) : Writer := ⟨layout, "", 0⟩

def put (w : Writer) (text : String) : Writer := { w with out := w.out ++ text }

/-- Writes a text in the pretty layout and nothing in the compressed one. -/
def putPretty (w : Writer) (text : String) : Writer := w.put (w.layout.only text)

/-- Two spaces for every block around a line. -/
def indentation (depth : Nat) : String := String.ofList (List.replicate (2 * depth) ' ')

/-- Indents a line in the pretty layout. -/
def indent (w : Writer) : Writer := w.putPretty (indentation w.depth)

/-- Starts a new line in the pretty layout. -/
def newline (w : Writer) : Writer := w.putPretty "\n"

/-- The bracket that opens a block; what follows is one block deeper. -/
def openBlock (w : Writer) : Writer :=
  let w := (w.putPretty " ").put "\x7b"
  { w with depth := w.depth + 1 }

/-- An empty block closes on the line that opened it. -/
def closeBlock (w : Writer) (empty : Bool) : Writer :=
  let w := { w with depth := w.depth - 1 }
  (if empty then w else w.newline.indent).put "\x7d"

/-- Selectors with commas between, in the pretty layout one on each line. -/
def selectors (w : Writer) : List String → Writer
  | [] => w
  | s :: ss => ss.foldl (fun w s => ((w.put ",").newline.indent).put s) (w.put s)

/-- The keyword of an at-rule, and the prelude unless it is empty. -/
def atKeyword (w : Writer) (name prelude : String) : Writer :=
  let w := (w.put "@").put name
  if prelude = "" then w else (w.put " ").put prelude

/-- A declaration, indented, and its semicolon. -/
def declaration (w : Writer) (d : Declaration) : Writer :=
  let w := (((w.indent.put d.name).put ":").putPretty " ").put d.value
  (if d.important then w.put " !important" else w).put ";"

/-- Each declaration of a block starts a line. -/
def declarations (w : Writer) (ds : List Declaration) : Writer :=
  ds.foldl (fun w d => w.newline.declaration d) w

mutual

/-- A rule, indented, and everything in its block. -/
def rule (w : Writer) : Rule → Writer
  | .style sels ds =>
    (((w.indent.selectors sels).openBlock).declarations ds).closeBlock ds.isEmpty
  | .group name prelude rs =>
    (rules (w.indent.atKeyword name prelude).openBlock rs).closeBlock rs.isEmpty
  | .block name prelude its =>
    (items (w.indent.atKeyword name prelude).openBlock its).closeBlock its.isEmpty
  | .statement name prelude => (w.indent.atKeyword name prelude).put ";"

/-- Each rule of a block starts a line. -/
def rules (w : Writer) : List Rule → Writer
  | [] => w
  | r :: rs => rules (rule w.newline r) rs

/-- Each item of a block starts a line. -/
def items (w : Writer) : List BlockItem → Writer
  | [] => w
  | i :: is => items (item w.newline i) is

def item (w : Writer) : BlockItem → Writer
  | .declaration d => w.declaration d
  | .rule r => rule w r

end

end Writer

/-- The text of one rule that stands at top level. -/
def Rule.print (layout : Layout) (r : Rule) : String := ((Writer.start layout).rule r).out

/-- The text of a list of rules; in the pretty layout an empty line separates them. -/
def Rule.printAll (layout : Layout) (rs : List Rule) : String :=
  (layout.only "\n\n").intercalate (rs.map (Rule.print layout))

end CssPrune
