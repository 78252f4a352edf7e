import CssPrune.Proofs.Settled

/-!
# What the writer appends

Each function of the writer leaves layout and depth as they were and appends a text that does not
depend on what was written before.  The texts are those of `Settled`: `selectors_eq`,
`atKeyword_eq`, `declaration_eq` and, for what stands in a block, `closeBlock_eq`.
-/

namespace CssPrune.Writer

open Component (selectorText)

/-! ### Appending twice -/

/-- Appends a list of characters. -/
def append (w : Writer) (x : List Char) : Writer := w.put (String.ofList x)

/-- What is written one behind the other could have been written at once. -/
theorem append_append (w : Writer) (x y : List Char) : (w.append x).append y = w.append (x ++ y) := by
  simp only [append, put, String.append_assoc, String.ofList_append]

theorem append_nil (w : Writer) : w.append [] = w := by
  simp [append, put]

theorem put_eq (w : Writer) (s : String) : w.put s = w.append s.toList := by
  rw [append, String.ofList_toList]

@[simp] theorem layout_append (w : Writer) (x : List Char) : (w.append x).layout = w.layout := rfl

@[simp] theorem depth_append (w : Writer) (x : List Char) : (w.append x).depth = w.depth := rfl

/-! ### Blanks of the pretty layout -/

/-- The indentation of a line. -/
def margin (l : Layout) (depth : Nat) : List Char := (l.only (indentation depth)).toList

/-- The start of a new line. -/
def lineStart (l : Layout) (depth : Nat) : List Char := (l.only "\n").toList ++ margin l depth

theorem margin_isSpace (l : Layout) (depth : Nat) : (margin l depth).all Token.isSpace = true := by
  cases l with
  | compressed => rfl
  | pretty => simp [margin, Layout.only, indentation, Token.isSpace]

/-- All that stands between two lines is blank. -/
theorem lineStart_isSpace (l : Layout) (depth : Nat) :
    (lineStart l depth).all Token.isSpace = true := by
  rw [lineStart, List.all_append, margin_isSpace]
  cases l <;> rfl

/-- Indenting appends blanks for the depth that has been reached. -/
theorem indent_eq (w : Writer) : w.indent = w.append (margin w.layout w.depth) := put_eq _ _

/-- A new line appends a line feed, and nothing in the compressed layout. -/
theorem newline_eq (w : Writer) : w.newline = w.append (w.layout.only "\n").toList := put_eq _ _

theorem newline_indent (w : Writer) :
    w.newline.indent = w.append (lineStart w.layout w.depth) := by
  rw [newline_eq, indent_eq, append_append]
  rfl

/-! ### Heads and declarations -/

/-- Selectors are written with a comma and a new line between. -/
theorem selectors_eq (w : Writer) (ss : List String) :
    w.selectors ss = w.append (selectorText (lineStart w.layout w.depth) ss) := by
  cases ss with
  | nil => exact (append_nil w).symm
  | cons s ss =>
      rw [selectors]
      induction ss generalizing w s with
      | nil => exact put_eq w s
      | cons s' ss ih =>
          rw [List.foldl_cons, put_eq w s, put_eq _ ",", newline_indent, append_append, append_append,
            ih, append_append]
          simp [selectorText]

/-- The head of an at-rule depends neither on the layout nor on the depth. -/
theorem atKeyword_eq (w : Writer) (name prelude : String) :
    w.atKeyword name prelude = w.append (atHead name prelude) := by
  rw [atKeyword, atHead]
  split
  · simp [put_eq, append_append]
  · simp [put_eq, append_append]

/-- A declaration is its indentation, its text and a semicolon. -/
theorem declaration_eq (w : Writer) (d : Declaration) :
    w.declaration d =
      w.append (margin w.layout w.depth ++ (declarationText w.layout d ++ [';'])) := by
  have hmark : " !important".toList = ' ' :: Declaration.importantMark := rfl
  simp only [declaration, indent_eq, put_eq, putPretty, append_append, layout_append,
    declarationText, Declaration.written, Layout.gap]
  split
  · simp [append_append, hmark]
  · simp [append_append]

/-! ### Blocks -/

/-- The writer inside of a block. -/
def deeper (w : Writer) : Writer := { w with depth := w.depth + 1 }

/-- The blanks in front of the bracket that closes a block. -/
def closing (l : Layout) (depth : Nat) (empty : Bool) : List Char :=
  if empty then [] else lineStart l depth

/-- The blanks in front of a closing bracket are blanks. -/
theorem closing_isSpace (l : Layout) (depth : Nat) (empty : Bool) :
    (closing l depth empty).all Token.isSpace = true := by
  cases empty with
  | true => rfl
  | false => exact lineStart_isSpace l depth

/-- Opening a block appends its bracket and goes one block deeper. -/
theorem openBlock_eq (w : Writer) : w.openBlock = (w.append (w.layout.gap ++ ['\x7b'])).deeper := by
  simp only [openBlock, putPretty, put_eq, append_append]
  rfl

/-- Once a block is closed, depth and layout are what they were, and the braced text has been
appended. -/
theorem closeBlock_eq (w : Writer) (x : List Char) (empty : Bool) :
    (w.openBlock.append x).closeBlock empty =
      w.append (w.layout.gap ++ braced x (closing w.layout w.depth empty)) := by
  have hback : ({ w.openBlock.append x with depth := (w.openBlock.append x).depth - 1 } : Writer) =
      w.append (w.layout.gap ++ '\x7b' :: x) := by
    have := append_append w (w.layout.gap ++ ['\x7b']) x
    rw [List.append_assoc, List.singleton_append] at this
    rw [openBlock_eq, ← this]; rfl
  rw [closeBlock, hback]
  cases empty with
  | true => simp [put_eq, append_append, closing, braced]
  | false => simp [put_eq, newline_indent, append_append, closing, braced]

end CssPrune.Writer
