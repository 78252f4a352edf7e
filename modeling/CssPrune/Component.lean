import CssPrune.Token.Lexer

/-!
# Components

Lexemes gathered into a tree: a bracket, everything up to the bracket that closes it, and that
bracket make one block.  A closing bracket that does not match the innermost open one closes nothing
and stands as a leaf; blocks that are open at the end of the text have no closer.  The tree holds
the lexemes in their order (`textOf_gather`).
-/

namespace CssPrune

/-- A lexeme on its own, or a block with the brackets that delimit it. -/
inductive Component where
  | leaf (x : Lexeme)
  | block (opener : Lexeme) (body : List Component) (closer : Option Lexeme)

namespace Component

mutual

/-- The characters a component was read from. -/
def text : Component → List Char
  | .leaf x => x.text
  | .block opener body closer => opener.text ++ (textOf body ++ closer.elim [] Lexeme.text)

def textOf : List Component → List Char
  | [] => []
  | c :: cs => c.text ++ textOf cs

end

/-- The texts of two lists of components stand one behind the other. -/
theorem textOf_append (cs ds : List Component) : textOf (cs ++ ds) = textOf cs ++ textOf ds := by
  induction cs with
  | nil => rfl
  | cons c cs ih => simp [textOf, ih]

mutual

/-- The number of characters of a component. -/
def width : Component → Nat
  | .leaf x => x.text.length
  | .block opener body closer =>
    opener.text.length + (widthOf body + closer.elim 0 fun x => x.text.length)

def widthOf : List Component → Nat
  | [] => 0
  | c :: cs => c.width + widthOf cs

end

mutual

/-- The width of a component is the length of its text. -/
theorem width_eq : ∀ c : Component, c.width = c.text.length
  | .leaf _ => rfl
  | .block _ body none => by simp [width, text, widthOf_eq body]
  | .block _ body (some _) => by simp [width, text, widthOf_eq body]

theorem widthOf_eq : ∀ cs : List Component, widthOf cs = (textOf cs).length
  | [] => rfl
  | c :: cs => by simp [widthOf, textOf, width_eq c, widthOf_eq cs]

end

mutual

/-- The number of components in a tree. -/
def count : Component → Nat
  | .leaf _ => 1
  | .block _ body _ => countOf body + 1

def countOf : List Component → Nat
  | [] => 0
  | c :: cs => c.count + countOf cs

end

/-- The token of a leaf or of the bracket that opens a block. -/
def token : Component → Token
  | .leaf x => x.token
  | .block opener _ _ => opener.token

/-- White space or a comment. -/
def isBlank (c : Component) : Bool := c.token.isBlank

/-! ### Gathering -/

/-- A block that has not been closed yet; `before` holds the components in front of it at its
level, the last one first. -/
structure Unclosed where
  before : List Component
  opener : Lexeme

/-- Closes the blocks that the end of the text leaves open.  `level` holds the components of the
innermost one, the last one first. -/
def closeAll (level : List Component) : List Unclosed → List Component
  | [] => level.reverse
  | u :: us => closeAll (.block u.opener level.reverse none :: u.before) us

/-- Gathers the lexemes of a text.  `level` holds the components of the innermost open block, the
last one first, and `us` the open blocks from the innermost out. -/
def gatherFrom (level : List Component) (us : List Unclosed) : List Lexeme → List Component
  | [] => closeAll level us
  | x :: xs =>
    if x.token.opens?.isSome then gatherFrom [] (⟨level, x⟩ :: us) xs
    else
      match us with
      | [] => gatherFrom (.leaf x :: level) [] xs
      | u :: us =>
        if x.token.closes?.isSome && x.token.closes? = u.opener.token.opens? then
          gatherFrom (.block u.opener level.reverse (some x) :: u.before) us xs
        else gatherFrom (.leaf x :: level) (u :: us) xs

/-- The components of a text. -/
def gather (xs : List Lexeme) : List Component := gatherFrom [] [] xs

/-- The text read so far: of the open blocks from the outermost in, then of the innermost level. -/
def textBefore (level : List Component) : List Unclosed → List Char
  | [] => textOf level.reverse
  | u :: us => textBefore u.before us ++ u.opener.text ++ textOf level.reverse

/-- A component that is read ends the text read so far. -/
theorem textBefore_cons (c : Component) (level : List Component) (us : List Unclosed) :
    textBefore (c :: level) us = textBefore level us ++ c.text := by
  cases us with
  | nil => simp [textBefore, textOf_append, textOf]
  | cons u us => simp [textBefore, textOf_append, textOf]

/-- Closing the open blocks neither adds nor drops text. -/
theorem textOf_closeAll (level : List Component) (us : List Unclosed) :
    textOf (closeAll level us) = textBefore level us := by
  induction us generalizing level with
  | nil => rfl
  | cons u us ih => simp [closeAll, ih, textBefore_cons, textBefore, text]

/-- The components hold the text read so far and that of the lexemes still to be read. -/
theorem textOf_gatherFrom (level : List Component) (us : List Unclosed) (xs : List Lexeme) :
    textOf (gatherFrom level us xs) = textBefore level us ++ Lexeme.textOf xs := by
  induction xs generalizing level us with
  | nil => simp [gatherFrom, textOf_closeAll, Lexeme.textOf]
  | cons x xs ih =>
    have hx : Lexeme.textOf (x :: xs) = x.text ++ Lexeme.textOf xs := rfl
    unfold gatherFrom
    split
    · simp [ih, textBefore, textOf, hx]
    · split
      · simp [ih, textBefore_cons, text, hx]
      · split
        · simp [ih, textBefore_cons, textBefore, text, hx]
        · simp [ih, textBefore_cons, text, hx]

/-- No lexeme is lost or moved by gathering. -/
theorem textOf_gather (xs : List Lexeme) : textOf (gather xs) = Lexeme.textOf xs := by
  simp [gather, textOf_gatherFrom, textBefore, textOf]

/-- The components of a piece of text. -/
def ofText (cs : List Char) : List Component := gather (Lexeme.scan cs)

/-- A text is the text of its components. -/
theorem textOf_ofText (cs : List Char) : textOf (ofText cs) = cs := by
  rw [ofText, textOf_gather, Lexeme.textOf_scan]

end Component

end CssPrune
