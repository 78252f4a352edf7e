import CssPrune.Component
import CssPrune.Text.Normal

/-!
# Selector lists

The prelude of a style rule, cut at the commas that stand outside every bracket.  Where a block
directly precedes such a comma, the selector has taken in no more of that block than the bracket
that opens it.
-/

namespace CssPrune.Component

def isComma (c : Component) : Bool := c.token = .comma

/-- The text of a leaf, or of the bracket that opens a block. -/
def opening : Component → List Char
  | .leaf x => x.text
  | .block opener _ _ => opener.text

/-- The texts between the commas of a list. -/
def segments : List Component → List (List Char)
  | [] => [[]]
  | c :: cs =>
    if c.isComma then [] :: segments cs
    else if cs.head?.any isComma then c.opening :: (segments cs).tail
    else (c.text ++ (segments cs).headD []) :: (segments cs).tail

/-- The selectors of a prelude, in normal form; blank ones do not count. -/
def selectors (cs : List Component) : List String :=
  ((segments cs).map Text.normalString).filter (· ≠ "")

end CssPrune.Component
