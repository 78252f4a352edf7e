import CssPrune.Proofs.Matching
import CssPrune.Proofs.Negation
import CssPrune.Proofs.SelectorList

/-!
# Selectors as texts

How a selector is written, in either layout, and what the analysis may rely on in its text.  A
selector is `tidy` when its names and values cannot be taken for negations or for the end of one; it
is `bare` when nothing in it, negations apart, can be taken for a class or an id.
-/

namespace CssPrune.Selector

/-! ### Writing -/

namespace Name

/-- The name as an identifier. -/
def written (n : Name) : List Char := escape n.text.toList

theorem spelling (n : Name) : Spelling n.text.toList n.written := spelling_escape n.valid.2

theorem written_ne_nil (n : Name) : n.written ≠ [] :=
  n.spelling.ne_nil fun e => n.valid.1 (String.ext_iff.2 e)

/-- The analysis reads a written name back. -/
theorem nameAt_written (n : Name) {y : List Char} (hy : Stops y) :
    nameAt (n.written ++ y) = n.text := by
  rw [n.spelling.nameAt hy, String.ofList_toList]

/-- A written name is an identifier wherever it stands. -/
theorem identLength_pos (n : Name) {y : List Char} (hy : Stops y) :
    0 < identLength (n.written ++ y) := by
  rw [n.spelling.identLength hy]
  exact List.length_pos_iff.2 n.written_ne_nil

/-- The name has no closing parenthesis. -/
def parenFree (n : Name) : Bool := ')' ∉ n.text.toList

end Name

namespace TypeTest

/-- The test as it is written. -/
def text : TypeTest → List Char
  | .omitted => []
  | .universal => ['*']
  | .tag n => n.written

/-- The tag has no closing parenthesis. -/
def parenFree : TypeTest → Bool
  | .omitted | .universal => true
  | .tag n => n.parenFree

end TypeTest

/-- The combinator as it is written; the pretty layout has blanks around all but the first. -/
def Combinator.text (l : Layout) : Combinator → List Char
  | .descendant => [' ']
  | .child => l.gap ++ '>' :: l.gap
  | .next => l.gap ++ '+' :: l.gap
  | .subsequent => l.gap ++ '~' :: l.gap

/-- The mark between the name and the value of an attribute. -/
def Comparison.text : Comparison → List Char
  | .equals => ['=']
  | .includes => ['~', '=']
  | .dash => ['|', '=']
  | .starts => ['^', '=']
  | .ends => ['$', '=']
  | .contains => ['*', '=']

/-- The mark and the value in quotes, if there is a test. -/
def testText : Option (Comparison × String) → List Char
  | none => []
  | some (k, v) => k.text ++ quote v.toList

/-- An attribute selector, in its brackets. -/
def attributeText (n : Name) (test : Option (Comparison × String)) : List Char :=
  '[' :: (n.written ++ (testText test ++ [']']))

mutual

/-- The condition as it is written. -/
def Simple.text (l : Layout) : Simple → List Char
  | .hasClass n => '.' :: n.written
  | .hasId n => '#' :: n.written
  | .hasAttribute n test => attributeText n test
  | .pseudo n => ':' :: n.written
  | .not cs => negation ++ (Chain.listText l cs ++ [')'])
  | .is cs => [':', 'i', 's', '('] ++ (Chain.listText l cs ++ [')'])

/-- The selector as it is written. -/
def Chain.text (l : Layout) : Chain → List Char
  | .start type => type.text
  | .also c x => c.text l ++ x.text l
  | .join c k type => c.text l ++ (k.text l ++ type.text)

/-- Alternatives, with commas between. -/
def Chain.listText (l : Layout) : List Chain → List Char
  | [] => []
  | [c] => c.text l
  | c :: d :: cs => c.text l ++ (',' :: l.gap ++ Chain.listText l (d :: cs))

end

/-! ### What the analysis relies on -/

mutual

/-- No name and no value has a closing parenthesis. -/
def Simple.parenFree : Simple → Bool
  | .hasClass n | .hasId n | .pseudo n => n.parenFree
  | .hasAttribute n test => n.parenFree && test.all fun t => ')' ∉ t.2.toList
  | .not cs | .is cs => Chain.parenFreeAll cs

/-- No name and no value of the selector has a closing parenthesis. -/
def Chain.parenFree : Chain → Bool
  | .start type => type.parenFree
  | .also c x => c.parenFree && x.parenFree
  | .join c _ type => c.parenFree && type.parenFree

def Chain.parenFreeAll : List Chain → Bool
  | [] => true
  | c :: cs => c.parenFree && Chain.parenFreeAll cs

end

mutual

/-- No value has a `:not(` in it, and no name or value within a negation a closing parenthesis. -/
def Simple.tidy : Simple → Bool
  | .hasClass _ | .hasId _ | .pseudo _ => true
  | .hasAttribute _ test => test.all fun t => ¬negation <:+: t.2.toList
  | .not cs => Chain.tidyAll cs && Chain.parenFreeAll cs
  | .is cs => Chain.tidyAll cs

/-- The selector is tidy, compound by compound; tags always are. -/
def Chain.tidy : Chain → Bool
  | .start _ => true
  | .also c x => c.tidy && x.tidy
  | .join c _ _ => c.tidy

def Chain.tidyAll : List Chain → Bool
  | [] => true
  | c :: cs => c.tidy && Chain.tidyAll cs

end

mutual

/-- Outside of negations there is no class and no id, nor anything in a name or a value that looks
like one, and neither is there in what is left of a negation behind its first closing parenthesis. -/
def Simple.bare (l : Layout) : Simple → Bool
  | .hasClass _ | .hasId _ => false
  | .hasAttribute n test => hooks (attributeText n test) = []
  | .pseudo n => hooks n.written = []
  | .not cs => hooks (dropNegations (negation ++ (Chain.listText l cs ++ [')']))) = []
  | .is cs => Chain.bareAll l cs

/-- Nothing in the selector, negations apart, can be taken for a class or an id. -/
def Chain.bare (l : Layout) : Chain → Bool
  | .start type => hooks type.text = []
  | .also c x => c.bare l && x.bare l
  | .join c _ type => c.bare l && hooks type.text = []

def Chain.bareAll (l : Layout) : List Chain → Bool
  | [] => true
  | c :: cs => c.bare l && Chain.bareAll l cs

end

/-! ### Parts of a text -/

section Front

variable {l : Layout} {y : List Char}

/-- The blank of the pretty layout does not go on with an identifier. -/
theorem front_gap (h : Front y) : Front (l.gap ++ y) := by
  cases l with
  | compressed => exact h
  | pretty => exact .cons rfl (by decide) (by decide) y

/-- A combinator ends the identifier in front of it. -/
theorem Combinator.front (k : Combinator) : Front (k.text l ++ y) := by
  cases k with
  | descendant => exact .cons rfl (by decide) (by decide) y
  | child | next | subsequent =>
      rw [Combinator.text, List.append_assoc]
      exact front_gap (.cons rfl (by decide) (by decide) _)

theorem Comparison.front (k : Comparison) : Front (k.text ++ y) := by
  cases k <;> exact .cons rfl (by decide) (by decide) _

/-- The test of an attribute ends the identifier in front of it, and so does the bracket without a
test. -/
theorem testText_front (test : Option (Comparison × String)) :
    Front (testText test ++ (']' :: y)) := by
  cases test with
  | none => exact .cons rfl (by decide) (by decide) y
  | some t =>
      obtain ⟨k, v⟩ := t
      rw [testText, List.append_assoc]
      exact k.front

/-- Each condition begins with a mark, which ends the identifier in front of it. -/
theorem Simple.front (x : Simple) : Front (x.text l ++ y) := by
  cases x <;> rw [Simple.text] <;> exact .cons rfl (by decide) (by decide) _

end Front

end CssPrune.Selector
