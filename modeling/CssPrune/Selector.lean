import CssPrune.Dependency
import CssPrune.Token.Name

/-!
# What a selector depends on

A selector is searched as text for hooks: a point or a number sign with an identifier behind it.
When nothing but letters and blanks precedes the first hook, nothing can match the selector without
it, so it is the whole dependency.  Otherwise the groups `:not(…)` are taken out and every hook left
counts.
-/

namespace CssPrune.Selector

/-! ### Identifiers -/

/-- The characters of an identifier that need no escape. -/
def isIdentChar (c : Char) : Bool :=
  c.isAlphanum || c = '_' || c = '-' || 0x80 ≤ c.toNat

/-- The hexadecimal digits at the head of a text, six at most. -/
def hexDigits (cs : List Char) : List Char := (cs.take 6).takeWhile Token.isHexDigit

/-- The length of the character or escape that an identifier has here, zero if it has none.  White
space behind a hexadecimal escape belongs to it. -/
def unitLength : List Char → Nat
  | [] => 0
  | c :: cs =>
    if isIdentChar c then 1
    else if c = '\\' then
      let n := (hexDigits cs).length
      if 0 < n then 1 + n + if (cs.drop n).head?.any Token.isSpace then 1 else 0
      else if cs = [] ∨ Token.startsNewline cs then 0
      else 2
    else 0

theorem unitLength_nil : unitLength [] = 0 := rfl

/-- The length of the longest identifier at the head of a text. -/
def identLength (cs : List Char) : Nat :=
  if unitLength cs = 0 then 0
  else unitLength cs + identLength (cs.drop (unitLength cs))
termination_by cs.length
decreasing_by
  next h =>
    have : cs ≠ [] := by rintro rfl; exact h unitLength_nil
    have := List.length_pos_iff.2 this
    simp only [List.length_drop]; omega

/-! ### Names -/

/-- One more digit behind a number; none if it is no hexadecimal digit, or if 32 bits do not hold the
result. -/
def addDigit? (n : Nat) (d : Char) : Option Nat :=
  if Token.isHexDigit d ∧ 16 * n + Token.hexValue d < UInt32.size then
    some (16 * n + Token.hexValue d)
  else none

/-- The number that a run of hexadecimal digits stands for. -/
def codeOf? (ds : List Char) : Option Nat := if ds = [] then none else ds.foldlM addDigit? 0

/-- The character of a code point; surrogates and numbers beyond U+10FFFF have none. -/
def charOf? (n : Nat) : Option Char := if n.isValidChar then some (Char.ofNat n) else none

/-- The character that an escape by these digits stands for. -/
def decoded (ds : List Char) : Char :=
  (((codeOf? ds).filter (· ≠ 0)).bind charOf?).getD Token.replacement

/-- The name that an identifier stands for. -/
def unescape : List Char → List Char
  | [] => []
  | c :: cs =>
    if c = '\\' then
      let ds := hexDigits cs
      if ds = [] then
        match cs with
        | [] => []
        | d :: rest => d :: unescape rest
      else
        let rest := cs.drop ds.length
        decoded ds ::
          unescape (if rest.head?.any Token.isSpace then rest.drop 1 else rest)
    else c :: unescape cs
termination_by cs => cs.length
decreasing_by
  · simp only [List.length_cons]; omega
  · simp only [List.length_cons]
    split <;> simp only [List.length_drop] <;> omega
  · simp only [List.length_cons]; omega

/-! ### Hooks -/

/-- The marks in front of a class and of an id. -/
def isMark (c : Char) : Bool := c = '.' || c = '#'

/-- The name behind a mark. -/
def nameAt (cs : List Char) : String := String.ofList (unescape (cs.take (identLength cs)))

/-- Every hook of a text, from left to right. -/
def hooks : List Char → List (Char × String)
  | [] => []
  | c :: cs =>
    if isMark c ∧ 0 < identLength cs then
      (c, nameAt cs) :: hooks (cs.drop (identLength cs))
    else hooks cs
termination_by cs => cs.length
decreasing_by
  · simp only [List.length_cons, List.length_drop]; omega
  · simp

/-- What may precede the first hook if it is to decide alone. -/
def isAnchorChar (c : Char) : Bool := c.isAlpha || Text.isBlank c

/-- The first hook, when only letters and blanks precede it. -/
def anchor? (cs : List Char) : Option (Char × String) :=
  match cs.dropWhile isAnchorChar with
  | [] => none
  | c :: rest => if isMark c ∧ 0 < identLength rest then some (c, nameAt rest) else none

/-! ### Negations -/

/-- What opens a negation. -/
def negation : List Char := ":not(".toList

/-- The text behind the group `:not(…)` at the head of a text.  The group goes up to the first
closing parenthesis; without one there is no group. -/
def afterNegation? (cs : List Char) : Option (List Char) :=
  if negation.isPrefixOf cs then
    match (cs.drop negation.length).dropWhile (· ≠ ')') with
    | [] => none
    | _ :: rest => some rest
  else none

/-- A negation is not empty, so taking all of them out ends. -/
theorem afterNegation?_shorter {cs rest : List Char} (h : afterNegation? cs = some rest) :
    rest.length < cs.length := by
  unfold afterNegation? at h
  split at h
  · have hd := List.dropWhile_suffix (l := cs.drop negation.length) (· ≠ ')')
    have hl : (cs.drop negation.length).length ≤ cs.length := by simp
    split at h
    · cases h
    · next heq =>
      cases h
      rw [heq] at hd
      have := hd.length_le
      simp only [List.length_cons] at this; omega
  · cases h

/-- Takes every `:not(…)` group out of a text. -/
def dropNegations : List Char → List Char
  | [] => []
  | c :: cs =>
    match _h : afterNegation? (c :: cs) with
    | some rest => dropNegations rest
    | none => c :: dropNegations cs
termination_by cs => cs.length
decreasing_by
  · exact afterNegation?_shorter _h
  · simp

/-! ### Dependencies -/

/-- The names that the text of a selector asks for: those of its anchor, or all that are left
without the negations. -/
def dependencyOf (cs : List Char) : Dependency :=
  match anchor? cs with
  | some hook => .ofHooks [hook]
  | none => .ofHooks (hooks (dropNegations cs))

def analyze (selector : String) : Dependency := dependencyOf selector.toList

/-- The names that any selector of a list asks for. -/
def analyzeAll (selectors : List String) : Dependency := .unionAll (selectors.map analyze)

end CssPrune.Selector
