import CssPrune.Component

/-!
# Statements

A list of components is read statement by statement.  What separates statements and what ends one
depends on the list, which is what a `Grammar` says; a statement is then its `head` and its
`Ending`.  Statements follow each other in the text: each stops at or before the place where the
next one starts.
-/

namespace CssPrune

/-- What ends a statement: a block in curly brackets, a semicolon, or the end of the list. -/
inductive Ending where
  | block (opener : Lexeme) (body : List Component) (closer : Option Lexeme)
  | semicolon
  | missing

namespace Ending

/-- The end of a block or a semicolon, as part of a text. -/
def text : Ending → List Char
  | .block opener body closer => (Component.block opener body closer).text
  | .semicolon => [';']
  | .missing => []

def width : Ending → Nat
  | .block opener body closer => (Component.block opener body closer).width
  | .semicolon => 1
  | .missing => 0

/-- The width of an ending is the length of its text. -/
theorem width_eq (e : Ending) : e.width = e.text.length := by
  cases e with
  | block opener body closer => exact Component.width_eq _
  | semicolon => rfl
  | missing => rfl

/-- The number of components inside. -/
def count : Ending → Nat
  | .block _ body _ => Component.countOf body + 1
  | .semicolon | .missing => 0

end Ending

/-- Which components end a statement. -/
structure Terminators where
  semicolon : Bool
  block : Bool

/-- The ending that a component makes. -/
def Terminators.ending? (t : Terminators) : Component → Option Ending
  | .leaf x => if t.semicolon && x.token = .semicolon then some .semicolon else none
  | .block opener body closer =>
    if t.block && opener.token = .openCurly then some (.block opener body closer) else none

/-- Cuts a list behind the first component that ends a statement. -/
def Terminators.cut (t : Terminators) : List Component → List Component × Ending × List Component
  | [] => ([], .missing, [])
  | c :: cs =>
    match t.ending? c with
    | some e => ([], e, cs)
    | none =>
      let r := t.cut cs
      (c :: r.1, r.2)

/-- A part of a list of components, up to what ends it. -/
structure Statement where
  /-- The offset of the first character. -/
  start : Nat
  head : List Component
  ending : Ending

namespace Statement

/-- The offset behind the head. -/
def headStop (s : Statement) : Nat := s.start + Component.widthOf s.head

/-- The offset behind the statement. -/
def stop (s : Statement) : Nat := s.headStop + s.ending.width

/-- The name of the at-keyword that a statement begins with. -/
def atName? (s : Statement) : Option String :=
  match s.head with
  | c :: _ =>
    match c.token with
    | .atKeyword name => some name
    | _ => none
  | [] => none

end Statement

/-- How a list of components falls into statements: what is skipped between them, and what ends the
statement that a list begins with. -/
structure Grammar where
  skips : Component → Bool
  ends : List Component → Terminators

namespace Grammar

/-- Behind a statement there are no more components than in the whole list, those inside of its
block included. -/
theorem countOf_cut_le (t : Terminators) (cs : List Component) :
    (t.cut cs).2.1.count + Component.countOf (t.cut cs).2.2 ≤ Component.countOf cs := by
  induction cs with
  | nil => simp [Terminators.cut, Ending.count, Component.countOf]
  | cons c cs ih =>
    unfold Terminators.cut
    split
    · next e he =>
      cases c with
      | leaf x =>
        simp only [Terminators.ending?] at he
        split at he
        · cases he; simp [Ending.count, Component.countOf]
        · cases he
      | block opener body closer =>
        simp only [Terminators.ending?] at he
        split at he
        · cases he; simp [Ending.count, Component.countOf, Component.count]
        · cases he
    · simp only [Component.countOf]; omega

/-- A statement takes at least one component, so reading ends. -/
theorem length_cut_cons_le (t : Terminators) (c : Component) (cs : List Component) :
    (t.cut (c :: cs)).2.2.length ≤ cs.length := by
  induction cs generalizing c with
  | nil => unfold Terminators.cut; split <;> simp [Terminators.cut]
  | cons d ds ih =>
    have := ih d
    unfold Terminators.cut
    split
    · exact Nat.le_refl _
    · simp only [List.length_cons]; omega

/-- The statements of a list whose text starts at the offset `pos`. -/
def statements (g : Grammar) (pos : Nat) : List Component → List Statement
  | [] => []
  | c :: cs =>
    if g.skips c then g.statements (pos + c.width) cs
    else
      let r := (g.ends (c :: cs)).cut (c :: cs)
      let s : Statement := ⟨pos, r.1, r.2.1⟩
      s :: g.statements s.stop r.2.2
termination_by cs => cs.length
decreasing_by
  · simp
  · have := length_cut_cons_le (g.ends (c :: cs)) c cs
    simp only [List.length_cons]; omega

/-- What a statement ends with is a part of the list it was cut from. -/
theorem count_ending_le (g : Grammar) (pos : Nat) (cs : List Component) :
    ∀ s ∈ g.statements pos cs, s.ending.count ≤ Component.countOf cs := by
  fun_induction statements g pos cs with
  | case1 => simp
  | case2 pos c cs _ ih =>
    intro s hs
    have := ih s hs
    simp only [Component.countOf]; omega
  | case3 pos c cs _ r s ih =>
    intro t ht
    have hc := countOf_cut_le (g.ends (c :: cs)) (c :: cs)
    rcases List.mem_cons.1 ht with rfl | ht
    · exact Nat.le_trans (Nat.le_add_right _ _) hc
    · exact Nat.le_trans (ih t ht) (Nat.le_trans (Nat.le_add_left _ _) hc)

end Grammar

/-! ### The three grammars -/

namespace Grammar

/-- A list begins with an at-keyword. -/
def beginsAt (cs : List Component) : Bool := (Statement.atName? ⟨0, cs, .missing⟩).isSome

/-- Whether a list begins with a name and, blanks aside, a colon. -/
def declares : List Component → Bool
  | c :: cs =>
    match c.token with
    | .ident _ => ((cs.dropWhile Component.isBlank).head?.map Component.token) = some .colon
    | _ => false
  | [] => false

/-- Rules: blanks and the marks around an embedded sheet stand between them.  An at-rule ends at a
semicolon or a block, every other rule at a block. -/
def rules : Grammar where
  skips c := c.isBlank || c.token = .cdo || c.token = .cdc
  ends cs := ⟨beginsAt cs, true⟩

/-- What stands between declarations. -/
def separates (c : Component) : Bool := c.isBlank || c.token = .semicolon

/-- Declarations: each ends at a semicolon.  An at-rule among them may end at a block, too. -/
def declarations : Grammar where
  skips := separates
  ends cs := ⟨true, beginsAt cs⟩

/-- Declarations and rules in any order: what does not begin like a declaration may end at a
block. -/
def items : Grammar where
  skips := separates
  ends cs := ⟨true, !declares cs⟩

end Grammar

end CssPrune
