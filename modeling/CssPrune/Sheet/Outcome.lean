import CssPrune.Statement
import CssPrune.Sheet.Fault

/-!
# What statements come to

A statement is read as something or is at fault.  Besides, blocks inside it can hold faults of their
own, which do not spoil it: those of whole rules are kept as `inner`, those of declarations and
other items of a block as `dropped`.
-/

namespace CssPrune

/-- What reading a statement has come to. -/
structure Outcome (α : Type) where
  result : Except Fault α
  inner : List Fault
  dropped : List Fault

namespace Outcome

variable {α β : Type}

/-- Nothing inside is at fault. -/
def plain (result : Except Fault α) : Outcome α := ⟨result, [], []⟩

def map (f : α → β) (o : Outcome α) : Outcome β := ⟨o.result.map f, o.inner, o.dropped⟩

/-- What has been read. -/
def value? (o : Outcome α) : Option α := o.result.toOption

/-- Why nothing has been read. -/
def fault? (o : Outcome α) : Option Fault :=
  match o.result with
  | .ok _ => none
  | .error f => some f

/-- What has been read of a list. -/
def values (os : List (Outcome α)) : List α := os.filterMap value?

/-- The faults of those statements of a list that could not be read. -/
def faults (os : List (Outcome α)) : List Fault := os.filterMap fault?

/-- The faults of whole rules inside of a list. -/
def allInner (os : List (Outcome α)) : List Fault := os.flatMap inner

/-- The faults of declarations and other items inside of a list. -/
def allDropped (os : List (Outcome α)) : List Fault := os.flatMap dropped

end Outcome

namespace Statement

/-- The whole statement is given up. -/
def fault (s : Statement) (cause : Cause) (place : Nat) : Fault := ⟨cause, place, s.start, s.stop⟩

/-- The offset of the first character of the block that ends the statement. -/
def bodyStart (s : Statement) : Nat :=
  match s.ending with
  | .block opener _ _ => s.headStop + opener.text.length
  | .semicolon | .missing => s.headStop

/-- The offset of what closes that block. -/
def bodyStop (s : Statement) : Nat :=
  match s.ending with
  | .block _ body _ => s.bodyStart + Component.widthOf body
  | .semicolon | .missing => s.bodyStart

/-- The components behind the first one. -/
def tail (s : Statement) : List Component := s.head.drop 1

/-- The offset behind the first component. -/
def firstStop (s : Statement) : Nat := s.start + Component.widthOf (s.head.take 1)

end Statement

end CssPrune
