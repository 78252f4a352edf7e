import CssPrune.Options.Scalar

/-!
# Reading options

Options are read from a JSON object whose keys are names of fields, each given at most once, or from
a list of values in the order of the fields.  Every value is `true` or `false`.  A field that is not
given has its default.
-/

namespace CssPrune.Options

/-- The flaw of a value of another type than the one that is wanted.  The value is read first, and
may be flawed itself; of a list or an object no more than the first character is looked at. -/
def wrongType {α : Type} (wanted : Wanted) (cs : List Char) : Except ReadError α := do
  match cs with
  | 'n' :: cs => failBefore (.wrongType .null wanted) (← readWord "ull".toList cs)
  | 't' :: cs => failBefore (.wrongType (.bool true) wanted) (← readWord "rue".toList cs)
  | 'f' :: cs => failBefore (.wrongType (.bool false) wanted) (← readWord "alse".toList cs)
  | '[' :: _ => failBefore (.wrongType .sequence wanted) cs
  | '\x7b' :: _ => failBefore (.wrongType .map wanted) cs
  | '"' :: cs =>
    let (s, cs) ← readString cs
    failBefore (.wrongType (.string s) wanted) cs
  | '-' :: cs =>
    let (n, cs) ← readNumber true cs
    failBefore (.wrongType n wanted) cs
  | _ =>
    if Token.startsDigit cs then
      let (n, cs) ← readNumber false cs
      failBefore (.wrongType n wanted) cs
    else failIn .expectedValue cs

/-- Reads a value of a field. -/
def readBool (cs : List Char) : Except ReadError (Bool × List Char) :=
  match skipSpace cs with
  | [] => failBefore .endInValue []
  | 't' :: cs => (readWord "rue".toList cs).map (true, ·)
  | 'f' :: cs => (readWord "alse".toList cs).map (false, ·)
  | cs => wrongType .bool cs

/-! ### Lists -/

/-- Behind the last value of a list. -/
def readListEnd (cs : List Char) : Except ReadError (List Char) :=
  match skipSpace cs with
  | [] => failBefore .endInList []
  | ']' :: cs => .ok cs
  | ',' :: cs =>
    match skipSpace cs with
    | ']' :: cs => failIn .trailingComma (']' :: cs)
    | cs => failIn .trailingCharacters cs
  | cs => failIn .trailingCharacters cs

/-- Steps to the next value of a list, unless the list ends. -/
def nextElement (first : Bool) (cs : List Char) : Except ReadError (Option (List Char)) :=
  match skipSpace cs with
  | [] => failBefore .endInList []
  | c :: cs =>
    if c = ']' then .ok none
    else if first then .ok (some (c :: cs))
    else if c = ',' then
      match skipSpace cs with
      | [] => failBefore .endInValue []
      | ']' :: cs => failIn .trailingComma (']' :: cs)
      | cs => .ok (some cs)
    else failIn .expectedListEnd (c :: cs)

/-- Reads the values of a list, one for each field. -/
def readElements (first : Bool) (cs : List Char) :
    List Field → Except ReadError (List (Field × Bool) × List Char)
  | [] => (readListEnd cs).map ([], ·)
  | f :: fs => do
    match ← nextElement first cs with
    | none => (readListEnd cs).map ([], ·)
    | some cs =>
      let (b, cs) ← readBool cs
      let (given, cs) ← readElements false cs fs
      .ok ((f, b) :: given, cs)

/-! ### Objects -/

/-- Steps to the text of the next key of an object, behind its quote, unless the object ends. -/
def nextKey (first : Bool) (cs : List Char) : Except ReadError (Option (List Char)) :=
  match skipSpace cs with
  | [] => failBefore .endInObject []
  | c :: cs =>
    if c = '\x7d' then .ok none
    else if first then
      if c = '"' then .ok (some cs) else failIn .keyNotString (c :: cs)
    else if c = ',' then
      match skipSpace cs with
      | [] => failBefore .endInValue []
      | '"' :: cs => .ok (some cs)
      | '\x7d' :: cs => failIn .trailingComma ('\x7d' :: cs)
      | cs => failIn .keyNotString cs
    else failIn .expectedObjectEnd (c :: cs)

/-- Behind a key that the object cannot have; a bracket that closes the object is still read. -/
def failKey {α : Type} (flaw : Flaw) (cs : List Char) : Except ReadError α :=
  match skipSpace cs with
  | '\x7d' :: cs => failBefore flaw cs
  | cs => failBefore flaw cs

/-- Steps behind the colon between a key and its value. -/
def readColon (cs : List Char) : Except ReadError (List Char) :=
  match skipSpace cs with
  | [] => failBefore .endInObject []
  | ':' :: cs => .ok cs
  | cs => failIn .expectedColon cs

/-- Reads the members of an object.  `missing` holds the fields that have not been given yet, so
another member is read only while one is left. -/
def readMembers (first : Bool) (missing : List Field) (cs : List Char) :
    Except ReadError (List (Field × Bool) × List Char) := do
  match ← nextKey first cs with
  | none => .ok ([], (skipSpace cs).drop 1)
  | some cs =>
    let (name, cs) ← readString cs
    match Field.ofName? name with
    | none => failKey (.unknownField name) cs
    | some f =>
      if _h : f ∈ missing then
        let cs ← readColon cs
        let (b, cs) ← readBool cs
        let (given, cs) ← readMembers false (missing.erase f) cs
        .ok ((f, b) :: given, cs)
      else failKey (.duplicateField f) cs
termination_by missing.length
decreasing_by
  rw [List.length_erase_of_mem _h]
  exact Nat.sub_lt (List.length_pos_of_mem _h) Nat.one_pos

/-! ### A whole text -/

/-- Reads the fields that a text gives, in either of the two forms. -/
def readGiven (cs : List Char) : Except ReadError (List (Field × Bool) × List Char) :=
  match skipSpace cs with
  | [] => failBefore .endInValue []
  | '[' :: cs => readElements true cs Field.all
  | '\x7b' :: cs => readMembers true Field.all cs
  | cs => wrongType .options cs

/-- Reads a whole text: nothing but blanks may stand behind the options. -/
def read (cs : List Char) : Except ReadError Options := do
  let (given, cs) ← readGiven cs
  match skipSpace cs with
  | [] => .ok (ofGiven given)
  | cs => failIn .trailingCharacters cs

end CssPrune.Options
