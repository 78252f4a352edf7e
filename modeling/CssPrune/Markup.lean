import CssPrune.NameSet
import CssPrune.Text.Word

/-!
# Attributes of a document

A document is searched as text for an attribute: its name in any letter case, not in the middle of a
word, an equals sign with blanks around it or not, and a value in double quotes, in single quotes or
in none.  Searching goes on behind the value.
-/

namespace CssPrune.Markup

/-- Whether a character is this lowercase letter, letter case aside.  The long s is an s. -/
def isLetter (letter c : Char) : Bool := c.toLower = letter || (letter = 's' && c = '\u017f')

/-- The text behind a name. -/
def afterName? : List Char → List Char → Option (List Char)
  | [], cs => some cs
  | _ :: _, [] => none
  | letter :: name, c :: cs => if isLetter letter c then afterName? name cs else none

/-- Ends a value that has no quotes, besides blanks. -/
def isDelimiter (c : Char) : Bool :=
  c = '"' || c = '\'' || c = '=' || c = '<' || c = '>' || c = '`'

def isBare (c : Char) : Bool := !Text.isBlank c && !isDelimiter c

/-- A value between quotes. -/
def quoted? (quote : Char) (cs : List Char) : Option (List Char × List Char) :=
  match cs.dropWhile (· ≠ quote) with
  | [] => none
  | _ :: rest => some (cs.takeWhile (· ≠ quote), rest)

/-- The value that stands here, and the text behind it. -/
def value? : List Char → Option (List Char × List Char)
  | [] => none
  | c :: cs =>
    if c = '"' || c = '\'' then quoted? c cs
    else if isBare c then some ((c :: cs).takeWhile isBare, (c :: cs).dropWhile isBare)
    else none

/-- The value of the attribute that stands here, and the text behind it. -/
def attribute? (name cs : List Char) : Option (List Char × List Char) :=
  match afterName? name cs with
  | none => none
  | some rest =>
    match Text.trimStart rest with
    | '=' :: rest => value? (Text.trimStart rest)
    | _ => none

/-! ### Searching goes forward -/

/-- What stands behind a name ends the text. -/
theorem afterName?_suffix {name cs rest : List Char} (h : afterName? name cs = some rest) :
    rest <:+ cs := by
  induction name generalizing cs with
  | nil => cases h; exact List.suffix_refl _
  | cons letter name ih =>
    cases cs with
    | nil => cases h
    | cons c cs =>
      simp only [afterName?] at h
      split at h
      · exact (ih h).trans (List.suffix_cons _ _)
      · cases h

/-- What stands behind a closing quote ends the text. -/
theorem quoted?_suffix {quote : Char} {cs : List Char} {r : List Char × List Char}
    (h : quoted? quote cs = some r) : r.2 <:+ cs := by
  have hd := List.dropWhile_suffix (l := cs) (· ≠ quote)
  unfold quoted? at h
  split at h
  · cases h
  · next heq => cases h; rw [heq] at hd; exact (List.suffix_cons _ _).trans hd

/-- What stands behind a value ends the text. -/
theorem value?_suffix {cs : List Char} {r : List Char × List Char} (h : value? cs = some r) :
    r.2 <:+ cs := by
  unfold value? at h
  split at h
  · cases h
  · split at h
    · exact (quoted?_suffix h).trans (List.suffix_cons _ _)
    · split at h
      · cases h; exact List.dropWhile_suffix _
      · cases h

/-- An attribute takes at least its name, so the search ends. -/
theorem attribute?_shorter {name cs : List Char} {r : List Char × List Char}
    (h : attribute? name cs = some r) : r.2.length < cs.length := by
  unfold attribute? at h
  split at h
  · cases h
  · next rest hn =>
    have h1 := (afterName?_suffix hn).length_le
    have h2 := (List.dropWhile_suffix (l := rest) Text.isBlank).length_le
    split at h
    · next rest' heq =>
      have h3 := (value?_suffix h).length_le
      have h4 := (List.dropWhile_suffix (l := rest') Text.isBlank).length_le
      unfold Text.trimStart at heq h3
      rw [heq] at h2
      simp only [List.length_cons] at h2; omega
    · cases h

/-- The values of an attribute, from left to right; `inWord` tells whether the character in front is
part of a word.  No word reaches over the end of a value: a quote, or what cannot go on with a value
without quotes, stands there. -/
def values (name : List Char) (inWord : Bool) : List Char → List (List Char)
  | [] => []
  | c :: cs =>
    match _h : if inWord then none else attribute? name (c :: cs) with
    | some r => r.1 :: values name false r.2
    | none => values name (Text.isWord c) cs
termination_by cs => cs.length
decreasing_by
  · split at _h
    · cases _h
    · exact attribute?_shorter _h
  · simp

/-- The words of all values of an attribute. -/
def tokens (name : String) (document : String) : NameSet :=
  (values name.toList false document.toList).foldl NameSet.insertWords ∅

/-- The classes that a document mentions. -/
def classes (document : String) : NameSet := tokens "class" document

/-- The ids that a document mentions. -/
def ids (document : String) : NameSet := tokens "id" document

end CssPrune.Markup
