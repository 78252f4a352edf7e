import CssPrune.Proofs.PlainTree

/-!
# Words

A word is made of small letters, one at least; it is read as a name in front of any mark.  Two words
with a colon between are a declaration (`readDeclarations_pair`), and a class with such a declaration
in a block is a style rule (`yields_classRule`), however the class is spelled.
-/

namespace CssPrune

open Component (Spells UpTo nameLeaf)
open Grammar

/-- Small letters. -/
structure Word where
  text : List Char
  ne_nil : text ≠ []
  small : text.all Char.isLower = true

namespace Word

variable {b : Option Bracket} {f : Char}

/-- The word as a string. -/
def name (w : Word) : String := String.ofList w.text

theorem toList_name (w : Word) : w.name.toList = w.text := String.toList_ofList

theorem isLower (w : Word) {c : Char} (h : c ∈ w.text) : c.isLower = true :=
  List.all_eq_true.1 w.small c h

theorem not_mem (w : Word) {c : Char} (h : c.isLower = false) : c ∉ w.text := by
  intro hc
  rw [w.isLower hc] at h
  cases h

/-- A word is a plain name. -/
theorem plainName (w : Word) : plainName w.text = true := by
  obtain ⟨c, cs, hw⟩ := List.exists_cons_of_ne_nil w.ne_nil
  have hall := w.small
  rw [hw, List.all_cons, Bool.and_eq_true] at hall
  rw [hw, CssPrune.plainName, hall.1, Bool.true_and, List.all_eq_true]
  intro d hd
  simp [List.all_eq_true.1 hall.2 d hd]

/-- A word is read as the name that it spells. -/
theorem spelled (w : Word) : Token.spelled w.text = true := spelled_plainName w.plainName

/-- Small letters leave no space in a wrong place. -/
theorem spaced {x : List Char} (h : x.all Char.isLower = true) (blank : Bool) (hne : x ≠ []) :
    Plain.spaced blank x = true := by
  induction x generalizing blank with
  | nil => exact absurd rfl hne
  | cons c x ih =>
      rw [List.all_cons, Bool.and_eq_true] at h
      have hc : c ≠ ' ' := by rintro rfl; cases h.1
      rw [Plain.spaced, if_neg hc]
      cases x with
      | nil => rfl
      | cons d x => exact ih h.2 false (List.cons_ne_nil _ _)

/-- A word begins as a name does. -/
theorem exists_cons (w : Word) : ∃ c cs, w.text = c :: cs ∧ Token.isNameStart c = true := by
  obtain ⟨c, cs, h⟩ := List.exists_cons_of_ne_nil w.ne_nil
  exact ⟨c, cs, h, isNameStart_of_isLower (w.isLower (by rw [h]; exact List.mem_cons_self))⟩

theorem isPlain (w : Word) : w.text.all Plain.isPlain = true :=
  List.all_eq_true.2 fun c hc => by simp [Plain.isPlain, w.isLower hc]

/-- A word is a plain text. -/
theorem plainText (w : Word) (commas : Bool) : Plain.PlainText commas w.text where
  plain := w.isPlain
  noUrl := Plain.holdsUrl_append (x := []) rfl (w.not_mem rfl)
  balanced := by
    have := Plain.balanced_word (Plain.isWord_of rfl rfl rfl w.small) commas 0 []
    rwa [List.append_nil] at this
  noMark := w.not_mem rfl
  spaced := .inr (spaced w.small true w.ne_nil)

theorem plainText_class (w : Word) (commas : Bool) : Plain.PlainText commas ('.' :: w.text) where
  plain := w.isPlain
  noUrl := Plain.holdsUrl_append (x := ['.']) rfl (w.not_mem rfl)
  balanced := (Plain.balanced_word (u := ['.']) rfl commas 0 w.text).trans (w.plainText commas).balanced
  noMark := List.not_mem_cons_of_ne_of_not_mem (by decide) (w.not_mem rfl)
  spaced := .inr (spaced w.small false w.ne_nil)

/-- A word is its own normal form. -/
theorem normalize (w : Word) : Text.normalize w.text = w.text := by
  have := (w.plainText false).normalize (.inl rfl)
  rwa [List.append_nil] at this

theorem normalize_class (w : Word) : Text.normalize ('.' :: w.text) = '.' :: w.text := by
  have := (w.plainText_class false).normalize (.inl rfl)
  rwa [List.append_nil] at this

/-- In front of a mark, a word is one component. -/
theorem upTo (w : Word) (hf : Token.standsAlone f = true) : UpTo b f w.text [nameLeaf w.text] :=
  Component.upTo_name w.spelled hf

/-! ### A declaration of two words -/

/-- The declaration that gives the property `p` the value `v`. -/
def declaration (p v : Word) : Declaration := ⟨p.name, v.name, false⟩

/-- Property, colon and value, as components. -/
def pairBody (p v : Word) : List Component :=
  [nameLeaf p.text, .leaf (Lexeme.mark ':'), nameLeaf v.text]

/-- The declaration in a block. -/
def pairText (p v : Word) : List Char := '\x7b' :: (p.text ++ ':' :: v.text ++ ['\x7d'])

/-- The block, as the end of a statement. -/
def pairEnding (p v : Word) : Ending :=
  .block (Lexeme.mark '\x7b') (pairBody p v) (some (Lexeme.mark '\x7d'))

/-- The block, as a component. -/
def pairBlock (p v : Word) : Component :=
  .block (Lexeme.mark '\x7b') (pairBody p v) (some (Lexeme.mark '\x7d'))

/-- The block is read by itself, whatever follows it. -/
theorem spells_pair (p v : Word) : Spells b (pairText p v) [pairBlock p v] := by
  have hcolon : Spells (some .curly) [':'] [.leaf (Lexeme.mark ':')] :=
    Component.spells_mark rfl rfl
  have := (((p.upTo rfl).append hcolon).upTo (v.upTo rfl)).block (b := b)
  rwa [List.append_assoc p.text] at this

theorem declaration_normal (p v : Word) : (declaration p v).Normal where
  name := normalName_plain (by rw [declaration, toList_name, p.plainName]; rfl)
  value := by
    rw [declaration, toList_name]
    exact ⟨v.normalize, (v.plainText false).trimmed⟩

/-- The block is read as the one declaration. -/
theorem readDeclarations_pair (p v : Word) (pos : Nat) :
    readDeclarations pos (pairBody p v) = [.ok (declaration p v)] := by
  have hcut : (declarations.ends (pairBody p v)).cut (pairBody p v) = (pairBody p v, .missing, []) :=
    rfl
  obtain ⟨pos', hst⟩ := statements_cut (g := declarations) pos rfl hcut
  have hmark : Declaration.importantMark.isSuffixOf v.text = false := by
    by_contra hs
    rw [Bool.not_eq_false, List.isSuffixOf_iff_suffix] at hs
    exact v.not_mem (c := '!') rfl (hs.subset (.head _))
  have hhead : (⟨pos, pairBody p v, .missing⟩ : Statement).head =
      nameLeaf (declaration p v).name.toList :: .leaf (Lexeme.mark ':') :: [nameLeaf v.text] := by
    rw [declaration, toList_name]; rfl
  have hread := asDeclaration_written (l := .compressed) (declaration_normal p v)
    (fun _ => by rw [declaration, toList_name]; exact hmark) hhead
    (by simp [declaration, Declaration.written, toList_name, Layout.gap, Layout.only,
      Component.textOf, Component.text, nameLeaf])
  rw [readDeclarations, pairBody, hst, statements_nil, List.map_singleton, Statement.declaration]
  exact congrArg (fun d => [d]) hread

end Word

/-! ### Class rules -/

/-- A mark does not make a digit of what stands in front of it. -/
theorem Token.startsDigit_append_mark {f : Char} (hf : standsAlone f = true) {u : List Char}
    (h : startsDigit u = false) (r : List Char) : startsDigit (u ++ f :: r) = false := by
  cases u with
  | nil => exact not_of_standsAlone (p := Char.isDigit) rfl hf
  | cons c u => exact h

theorem Token.read_point {cs : List Char} (h : startsDigit cs = false) :
    read '.' cs = (.delim '.', cs) := by
  have hnum : startsNumeral ('.' :: cs) = false := h
  have hname : startsName ('.' :: cs) = false := by rw [startsName_cons (by decide) (by decide)]; rfl
  simp [read, isSpace, isNewline, hnum, hname, readMark]

/-- A class and the block of its rule, in a list of rules. -/
theorem yields_classRule {b : Option Bracket} {n : String} {u : List Char}
    (hd : Token.startsDigit u = false) (hu : UpTo b '\x7b' u [.leaf ⟨.ident n, u⟩]) (p v : Word) :
    Yields rules Statement.rule b ('.' :: u ++ Word.pairText p v)
      (fine (.style [Text.normalString ('.' :: u)] [Word.declaration p v])) := by
  have hupTo : UpTo b '\x7b' ('.' :: u)
      [.leaf ⟨.delim '.', ['.']⟩, .leaf ⟨.ident n, u⟩] :=
    UpTo.leaf (u := []) (fun r => Token.read_point (Token.startsDigit_append_mark rfl hd r))
      rfl hu
  have hsel : Component.selectors [.leaf ⟨.delim '.', ['.']⟩, .leaf ⟨.ident n, u⟩] =
      [Text.normalString ('.' :: u)] := by
    have hne : Text.normalString ('.' :: u) ≠ "" := by
      rw [Text.normalString, Text.normalize,
        Text.squeeze_visible rfl (fun e => by cases e.1), ne_eq, String.ext_iff]
      simp [Text.Written.space]
    rw [Component.selectors, Component.segments_of_no_comma rfl]
    simp [Component.textOf, Component.text, hne]
  refine Yields.of_head (t := ⟨false, true⟩) (e := Word.pairEnding p v) skipsBlanks_rules
    ⟨'.', rfl, rfl⟩ hupTo (Word.spells_pair p v) (fun d hd => Option.some.inj hd ▸ rfl)
    (fun more => rfl) (fun d hd => ?_) rfl fun pos => ?_
  · rcases List.mem_pair.1 hd with rfl | rfl <;> rfl
  · have hds : ∀ pos, readDeclarations pos (Word.pairBody p v) =
        [Word.declaration p v].map .ok := Word.readDeclarations_pair p v
    rw [Statement.rule_of_plain rfl]
    exact plainRule_fine rfl rfl hsel (List.cons_ne_nil _ _) (hds _)

end CssPrune
