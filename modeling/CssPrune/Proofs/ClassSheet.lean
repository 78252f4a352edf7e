import CssPrune.Proofs.Identifier
import CssPrune.Proofs.Output
import CssPrune.Proofs.Words

/-!
# Sheets of class rules

Every name that a class attribute can hold is written as an identifier by `Selector.escape`.  The
identifier is read as the name by the tokenizer (`upTo_escape`); in the normal form of a selector it
loses at most the blank that ends its last escape (`squeeze_spelling`), and the name is still found in
it (`ClassName.analyze_selector`).

`build_classSheet`: a filter over a sheet with one rule for each of some classes puts out, for every
document, the rules of the classes that the document has, and nothing else.
-/

namespace CssPrune

open Selector (Spelling CharSpelling escape escapeStart escapeChar escapeCode)

/-! ### Identifiers as tokens -/

namespace Token

/-- The digits of a character and a blank behind them are read as the character. -/
theorem readEscape_code {c : Char} (h₀ : c ≠ '\x00') (hc : c.toNat < 128) (y : List Char) :
    readEscape (Nat.toDigits 16 c.toNat ++ ' ' :: y) = (c, y) := by
  obtain ⟨hd, hpos, hlen, hval⟩ := Selector.code_digits hc
  have hrun := Selector.hexDigits_append hd hlen.le (c := ' ') rfl y
  have hne := List.ne_nil_of_length_pos hpos
  generalize Nat.toDigits 16 c.toNat = ds at *
  cases ds with
  | nil => exact absurd rfl hne
  | cons d ds =>
      have hrun : ((d :: (ds ++ ' ' :: y)).take 6).takeWhile isHexDigit = d :: ds := hrun
      simp only [List.cons_append, readEscape, hrun, List.cons_ne_nil, if_false, hval h₀]
      rw [← List.cons_append, List.drop_left]
      rfl

end Token

namespace Selector

open Token (readName standsAlone)

variable {n t : List Char}

/-- The first digit of an escape; no newline stands behind the backslash. -/
theorem digits_cons {c : Char} (hl : c.toNat < 128) :
    ∃ d ds, Nat.toDigits 16 c.toNat = d :: ds ∧ Token.isNewline d = false := by
  obtain ⟨hds, hpos, -, -⟩ := code_digits hl
  obtain ⟨d, ds, h⟩ := List.exists_cons_of_length_pos hpos
  rw [h, List.all_cons, Bool.and_eq_true] at hds
  refine ⟨d, ds, h, ?_⟩
  by_contra hnew
  simp only [Token.isNewline, Bool.not_eq_false, Bool.or_eq_true, decide_eq_true_eq] at hnew
  rcases hnew with (rfl | rfl) | rfl <;> cases hds.1

/-- The tokenizer reads the name that an identifier spells. -/
theorem Spelling.readName (h : Spelling n t) (h₀ : '\x00' ∉ n) {y : List Char}
    (hy : y.head?.all Token.endsName = true) : readName (t ++ y) = (n, y) := by
  induction h with
  | nil => exact Token.readName_end hy
  | @cons c n u t hu _ ih =>
      have hc : c ≠ '\x00' := by rintro rfl; exact h₀ List.mem_cons_self
      have ih := ih fun hm => h₀ (List.mem_cons_of_mem _ hm)
      cases hu with
      | plain hi =>
          have hb : c ≠ '\\' := by rintro rfl; cases hi
          have hnull : Token.denull c = c := if_neg hc
          rw [List.append_assoc, List.singleton_append, Token.readName, if_neg hb,
            if_pos (isNameChar_of_isIdentChar hi), ih, hnull]
      | marked hx hn =>
          have hnull : Token.denull c = c := if_neg hc
          have hread : Token.readEscape (c :: (t ++ y)) = (c, t ++ y) := by
            simp [Token.readEscape, hx, hnull]
          have hline : ¬Token.startsNewline (c :: (t ++ y)) = true := by
            rw [Token.startsNewline, List.head?_cons, Option.any_some, hn]
            exact Bool.false_ne_true
          rw [List.append_assoc, List.cons_append, List.singleton_append, Token.readName, if_pos rfl,
            if_neg hline, hread]
          simp only [ih]
      | coded _ hl =>
          have hread := Token.readEscape_code hc hl (t ++ y)
          have hline : ¬Token.startsNewline (Nat.toDigits 16 c.toNat ++ ' ' :: (t ++ y)) = true := by
            obtain ⟨d, ds, hds, hd⟩ := digits_cons hl
            rw [hds, List.cons_append, Token.startsNewline, List.head?_cons, Option.any_some, hd]
            exact Bool.false_ne_true
          rw [escapeCode, List.append_assoc, List.cons_append, List.append_assoc,
            List.singleton_append, Token.readName, if_pos rfl, if_neg hline, hread]
          simp only [ih]

/-- What a name can begin with. -/
theorem escapeStart_cases {c : Char} (h₀ : c ≠ '\x00') :
    (escapeStart c = [c] ∧ (Token.isNameStart c = true ∨ c = '-')) ∨
      ∃ d u, escapeStart c = '\\' :: d :: u ∧ Token.isNewline d = false := by
  have coded : c.toNat < 128 →
      ∃ d u, escapeCode c = '\\' :: d :: u ∧ Token.isNewline d = false := by
    intro hl
    obtain ⟨d, ds, hds, hd⟩ := digits_cons hl
    exact ⟨d, ds ++ [' '], by rw [escapeCode, hds]; rfl, hd⟩
  rw [escapeStart]
  split
  · next hd =>
      have := (Text.isDigit_iff.1 hd).2
      exact .inr (coded (by omega))
  · next hd =>
      have hc := charSpelling_escapeChar h₀
      generalize escapeChar c = u at hc
      cases hc with
      | plain hi =>
          have hn := isNameChar_of_isIdentChar hi
          simp only [Token.isNameChar, Bool.or_eq_true, decide_eq_true_eq] at hn
          exact .inl ⟨rfl, by tauto⟩
      | marked hx hn => exact .inr ⟨c, [], rfl, hn⟩
      | coded _ hl => exact .inr (coded hl)

/-- What is escaped starts a name. -/
theorem startsName_escape (hn : n ≠ []) (h₀ : '\x00' ∉ n) (y : List Char) :
    Token.startsName (escape n ++ y) = true := by
  unfold escape
  split
  · exact absurd rfl hn
  · rfl
  -- behind a hyphen
  · next c cs =>
      have hc : c ≠ '\x00' := by rintro rfl; simp at h₀
      obtain ⟨h, hs⟩ | ⟨d, u, h, -⟩ := escapeStart_cases hc
      · rw [h]
        rcases hs with hs | rfl
        · simp [Token.startsName, hs]
        · rfl
      · rw [h]; rfl
  · next c cs hone hmore =>
      have hc : c ≠ '\x00' := by rintro rfl; simp at h₀
      have hm : c ≠ '-' := by
        rintro rfl
        cases cs with
        | nil => exact hone rfl rfl
        | cons d cs => exact hmore d cs rfl rfl
      obtain ⟨h, hs⟩ | ⟨d, u, h, hd⟩ := escapeStart_cases hc
      · have hs := hs.resolve_right hm
        have hb : c ≠ '\\' := by rintro rfl; cases hs
        rw [h, List.append_assoc, List.singleton_append, Token.startsName_cons hm hb, hs]
      · rw [h]
        simp [Token.startsName, Token.startsNewline, hd]

end Selector

theorem Token.startsDigit_of_startsName {cs : List Char} (h : startsName cs = true) :
    startsDigit cs = false := by
  cases cs with
  | nil => rfl
  | cons c cs =>
      by_cases hm : c = '-'
      · subst hm; rfl
      by_cases hb : c = '\\'
      · subst hb; rfl
      · rw [startsName_cons hm hb] at h
        exact not_isDigit_of_isNameStart h

namespace Component

/-- A name that is written as an identifier, in front of a mark. -/
theorem upTo_escape {b : Option Bracket} {f : Char} {n : List Char} (hn : n ≠ [])
    (h₀ : '\x00' ∉ n) (hf : Token.standsAlone f = true) :
    UpTo b f (escape n) [.leaf ⟨.ident (String.ofList n), escape n⟩] := by
  have hstart := Selector.startsName_escape hn h₀
  have hname : ∀ r, Token.readName (escape n ++ f :: r) = (n, f :: r) := fun r =>
    (Selector.spelling_escape h₀).readName h₀ (Token.endsName_of_standsAlone hf r)
  generalize escape n = t at hstart hname ⊢
  cases t with
  | nil => cases hstart []
  | cons c t =>
      have := UpTo.leaf (b := b) (fun r => Token.read_ident (hstart (f :: r)) (hname r) hf)
        (by simp [fits, Token.opens?, Token.closes?]) .nil
      rwa [List.append_nil] at this

end Component

/-! ### Identifiers in normal form -/

namespace Text

open Selector (isIdentChar)

variable {n t : List Char}

theorem steady_digits {c : Char} (h : c.toNat < 128) :
    (Nat.toDigits 16 c.toNat).all isSteady = true := by
  have hall : ∀ n < 128, (Nat.toDigits 16 n).all isSteady = true := by decide +kernel
  exact hall c.toNat h

/-- A character of an identifier stays in normal form. -/
theorem steady_of_isIdentChar {c : Char} (h : isIdentChar c = true) (hb : isBlank c = false) :
    isSteady c = true := by
  refine isSteady_iff.2 ⟨hb, ?_, ?_, ?_⟩
  · by_contra hq
    simp only [isQuote, Bool.not_eq_false, Bool.or_eq_true, decide_eq_true_eq] at hq
    rcases hq with rfl | rfl <;> cases h
  · rintro rfl; cases h
  · rintro rfl; cases h

/-- Within quotes an identifier is copied; an escaped quote does not end the string. -/
theorem squeeze_quoted_spelling {q : Char} (hq : isQuote q = true) (h : Spelling n t)
    (w : Written) (hv : ∀ c ∈ n, isBlank c = false) : squeeze (.quoted q false) w t = t := by
  induction h generalizing w with
  | nil => rfl
  | @cons c n u t hu _ ih =>
      have ih := fun w => ih w fun d hd => hv d (List.mem_cons_of_mem _ hd)
      have hb := hv c List.mem_cons_self
      cases hu with
      | plain hi =>
          rw [squeeze_quoted_steady hq (by simp [steady_of_isIdentChar hi hb]), ih]
      | marked hx hn =>
          rw [List.cons_append, List.singleton_append, squeeze, if_neg Bool.false_ne_true, if_pos rfl,
            squeeze, if_pos rfl, ih]
      | coded _ hl =>
          have hsteady := steady_digits hl
          obtain ⟨d, ds, hds, -⟩ := Selector.digits_cons hl
          rw [hds, List.all_cons, Bool.and_eq_true] at hsteady
          have hspace : squeeze (.quoted q false) .flush (' ' :: t) = ' ' :: t := by
            have hne : ' ' ≠ q := by rintro rfl; cases hq
            rw [squeeze, if_neg Bool.false_ne_true, if_neg (by decide), if_neg hne, ih]
          rw [escapeCode, hds, List.cons_append, List.append_assoc, List.singleton_append,
            List.cons_append, squeeze, if_neg Bool.false_ne_true, if_pos rfl, squeeze, if_pos rfl,
            squeeze_quoted_steady hq hsteady.2, hspace]

/-- A spelling begins with what no gap begins with. -/
theorem head_spelling (h : Spelling n t) (hv : ∀ c ∈ n, isBlank c = false) :
    ∀ c ∈ t.head?, isBlank c = false ∧ c ≠ '/' ∧ c ≠ '*' := by
  intro d hd
  cases h with
  | nil => cases hd
  | @cons c n u t hu _ =>
      cases hu with
      | plain hi =>
          obtain rfl := Option.some.inj hd
          refine ⟨hv _ List.mem_cons_self, ?_, ?_⟩
          · rintro rfl; cases hi
          · rintro rfl; cases hi
      | marked hx hn => obtain rfl := Option.some.inj hd; exact ⟨rfl, by decide, by decide⟩
      | coded _ hl => obtain rfl := Option.some.inj hd; exact ⟨rfl, by decide, by decide⟩

/-- The blank behind an escape is kept in front of the rest of the identifier. -/
theorem squeeze_owing (h : Spelling n t) (hv : ∀ c ∈ n, isBlank c = false) (hne : t ≠ []) :
    squeeze .plain .owing t = ' ' :: squeeze .plain .flush t := by
  obtain ⟨c, t, rfl⟩ := List.exists_cons_of_ne_nil hne
  obtain ⟨hb, hs, -⟩ := head_spelling h hv c rfl
  rw [squeeze_visible hb fun e => hs e.1, squeeze_visible hb fun e => hs e.1]
  rfl

/-- The normal form of an identifier is the identifier itself, or all of it but the blank at its
end. -/
theorem squeeze_spelling (h : Spelling n t) (hv : ∀ c ∈ n, isBlank c = false) :
    squeeze .plain .flush t = t ∨ t = squeeze .plain .flush t ++ [' '] := by
  have cons : ∀ {x y z : List Char}, y = z ∨ z = y ++ [' '] →
      x ++ y = x ++ z ∨ x ++ z = x ++ y ++ [' '] := by
    rintro x y z (rfl | rfl)
    · exact .inl rfl
    · exact .inr (List.append_assoc _ _ _).symm
  induction h with
  | nil => exact .inl rfl
  | @cons c n u t hu ht ih =>
      have hvn : ∀ d ∈ n, isBlank d = false := fun d hd => hv d (List.mem_cons_of_mem _ hd)
      have ih := ih hvn
      have hb := hv c List.mem_cons_self
      cases hu with
      | plain hi =>
          rw [squeeze_steady (x := [c]) (by simp [steady_of_isIdentChar hi hb])]
          exact cons ih
      | marked hx hn =>
          -- a slash opens no comment, since a star is always escaped
          have hopen : ¬OpensComment c t := fun e => (head_spelling ht hvn '*' e.2).2.2 rfl
          have hmarked : squeeze .plain .flush ('\\' :: c :: t) = '\\' :: c ::
              squeeze (if isQuote c then .quoted c false else .plain) .flush t :=
            (squeeze_backslash _).trans (congrArg ('\\' :: ·) (squeeze_visible hb hopen))
          rw [List.cons_append, List.singleton_append, hmarked]
          split
          · next hq => exact .inl (by rw [squeeze_quoted_spelling hq ht _ hvn])
          · exact cons (x := ['\\', c]) ih
      | coded _ hl =>
          have hbody : squeeze .plain .flush (escapeCode c ++ t) =
              '\\' :: (Nat.toDigits 16 c.toNat ++ squeeze .plain .owing t) := by
            rw [escapeCode, List.cons_append, List.append_assoc, List.singleton_append,
              squeeze_backslash, squeeze_steady (steady_digits hl), squeeze_blank rfl]
            rfl
          rw [hbody]
          cases t with
          | nil =>
              rw [escapeCode]
              exact .inr (by simp [squeeze])
          | cons d t =>
              rw [squeeze_owing ht hvn (List.cons_ne_nil _ _)]
              have := cons (x := escapeCode c) ih
              simpa [escapeCode] using this

end Text

namespace Selector

variable {n t v : List Char}

/-- An escape by the code point that the end of the text cuts short of its blank. -/
theorem escape_at_end {c : Char} (h₀ : c ≠ '\x00') (hc : c.toNat < 128) :
    identLength ('\\' :: Nat.toDigits 16 c.toNat) = 1 + (Nat.toDigits 16 c.toNat).length ∧
      unescape ('\\' :: Nat.toDigits 16 c.toNat) = [c] := by
  obtain ⟨hd, hpos, hlen, hval⟩ := code_digits hc
  have hne := List.ne_nil_of_length_pos hpos
  have hdec := (decoded_eq hd hne hlen.le).trans (hval h₀)
  generalize Nat.toDigits 16 c.toNat = ds at hd hpos hlen hdec hne
  have hds : hexDigits ds = ds := by
    rw [hexDigits, List.take_of_length_le (by omega), List.takeWhile_eq_self_iff]
    exact List.all_eq_true.1 hd
  have hunit : unitLength ('\\' :: ds) = 1 + ds.length := by
    rw [unitLength, isIdentChar_backslash, if_neg Bool.false_ne_true, if_pos rfl]
    simp [hds, hpos]
  constructor
  · rw [identLength, hunit, if_neg (by omega), Nat.add_comm 1, List.drop_succ_cons, List.drop_length,
      identLength_of_unitLength unitLength_nil]
  · rw [unescape.eq_def]
    simp [hds, hne, hdec, unescape]

/-- Only an escape by the code point ends in a blank. -/
theorem Spelling.last_blank (h : Spelling n (v ++ [' '])) (hv : ' ' ∉ n) :
    ∃ m u c, Spelling m u ∧ n = m ++ [c] ∧ v = u ++ '\\' :: Nat.toDigits 16 c.toNat ∧
      c ≠ '\x00' ∧ c.toNat < 128 := by
  generalize ht : v ++ [' '] = t at h
  induction h generalizing v with
  | nil => cases v <;> cases ht
  | @cons c n u t hu hs ih =>
      rcases List.eq_nil_or_concat t with rfl | ⟨t, d, rfl⟩
      · have hn : n = [] := by
          by_contra hn
          exact hs.ne_nil hn rfl
        subst hn
        rw [List.append_nil] at ht
        cases hu with
        | plain hi =>
            have ht : v ++ [' '] = [] ++ [c] := ht
            obtain ⟨-, h⟩ := List.append_inj' ht rfl
            cases h
            cases hi
        | marked hx hn =>
            have ht : v ++ [' '] = ['\\'] ++ [c] := ht
            obtain ⟨-, h⟩ := List.append_inj' ht rfl
            cases h
            exact absurd List.mem_cons_self hv
        | coded h₀ hl =>
            have ht : v ++ [' '] = '\\' :: Nat.toDigits 16 c.toNat ++ [' '] := ht
            obtain ⟨h, -⟩ := List.append_inj' ht rfl
            exact ⟨[], [], c, .nil, rfl, h, h₀, hl⟩
      · rw [List.concat_eq_append, ← List.append_assoc] at ht
        obtain ⟨rfl, h⟩ := List.append_inj' ht rfl
        cases h
        obtain ⟨m, w, e, hm, rfl, rfl, h₀, hl⟩ :=
          ih (fun hm => hv (List.mem_cons_of_mem _ hm)) (List.concat_eq_append).symm
        exact ⟨c :: m, u ++ w, e, .cons hu hm, rfl, (List.append_assoc _ _ _).symm, h₀, hl⟩

/-- The name is still found when the blank of the last escape is gone. -/
theorem nameAt_of_spelling (h : Spelling n t) (hv : ' ' ∉ n) (ht : v = t ∨ t = v ++ [' ']) :
    identLength v = v.length ∧ nameAt v = String.ofList n := by
  obtain ⟨hl, hu⟩ : identLength v = v.length ∧ unescape v = n := by
    rcases ht with rfl | rfl
    · have := h.identLength (y := []) (fun c hc => by cases hc)
      rw [List.append_nil] at this
      exact ⟨this, h.unescape⟩
    · obtain ⟨m, u, c, hs, rfl, rfl, h₀, hl⟩ := h.last_blank hv
      obtain ⟨hlen, hun⟩ := escape_at_end h₀ hl
      constructor
      · rw [hs.identLength_append, hlen, List.length_append, List.length_cons, Nat.add_comm 1]
      · rw [hs.unescape_append, hun]
  exact ⟨hl, by rw [nameAt, hl, List.take_length, hu]⟩

end Selector

/-! ### Class rules -/

/-- A name that a class attribute can hold. -/
structure ClassName where
  name : String
  ne_empty : name ≠ ""
  visible : ∀ c ∈ name.toList, Text.isBlank c = false
  noNull : '\x00' ∉ name.toList

namespace ClassName

variable (n : ClassName)

/-- The class as a selector in normal form. -/
def selector : String := Text.normalString ('.' :: escape n.name.toList)

theorem toList_ne_nil : n.name.toList ≠ [] := fun e => n.ne_empty (String.ext_iff.2 e)

theorem spelling : Spelling n.name.toList (escape n.name.toList) :=
  Selector.spelling_escape n.noNull

/-- The selector depends on the class and on nothing else. -/
theorem analyze_selector : Selector.analyze n.selector = .ofHooks [('.', n.name)] := by
  have hspace : ' ' ∉ n.name.toList := by
    intro hm
    cases n.visible ' ' hm
  obtain ⟨hlen, hname⟩ := Selector.nameAt_of_spelling n.spelling hspace
    (Text.squeeze_spelling n.spelling n.visible)
  have hne := n.spelling.ne_nil n.toList_ne_nil
  have htext : n.selector.toList = '.' :: Text.squeeze .plain .flush (escape n.name.toList) := by
    rw [selector, Text.normalString, String.toList_ofList, Text.normalize,
      Text.squeeze_visible rfl fun e => by cases e.1]
    rfl
  have hpos : 0 < Selector.identLength (Text.squeeze .plain .flush (escape n.name.toList)) := by
    rw [hlen]
    rcases Text.squeeze_spelling n.spelling n.visible with h | h
    · rw [h]
      exact List.length_pos_iff.2 hne
    · refine List.length_pos_iff.2 fun e => ?_
      rw [e, List.nil_append] at h
      obtain ⟨m, u, c, -, -, hu, -⟩ := (h ▸ n.spelling).last_blank (v := []) hspace
      exact List.cons_ne_nil _ _ (List.append_eq_nil_iff.1 hu.symm).2
  have hanchor : Selector.anchor? n.selector.toList = some ('.', n.name) := by
    rw [htext, Selector.anchor?, List.dropWhile_cons_of_neg (by decide)]
    simp only
    rw [if_pos ⟨rfl, hpos⟩, hname, String.ofList_toList]
  rw [Selector.analyze, Selector.dependencyOf, hanchor]

/-- The rule that gives the class one declaration. -/
def rule (p v : Word) : Rule := .style [n.selector] [Word.declaration p v]

/-- The rule as it is written. -/
def ruleText (p v : Word) : List Char := '.' :: escape n.name.toList ++ Word.pairText p v

/-- The text of a class rule comes to the rule, whatever follows. -/
theorem yields_rule (p v : Word) :
    Grammar.Yields Grammar.rules Statement.rule none (n.ruleText p v) (fine (n.rule p v)) := by
  have hstart := Selector.startsName_escape n.toList_ne_nil n.noNull []
  rw [List.append_nil] at hstart
  exact yields_classRule (Token.startsDigit_of_startsName hstart)
    (Component.upTo_escape n.toList_ne_nil n.noNull rfl) p v

/-- A document keeps the rule just when it has the class. -/
theorem ofRule_rule (o : Options) (p v : Word) :
    (Candidate.ofRule Rule.print o (n.rule p v)).retention =
      .dependent ⟨NameSet.insert ∅ n.name, ∅⟩ := by
  have hunion : Selector.analyzeAll [n.selector] = ⟨NameSet.insert ∅ n.name, ∅⟩ := by
    rw [Selector.analyzeAll, List.map_singleton, n.analyze_selector]
    rfl
  have hreach : (n.rule p v).reachable = [n.selector] := rfl
  rw [Candidate.ofRule, hreach, hunion]
  rfl

end ClassName

/-- Rules for some classes, one behind the other. -/
def classSheet (p v : Word) (ns : List ClassName) : String :=
  String.ofList (ns.flatMap fun n => n.ruleText p v)

/-- **The sheet is read as its rules**, in their order and without reports. -/
theorem parse_classSheet (p v : Word) (ns : List ClassName) :
    Stylesheet.parse (classSheet p v ns) = ⟨ns.map fun n => n.rule p v, [], []⟩ := by
  refine parse_of_yields ?_ ?_
  · induction ns with
    | nil => exact .nil
    | cons n ns ih => exact .cons (s := []) rfl (n.yields_rule p v) ih
  · cases ns <;> rfl

example : classSheet ⟨"color".toList, by decide, by decide⟩ ⟨"red".toList, by decide, by decide⟩
    [⟨"1/2", by decide, by simp; decide, by decide⟩] = ".\\31 \\/2\x7bcolor:red\x7d" := by
  decide +kernel

/-- Candidates that each depend on one class. -/
theorem filter_isRetainedBy {cs : List Candidate} {ns : List ClassName}
    (h : cs.map Candidate.retention = ns.map fun n => .dependent ⟨NameSet.insert ∅ n.name, ∅⟩)
    (classes : NameSet) (ids : Option NameSet) :
    cs.filter (fun c => c.isRetainedBy classes ids) =
      ((cs.zip ns).filter fun q => classes.contains q.2.name).map Prod.fst := by
  induction cs generalizing ns with
  | nil => rfl
  | cons c cs ih =>
      cases ns with
      | nil => cases h
      | cons n ns =>
          obtain ⟨hc, hcs⟩ := List.cons.inj h
          have hret : c.isRetainedBy classes ids = classes.contains n.name := by
            have hlist : (NameSet.insert ∅ n.name).toList = [n.name] := rfl
            have hnone : (∅ : NameSet).toList = [] := rfl
            rw [Candidate.isRetainedBy, hc]
            simp [hlist, hnone]
          rw [List.zip_cons_cons, List.filter_cons, List.filter_cons, hret, ih hcs]
          split <;> rfl

/-- **Class rules are filtered exactly.**  A sheet with one rule for each of some classes has one
candidate for each, which depends on the class alone; the output for a document is made of the
candidates whose classes the document has, in their order. -/
theorem build_classSheet (compress : Bool) (p v : Word) (ns : List ClassName) :
    ∃ f, Filter.build compress (classSheet p v ns) = .ok f ∧
      f.candidates.map Candidate.retention =
        ns.map (fun n => .dependent ⟨NameSet.insert ∅ n.name, ∅⟩) ∧
      ∀ document, f.apply document = (if compress then "" else "\n").intercalate
        (((f.candidates.zip ns).filter fun q => (Markup.classes document).contains q.2.name).map
          fun q => q.1.css) := by
  refine ⟨Filter.ofSheet Rule.print (.ofCompress compress) ⟨ns.map fun n => n.rule p v, [], []⟩,
    ?_, ?_⟩
  · simp only [Filter.build, Filter.withOptions, Filter.withBackend, Backend.standard,
      parse_classSheet]
  have hret : (Candidate.ofSheet Rule.print (.ofCompress compress)
      ⟨ns.map fun n => n.rule p v, [], []⟩).map Candidate.retention =
      ns.map (fun n => .dependent ⟨NameSet.insert ∅ n.name, ∅⟩) := by
    have hnone : Candidate.closedFragments [] ++ Candidate.openFragments [] = [] := rfl
    rw [Candidate.ofSheet, hnone, List.map_nil, List.append_nil, List.map_map, List.map_map]
    exact List.map_congr_left fun n _ => n.ofRule_rule _ p v
  refine ⟨hret, fun document => ?_⟩
  have hsep : (Options.ofCompress compress).layout.only "\n" = if compress then "" else "\n" := by
    cases compress <;> rfl
  rw [Filter.apply, Filter.kept, ← hsep]
  refine congrArg _ ?_
  exact (congrArg (List.map Candidate.css) (filter_isRetainedBy hret _ _)).trans List.map_map

end CssPrune
