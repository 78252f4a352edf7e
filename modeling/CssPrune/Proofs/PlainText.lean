import CssPrune.Proofs.SelectorList
import Mathlib

/-!
# Plain text

A tame text has letters, digits and a few marks, no quotes, escapes and slashes.  In front of a mark
that stands alone it is cut into the tokens of `Lex`, none of which takes the mark in (`scan_tame`);
when its parentheses balance it is gathered into components that fit everywhere (`gatherFrom_plain`);
when it is spaced singly it is its own normal form (`normalize_of_spaced`).  A plain text has no capital
letters either.
-/

namespace CssPrune.Plain

open Token (isNameChar isSpace standsAlone readName)
open Text (isUpper_iff isLower_iff isDigit_iff)

/-! ### Characters -/

/-- Small letters, digits and the marks that can stand in a plain text or behind it. -/
def isPlain (c : Char) : Bool :=
  c.isLower || c.isDigit || "_.#%*->+~:,()! ".toList.contains c

/-- Plain characters other than the space lie between the blanks of ASCII and all others, and none is
a capital letter. -/
theorem code_of_isPlain {c : Char} (h : isPlain c = true) :
    c = ' ' ∨ 32 < c.toNat ∧ c.toNat < 127 ∧ c.isUpper = false := by
  rw [← Bool.not_eq_true, isUpper_iff]
  rcases Bool.or_eq_true_iff.1 h with hword | hmark
  · refine .inr ?_
    rcases Bool.or_eq_true_iff.1 hword with hl | hd
    · have := isLower_iff.1 hl; omega
    · have := isDigit_iff.1 hd; omega
  · have hall : "_.#%*->+~:,()! ".toList.all (fun d => d = ' ' ||
        (32 < d.toNat && d.toNat < 127 && !(65 ≤ d.toNat && d.toNat ≤ 90))) = true := rfl
    have hc := List.all_eq_true.1 hall c (List.elem_iff.1 hmark)
    simp only [Bool.or_eq_true, Bool.and_eq_true, decide_eq_true_eq, Bool.not_eq_true'] at hc
    exact hc.imp_right fun ⟨⟨hlo, hhi⟩, hu⟩ => ⟨hlo, hhi, fun h => by simp [h] at hu⟩

/-- The text has `url(` in it. -/
def holdsUrl : List Char → Bool
  | [] => false
  | c :: cs => ['u', 'r', 'l', '('].isPrefixOf (c :: cs) || holdsUrl cs

/-- No end of a text has a `url(` that the text has not. -/
theorem holdsUrl_of_suffix {x y : List Char} (h : x <:+ y) (hy : holdsUrl y = false) :
    holdsUrl x = false := by
  obtain ⟨u, rfl⟩ := h
  induction u with
  | nil => exact hy
  | cons c u ih =>
      rw [List.cons_append, holdsUrl, Bool.or_eq_false_iff] at hy
      exact ih hy.2

/-- A beginning that ends in a character lies in front of a part without that character. -/
theorem prefix_of_append {u : List Char} {p : Char} {x b : List Char} (h : u ++ [p] <+: x ++ b)
    (hb : p ∉ b) : u ++ [p] <+: x := by
  rcases List.prefix_or_prefix_of_prefix h (List.prefix_append x b) with hx | ⟨q, hq⟩
  · exact hx
  · by_cases hn : q = []
    · subst hn; rw [List.append_nil] at hq; exact ⟨[], by rw [List.append_nil, hq]⟩
    · have hl := congrArg List.getLast? hq
      rw [List.getLast?_append_of_ne_nil _ hn, List.getLast?_concat] at hl
      rw [← hq, List.prefix_append_right_inj] at h
      exact absurd (h.subset (List.mem_of_getLast? hl)) hb

/-- What stands behind a text adds no `url(` unless it adds a parenthesis. -/
theorem holdsUrl_append {x b : List Char} (hx : holdsUrl x = false) (hb : '(' ∉ b) :
    holdsUrl (x ++ b) = false := by
  have step : ∀ c y, holdsUrl (c :: y) = true ↔
      ['u', 'r', 'l'] ++ ['('] <+: c :: y ∨ holdsUrl y = true := by
    intro c y
    rw [holdsUrl, Bool.or_eq_true, List.isPrefixOf_iff_prefix]; rfl
  rw [← Bool.not_eq_true] at hx ⊢
  induction x with
  | nil =>
      induction b with
      | nil => exact hx
      | cons c b ih =>
          rintro h
          rcases (step _ _).1 h with hp | hr
          · exact absurd (hp.subset (by simp)) hb
          · exact ih (fun hm => hb (List.mem_cons_of_mem _ hm)) hr
  | cons c x ih =>
      rintro h
      rcases (step _ _).1 h with hp | hr
      · exact hx ((step _ _).2 (.inl (prefix_of_append (x := c :: x) hp hb)))
      · exact ih (fun e => hx ((step _ _).2 (.inr e))) hr

/-- Plain characters and capital letters. -/
def isTame (c : Char) : Bool := isPlain c || c.isUpper

theorem isTame_of_isPlain {c : Char} (h : isPlain c = true) : isTame c = true := by
  rw [isTame, h]; rfl

theorem isTame_ne {c d : Char} (hc : isTame c = true) (hd : isTame d = false) : c ≠ d := by
  rintro rfl; rw [hc] at hd; cases hd

theorem all_isTame {x : List Char} (h : x.all isPlain = true) : x.all isTame = true :=
  List.all_eq_true.2 fun c hc => isTame_of_isPlain (List.all_eq_true.1 h c hc)

/-- Tame characters are the space and visible characters of ASCII. -/
theorem code_of_isTame {c : Char} (h : isTame c = true) :
    c = ' ' ∨ 32 < c.toNat ∧ c.toNat < 127 := by
  rcases Bool.or_eq_true_iff.1 h with h | h
  · exact (code_of_isPlain h).imp_right fun h => ⟨h.1, h.2.1⟩
  · have := isUpper_iff.1 h; omega

/-- Characters that a numeral with its unit is made of. -/
def inNumeral (c : Char) : Bool := isNameChar c || c = '.' || c = '+' || c = '%'

theorem inNumeral_of_isDigit {c : Char} (h : c.isDigit = true) : inNumeral c = true := by
  simp [inNumeral, isNameChar, h]

theorem inNumeral_of_isNameChar {c : Char} (h : isNameChar c = true) : inNumeral c = true := by
  simp [inNumeral, h]

/-! ### What readers take -/

/-- The reader of a text has taken characters of one kind and left `rest`. -/
def Takes (p : Char → Bool) (x rest : List Char) : Prop := ∃ u, x = u ++ rest ∧ u.all p = true

section Takes

variable {p q : Char → Bool} {x y z : List Char}

theorem Takes.none : Takes p x x := ⟨[], rfl, rfl⟩

theorem Takes.cons {c : Char} (hc : p c = true) (h : Takes p x y) : Takes p (c :: x) y := by
  obtain ⟨u, rfl, hu⟩ := h
  exact ⟨c :: u, rfl, by rw [List.all_cons, hc, hu]; rfl⟩

theorem Takes.trans (h : Takes p x y) (h' : Takes p y z) : Takes p x z := by
  obtain ⟨u, rfl, hu⟩ := h
  obtain ⟨v, rfl, hv⟩ := h'
  exact ⟨u ++ v, (List.append_assoc u v z).symm, by rw [List.all_append, hu, hv]; rfl⟩

theorem Takes.mono (hpq : ∀ c, p c = true → q c = true) (h : Takes p x y) : Takes q x y := by
  obtain ⟨u, rfl, hu⟩ := h
  exact ⟨u, rfl, List.all_eq_true.2 fun c hc => hpq c (List.all_eq_true.1 hu c hc)⟩

theorem takes_dropWhile : Takes p x (x.dropWhile p) :=
  ⟨x.takeWhile p, List.takeWhile_append_dropWhile.symm, List.all_takeWhile⟩

/-- A mark of another kind is left. -/
theorem left_before {f : Char} {u : List Char} (he : x ++ [f] = u ++ y) (hu : u.all p = true)
    (hf : p f = false) : ∃ r, x = u ++ r ∧ y = r ++ [f] := by
  have hne : y ≠ [] := by
    rintro rfl
    have := List.all_eq_true.1 hu f (by rw [← List.append_nil u, ← he]; simp)
    rw [hf] at this; cases this
  have hl := congrArg List.getLast? he
  rw [List.getLast?_concat, List.getLast?_append_of_ne_nil _ hne] at hl
  obtain ⟨r, rfl⟩ := List.getLast?_eq_some_iff.1 hl.symm
  rw [← List.append_assoc] at he
  exact ⟨r, List.append_cancel_right he, rfl⟩

/-- A reader that cannot take a mark leaves it, and takes a piece of the text in front of it. -/
theorem Takes.before {f : Char} (h : Takes p (x ++ [f]) y) (hf : p f = false) :
    ∃ u r, x = u ++ r ∧ y = r ++ [f] ∧ u.all p = true := by
  obtain ⟨u, he, hu⟩ := h
  obtain ⟨r, hx, hy⟩ := left_before he hu hf
  exact ⟨u, r, hx, hy, hu⟩

end Takes

/-- A character that escapes nothing and can be kept. -/
def isCalm (c : Char) : Bool := c != '\\' && c != '\x00'

/-- Without escapes a name is the run of its characters. -/
theorem readName_calm {x : List Char} (h : x.all isCalm = true) :
    readName x = (x.takeWhile isNameChar, x.dropWhile isNameChar) := by
  have hc : ∀ c ∈ x, c ≠ '\\' ∧ c ≠ '\x00' := by
    intro c hc
    simpa [isCalm] using List.all_eq_true.1 h c hc
  have hn : (x.takeWhile isNameChar).all (fun c => isNameChar c && c != '\x00') = true := by
    refine List.all_eq_true.2 fun c hm => ?_
    have hname : isNameChar c = true := List.all_eq_true.1 List.all_takeWhile c hm
    have := (hc c ((List.takeWhile_prefix _).subset hm)).2
    simp [hname, this]
  have hy : (x.dropWhile isNameChar).head?.all Token.endsName = true := by
    cases hd : x.dropWhile isNameChar with
    | nil => rfl
    | cons c y =>
        have hmem : c ∈ x := (List.dropWhile_suffix isNameChar).subset (by rw [hd]; exact .head _)
        have hno := List.head?_dropWhile_not isNameChar x
        rw [hd] at hno
        have hno : isNameChar c = false := by simpa using hno
        simp [Token.endsName, hno, (hc c hmem).1]
  have := Token.readName_chars hn hy
  rwa [List.takeWhile_append_dropWhile] at this

/-- A sign belongs to its numeral. -/
theorem takes_readSign (x : List Char) : Takes inNumeral x (Token.readSign x).2 := by
  unfold Token.readSign
  split
  · exact .cons rfl .none
  · exact .cons rfl .none
  · exact .none

theorem takes_readDigits (x : List Char) : Takes inNumeral x (Token.readDigits x).2 :=
  takes_dropWhile.mono fun _ => inNumeral_of_isDigit

theorem takes_readFraction (x : List Char) : Takes inNumeral x (Token.readFraction x).2 := by
  unfold Token.readFraction
  split
  · split
    · exact .cons rfl (takes_readDigits _)
    · exact .none
  · exact .none

/-- An exponent takes characters of a numeral only, its letter among them. -/
theorem takes_readExponent (x : List Char) : Takes inNumeral x (Token.readExponent x).2 := by
  unfold Token.readExponent
  split
  · next c rest =>
      split
      · next he =>
          have hc : inNumeral c = true := by
            rcases (by simpa using he : c = 'e' ∨ c = 'E') with rfl | rfl <;> rfl
          simp only
          split
          · exact .cons hc ((takes_readSign rest).trans (takes_readDigits _))
          · exact .none
      · exact .none
  · exact .none

theorem takes_readNumeral (x : List Char) : Takes inNumeral x (Token.readNumeral x).2 :=
  (((takes_readSign x).trans (takes_readDigits _)).trans (takes_readFraction _)).trans
    (takes_readExponent _)

/-! ### The tokens of plain text -/

/-- Characters other than parentheses and commas. -/
def isWord (c : Char) : Bool := c != '(' && c != ')' && c != ','

/-- The tokens of plain text, each with the characters it is read from. -/
inductive Lex : Token → List Char → Prop where
  | space (v : String) {s : List Char} : s.all isSpace = true → Lex (.space v) (' ' :: s)
  | number (n : Numeral) {u : List Char} : u.all inNumeral = true → Lex (.number n) u
  | percentage (n : Numeral) {u : List Char} : u.all inNumeral = true → Lex (.percentage n) u
  | dimension (n : Numeral) (unit : String) {u : List Char} :
      u.all inNumeral = true → Lex (.dimension n unit) u
  | cdc : Lex .cdc ['-', '-', '>']
  | ident {n : List Char} : n.all isNameChar = true → Lex (.ident (String.ofList n)) n
  | function {n : List Char} :
      n.all isNameChar = true → Lex (.function (String.ofList n)) (n ++ ['('])
  | hash (v : String) {n : List Char} : n.all isNameChar = true → Lex (.hash v) ('#' :: n)
  | idHash (v : String) {n : List Char} : n.all isNameChar = true → Lex (.idHash v) ('#' :: n)
  | colon : Lex .colon [':']
  | comma : Lex .comma [',']
  | openParen : Lex .openParen ['(']
  | closeParen : Lex .closeParen [')']
  | delim {c : Char} : isWord c = true → Lex (.delim c) [c]

/-- A tame character that is read as a mark is a plain token. -/
theorem lex_mark {c : Char} (hc : isTame c = true) : Lex (Token.readMark c []).1 [c] := by
  by_cases h₁ : c = ':'
  · subst h₁; exact .colon
  by_cases h₂ : c = ','
  · subst h₂; exact .comma
  by_cases h₃ : c = '('
  · subst h₃; exact .openParen
  by_cases h₄ : c = ')'
  · subst h₄; exact .closeParen
  have hd : (Token.readMark c []).1 = .delim c := by
    rw [Token.readMark]
    any_goals assumption
    any_goals exact isTame_ne hc rfl
    all_goals intro _ _ h; cases h
  rw [hd]
  exact .delim (by simp [isWord, h₂, h₃, h₄])

/-- What is read of the text `x` with `f` behind it: one plain token, taken from `x` alone. -/
def Cuts (x : List Char) (f : Char) (read : Token × List Char) : Prop :=
  ∃ t u r, x = u ++ r ∧ Lex t u ∧ read = (t, r ++ [f])

section Read

variable {c f : Char} {x cs : List Char}

theorem isCalm_of_isTame (h : isTame c = true) : isCalm c = true := by
  simp [isCalm, isTame_ne h (d := '\\') rfl, isTame_ne h (d := '\x00') rfl]

/-- A tame text is calm, with the mark behind it, too. -/
theorem all_isCalm (h : x.all isTame = true) (hf : standsAlone f = true) :
    (x ++ [f]).all isCalm = true := by
  rw [List.all_append, Bool.and_eq_true]
  refine ⟨List.all_eq_true.2 fun c hc => isCalm_of_isTame (List.all_eq_true.1 h c hc), ?_⟩
  rcases Token.standsAlone_cases hf with rfl | rfl | rfl | rfl | rfl <;> rfl

/-- A name in plain text is the run of name characters. -/
theorem readName_tame (hx : x.all isTame = true) (hf : standsAlone f = true) :
    ∃ n r, x = n ++ r ∧ n.all isNameChar = true ∧ readName (x ++ [f]) = (n, r ++ [f]) := by
  have hn := readName_calm (all_isCalm hx hf)
  have hname : isNameChar f = false := Token.not_of_standsAlone rfl hf
  obtain ⟨r, he, hr⟩ := left_before List.takeWhile_append_dropWhile.symm List.all_takeWhile hname
  exact ⟨_, r, he, List.all_takeWhile, by rw [hn, hr]⟩

/-- A numeral and its unit are one plain token. -/
theorem cuts_numeric (hx : x.all isTame = true) (hf : standsAlone f = true) :
    Cuts x f (Token.readNumeric (x ++ [f])) := by
  have hnum : inNumeral f = false := Token.not_of_standsAlone rfl hf
  obtain ⟨u, r, hxu, hr, hu⟩ := (takes_readNumeral (x ++ [f])).before hnum
  by_cases hp : (Token.readNumeral (x ++ [f])).2.head? = some '%'
  · obtain ⟨ds, hd⟩ := List.head?_eq_some_iff.1 hp
    obtain ⟨r', rfl, hds⟩ : ∃ r', r = '%' :: r' ∧ ds = r' ++ [f] := by
      rw [hr] at hd
      cases r with
      | nil => cases hd; cases hf
      | cons d r => cases hd; exact ⟨r, rfl, rfl⟩
    refine ⟨_, u ++ ['%'], r', by rw [hxu, List.append_assoc]; rfl, .percentage _ ?_,
      by rw [Token.readNumeric_percent hd, hds]⟩
    rw [List.all_append, hu]; rfl
  · rw [Token.readNumeric_unit hp, hr]
    split
    · have hrp : r.all isTame = true := by
        rw [hxu, List.all_append, Bool.and_eq_true] at hx; exact hx.2
      obtain ⟨n, r', hn, hall, hread⟩ := readName_tame hrp hf
      refine ⟨_, u ++ n, r', by rw [hxu, hn, List.append_assoc], .dimension _ _ ?_,
        by rw [hread]⟩
      rw [List.all_append, hu]
      exact List.all_eq_true.2 fun c hc =>
        inNumeral_of_isNameChar (List.all_eq_true.1 hall c hc)
    · exact ⟨_, u, r, hxu, .number _ hu, rfl⟩

/-- A name is one plain token: without `url(` no argument is read behind it. -/
theorem cuts_named (hx : x.all isTame = true) (hu : holdsUrl (x.map Char.toLower) = false)
    (hf : standsAlone f = true) : Cuts x f (Token.readNamed (x ++ [f])) := by
  obtain ⟨n, r, hxn, hn, hread⟩ := readName_tame hx hf
  by_cases hp : (r ++ [f]).head? = some '('
  · obtain ⟨r', rfl⟩ : ∃ r', r = '(' :: r' := by
      cases r with
      | nil => cases hp; cases hf
      | cons d r => cases hp; exact ⟨r, rfl⟩
    have hno : ¬n.map Char.toLower = ['u', 'r', 'l'] := by
      intro e
      rw [hxn, List.map_append, e] at hu
      cases hu
    refine ⟨_, n ++ ['('], r', by rw [hxn, List.append_assoc]; rfl, .function hn, ?_⟩
    have hparen : (Token.readName (x ++ [f])).2 = '(' :: (r' ++ [f]) := by rw [hread]; rfl
    rw [Token.readNamed_paren hparen, hread, if_neg hno]
  · refine ⟨_, n, r, hxn, .ident hn, ?_⟩
    rw [Token.readNamed_ident (by rwa [hread]), hread]

/-- A number sign and a name are one plain token. -/
theorem cuts_hash (hx : x.all isTame = true) (hf : standsAlone f = true) :
    Cuts ('#' :: x) f (Token.readHash (x ++ [f])) := by
  obtain ⟨n, r, rfl, hn, hread⟩ := readName_tame hx hf
  simp only [Token.readHash, hread]
  refine iteInduction (fun _ => ?_) fun _ => iteInduction (fun _ => ?_) fun _ => ?_
  · exact ⟨_, '#' :: n, r, rfl, .idHash _ hn, rfl⟩
  · exact ⟨_, '#' :: n, r, rfl, .hash _ hn, rfl⟩
  · exact ⟨_, ['#'], n ++ r, rfl, .delim rfl, rfl⟩

/-- No mark of a tame text has more than one character. -/
theorem not_longMark (hc : isTame c = true) (hx : x.all isTame = true)
    (hf : standsAlone f = true) : ¬Token.LongMark c (x ++ [f]) := by
  rintro (⟨rfl, -⟩ | ⟨-, y, hy⟩)
  · cases hc
  · cases x with
    | nil => cases hy; cases hf
    | cons d x =>
        rw [List.all_cons, Bool.and_eq_true] at hx
        cases hy; cases hx.1

/-- The first token of a plain text stops in front of the mark behind the text. -/
theorem cuts_read (hx : (c :: cs).all isTame = true) (hu : holdsUrl ((c :: cs).map Char.toLower) = false)
    (hf : standsAlone f = true) : Cuts (c :: cs) f (Token.read c (cs ++ [f])) := by
  obtain ⟨hc, hcs⟩ : isTame c = true ∧ cs.all isTame = true := by
    rwa [List.all_cons, Bool.and_eq_true] at hx
  -- the branches of `read`, one after the other
  unfold Token.read
  refine iteInduction (fun hs => ?_) fun _ => ?_
  · obtain ⟨r, he, hr⟩ := left_before (x := cs) (f := f)
      (List.takeWhile_append_dropWhile (p := isSpace)).symm List.all_takeWhile
      (Token.not_of_standsAlone rfl hf)
    obtain rfl : c = ' ' := by
      simp only [isSpace, Token.isNewline, Bool.or_eq_true, decide_eq_true_eq] at hs
      rcases hs with (rfl | rfl) | (rfl | rfl) | rfl <;> first | rfl | cases hc
    exact ⟨_, ' ' :: _, r, congrArg (' ' :: ·) he, .space _ List.all_takeWhile, by rw [hr]⟩
  refine iteInduction (fun hq => ?_) fun _ => ?_
  · rcases (by simpa using hq : c = '"' ∨ c = '\'') with rfl | rfl <;> cases hc
  refine iteInduction (fun _ => cuts_numeric hx hf) fun _ => ?_
  refine iteInduction (fun hd => ?_) fun _ => ?_
  · obtain ⟨rfl, ht⟩ : c = '-' ∧ (cs ++ [f]).take 2 = ['-', '>'] := by simpa using hd
    rcases cs with - | ⟨a, - | ⟨b, r⟩⟩
    · cases (List.cons.inj ht).2
    · cases ht; cases hf
    · cases ht; exact ⟨_, _, r, rfl, .cdc, rfl⟩
  refine iteInduction (fun _ => cuts_named hx hu hf) fun _ => ?_
  refine iteInduction (fun hh => ?_) fun _ => ?_
  · subst hh; exact cuts_hash hcs hf
  refine iteInduction (fun ha => ?_) fun _ => ?_
  · subst ha; cases hc
  refine iteInduction (fun hm => ?_) fun _ => ?_
  · obtain ⟨rfl, -⟩ : c = '/' ∧ _ := by simpa using hm
    cases hc
  exact ⟨_, [c], cs, rfl, lex_mark hc, Token.readMark_single (not_longMark hc hcs hf)⟩

end Read

/-- A tame text is cut into plain tokens, and then comes the mark behind it. -/
theorem scan_tame {x : List Char} {f : Char} (hx : x.all isTame = true)
    (hu : holdsUrl (x.map Char.toLower) = false) (hf : standsAlone f = true) :
    ∃ xs, Lexeme.scan (x ++ [f]) = xs ++ [Lexeme.mark f] ∧ ∀ y ∈ xs, Lex y.token y.text := by
  match x with
  | [] => exact ⟨[], by rw [List.nil_append, Lexeme.scan_mark hf, Lexeme.scan_nil]; rfl,
      fun _ h => by cases h⟩
  | c :: cs =>
      obtain ⟨t, u, r, he, hl, hread⟩ := cuts_read hx hu hf
      have hlen : r.length ≤ cs.length := by
        have := (Token.read_suffix c (cs ++ [f])).length_le
        rw [hread] at this
        simp only [List.length_append, List.length_cons, List.length_nil] at this; omega
      have hr : r.all isTame = true := by
        rw [he, List.all_append, Bool.and_eq_true] at hx; exact hx.2
      have hur : holdsUrl (r.map Char.toLower) = false := by
        refine holdsUrl_of_suffix ⟨u.map Char.toLower, ?_⟩ hu
        rw [← List.map_append, ← he]
      obtain ⟨xs, hxs, hall⟩ := scan_tame hr hur hf
      refine ⟨⟨t, u⟩ :: xs, ?_, List.forall_mem_cons.2 ⟨hl, hall⟩⟩
      have hup : Token.upTo (c :: (cs ++ [f])) (r ++ [f]) = u := by
        have : c :: (cs ++ [f]) = u ++ (r ++ [f]) := by
          rw [← List.append_assoc, ← he]; rfl
        rw [this, Token.upTo_suffix]
      rw [List.cons_append, Lexeme.scan_cons, hread, hup, hxs]
      rfl
termination_by x.length
decreasing_by
  exact Nat.lt_succ_of_le hlen

/-! ### Parentheses -/

/-- The parentheses of a text close, `n` of them having been opened before.  Unless `commas` says
otherwise a comma stands inside of some. -/
def balanced (commas : Bool) : Nat → List Char → Bool
  | n, [] => n = 0
  | n, c :: cs =>
    if c = '(' then balanced commas (n + 1) cs
    else if c = ')' then 0 < n && balanced commas (n - 1) cs
    else (commas || c ≠ ',' || 0 < n) && balanced commas n cs

/-- Words do not count when parentheses are balanced. -/
theorem balanced_word {u : List Char} (hu : u.all isWord = true) (commas : Bool) (n : Nat)
    (r : List Char) : balanced commas n (u ++ r) = balanced commas n r := by
  induction u with
  | nil => rfl
  | cons c u ih =>
      rw [List.all_cons, Bool.and_eq_true] at hu
      obtain ⟨⟨ho, hc⟩, hm⟩ : (c ≠ '(' ∧ c ≠ ')') ∧ c ≠ ',' := by simpa [isWord] using hu.1
      rw [List.cons_append, balanced, if_neg ho, if_neg hc, ih hu.2]
      simp [hm]

/-- Without parentheses, none may be open. -/
theorem balanced_of_not_mem {x : List Char} (ho : '(' ∉ x) (hc : ')' ∉ x) (n : Nat) :
    balanced true n x = decide (n = 0) := by
  induction x with
  | nil => rfl
  | cons c x ih =>
      rw [List.mem_cons, not_or] at ho hc
      rw [balanced, if_neg (Ne.symm ho.1), if_neg (Ne.symm hc.1), ih ho.2 hc.2]
      rfl

/-- Words may stand behind a balanced text. -/
theorem balanced_append {b : List Char} (hb : b.all isWord = true) (commas : Bool) (n : Nat)
    (x : List Char) : balanced commas n (x ++ b) = balanced commas n x := by
  induction x generalizing n with
  | nil =>
      have := balanced_word hb commas n []
      rwa [List.append_nil] at this
  | cons c x ih => simp only [List.cons_append, balanced, ih]

theorem isWord_of {p : Char → Bool} (h₁ : p '(' = false) (h₂ : p ')' = false) (h₃ : p ',' = false)
    {u : List Char} (hu : u.all p = true) : u.all isWord = true := by
  refine List.all_eq_true.2 fun c hc => ?_
  have hp := List.all_eq_true.1 hu c hc
  have hne : ∀ d, p d = false → c ≠ d := by
    rintro d hd rfl; rw [hp] at hd; cases hd
  simp [isWord, hne _ h₁, hne _ h₂, hne _ h₃]

/-- What a plain token does to the parentheses around it. -/
inductive Kind (t : Token) (u : List Char) : Prop where
  | word : t.opens? = none → t.closes? = none → t ≠ .comma → u.all isWord = true → Kind t u
  | comma : t = .comma → u = [','] → Kind t u
  | opener (n : List Char) : t.opens? = some .paren → u = n ++ ['('] → n.all isWord = true → Kind t u
  | closer : t = .closeParen → u = [')'] → Kind t u

/-- The tokens of plain text, by what they do to parentheses. -/
theorem Lex.kind {t : Token} {u : List Char} (h : Lex t u) : Kind t u := by
  cases h with
  | space v hs =>
      exact .word rfl rfl (by simp) (isWord_of (p := isSpace) rfl rfl rfl (by
        rw [List.all_cons, hs]; rfl))
  | number n hu | percentage n hu =>
      exact .word rfl rfl (by simp) (isWord_of rfl rfl rfl hu)
  | dimension n unit hu => exact .word rfl rfl (by simp) (isWord_of rfl rfl rfl hu)
  | cdc => exact .word rfl rfl (by decide) rfl
  | ident hn => exact .word rfl rfl (by simp) (isWord_of rfl rfl rfl hn)
  | function hn => exact .opener _ rfl rfl (isWord_of rfl rfl rfl hn)
  | hash v hn | idHash v hn =>
      refine .word rfl rfl (by simp) ?_
      rw [List.all_cons, isWord_of rfl rfl rfl hn]; rfl
  | colon => exact .word rfl rfl (by decide) rfl
  | comma => exact .comma rfl rfl
  | openParen => exact .opener [] rfl rfl rfl
  | closeParen => exact .closer rfl rfl
  | delim hc => exact .word rfl rfl (by simp) (by rw [List.all_cons, hc]; rfl)

theorem Lex.tame {t : Token} {u : List Char} (h : Lex t u) :
    t ≠ .semicolon ∧ t ≠ .cdo ∧ ∀ n, t ≠ .atKeyword n := by
  cases h <;> exact ⟨nofun, nofun, nofun⟩

theorem Lex.colon_mem {t : Token} {u : List Char} (h : Lex t u) (ht : t = .colon) : ':' ∈ u := by
  cases h with
  | colon => exact .head _
  | _ => cases ht

theorem Lex.head_blank {t : Token} {u : List Char} (h : Lex t u) (ht : t.isBlank = true) :
    u.head? = some ' ' := by
  cases h with
  | space v hs => rfl
  | _ => cases ht

theorem Lex.head_cdc {t : Token} {u : List Char} (h : Lex t u) (ht : t = .cdc) :
    u.head? = some '-' := by
  cases h with
  | cdc => rfl
  | _ => cases ht

theorem Lex.ident_text {t : Token} {u : List Char} {name : String} (h : Lex t u)
    (ht : t = .ident name) : u = name.toList := by
  cases h with
  | ident hn => cases ht; exact String.toList_ofList.symm
  | _ => cases ht

theorem Lex.ident_chars {t : Token} {u : List Char} {name : String} (h : Lex t u)
    (ht : t = .ident name) : u.all isNameChar = true := by
  cases h with
  | ident hn => exact hn
  | _ => cases ht

/-- Components that fit everywhere: plain leaves, and closed blocks of parentheses. -/
inductive Still : Component → Prop where
  | leaf {x : Lexeme} : Lex x.token x.text → x.token.opens? = none → x.token.closes? = none →
      Still (.leaf x)
  | block {o y : Lexeme} {body : List Component} : Lex o.token o.text →
      o.token.opens? = some .paren → y.token = .closeParen → y.text = [')'] →
      (∀ c ∈ body, Still c) → Still (.block o body (some y))

mutual

/-- A still component fits wherever it stands. -/
theorem Still.fits (b : Option Bracket) : ∀ c : Component, Still c → c.fits b = true
  | .leaf x, .leaf _ ho hc => by rw [Component.fits, ho, hc]; rfl
  | .block o body (some y), .block _ ho hy _ hb => by
      rw [Component.fits, ho, Still.fitAll _ body hb, Option.any_some, hy]
      rfl

theorem Still.fitAll (b : Option Bracket) : ∀ cs : List Component, (∀ c ∈ cs, Still c) →
    Component.fitAll b cs = true
  | [], _ => rfl
  | c :: cs, h => by
      rw [Component.fitAll, Still.fits b c (h c List.mem_cons_self),
        Still.fitAll b cs fun d hd => h d (List.mem_cons_of_mem _ hd)]
      rfl

end

open Component (Unclosed gatherFrom)

/-- The components read so far: those outside of all parentheses are no commas unless `commas` says
otherwise. -/
def Held (commas : Bool) (level : List Component) : List Unclosed → Prop
  | [] => ∀ c ∈ level, Still c ∧ (commas = true ∨ c.isComma = false)
  | u :: us => (∀ c ∈ level, Still c) ∧ Lex u.opener.token u.opener.text ∧
      u.opener.token.opens? = some .paren ∧ Held commas u.before us

/-- One more component is read. -/
theorem Held.cons {commas : Bool} {level : List Component} {us : List Unclosed} {c : Component}
    (hc : Still c) (hm : commas = true ∨ c.isComma = false ∨ 0 < us.length)
    (h : Held commas level us) : Held commas (c :: level) us := by
  cases us with
  | nil =>
      refine List.forall_mem_cons.2 ⟨⟨hc, ?_⟩, h⟩
      rcases hm with hm | hm | hm
      · exact .inl hm
      · exact .inr hm
      · exact absurd hm (Nat.lt_irrefl 0)
  | cons u us => exact ⟨List.forall_mem_cons.2 ⟨hc, h.1⟩, h.2⟩

/-- From a text whose parentheses balance, plain tokens are gathered into still components; commas
outside of parentheses come only where `commas` lets them. -/
theorem gatherFrom_plain {commas : Bool} {xs : List Lexeme} {level : List Component}
    {us : List Unclosed} (h : Held commas level us) (hx : ∀ x ∈ xs, Lex x.token x.text)
    (hb : balanced commas us.length (Lexeme.textOf xs) = true) :
    ∀ c ∈ gatherFrom level us xs, Still c ∧ (commas = true ∨ c.isComma = false) := by
  induction xs generalizing level us with
  | nil =>
      -- no parenthesis is open at the end of a balanced text
      obtain rfl : us = [] := List.length_eq_zero_iff.1 (of_decide_eq_true hb)
      exact fun c hc => h c (List.mem_reverse.1 hc)
  | cons x xs ih =>
      have hl := hx x List.mem_cons_self
      have hx := fun y hy => hx y (List.mem_cons_of_mem x hy)
      have htext : Lexeme.textOf (x :: xs) = x.text ++ Lexeme.textOf xs := rfl
      rw [htext] at hb
      have leaf : x.token.opens? = none → x.token.closes? = none →
          gatherFrom level us (x :: xs) = gatherFrom (.leaf x :: level) us xs := fun ho hc =>
        Component.gatherFrom_leaf level xs (Still.fits _ _ (.leaf hl ho hc))
      rcases hl.kind with ⟨ho, hc, hm, hw⟩ | ⟨ht, hu⟩ | ⟨n, ho, hu, hn⟩ | ⟨ht, hu⟩
      · rw [balanced_word hw] at hb
        rw [leaf ho hc]
        exact ih (h.cons (.leaf hl ho hc) (.inr (.inl (decide_eq_false hm)))) hx hb
      -- a comma that is not within parentheses needs `commas`
      · have ho : x.token.opens? = none := by rw [ht]; rfl
        have hc : x.token.closes? = none := by rw [ht]; rfl
        rw [hu] at hb
        obtain ⟨hcm, hb⟩ := Bool.and_eq_true_iff.1 hb
        rw [leaf ho hc]
        refine ih (h.cons (.leaf hl ho hc) ?_) hx hb
        rcases (by simpa using hcm : commas = true ∨ 0 < us.length) with hk | hk
        · exact .inl hk
        · exact .inr (.inr hk)
      · rw [hu, List.append_assoc, balanced_word hn] at hb
        rw [Component.gatherFrom_opener (by rw [ho]; rfl)]
        have held : Held commas [] (⟨level, x⟩ :: us) :=
          ⟨fun _ hc => (List.not_mem_nil hc).elim, hl, ho, h⟩
        exact ih held hx hb
      · rw [hu] at hb
        obtain ⟨hpos, hb⟩ := Bool.and_eq_true_iff.1 hb
        -- what closes here was opened by a plain token, so the block is still
        cases us with
        | nil => cases hpos
        | cons u us =>
            obtain ⟨hlevel, hul, huo, hbefore⟩ := h
            rw [Component.gatherFrom_closer (by rw [huo]; rfl) (by rw [ht, huo]; rfl)]
            refine ih (hbefore.cons (.block hul huo ht hu fun c hc =>
              hlevel c (List.mem_reverse.1 hc)) (.inr (.inl (decide_eq_false fun e => ?_)))) hx hb
            have e : u.opener.token = .comma := e
            rw [e] at huo; cases huo

/-! ### Spacing -/

/-- Single spaces between visible characters; `blank` says that one has just been read. -/
def spaced (blank : Bool) : List Char → Bool
  | [] => !blank
  | c :: cs => if c = ' ' then !blank && spaced true cs else spaced false cs

open Text (squeeze normalize)

theorem not_isBlank_of_isTame {c : Char} (h : isTame c = true) (hs : c ≠ ' ') :
    Text.isBlank c = false := by
  obtain ⟨hlo, hhi⟩ := (code_of_isTame h).resolve_left hs
  exact Text.not_isBlank_of_code hlo hhi

theorem not_isQuote_of_isTame {c : Char} (h : isTame c = true) : Text.isQuote c = false := by
  simp [Text.isQuote, isTame_ne h (d := '"') rfl, isTame_ne h (d := '\'') rfl]

/-- Visible characters of a tame text are written as they are. -/
theorem squeeze_visible_tame {c : Char} {cs : List Char} (h : isTame c = true) (hs : c ≠ ' ')
    (w : Text.Written) :
    squeeze .plain w (c :: cs) = w.space ++ c :: squeeze .plain .flush cs := by
  have hopen : ¬Text.OpensComment c cs := fun e => isTame_ne h (d := '/') rfl e.1
  rw [Text.squeeze_visible (not_isBlank_of_isTame h hs) hopen, not_isQuote_of_isTame h]
  rfl

/-- Single spaces are written when the next character comes, and the gap at the end never. -/
theorem squeeze_tame {gap x : List Char} (hg : gap = [] ∨ gap = [' '])
    (hx : x.all isTame = true) :
    (spaced false x = true → squeeze .plain .flush (x ++ gap) = x) ∧
      (spaced true x = true → squeeze .plain .owing (x ++ gap) = ' ' :: x ∧
        squeeze .plain .nothing (x ++ gap) = x) := by
  induction x with
  | nil =>
      refine ⟨fun _ => ?_, fun h => by cases h⟩
      rcases hg with rfl | rfl <;> rfl
  | cons c x ih =>
      rw [List.all_cons, Bool.and_eq_true] at hx
      obtain ⟨ihf, iht⟩ := ih hx.2
      by_cases hc : c = ' '
      -- a blank is owed until the next character, which is none
      · subst hc
        refine ⟨fun h => ?_, fun h => by cases h⟩
        have h : spaced true x = true := h
        exact (Text.squeeze_blank rfl).trans (iht h).1
      · have hs : ∀ b, spaced b (c :: x) = spaced false x := fun b => if_neg hc
        rw [hs, hs, List.cons_append, squeeze_visible_tame hx.1 hc, squeeze_visible_tame hx.1 hc,
          squeeze_visible_tame hx.1 hc]
        refine ⟨fun h => ?_, fun h => ?_⟩
        · rw [ihf h]; rfl
        · rw [ihf h]; exact ⟨rfl, rfl⟩

/-- A text that is spaced singly ends in a visible character. -/
theorem getLast?_spaced {x : List Char} {b : Bool} (hx : x.all isTame = true)
    (h : spaced b x = true) : ∀ c ∈ x.getLast?, Text.isBlank c = false := by
  induction x generalizing b with
  | nil => intro _ h; cases h
  | cons c x ih =>
      rw [List.all_cons, Bool.and_eq_true] at hx
      by_cases hc : c = ' '
      · subst hc
        obtain ⟨-, h⟩ := Bool.and_eq_true_iff.1 h
        cases x with
        | nil => cases h
        | cons d x => rw [List.getLast?_cons_cons]; exact ih hx.2 h
      · rw [spaced, if_neg hc] at h
        exact Text.getLast?_cons_of (ih hx.2 h) fun _ => not_isBlank_of_isTame hx.1 hc

/-- A tame text that is spaced singly is its own normal form, also with a blank behind it. -/
theorem normalize_of_spaced {gap x : List Char} (hx : x.all isTame = true) (h : spaced true x = true)
    (hg : gap = [] ∨ gap = [' ']) : normalize (x ++ gap) = x :=
  ((squeeze_tame hg hx).2 h).2

/-- A text that is spaced singly from its first character on has no blank ends. -/
theorem trimmed_of_spaced {x : List Char} (hx : x.all isTame = true) (h : spaced true x = true) :
    Text.Trimmed x := by
  refine ⟨fun c hc => ?_, getLast?_spaced hx h⟩
  have hn := normalize_of_spaced hx h (.inl rfl)
  rw [List.append_nil] at hn
  rw [← hn] at hc
  exact Text.head?_squeeze_nothing rfl x c hc

/-! ### Plain texts -/

/-- The text is cut and gathered like a plain one. -/
structure Quiet (commas : Bool) (x : List Char) : Prop where
  plain : x.all isPlain = true
  noUrl : holdsUrl x = false
  balanced : balanced commas 0 x = true

section Quiet

variable {commas : Bool} {x : List Char}

theorem Quiet.append (h : Quiet commas x) {b : List Char} (hb : b.all isPlain = true)
    (hw : b.all isWord = true) : Quiet commas (x ++ b) where
  plain := by rw [List.all_append, h.plain, hb]; rfl
  noUrl := holdsUrl_append h.noUrl fun hm => by cases List.all_eq_true.1 hw _ hm
  balanced := by rw [balanced_append hw]; exact h.balanced

/-- The components of a tame text whose parentheses close, in front of a mark that stands alone. -/
theorem front_of_tame (hx : x.all isTame = true) (hu : holdsUrl (x.map Char.toLower) = false)
    (hb : balanced commas 0 x = true) {f : Char} (hf : standsAlone f = true) :
    ∃ cs, Component.front? f x = some cs ∧ Component.textOf cs = x ∧
      ∀ c ∈ cs, Still c ∧ (commas = true ∨ c.isComma = false) := by
  obtain ⟨xs, hxs, hall⟩ := scan_tame hx hu hf
  have hfront : Component.front? f x = some (Component.gather xs) := by
    simp only [Component.front?, hxs, List.getLast?_concat, List.dropLast_concat, if_true]
  have htext : Component.textOf (Component.gather xs) = x := Component.textOf_of_front? hfront
  have held : Held commas [] [] := fun _ h => by cases h
  refine ⟨_, hfront, htext, gatherFrom_plain held hall ?_⟩
  rw [Component.textOf_gather] at htext
  rw [htext]
  exact hb

theorem toLower_of_isPlain {c : Char} (h : isPlain c = true) : c.toLower = c := by
  rcases code_of_isPlain h with rfl | ⟨-, -, hu⟩
  · rfl
  · exact Char.toLower_eq_of_not_isUpper (Bool.eq_false_iff.1 hu)

/-- In front of a mark, a quiet text is made of still components. -/
theorem Quiet.front (h : Quiet commas x) {f : Char} (hf : standsAlone f = true) :
    ∃ cs, Component.front? f x = some cs ∧ Component.textOf cs = x ∧
      ∀ c ∈ cs, Still c ∧ (commas = true ∨ c.isComma = false) := by
  have hlower : x.map Char.toLower = x :=
    (List.map_congr_left fun c hc => toLower_of_isPlain (List.all_eq_true.1 h.plain c hc)).trans
      x.map_id
  exact front_of_tame (all_isTame h.plain) (by rw [hlower]; exact h.noUrl) h.balanced hf

end Quiet

/-- A plain text: balanced, spaced singly, without blank ends, `url(` and exclamation marks. -/
def plainText (commas : Bool) (x : List Char) : Bool :=
  x.all (fun c => isPlain c && c != '!') && !holdsUrl x && balanced commas 0 x &&
    (x = [] || spaced true x)

/-- What a plain text is. -/
structure PlainText (commas : Bool) (x : List Char) : Prop extends Quiet commas x where
  noMark : '!' ∉ x
  spaced : x = [] ∨ spaced true x = true

/-- The check of a text, condition by condition. -/
theorem plainText_iff {commas : Bool} {x : List Char} :
    plainText commas x = true ↔ PlainText commas x := by
  simp only [plainText, Bool.and_eq_true, Bool.not_eq_true', Bool.or_eq_true, decide_eq_true_eq,
    List.all_eq_true, bne_iff_ne]
  constructor
  · rintro ⟨⟨⟨h₁, h₂⟩, h₃⟩, h₄⟩
    exact ⟨⟨List.all_eq_true.2 fun c hc => (h₁ c hc).1, h₂, h₃⟩, fun hm => (h₁ _ hm).2 rfl, h₄⟩
  · rintro ⟨⟨h₁, h₂, h₃⟩, hm, h₄⟩
    refine ⟨⟨⟨fun c hc => ⟨List.all_eq_true.1 h₁ c hc, ?_⟩, h₂⟩, h₃⟩, h₄⟩
    rintro rfl; exact hm hc

namespace PlainText

variable {commas : Bool} {x : List Char}

/-- A plain text is its own normal form, also with a blank behind it. -/
theorem normalize (h : PlainText commas x) {gap : List Char} (hg : gap = [] ∨ gap = [' ']) :
    normalize (x ++ gap) = x := by
  rcases h.spaced with rfl | hs
  · rcases hg with rfl | rfl <;> rfl
  · exact normalize_of_spaced (all_isTame h.plain) hs hg

theorem trimmed (h : PlainText commas x) : Text.Trimmed x := by
  rcases h.spaced with rfl | hs
  · exact ⟨nofun, nofun⟩
  · exact trimmed_of_spaced (all_isTame h.plain) hs

end PlainText

end CssPrune.Plain
