import CssPrune.Proofs.NormalText
import CssPrune.Proofs.Reading

/-!
# Names and raw texts as they are written

What the writer puts in front of a mark, one piece at a time: a name (`upTo_name`, `upTo_keyword`)
and the raw text behind a keyword or a colon.  A name is *spelled* when it consists of name
characters; a raw text *reaches* its mark when it leaves nothing open and nothing in it ends the
statement (`reach?`).
-/

namespace CssPrune

namespace Token

/-! ### Names -/

/-- The name is its own spelling. -/
def spelled (n : List Char) : Bool :=
  startsName n && n.all fun c => isNameChar c && c != '\x00'

/-- A character that is no part of a name. -/
def endsName (c : Char) : Bool := !isNameChar c && c != '\\'

/-- No name is read in front of a character that is no part of one. -/
theorem readName_end {y : List Char} (hy : y.head?.all endsName = true) : readName y = ([], y) := by
  cases y with
  | nil => rw [readName]
  | cons c y =>
      simp only [List.head?_cons, Option.all_some, endsName, Bool.and_eq_true, Bool.not_eq_true',
        bne_iff_ne] at hy
      rw [readName, if_neg hy.2, if_neg (by rw [hy.1]; exact Bool.false_ne_true)]

theorem isNameChar_ne {c d : Char} (hc : isNameChar c = true) (hd : isNameChar d = false) :
    c ≠ d := by
  rintro rfl; rw [hc] at hd; cases hd

/-- A run of name characters is read as the name that it spells, up to what ends names. -/
theorem readName_chars {n y : List Char} (hn : n.all (fun c => isNameChar c && c != '\x00') = true)
    (hy : y.head?.all endsName = true) : readName (n ++ y) = (n, y) := by
  induction n with
  | nil => exact readName_end hy
  | cons c n ih =>
      rw [List.all_cons, Bool.and_eq_true, Bool.and_eq_true, bne_iff_ne] at hn
      rw [List.cons_append, readName, if_neg (isNameChar_ne hn.1.1 rfl), if_pos hn.1.1, ih hn.2]
      simp only [denull, hn.1.2, if_false]

/-- What starts a name still starts it with more text behind. -/
theorem startsName_chars {n : List Char} (hs : startsName n = true)
    (hn : n.all isNameChar = true) (y : List Char) : startsName (n ++ y) = true := by
  cases n with
  | nil => cases hs
  | cons c n =>
      rw [List.all_cons, Bool.and_eq_true] at hn
      by_cases hm : c = '-'
      · subst hm
        cases n with
        | nil => cases hs
        | cons d n => exact hs
      · have hb := isNameChar_ne hn.1 (d := '\\') rfl
        rw [startsName_cons hm hb] at hs
        rw [List.cons_append, startsName_cons hm hb, hs]

theorem not_isDigit_of_isNameStart {c : Char} (h : isNameStart c = true) : c.isDigit = false := by
  by_contra hd
  obtain ⟨hlo, hhi⟩ := Text.isDigit_iff.1 (Bool.not_eq_false _ ▸ hd)
  simp only [isNameStart, Bool.or_eq_true, Text.isAlpha_iff, Text.isUpper_iff, Text.isLower_iff,
    decide_eq_true_eq] at h
  rcases h with (((hu | hl) | rfl) | rfl) | hn
  · omega
  · omega
  · exact absurd hhi (by decide)
  · exact absurd hlo (by decide)
  · omega

theorem isNameStart_ne {c d : Char} (hc : isNameStart c = true) (hd : isNameStart d = false) :
    c ≠ d := by
  rintro rfl; rw [hc] at hd; cases hd

theorem startsUnsigned_of_isNameStart {c : Char} (h : isNameStart c = true) (cs : List Char) :
    startsUnsigned (c :: cs) = false := by
  rw [startsUnsigned_cons (isNameStart_ne h rfl), not_isDigit_of_isNameStart h]

/-- A name does not begin like a numeral. -/
theorem startsNumeral_of_startsName {cs : List Char} (h : startsName cs = true) :
    startsNumeral cs = false := by
  cases cs with
  | nil => cases h
  | cons c cs =>
      by_cases hm : c = '-'
      · subst hm
        cases cs with
        | nil => cases h
        | cons d cs =>
            simp only [startsName, Bool.or_eq_true, decide_eq_true_eq] at h
            rcases h with (h | rfl) | rfl
            · exact startsUnsigned_of_isNameStart h cs
            · rfl
            · rfl
      by_cases hb : c = '\\'
      · subst hb; rfl
      · rw [startsName_cons hm hb] at h
        have hp := isNameStart_ne h (d := '+') rfl
        simp only [startsNumeral, hp, hm, decide_false, Bool.or_self, Bool.false_eq_true, if_false]
        exact startsUnsigned_of_isNameStart h cs

theorem not_isSpace_of_isNameChar {c : Char} (h : isNameChar c = true) : isSpace c = false := by
  cases hs : isSpace c with
  | false => rfl
  | true =>
      simp only [isSpace, isNewline, Bool.or_eq_true, decide_eq_true_eq] at hs
      rcases hs with (rfl | rfl) | (rfl | rfl) | rfl <;> cases h

/-- A name that is its own spelling consists of name characters. -/
theorem all_isNameChar_of_spelled {n : List Char} (h : spelled n = true) :
    n.all isNameChar = true := by
  rw [spelled, Bool.and_eq_true] at h
  refine List.all_eq_true.2 fun c hc => ?_
  have := List.all_eq_true.1 h.2 c hc
  rw [Bool.and_eq_true] at this
  exact this.1

/-- A name that is read up to a mark. -/
theorem read_ident {c f : Char} {cs n r : List Char} (hs : startsName (c :: (cs ++ f :: r)) = true)
    (hn : readName (c :: (cs ++ f :: r)) = (n, f :: r)) (hf : standsAlone f = true) :
    read c (cs ++ f :: r) = (.ident (String.ofList n), f :: r) := by
  have hc : c = '-' ∨ c = '\\' ∨ isNameStart c = true := by
    by_cases hm : c = '-'
    · exact .inl hm
    by_cases hb : c = '\\'
    · exact .inr (.inl hb)
    · rw [startsName_cons hm hb] at hs
      exact .inr (.inr hs)
  have not_of {d : Char} (hd : isNameStart d = false) (hm : d ≠ '-') (hb : d ≠ '\\') : c ≠ d := by
    rintro rfl
    rcases hc with rfl | rfl | hc
    · exact hm rfl
    · exact hb rfl
    · rw [hd] at hc; cases hc
  have hspace : isSpace c = false := by
    simp [isSpace, isNewline, not_of (d := ' ') rfl, not_of (d := '\t') rfl,
      not_of (d := '\n') rfl, not_of (d := '\x0c') rfl, not_of (d := '\r') rfl]
  have hquote : ¬(c = '"' || c = '\'') = true := by
    simp [not_of (d := '"') rfl, not_of (d := '\'') rfl]
  -- the mark that closes embedded sheets begins with two hyphens, which are read as a name
  have hcdc : ¬(c = '-' && (cs ++ f :: r).take 2 = ['-', '>']) = true := by
    intro e
    obtain ⟨rfl, htake⟩ := (by simpa using e : c = '-' ∧ (cs ++ f :: r).take 2 = ['-', '>'])
    obtain ⟨z, hz⟩ : ['-', '>'] <+: cs ++ f :: r := List.prefix_iff_eq_take.2 htake.symm
    have hread : readName ('-' :: '-' :: '>' :: z) = (['-', '-'], '>' :: z) :=
      readName_chars (n := ['-', '-']) rfl rfl
    rw [← hz] at hn
    have := (congrArg Prod.snd hread).symm.trans (congrArg Prod.snd hn)
    obtain rfl : '>' = f := (List.cons.inj this).1
    cases hf
  have hparen : (readName (c :: (cs ++ f :: r))).2.head? ≠ some '(' := by
    rw [hn]
    intro e
    obtain rfl : f = '(' := Option.some.inj e
    cases hf
  rw [read, if_neg (by rw [hspace]; exact Bool.false_ne_true), if_neg hquote,
    if_neg (by rw [startsNumeral_of_startsName hs]; exact Bool.false_ne_true), if_neg hcdc,
    if_pos hs, readNamed_ident hparen, hn]

theorem endsName_of_standsAlone {f : Char} (hf : standsAlone f = true) (r : List Char) :
    (f :: r).head?.all endsName = true := by
  rcases standsAlone_cases hf with rfl | rfl | rfl | rfl | rfl <;> rfl

/-- A name in front of a mark. -/
theorem read_name {c f : Char} {cs : List Char} (h : spelled (c :: cs) = true)
    (hf : standsAlone f = true) (r : List Char) :
    read c (cs ++ f :: r) = (.ident (String.ofList (c :: cs)), f :: r) := by
  have hs := h
  rw [spelled, Bool.and_eq_true] at hs
  exact read_ident (startsName_chars hs.1 (all_isNameChar_of_spelled h) (f :: r))
    (readName_chars hs.2 (endsName_of_standsAlone hf r)) hf

/-- A name behind an `@`. -/
theorem read_keyword {n y : List Char} (h : spelled n = true) (hy : y.head?.all endsName = true) :
    read '@' (n ++ y) = (.atKeyword (String.ofList n), y) := by
  have hall := all_isNameChar_of_spelled h
  rw [spelled, Bool.and_eq_true] at h
  have hr : ∀ cs, read '@' cs = readAt cs := fun cs => rfl
  rw [hr, readAt, if_pos (startsName_chars h.1 hall y), readName_chars h.2 hy]

end Token

namespace Component

variable {b : Option Bracket} {f : Char} {n y : List Char} {cs : List Component}

/-- A name, as a component. -/
def nameLeaf (n : List Char) : Component := .leaf ⟨.ident (String.ofList n), n⟩

/-- An at-keyword, as a component. -/
def keywordLeaf (n : List Char) : Component := .leaf ⟨.atKeyword (String.ofList n), '@' :: n⟩

/-- A name in front of a mark is one component. -/
theorem upTo_name (h : Token.spelled n = true) (hf : Token.standsAlone f = true) :
    UpTo b f n [nameLeaf n] := by
  cases n with
  | nil => cases h
  | cons c n =>
      have := UpTo.leaf (b := b) (fun r => Token.read_name h hf r)
        (by simp [fits, Token.opens?, Token.closes?]) .nil
      rwa [List.append_nil] at this

/-- An at-keyword in front of a text that does not lengthen it. -/
theorem upTo_keyword (h : Token.spelled n = true)
    (hy : (y ++ [f]).head?.all Token.endsName = true) (hu : UpTo b f y cs) :
    UpTo b f ('@' :: n ++ y) (keywordLeaf n :: cs) := by
  refine UpTo.leaf (fun r => Token.read_keyword h ?_)
    (by simp [fits, Token.opens?, Token.closes?]) hu
  cases y <;> exact hy

/-! ### Raw text in front of a mark -/

/-- The components of a text that is read as far as the mark `f` behind it and no statement ends in;
`t` says what would end one. -/
def reach? (b : Option Bracket) (t : Terminators) (f : Char) (x : List Char) :
    Option (List Component) :=
  (front? f x).filter fun cs => fitAll b cs && cs.all fun c => (t.ending? c).isNone

/-- The components in front of a mark have the text that they are read from. -/
theorem textOf_of_front? {x : List Char} (h : front? f x = some cs) : textOf cs = x := by
  simp only [front?] at h
  split at h
  · next hl =>
      obtain ⟨xs, hxs⟩ := List.getLast?_eq_some_iff.1 hl
      rw [hxs, List.dropLast_concat] at h
      obtain rfl : gather xs = cs := Option.some.inj h
      have := Lexeme.textOf_scan (x ++ [f])
      rw [hxs, Lexeme.textOf, List.flatMap_append] at this
      rw [textOf_gather]
      exact List.append_cancel_right this
  · cases h

/-- The components reach the mark: they have the text, and no statement ends in them. -/
structure Reached (b : Option Bracket) (t : Terminators) (f : Char) (x : List Char)
    (cs : List Component) : Prop where
  upTo : UpTo b f x cs
  text : textOf cs = x
  goesOn : ∀ c ∈ cs, t.ending? c = none

/-- What `reach?` returns reaches the mark. -/
theorem reached_of_reach? {t : Terminators} {x : List Char} (hf : Token.standsAlone f = true)
    (h : reach? b t f x = some cs) : Reached b t f x cs := by
  rw [reach?, Option.filter_eq_some_iff, Bool.and_eq_true] at h
  obtain ⟨hx, hb, ht⟩ := h
  exact ⟨upTo_of_front? hf hx hb, textOf_of_front? hx, fun c hc =>
    Option.isNone_iff_eq_none.1 (List.all_eq_true.1 ht c hc)⟩

end Component

end CssPrune
