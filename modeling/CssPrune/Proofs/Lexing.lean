import CssPrune.Token.Lexer
import Mathlib.Data.List.Basic
import Mathlib.Data.List.TakeWhile

/-!
# Reading a text piece by piece

What stands behind a text can change how the text is read: `a` and `b` are two names, `ab` is one.
Curly brackets, semicolons, commas and colons end whatever name or numeral precedes them and are
tokens of their own, and so does the end of the text.  These are its *borders*: a token that stops in
front of a border is the same token in front of any other.

* `read_append`: a token that stops at such a mark or before it stops there whatever border the mark
  is replaced by.
* `Lexeme.scan_border`: the lexemes in front of a mark are those of the text up to it alone, and those
  in front of any other border.

Strings, comments, escapes and `url(` arguments may take the mark in; that is what the hypothesis, a
token or lexeme that ends in front of the mark, excludes.
-/

namespace CssPrune.Token

/-! ### Marks that stand alone -/

/-- The marks that no name, numeral or longer mark contains. -/
def standsAlone (c : Char) : Bool :=
  c = '\x7b' || c = '\x7d' || c = ';' || c = ',' || c = ':'

theorem standsAlone_cases {c : Char} (h : standsAlone c = true) :
    c = '\x7b' ∨ c = '\x7d' ∨ c = ';' ∨ c = ',' ∨ c = ':' := by
  simpa [standsAlone, or_assoc] using h

/-- A kind of characters that has none of the five has no mark that stands alone. -/
theorem not_of_standsAlone {p : Char → Bool}
    (hp : ['\x7b', '\x7d', ';', ',', ':'].all (fun c => !p c) = true) {c : Char}
    (h : standsAlone c = true) : p c = false := by
  have hmem : c ∈ ['\x7b', '\x7d', ';', ',', ':'] := by simpa using standsAlone_cases h
  simpa using List.all_eq_true.1 hp c hmem

/-- The text is at its end, or a mark that stands alone comes next. -/
def Border (e : List Char) : Prop := ∀ c ∈ e.head?, standsAlone c = true

theorem border_nil : Border [] := fun _ h => by cases h

theorem border_cons {f : Char} (hf : standsAlone f = true) (r : List Char) : Border (f :: r) :=
  fun _ h => Option.some.inj h ▸ hf

/-! ### What a reader looks at -/

section Look

variable {u e : List Char} {p : Char → Bool}

/-- At a border there is no character of another kind. -/
theorem any_border (hp : ['\x7b', '\x7d', ';', ',', ':'].all (fun c => !p c) = true)
    (he : Border e) : e.head?.any p = false := by
  cases e with
  | nil => rfl
  | cons c e => exact not_of_standsAlone hp (he c rfl)

/-- What comes next does not depend on the border behind the text. -/
theorem any_append (hp : ['\x7b', '\x7d', ';', ',', ':'].all (fun c => !p c) = true)
    (he : Border e) (u : List Char) : (u ++ e).head?.any p = u.head?.any p := by
  cases u with
  | nil => exact any_border hp he
  | cons c u => rfl

theorem startsNewline_append (he : Border e) (u : List Char) :
    startsNewline (u ++ e) = startsNewline u :=
  any_append rfl he u

theorem startsDigit_append (he : Border e) (u : List Char) : startsDigit (u ++ e) = startsDigit u :=
  any_append rfl he u

/-- Without a point in front, a numeral begins with a digit. -/
theorem startsUnsigned_cons {c : Char} (h : c ≠ '.') (cs : List Char) :
    startsUnsigned (c :: cs) = c.isDigit := by
  unfold startsUnsigned
  split
  · next heq => cases heq; exact absurd rfl h
  · rfl

/-- Without a hyphen or a backslash in front, a name begins with one of its characters. -/
theorem startsName_cons {c : Char} (hm : c ≠ '-') (hb : c ≠ '\\') (cs : List Char) :
    startsName (c :: cs) = isNameStart c := by
  unfold startsName
  split
  · next heq => cases heq; exact absurd rfl hm
  · next heq => cases heq; exact absurd rfl hb
  · next heq => cases heq; rfl
  · next heq => cases heq

/-- A mark that stands alone differs from all characters that do not. -/
theorem ne_of_standsAlone {c d : Char} (hc : standsAlone c = true) (hd : standsAlone d = false) :
    c ≠ d := by
  rintro rfl; rw [hc] at hd; cases hd

/-- A numeral without a sign begins, or does not, whatever the border. -/
theorem startsUnsigned_append (he : Border e) (u : List Char) :
    startsUnsigned (u ++ e) = startsUnsigned u := by
  cases u with
  | nil =>
      cases e with
      | nil => rfl
      | cons c e =>
          have hc := he c rfl
          rw [List.nil_append, startsUnsigned_cons (ne_of_standsAlone hc rfl)]
          exact not_of_standsAlone (p := Char.isDigit) rfl hc
  | cons c u =>
      by_cases hc : c = '.'
      · subst hc
        exact startsDigit_append he u
      · rw [List.cons_append, startsUnsigned_cons hc, startsUnsigned_cons hc]

/-- Whether a numeral begins is told in front of a border. -/
theorem startsNumeral_append (he : Border e) (u : List Char) :
    startsNumeral (u ++ e) = startsNumeral u := by
  cases u with
  | nil =>
      cases e with
      | nil => rfl
      | cons c e =>
          have hc := he c rfl
          have hp := ne_of_standsAlone hc (d := '+') rfl
          have hm := ne_of_standsAlone hc (d := '-') rfl
          simp only [List.nil_append, startsNumeral, hp, hm, decide_false, Bool.or_self,
            Bool.false_eq_true, if_false]
          exact startsUnsigned_append he []
  | cons c u =>
      simp only [List.cons_append, startsNumeral]
      split
      · exact startsUnsigned_append he u
      · exact startsUnsigned_append he (c :: u)

/-- No name begins at a border. -/
theorem startsName_border (he : Border e) : startsName e = false := by
  cases e with
  | nil => rfl
  | cons c e =>
      have hc := he c rfl
      rw [startsName_cons (ne_of_standsAlone hc rfl) (ne_of_standsAlone hc rfl)]
      exact not_of_standsAlone rfl hc

/-- Whether a name begins does not depend on the border. -/
theorem startsName_append (he : Border e) (u : List Char) :
    startsName (u ++ e) = startsName u := by
  cases u with
  | nil => exact startsName_border he
  | cons c u =>
      by_cases hm : c = '-'
      · subst hm
        cases u with
        | nil =>
            cases e with
            | nil => rfl
            | cons d e =>
                exact not_of_standsAlone (p := fun d => isNameStart d || d = '-' || d = '\\') rfl
                  (he d rfl)
        | cons d u => rfl
      by_cases hb : c = '\\'
      · subst hb
        exact congrArg not (startsNewline_append he u)
      · rw [List.cons_append, startsName_cons hm hb, startsName_cons hm hb]

/-- A run of characters ends before the border. -/
theorem takeWhile_append (hp : ['\x7b', '\x7d', ';', ',', ':'].all (fun c => !p c) = true)
    (he : Border e) (u : List Char) : (u ++ e).takeWhile p = u.takeWhile p := by
  induction u with
  | nil =>
      cases e with
      | nil => rfl
      | cons c e =>
          have := not_of_standsAlone hp (he c rfl)
          exact List.takeWhile_cons_of_neg (by rw [this]; exact Bool.false_ne_true)
  | cons c u ih => rw [List.cons_append, List.takeWhile_cons, List.takeWhile_cons, ih]

/-- What is left behind a run reaches up to the border. -/
theorem dropWhile_append (hp : ['\x7b', '\x7d', ';', ',', ':'].all (fun c => !p c) = true)
    (he : Border e) (u : List Char) : (u ++ e).dropWhile p = u.dropWhile p ++ e := by
  induction u with
  | nil =>
      cases e with
      | nil => rfl
      | cons c e =>
          have := not_of_standsAlone hp (he c rfl)
          exact List.dropWhile_cons_of_neg (by rw [this]; exact Bool.false_ne_true)
  | cons c u ih =>
      rw [List.cons_append, List.dropWhile_cons, List.dropWhile_cons, ih]
      split <;> rfl

/-- Nothing behind the border is part of a run of other characters. -/
theorem prefix_append {w : List Char} (hw : w.all (fun c => !standsAlone c) = true) (he : Border e)
    (u : List Char) : w <+: u ++ e ↔ w <+: u := by
  induction w generalizing u with
  | nil => exact ⟨fun _ => List.nil_prefix, fun _ => List.nil_prefix⟩
  | cons p w ih =>
      rw [List.all_cons, Bool.and_eq_true, Bool.not_eq_true'] at hw
      cases u with
      | nil =>
          refine ⟨fun h => ?_, fun h => absurd (List.prefix_nil.1 h) (List.cons_ne_nil _ _)⟩
          cases e with
          | nil => exact h
          | cons c e =>
              rw [List.nil_append, List.cons_prefix_cons] at h
              exact absurd h.1.symm (ne_of_standsAlone (he c rfl) hw.1)
      | cons c u =>
          rw [List.cons_append, List.cons_prefix_cons, List.cons_prefix_cons, ih hw.2]

end Look

/-! ### What is left in front of a border -/

/-- What is read from a text in front of a mark, `p`, and from the same text in front of another
border `e`, `q`: if the mark is left, it is the same in front of `e`. -/
def Keeps {α : Type} (f : Char) (r e : List Char) (p q : α × List Char) : Prop :=
  ∀ v, p.2 = v ++ f :: r → q = (p.1, v ++ e)

section Keeps

variable {α β : Type} {f : Char} {r e : List Char} {p q : α × List Char}

/-- A choice that what stands behind the text does not change. -/
theorem Keeps.ite {a b a' b' : α × List Char} {s t : Prop} [Decidable s] [Decidable t]
    (hst : t ↔ s) (ha : s → Keeps f r e a a') (hb : ¬s → Keeps f r e b b') :
    Keeps f r e (if s then a else b) (if t then a' else b') := by
  by_cases h : s
  · rw [if_pos h, if_pos (hst.2 h)]; exact ha h
  · rw [if_neg h, if_neg (mt hst.1 h)]; exact hb h

/-- Nothing is read of the border. -/
theorem Keeps.of_append {a : α} {v : List Char} (hp : p = (a, v ++ f :: r)) (hq : q = (a, v ++ e)) :
    Keeps f r e p q := by
  intro w hw
  subst hp hq
  obtain rfl : v = w := List.append_cancel_right hw
  rfl

/-- The reader has passed the mark. -/
theorem Keeps.of_suffix (h : p.2 <:+ r) : Keeps f r e p q := by
  intro v hv
  have := h.length_le
  rw [hv] at this
  simp only [List.length_append, List.length_cons] at this
  omega

theorem Keeps.map (h : Keeps f r e p q) (g : α → β) :
    Keeps f r e (g p.1, p.2) (g q.1, q.2) := by
  intro v hv
  rw [h v hv]

/-- A piece of the text that the mark is left behind. -/
theorem exists_append {u v z : List Char} (hv : v ++ f :: r <:+ z) (hz : z <:+ u ++ f :: r) :
    ∃ w, z = w ++ f :: r ∧ w <:+ u := by
  obtain ⟨t, rfl⟩ := hv
  obtain ⟨s, hs⟩ := hz
  rw [← List.append_assoc, ← List.append_assoc, List.append_assoc s] at hs
  exact ⟨t ++ v, (List.append_assoc _ _ _).symm, s, List.append_cancel_right hs⟩

end Keeps

/-! ### Names and escapes -/

section Names

variable {f : Char} {r e : List Char}

/-- A line end is one character or a carriage return and a line feed. -/
theorem dropNewline_cons (c : Char) (cs : List Char) :
    dropNewline (c :: cs) =
      if c = '\r' ∧ cs.head? = some '\n' then cs.tail else if isNewline c then cs else c :: cs := by
  by_cases hc : c = '\r' ∧ cs.head? = some '\n'
  · obtain ⟨rfl, hn⟩ := hc
    cases cs with
    | nil => cases hn
    | cons d ds => cases hn; rfl
  · rw [if_neg hc]
    unfold dropNewline
    split
    · next heq => cases heq; exact absurd ⟨rfl, rfl⟩ hc
    · next heq => cases heq; rfl
    · next heq => cases heq

theorem dropNewline_border (he : Border e) : dropNewline e = e := by
  cases e with
  | nil => rfl
  | cons c e =>
      have hc := he c rfl
      rw [dropNewline_cons, if_neg fun h => ne_of_standsAlone hc rfl h.1,
        if_neg (by rw [not_of_standsAlone (p := isNewline) rfl hc]; exact Bool.false_ne_true)]

/-- A line end in front of a border is dropped as it is. -/
theorem dropNewline_append (he : Border e) (u : List Char) :
    dropNewline (u ++ e) = dropNewline u ++ e := by
  cases u with
  | nil => exact dropNewline_border he
  | cons c u =>
      rw [List.cons_append, dropNewline_cons, dropNewline_cons]
      cases u with
      | nil =>
          have hn : ¬(c = '\r' ∧ e.head? = some '\n') := fun h => by cases he _ h.2
          have hnil : ¬(c = '\r' ∧ [].head? = some '\n') := fun h => by cases h.2
          rw [List.nil_append, if_neg hn, if_neg hnil]
          split <;> rfl
      | cons d u =>
          rw [List.cons_append, List.head?_cons, List.head?_cons]
          split
          · rfl
          · split <;> rfl

/-- The white space at the head is left out in front of a border as it is alone. -/
theorem dropSpace_append (he : Border e) (u : List Char) :
    dropSpace (u ++ e) = dropSpace u ++ e := by
  cases u with
  | nil =>
      cases e with
      | nil => rfl
      | cons c e =>
          have hc : (c = ' ' || c = '\t') = false :=
            not_of_standsAlone (p := fun c => c = ' ' || c = '\t') rfl (he c rfl)
          simp only [List.nil_append, dropSpace, hc, Bool.false_eq_true, if_false]
          exact dropNewline_border he
  | cons c u =>
      simp only [List.cons_append, dropSpace]
      split
      · rfl
      · exact dropNewline_append he (c :: u)

/-- The run of digits of an escape, six at most, ends before the border. -/
theorem hexRun_append (he : Border e) (n : Nat) (u : List Char) :
    ((u ++ e).take n).takeWhile isHexDigit = (u.take n).takeWhile isHexDigit := by
  have hb : Border (e.take (n - u.length)) := by
    intro c hc
    rw [List.head?_take] at hc
    split at hc
    · cases hc
    · exact he c hc
  rw [List.take_append, takeWhile_append rfl hb]

/-- An escape has a character behind its backslash. -/
theorem readEscape_append (he : Border e) {u : List Char} (hu : u ≠ []) :
    readEscape (u ++ e) = ((readEscape u).1, (readEscape u).2 ++ e) := by
  cases u with
  | nil => exact absurd rfl hu
  | cons c u =>
      have hrun := hexRun_append he 6 (c :: u)
      rw [List.cons_append] at hrun
      simp only [List.cons_append, readEscape, hrun]
      split
      · rfl
      · have hle : (((c :: u).take 6).takeWhile isHexDigit).length ≤ (c :: u).length :=
          (List.takeWhile_prefix _).length_le.trans (List.take_prefix _ _).length_le
        rw [← List.cons_append, List.drop_append_of_le_length hle, dropSpace_append he]

/-- An escape may take in the mark itself. -/
theorem readEscape_mark (hf : standsAlone f = true) (r : List Char) :
    readEscape (f :: r) = (f, r) := by
  rcases standsAlone_cases hf with rfl | rfl | rfl | rfl | rfl <;> simp [readEscape, isHexDigit, denull]

/-- A reader that goes on behind an escape: an escape that takes the mark in has passed it. -/
theorem Keeps.escape {α β : Type} (read : List Char → α × List Char)
    (hread : ∀ cs, (read cs).2 <:+ cs) (hf : standsAlone f = true) (he : Border e) {u : List Char}
    (h : Keeps f r e (read ((readEscape u).2 ++ f :: r)) (read ((readEscape u).2 ++ e)))
    (g : Char → α → β) :
    Keeps f r e
      (g (readEscape (u ++ f :: r)).1 (read (readEscape (u ++ f :: r)).2).1,
        (read (readEscape (u ++ f :: r)).2).2)
      (g (readEscape (u ++ e)).1 (read (readEscape (u ++ e)).2).1,
        (read (readEscape (u ++ e)).2).2) := by
  by_cases hu : u = []
  · subst hu
    refine .of_suffix ?_
    rw [List.nil_append, readEscape_mark hf]
    exact hread r
  · rw [readEscape_append he hu, readEscape_append (border_cons hf r) hu]
    exact h.map (g (readEscape u).1)

/-- At a border the name is empty. -/
theorem readName_border (he : Border e) : readName e = ([], e) := by
  cases e with
  | nil => rw [readName]
  | cons c e =>
      have hc := he c rfl
      rw [readName, if_neg (ne_of_standsAlone hc rfl),
        if_neg (by rw [not_of_standsAlone (p := isNameChar) rfl hc]; exact Bool.false_ne_true)]

/-- A name that stops in front of a mark stops in front of any border. -/
theorem readName_append (hf : standsAlone f = true) (he : Border e) (u : List Char) :
    Keeps f r e (readName (u ++ f :: r)) (readName (u ++ e)) := by
  match u with
  | [] => exact .of_append (v := []) (readName_border (border_cons hf r)) (readName_border he)
  | c :: u =>
      have hnew : ∀ e, Border e → startsNewline (u ++ e) = startsNewline u :=
        fun e he => startsNewline_append he u
      rw [List.cons_append, List.cons_append, readName, readName, hnew e he,
        hnew _ (border_cons hf r)]
      refine .ite Iff.rfl (fun hc => .ite Iff.rfl (fun _ => ?_) fun _ => ?_) fun _ =>
        .ite Iff.rfl (fun _ => ?_) fun _ => ?_
      · exact .of_append (v := c :: u) rfl rfl
      · have hlt : (readEscape u).2.length ≤ u.length := (readEscape_suffix u).length_le
        exact .escape readName readName_suffix hf he (readName_append hf he (readEscape u).2)
          List.cons
      · exact (readName_append hf he u).map _
      · exact .of_append (v := c :: u) rfl rfl
termination_by u.length
decreasing_by
  · simp only [List.length_cons]; omega
  · simp

end Names

/-! ### Strings and comments -/

section Literals

variable {f : Char} {r e : List Char}

/-- What is read in two parts, and the text left, as a pair. -/
def reassoc {α β γ : Type} (t : α × β × γ) : (α × β) × γ := ((t.1, t.2.1), t.2.2)

/-- A string is read up to its quote, whatever mark follows; one that is open takes the mark in. -/
theorem readString_append {quote : Char} (hq : standsAlone quote = false)
    (hf : standsAlone f = true) (he : Border e) (u : List Char) :
    Keeps f r e (reassoc (readString quote (u ++ f :: r)))
      (reassoc (readString quote (u ++ e))) := by
  match u with
  | [] =>
      -- a string that is open takes the mark in
      refine .of_suffix ?_
      rw [List.nil_append, readString, if_neg (ne_of_standsAlone hf hq),
        if_neg (by rw [not_of_standsAlone (p := isNewline) rfl hf]; exact Bool.false_ne_true),
        if_neg (ne_of_standsAlone hf rfl)]
      exact readString_suffix quote r
  | c :: u =>
      have hnew : ∀ e, Border e → startsNewline (u ++ e) = startsNewline u :=
        fun e he => startsNewline_append he u
      rw [List.cons_append, List.cons_append, readString, readString, hnew e he,
        hnew _ (border_cons hf r)]
      by_cases hquote : c = quote
      · rw [if_pos hquote, if_pos hquote]
        exact .of_append (v := u) rfl rfl
      by_cases hline : isNewline c = true
      · rw [if_neg hquote, if_neg hquote, if_pos hline, if_pos hline]
        exact .of_append (v := c :: u) rfl rfl
      rw [if_neg hquote, if_neg hquote, if_neg hline, if_neg hline]
      by_cases hb : c = '\\'
      · rw [if_pos hb, if_pos hb]
        by_cases hu : u = []
        · subst hu
          refine .of_suffix ?_
          rw [List.nil_append, if_neg (List.cons_ne_nil _ _)]
          simp only [startsNewline, List.head?_nil, Option.any_none, Bool.false_eq_true, if_false,
            readEscape_mark hf]
          exact readString_suffix quote r
        · have hne : ∀ e, ¬u ++ e = [] := fun e h => hu (List.append_eq_nil_iff.1 h).1
          rw [if_neg (hne _), if_neg (hne _)]
          by_cases hn : startsNewline u = true
          · have hlt : (dropNewline u).length ≤ u.length := (dropNewline_suffix u).length_le
            rw [if_pos hn, if_pos hn, dropNewline_append he, dropNewline_append (border_cons hf r)]
            exact readString_append hq hf he (dropNewline u)
          · have hlt : (readEscape u).2.length ≤ u.length := (readEscape_suffix u).length_le
            rw [if_neg hn, if_neg hn]
            exact .escape (fun cs => reassoc (readString quote cs)) (readString_suffix quote) hf he
              (readString_append hq hf he (readEscape u).2) fun c s => (c :: s.1, s.2)
      · rw [if_neg hb, if_neg hb]
        exact (readString_append hq hf he u).map fun s => (denull c :: s.1, s.2)
termination_by u.length
decreasing_by
  · simp only [List.length_cons]; omega
  · simp only [List.length_cons]; omega
  · simp

/-- A comment goes on behind each character that does not close it. -/
theorem readComment_cons {c : Char} {cs : List Char} (h : ¬(c = '*' ∧ cs.head? = some '/')) :
    readComment (c :: cs) = (c :: (readComment cs).1, (readComment cs).2) := by
  rw [readComment]
  rintro ds rfl rfl
  exact h ⟨rfl, rfl⟩

/-- A comment that closes in front of a mark closes there whatever the border. -/
theorem readComment_append (hf : standsAlone f = true) (he : Border e) (u : List Char) :
    Keeps f r e (readComment (u ++ f :: r)) (readComment (u ++ e)) := by
  induction u with
  | nil =>
      refine .of_suffix ?_
      rw [List.nil_append, readComment_cons fun h => ne_of_standsAlone hf rfl h.1]
      exact readComment_suffix r
  | cons c u ih =>
      by_cases h : c = '*' ∧ u.head? = some '/'
      · obtain ⟨rfl, hu⟩ := h
        obtain ⟨u, rfl⟩ := List.head?_eq_some_iff.1 hu
        exact .of_append (v := u) rfl rfl
      · have hne : ∀ e, Border e → ¬(c = '*' ∧ (u ++ e).head? = some '/') := by
          rintro e he ⟨hc, hu⟩
          cases u with
          | nil => cases he _ hu
          | cons d u => exact h ⟨hc, hu⟩
        rw [List.cons_append, List.cons_append, readComment_cons (hne e he),
          readComment_cons (hne _ (border_cons hf r))]
        exact ih.map _

/-! ### Numerals -/

theorem readDigits_append (he : Border e) (u : List Char) :
    readDigits (u ++ e) = ((readDigits u).1, (readDigits u).2 ++ e) := by
  rw [readDigits, takeWhile_append rfl he, dropWhile_append rfl he]; rfl

theorem readSign_cons {c : Char} (hp : c ≠ '+') (hm : c ≠ '-') (cs : List Char) :
    readSign (c :: cs) = (none, c :: cs) := by
  unfold readSign
  split
  · next heq => cases heq; exact absurd rfl hp
  · next heq => cases heq; exact absurd rfl hm
  · rfl

/-- A sign is there, or is not, whatever the border. -/
theorem readSign_append (he : Border e) (u : List Char) :
    readSign (u ++ e) = ((readSign u).1, (readSign u).2 ++ e) := by
  cases u with
  | nil =>
      cases e with
      | nil => rfl
      | cons c e =>
          have hc := he c rfl
          exact readSign_cons (ne_of_standsAlone hc rfl) (ne_of_standsAlone hc rfl) e
  | cons c u =>
      by_cases hp : c = '+'
      · subst hp; rfl
      by_cases hm : c = '-'
      · subst hm; rfl
      · rw [List.cons_append, readSign_cons hp hm, readSign_cons hp hm]; rfl

theorem readFraction_cons {c : Char} (h : c ≠ '.') (cs : List Char) :
    readFraction (c :: cs) = ([], c :: cs) := by
  unfold readFraction
  split
  · next heq => cases heq; exact absurd rfl h
  · rfl

/-- A fraction ends in front of a border. -/
theorem readFraction_append (he : Border e) (u : List Char) :
    readFraction (u ++ e) = ((readFraction u).1, (readFraction u).2 ++ e) := by
  cases u with
  | nil =>
      cases e with
      | nil => rfl
      | cons c e => exact readFraction_cons (ne_of_standsAlone (he c rfl) rfl) e
  | cons c u =>
      by_cases hp : c = '.'
      · subst hp
        simp only [List.cons_append, readFraction, startsDigit_append he]
        split
        · exact readDigits_append he u
        · rfl
      · rw [List.cons_append, readFraction_cons hp, readFraction_cons hp]; rfl

/-- An exponent ends in front of a border. -/
theorem readExponent_append (he : Border e) (u : List Char) :
    readExponent (u ++ e) = ((readExponent u).1, (readExponent u).2 ++ e) := by
  cases u with
  | nil =>
      cases e with
      | nil => rfl
      | cons c e =>
          have hc : (c = 'e' || c = 'E') = false :=
            not_of_standsAlone (p := fun c => c = 'e' || c = 'E') rfl (he c rfl)
          simp only [List.nil_append, readExponent, hc, Bool.false_eq_true, if_false]
  | cons c u =>
      simp only [List.cons_append, readExponent]
      split
      · simp only [readSign_append he, startsDigit_append he, readDigits_append he]
        split <;> rfl
      · rfl

theorem readNumeral_append (he : Border e) (u : List Char) :
    readNumeral (u ++ e) = ((readNumeral u).1, (readNumeral u).2 ++ e) := by
  simp only [readNumeral, readSign_append he, readDigits_append he, readFraction_append he,
    readExponent_append he]

theorem readNumeric_percent {cs rest : List Char} (h : (readNumeral cs).2 = '%' :: rest) :
    readNumeric cs = (.percentage (readNumeral cs).1, rest) := by
  simp only [readNumeric, h]

/-- A numeral without one: what follows is a unit if it is a name. -/
theorem readNumeric_unit {cs : List Char} (h : (readNumeral cs).2.head? ≠ some '%') :
    readNumeric cs =
      if startsName (readNumeral cs).2 then
        (.dimension (readNumeral cs).1 (String.ofList (readName (readNumeral cs).2).1),
          (readName (readNumeral cs).2).2)
      else (.number (readNumeral cs).1, (readNumeral cs).2) := by
  simp only [readNumeric]
  split
  · next heq => rw [heq] at h; exact absurd rfl h
  · rfl

/-- A character that is no mark comes next just when it does so in front of a border. -/
theorem head?_append_eq {c : Char} (hc : standsAlone c = false) (he : Border e) (u : List Char) :
    (u ++ e).head? = some c ↔ u.head? = some c := by
  cases u with
  | nil =>
      refine ⟨fun h => ?_, fun h => by cases h⟩
      exact absurd rfl (ne_of_standsAlone (he c h) hc)
  | cons d u => rfl

/-- A numeral with its unit stops in front of any border if it stops in front of the mark. -/
theorem readNumeric_append (hf : standsAlone f = true) (he : Border e) (u : List Char) :
    Keeps f r e (readNumeric (u ++ f :: r)) (readNumeric (u ++ e)) := by
  have hr := border_cons hf r
  by_cases hp : (readNumeral u).2.head? = some '%'
  · obtain ⟨v, hv⟩ := List.head?_eq_some_iff.1 hp
    have hpercent : ∀ e, Border e →
        readNumeric (u ++ e) = (.percentage (readNumeral u).1, v ++ e) := by
      intro e he
      have := readNumeral_append he u
      rw [hv] at this
      rw [readNumeric_percent (show _ = '%' :: (v ++ e) by rw [this]; rfl), this]
    exact .of_append (hpercent _ hr) (hpercent e he)
  · have hunit : ∀ e, Border e → readNumeric (u ++ e) =
        if startsName (readNumeral u).2 then
          (.dimension (readNumeral u).1 (String.ofList (readName ((readNumeral u).2 ++ e)).1),
            (readName ((readNumeral u).2 ++ e)).2)
        else (.number (readNumeral u).1, (readNumeral u).2 ++ e) := by
      intro e he
      have := readNumeral_append he u
      rw [readNumeric_unit (by rw [this]; exact mt (head?_append_eq rfl he _).1 hp), this,
        startsName_append he]
    rw [hunit _ hr, hunit e he]
    refine .ite Iff.rfl (fun _ => ?_) fun _ => .of_append rfl rfl
    exact (readName_append hf he (readNumeral u).2).map
      fun n => Token.dimension (readNumeral u).1 (String.ofList n)

/-! ### Arguments of `url(` -/

/-- Reading goes on behind each character that neither closes nor protects. -/
theorem readBadUrl_cons {c : Char} {cs : List Char} (hp : c ≠ ')')
    (h : ¬(c = '\\' ∧ (cs.head? = some ')' ∨ cs.head? = some '\\'))) :
    readBadUrl (c :: cs) = (c :: (readBadUrl cs).1, (readBadUrl cs).2) := by
  rw [readBadUrl]
  · exact hp
  · rintro ds rfl rfl; exact h ⟨rfl, .inl rfl⟩
  · rintro ds rfl rfl; exact h ⟨rfl, .inr rfl⟩

/-- The closing parenthesis of a bad argument is found whatever the border behind it. -/
theorem readBadUrl_append (hf : standsAlone f = true) (he : Border e) (u : List Char) :
    Keeps f r e (readBadUrl (u ++ f :: r)) (readBadUrl (u ++ e)) := by
  match u with
  | [] =>
      refine .of_suffix ?_
      rw [List.nil_append,
        readBadUrl_cons (ne_of_standsAlone hf rfl) fun h => ne_of_standsAlone hf rfl h.1]
      exact readBadUrl_suffix r
  | c :: u =>
      by_cases hp : c = ')'
      · subst hp
        exact .of_append (v := u) rfl rfl
      by_cases h : c = '\\' ∧ (u.head? = some ')' ∨ u.head? = some '\\')
      -- a backslash and what it protects
      · obtain ⟨rfl, hu | hu⟩ := h
        · obtain ⟨u, rfl⟩ := List.head?_eq_some_iff.1 hu
          exact (readBadUrl_append hf he u).map fun s => '\\' :: ')' :: s
        · obtain ⟨u, rfl⟩ := List.head?_eq_some_iff.1 hu
          exact (readBadUrl_append hf he u).map fun s => '\\' :: '\\' :: s
      · have hne : ∀ e, Border e →
            ¬(c = '\\' ∧ ((u ++ e).head? = some ')' ∨ (u ++ e).head? = some '\\')) := by
          intro e he
          rwa [head?_append_eq rfl he, head?_append_eq rfl he]
        rw [List.cons_append, List.cons_append, readBadUrl_cons hp (hne e he),
          readBadUrl_cons hp (hne _ (border_cons hf r))]
        exact (readBadUrl_append hf he u).map fun s => c :: s

/-- The end of an argument is the same in front of a mark, but for the mark that a spoiled one takes
in. -/
theorem readUrlEnd_append (hf : standsAlone f = true) (he : Border e) (u : List Char) :
    Keeps f r e (readUrlEnd (u ++ f :: r)) (readUrlEnd (u ++ e)) := by
  rw [readUrlEnd, readUrlEnd, dropWhile_append rfl (border_cons hf r), dropWhile_append rfl he]
  cases u.dropWhile isSpace with
  | nil =>
      refine .of_suffix ?_
      simp only [List.nil_append]
      split
      · exact List.suffix_refl _
      · exact List.suffix_refl _
  | cons c u =>
      simp only [List.cons_append]
      refine .ite Iff.rfl (fun _ => .of_append rfl rfl) fun _ => .of_append rfl rfl

/-- An argument without quotes that ends in front of the mark ends there whatever the border. -/
theorem readUrl_append (hf : standsAlone f = true) (he : Border e) (u : List Char) :
    Keeps f r e (reassoc (readUrl (u ++ f :: r))) (reassoc (readUrl (u ++ e))) := by
  match u with
  | [] =>
      refine .of_suffix ?_
      have not_of {p : Char → Bool}
          (hp : ['\x7b', '\x7d', ';', ',', ':'].all (fun c => !p c) = true) : ¬p f = true := by
        rw [not_of_standsAlone hp hf]; exact Bool.false_ne_true
      rw [List.nil_append, readUrl, if_neg (ne_of_standsAlone hf rfl),
        if_neg (not_of (p := isSpace) rfl), if_neg (not_of (p := isUnquotable) rfl),
        if_neg (ne_of_standsAlone hf rfl)]
      exact readUrl_suffix r
  | c :: u =>
      have hnew : ∀ e, Border e → startsNewline (u ++ e) = startsNewline u :=
        fun e he => startsNewline_append he u
      rw [List.cons_append, List.cons_append, readUrl, readUrl, hnew e he,
        hnew _ (border_cons hf r)]
      by_cases hp : c = ')'
      · rw [if_pos hp, if_pos hp]
        exact .of_append (v := u) rfl rfl
      rw [if_neg hp, if_neg hp]
      by_cases hs : isSpace c = true
      · rw [if_pos hs, if_pos hs]
        exact (readUrlEnd_append hf he u).map fun s => ([], s)
      rw [if_neg hs, if_neg hs]
      by_cases hu : isUnquotable c = true
      · rw [if_pos hu, if_pos hu]
        exact .of_append (v := u) rfl rfl
      rw [if_neg hu, if_neg hu]
      by_cases hb : c = '\\'
      · rw [if_pos hb, if_pos hb]
        by_cases hn : startsNewline u = true
        · rw [if_pos hn, if_pos hn]
          exact .of_append (v := u) rfl rfl
        rw [if_neg hn, if_neg hn]
        have hlt : (readEscape u).2.length ≤ u.length := (readEscape_suffix u).length_le
        exact .escape (fun cs => reassoc (readUrl cs)) readUrl_suffix hf he
          (readUrl_append hf he (readEscape u).2) fun c s => (c :: s.1, s.2)
      · rw [if_neg hb, if_neg hb]
        exact (readUrl_append hf he u).map fun s => (denull c :: s.1, s.2)
termination_by u.length
decreasing_by
  · simp only [List.length_cons]; omega
  · simp

end Literals

/-! ### Tokens -/

section Tokens

variable {f : Char} {r e : List Char}

/-- What stands in front of an end does not depend on what follows both. -/
theorem upTo_append_right {u v : List Char} (h : v <:+ u) (e : List Char) :
    upTo (u ++ e) (v ++ e) = upTo u v := by
  obtain ⟨t, rfl⟩ := h
  rw [List.append_assoc, upTo_suffix, upTo_suffix]

/-- What is read of an argument without quotes. -/
def urlToken (arg : List Char) (u : List Char × UrlEnd × List Char) : Token × List Char :=
  match u with
  | (value, .closed, rest) => (.url (String.ofList value), rest)
  | (_, .bad, rest) =>
    (.badUrl (String.ofList (upTo arg rest ++ (readBadUrl rest).1)), (readBadUrl rest).2)

/-- The token of `url(`, unless the argument begins with a quote. -/
theorem readUrlToken_eq (cs : List Char) :
    readUrlToken cs =
      if (cs.dropWhile isSpace).head? = some '"' ∨ (cs.dropWhile isSpace).head? = some '\'' then
        none
      else some (urlToken (cs.dropWhile isSpace) (readUrl (cs.dropWhile isSpace))) := by
  rw [readUrlToken]
  refine if_congr Iff.rfl rfl ?_
  rcases readUrl (cs.dropWhile isSpace) with ⟨value, _ | _, rest⟩ <;> rfl

/-- The token is the same, since the rest of a bad argument is read in front of the mark, too. -/
theorem urlToken_append (hf : standsAlone f = true) (he : Border e) (u : List Char) :
    Keeps f r e (urlToken (u ++ f :: r) (readUrl (u ++ f :: r)))
      (urlToken (u ++ e) (readUrl (u ++ e))) := by
  have hkeep := readUrl_append (r := r) hf he u
  have hsuf := readUrl_suffix (u ++ f :: r)
  generalize readUrl (u ++ f :: r) = p, readUrl (u ++ e) = q at hkeep hsuf ⊢
  obtain ⟨value, k, rest⟩ := p
  intro v hv
  cases k with
  | closed =>
      obtain ⟨value', k', rest'⟩ := q
      cases hkeep v hv
      rfl
  -- a bad argument goes on to a parenthesis in front of the mark
  | bad =>
      have hv : (readBadUrl rest).2 = v ++ f :: r := hv
      obtain ⟨w, rfl, hw⟩ := exists_append (hv ▸ readBadUrl_suffix rest) hsuf
      obtain ⟨value', k', rest'⟩ := q
      cases hkeep w rfl
      have hbad := readBadUrl_append hf he w v hv
      rw [List.append_eq, urlToken, urlToken, upTo_append_right hw, upTo_append_right hw, hbad]

/-- A name with a parenthesis behind it is a function, or a `url(` with its argument. -/
theorem readNamed_paren {cs rest : List Char} (h : (readName cs).2 = '(' :: rest) :
    readNamed cs =
      if (readName cs).1.map Char.toLower = ['u', 'r', 'l'] then
        (readUrlToken rest).getD (.function (String.ofList (readName cs).1), rest)
      else (.function (String.ofList (readName cs).1), rest) := by
  simp only [readNamed, h]

/-- Any other name is an identifier. -/
theorem readNamed_ident {cs : List Char} (h : (readName cs).2.head? ≠ some '(') :
    readNamed cs = (.ident (String.ofList (readName cs).1), (readName cs).2) := by
  simp only [readNamed]
  split
  · next heq => rw [heq] at h; exact absurd rfl h
  · rfl

/-- What stands behind a name is not gone back over. -/
theorem readNamed_suffix (cs : List Char) : (readNamed cs).2 <:+ (readName cs).2 := by
  by_cases hp : (readName cs).2.head? = some '('
  · obtain ⟨rest, h⟩ := List.head?_eq_some_iff.1 hp
    rw [readNamed_paren h, h]
    refine List.IsSuffix.trans ?_ (List.suffix_cons _ _)
    split
    · cases hu : readUrlToken rest with
      | none => exact List.suffix_refl _
      | some t => exact readUrlToken_suffix hu
    · exact List.suffix_refl _
  · have hrest : (readNamed cs).2 = (readName cs).2 := congrArg Prod.snd (readNamed_ident hp)
    exact hrest ▸ List.suffix_refl _

/-- A name stops in front of any border, with what a parenthesis makes of it. -/
theorem readNamed_append (hf : standsAlone f = true) (he : Border e) (u : List Char) :
    Keeps f r e (readNamed (u ++ f :: r)) (readNamed (u ++ e)) := by
  intro v hv
  obtain ⟨w, hw, -⟩ := exists_append (hv ▸ readNamed_suffix _) (readName_suffix (u ++ f :: r))
  have hname := readName_append hf he u w hw
  have hw' : (readName (u ++ e)).2 = w ++ e := congrArg Prod.snd hname
  by_cases hp : w.head? = some '('
  · obtain ⟨w, rfl⟩ := List.head?_eq_some_iff.1 hp
    rw [List.cons_append] at hw hw'
    revert v
    show Keeps f r e _ _
    rw [readNamed_paren hw, readNamed_paren hw', hname]
    refine .ite Iff.rfl (fun _ => ?_) fun _ => .of_append rfl rfl
    have hhead : ∀ (e : List Char) (c : Char), Border e → standsAlone c = false →
        (((w ++ e).dropWhile isSpace).head? = some c ↔ (w.dropWhile isSpace).head? = some c) := by
      intro e c he hc
      rw [dropWhile_append rfl he, head?_append_eq hc he]
    have hr := border_cons hf r
    simp only [readUrlToken_eq, hhead e '"' he rfl, hhead e '\'' he rfl, hhead _ '"' hr rfl,
      hhead _ '\'' hr rfl]
    split
    · exact .of_append rfl rfl
    · rw [dropWhile_append rfl he, dropWhile_append rfl hr]
      exact urlToken_append hf he _
  · have hp' : ∀ e, Border e → (w ++ e).head? ≠ some '(' := fun e he =>
      mt (head?_append_eq rfl he w).1 hp
    rw [readNamed_ident (by rw [hw]; exact hp' _ (border_cons hf r)), hw] at hv
    obtain rfl : w = v := List.append_cancel_right hv
    rw [readNamed_ident (by rw [hw']; exact hp' e he),
      readNamed_ident (by rw [hw]; exact hp' _ (border_cons hf r)), hname]

/-- What follows a number sign ends in front of a border. -/
theorem readHash_append (hf : standsAlone f = true) (he : Border e) (u : List Char) :
    Keeps f r e (readHash (u ++ f :: r)) (readHash (u ++ e)) := by
  have hr := border_cons hf r
  simp only [readHash, startsName_append he, startsName_append hr,
    any_append (p := fun c => c.isDigit || c = '-') rfl he,
    any_append (p := fun c => c.isDigit || c = '-') rfl hr]
  refine .ite Iff.rfl (fun _ => ?_) fun _ => .ite Iff.rfl (fun _ => ?_) fun _ => .of_append rfl rfl
  · exact (readName_append hf he u).map fun n => Token.idHash (String.ofList n)
  · exact (readName_append hf he u).map fun n => Token.hash (String.ofList n)

theorem readAt_append (hf : standsAlone f = true) (he : Border e) (u : List Char) :
    Keeps f r e (readAt (u ++ f :: r)) (readAt (u ++ e)) := by
  simp only [readAt, startsName_append he, startsName_append (border_cons hf r)]
  refine .ite Iff.rfl (fun _ => ?_) fun _ => .of_append rfl rfl
  exact (readName_append hf he u).map fun n => Token.atKeyword (String.ofList n)

/-- The character and what follows it are a mark of more than one character. -/
def LongMark (c : Char) (cs : List Char) : Prop :=
  c = '<' ∧ ['!', '-', '-'] <+: cs ∨ c ∈ ['~', '|', '^', '$', '*'] ∧ ['='] <+: cs

/-- A mark that is not long takes no more than its character. -/
theorem readMark_single {c : Char} {cs : List Char} (h : ¬LongMark c cs) :
    readMark c cs = ((readMark c []).1, cs) := by
  have eq : ∀ ds, c ∈ ['~', '|', '^', '$', '*'] → cs ≠ '=' :: ds := fun ds hc e =>
    h (.inr ⟨hc, e ▸ ⟨ds, rfl⟩⟩)
  unfold readMark
  split
  · exact absurd (.inl ⟨rfl, _, rfl⟩) h
  iterate 5 exact absurd rfl (eq _ (by simp))
  iterate 9 rfl
  have e : readMark c [] = (.delim c, []) := by
    rw [readMark] <;> first | assumption | (intro _ _ h; cases h)
  exact congrArg (fun t : Token × List Char => (t.1, cs)) e.symm

/-- A mark in front of a border is the same whatever the border. -/
theorem readMark_append (he : Border e) (c : Char) (u : List Char) :
    readMark c (u ++ e) = ((readMark c u).1, (readMark c u).2 ++ e) := by
  have long : LongMark c (u ++ e) ↔ LongMark c u :=
    or_congr (and_congr_right fun _ => prefix_append rfl he u)
      (and_congr_right fun _ => prefix_append rfl he u)
  by_cases hl : LongMark c u
  · obtain ⟨rfl, ds, rfl⟩ | ⟨hc, ds, rfl⟩ := hl
    · rfl
    · simp only [List.mem_cons, List.not_mem_nil, or_false] at hc
      rcases hc with rfl | rfl | rfl | rfl | rfl <;> rfl
  · rw [readMark_single hl, readMark_single (mt long.1 hl)]

theorem read_mark {c : Char} (h : standsAlone c = true) (cs : List Char) :
    read c cs = ((read c []).1, cs) := by
  rcases standsAlone_cases h with rfl | rfl | rfl | rfl | rfl <;> rfl

/-- The token of a string that stops in front of the mark is the same. -/
theorem stringToken_append {quote : Char} (hq : standsAlone quote = false)
    (hf : standsAlone f = true) (he : Border e) (u : List Char) :
    Keeps f r e (stringToken (readString quote (u ++ f :: r)))
      (stringToken (readString quote (u ++ e))) :=
  (readString_append hq hf he u).map fun s =>
    if s.2 then Token.string (String.ofList s.1) else .badString (String.ofList s.1)

/-- A token that leaves the mark behind the text is the same token in front of any other border. -/
theorem read_append (hf : standsAlone f = true) (he : Border e) (c : Char) (u : List Char) :
    Keeps f r e (read c (u ++ f :: r)) (read c (u ++ e)) := by
  have hr := border_cons hf r
  -- what the branches of `read` are chosen by
  have htake : ∀ e, Border e → ((u ++ e).take 2 = ['-', '>'] ↔ u.take 2 = ['-', '>']) := by
    intro e he
    have := prefix_append (w := ['-', '>']) rfl he u
    rwa [List.prefix_iff_eq_take, List.prefix_iff_eq_take, eq_comm, eq_comm (a := ['-', '>'])]
      at this
  have hnum : ∀ e, Border e → startsNumeral (c :: (u ++ e)) = startsNumeral (c :: u) :=
    fun e he => startsNumeral_append he (c :: u)
  have hname : ∀ e, Border e → startsName (c :: (u ++ e)) = startsName (c :: u) :=
    fun e he => startsName_append he (c :: u)
  have hstar : ∀ e, Border e → ((u ++ e).head? = some '*' ↔ u.head? = some '*') :=
    fun e he => head?_append_eq rfl he u
  unfold read
  refine .ite Iff.rfl (fun _ => ?_) fun _ => ?_
  · rw [takeWhile_append rfl he, takeWhile_append rfl hr, dropWhile_append rfl he,
      dropWhile_append rfl hr]
    exact .of_append rfl rfl
  refine .ite Iff.rfl (fun hq => stringToken_append ?_ hf he u) fun _ => ?_
  · rcases (by simpa using hq : c = '"' ∨ c = '\'') with rfl | rfl <;> rfl
  refine .ite (by rw [hnum e he, hnum _ hr]) (fun _ => readNumeric_append hf he (c :: u)) fun _ => ?_
  refine .ite (by simp only [Bool.and_eq_true, decide_eq_true_eq, htake e he, htake _ hr])
    (fun hd => ?_) fun _ => ?_
  · have hd := (by simpa using hd : c = '-' ∧ (u ++ f :: r).take 2 = ['-', '>']).2
    obtain ⟨ds, rfl⟩ : ['-', '>'] <+: u := List.prefix_iff_eq_take.2 ((htake _ hr).1 hd).symm
    exact .of_append (v := ds) rfl rfl
  refine .ite (by rw [hname e he, hname _ hr]) (fun _ => readNamed_append hf he (c :: u))
    fun _ => ?_
  refine .ite Iff.rfl (fun _ => readHash_append hf he u) fun _ => ?_
  refine .ite Iff.rfl (fun _ => readAt_append hf he u) fun _ => ?_
  refine .ite (by simp only [Bool.and_eq_true, decide_eq_true_eq, hstar e he, hstar _ hr])
    (fun hm => ?_) fun _ => .of_append (readMark_append hr c u) (readMark_append he c u)
  have hm := (by simpa using hm : c = '/' ∧ (u ++ f :: r).head? = some '*').2
  obtain ⟨ds, rfl⟩ := List.head?_eq_some_iff.1 ((hstar _ hr).1 hm)
  exact (readComment_append hf he ds).map fun t => Token.comment (String.ofList t)

end Tokens

end CssPrune.Token

namespace CssPrune.Lexeme

open Token (standsAlone Border border_nil border_cons)

/-- A mark as a lexeme. -/
def mark (c : Char) : Lexeme := ⟨(Token.read c []).1, [c]⟩

theorem scan_nil : scan [] = [] := by rw [scan]

/-- The first lexeme is the first token with its text; then the rest is cut. -/
theorem scan_cons (c : Char) (cs : List Char) :
    scan (c :: cs) =
      ⟨(Token.read c cs).1, Token.upTo (c :: cs) (Token.read c cs).2⟩ :: scan (Token.read c cs).2 := by
  rw [scan]

/-- A mark that stands alone is a lexeme of its own. -/
theorem scan_mark {c : Char} (h : standsAlone c = true) (cs : List Char) :
    scan (c :: cs) = mark c :: scan cs := by
  rw [scan_cons, Token.read_mark h]
  rw [show Token.upTo (c :: cs) cs = [c] from Token.upTo_suffix [c] cs]
  rfl

/-- The first lexeme of a text, and where it stops. -/
theorem scan_eq_cons {cs : List Char} {x : Lexeme} {xs : List Lexeme} (h : scan cs = x :: xs) :
    ∃ c u, x.text = c :: u ∧ cs = c :: (u ++ textOf xs) ∧
      Token.read c (u ++ textOf xs) = (x.token, textOf xs) ∧ scan (textOf xs) = xs := by
  cases cs with
  | nil => rw [scan_nil] at h; cases h
  | cons c cs =>
      rw [scan_cons] at h
      obtain ⟨rfl, rfl⟩ := List.cons.inj h
      obtain ⟨u, hu⟩ := Token.read_suffix c cs
      have hup := Token.upTo_suffix (c :: u) (Token.read c cs).2
      rw [List.cons_append, hu] at hup
      rw [textOf_scan]
      exact ⟨c, u, hup, congrArg (c :: ·) hu.symm, by rw [hu], rfl⟩

theorem textOf_append (xs ys : List Lexeme) : textOf (xs ++ ys) = textOf xs ++ textOf ys :=
  List.flatMap_append

/-- What is left of a text behind its first lexemes. -/
theorem textOf_behind {x y : List Char} {xs ys : List Lexeme} (h : scan (x ++ y) = xs ++ ys)
    (hx : textOf xs = x) : textOf ys = y := by
  have := textOf_scan (x ++ y)
  rw [h, textOf_append, hx] at this
  exact List.append_cancel_left this

/-- Lexemes that end in front of a mark are those in front of any other border. -/
theorem scan_border {x r e : List Char} {f : Char} {xs ys : List Lexeme}
    (hf : standsAlone f = true) (he : Border e) (h : scan (x ++ f :: r) = xs ++ ys)
    (hx : textOf xs = x) : scan (x ++ e) = xs ++ scan e := by
  induction xs generalizing x with
  | nil => subst hx; rfl
  | cons y xs ih =>
      have hys : textOf ys = f :: r := textOf_behind h hx
      rw [List.cons_append] at h
      obtain ⟨c, u, htext, -, hread, hscan⟩ := scan_eq_cons h
      rw [textOf_append, hys, ← List.append_assoc] at hread
      have hkeep := Token.read_append hf he c (u ++ textOf xs) (textOf xs) (by rw [hread])
      rw [hread] at hkeep
      rw [textOf_append, hys] at hscan
      have hy : x = c :: (u ++ textOf xs) := by
        rw [← hx]
        show y.text ++ textOf xs = _
        rw [htext]; rfl
      have hup := Token.upTo_suffix (c :: u) (textOf xs ++ e)
      rw [List.cons_append] at hup
      rw [hy, List.cons_append, scan_cons, hkeep, List.append_assoc, hup, ih hscan rfl, ← htext]
      rfl

/-- The lexemes behind a lexeme are those of the text behind it. -/
theorem scan_suffix {x y : List Char} {xs ys : List Lexeme} (h : scan (x ++ y) = xs ++ ys)
    (hx : textOf xs = x) : scan y = ys := by
  have hy : textOf ys = y := textOf_behind h hx
  induction xs generalizing x with
  | nil => subst hx; exact h
  | cons z xs ih =>
      rw [List.cons_append] at h
      obtain ⟨-, -, -, -, -, hscan⟩ := scan_eq_cons h
      rw [textOf_append, hy] at hscan
      exact ih hscan rfl

/-- A text whose lexemes end with the mark behind it has the same lexemes in front of that mark
whatever comes after. -/
theorem scan_append {x : List Char} {c : Char} {xs : List Lexeme} (h : standsAlone c = true)
    (hx : scan (x ++ [c]) = xs ++ [mark c]) (r : List Char) :
    scan (x ++ c :: r) = xs ++ mark c :: scan r := by
  have htext : textOf xs = x := by
    have := textOf_scan (x ++ [c])
    rw [hx, textOf_append] at this
    exact List.append_cancel_right this
  rw [scan_border h (border_cons h r) hx htext, scan_mark h]

end CssPrune.Lexeme
