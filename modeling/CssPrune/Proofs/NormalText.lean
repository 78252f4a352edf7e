import CssPrune.Rule
import CssPrune.Token.Name
import Mathlib.Data.List.Basic
import Mathlib.Data.List.TakeWhile

/-!
# Normal text stays normal

* `normalize_normalize`: squeezing a text that has been squeezed changes nothing.
* `normalize_blanks`: blanks in front of a text do not count.
* `Trimmed.normalize`: a text without blank ends has none after squeezing, either.
* `splitImportant_written`: a value and its mark, written behind blanks, are told apart again.
-/

namespace CssPrune.Text

/-! ### Blanks -/

theorem isBlank_of_isSpace {c : Char} (h : Token.isSpace c = true) : isBlank c = true := by
  simp only [Token.isSpace, Token.isNewline, Bool.or_eq_true, decide_eq_true_eq] at h
  rcases h with (rfl | rfl) | (rfl | rfl) | rfl <;> rfl

theorem not_isBlank_of_isQuote {c : Char} (h : isQuote c = true) : isBlank c = false := by
  simp only [isQuote, Bool.or_eq_true, decide_eq_true_eq] at h
  rcases h with rfl | rfl <;> rfl

theorem not_isQuote_of_isBlank {c : Char} (h : isBlank c = true) : isQuote c = false := by
  cases hq : isQuote c with
  | false => rfl
  | true => rw [not_isBlank_of_isQuote hq] at h; cases h

/-- Every blank is the space or lies outside of the visible characters of ASCII. -/
theorem not_isBlank_of_code {c : Char} (lo : 32 < c.toNat) (hi : c.toNat < 127) :
    isBlank c = false := by
  by_contra hb
  rw [Bool.not_eq_false] at hb
  simp only [isBlank, Bool.or_eq_true, Bool.and_eq_true, decide_eq_true_eq, Char.le_def,
    UInt32.le_iff_toNat_le] at hb
  have : c.toNat = c.val.toNat := rfl
  have : '\r'.val.toNat = 13 := rfl
  have : '\u2000'.val.toNat = 8192 := rfl
  rcases hb with (((((((((hb | rfl) | rfl) | rfl) | rfl) | hb) | rfl) | rfl) | rfl) | rfl) | rfl
  all_goals first | omega | revert lo hi; decide

theorem not_isBlank_of_isAlpha {c : Char} (h : c.isAlpha = true) : isBlank c = false := by
  rw [isAlpha_iff, isUpper_iff, isLower_iff] at h
  exact not_isBlank_of_code (by omega) (by omega)

/-! ### Squeezing twice -/

/-- Comments are gone from a squeezed text. -/
def Within.squeezed : Within → Within
  | .plain | .opening | .comment _ => .plain
  | .quoted quote escaped => .quoted quote escaped

/-- The space that is owed has been written. -/
def Written.squeezed : Written → Written
  | .nothing => .nothing
  | .flush | .owing => .flush

theorem Written.squeezed_gap (written : Written) : written.gap.squeezed = written.squeezed := by
  cases written <;> rfl

/-- The text opens a comment. -/
def OpensComment (c : Char) (cs : List Char) : Prop := c = '/' ∧ cs.head? = some '*'

section Squeeze

variable {written : Written} {c : Char} {cs : List Char}

/-- A blank leaves at most the space that is owed from now on. -/
theorem squeeze_blank (h : isBlank c = true) :
    squeeze .plain written (c :: cs) = squeeze .plain written.gap cs := by
  have hs : ¬(c = '/' ∧ cs.head? = some '*') := by
    rintro ⟨rfl, -⟩; cases h
  simp only [squeeze, not_isQuote_of_isBlank h, hs, h, if_true, if_false, Bool.false_eq_true]

theorem squeeze_opening (h : OpensComment c cs) :
    squeeze .plain written (c :: cs) = squeeze .opening written.gap cs := by
  obtain ⟨rfl, hs⟩ := h
  simp only [squeeze, hs, isQuote]
  rfl

/-- Any other character is written, behind the space that is owed; a quote opens a string. -/
theorem squeeze_visible (hb : isBlank c = false) (hs : ¬OpensComment c cs) :
    squeeze .plain written (c :: cs) =
      written.space ++ c :: squeeze (if isQuote c then .quoted c false else .plain) .flush cs := by
  have hb' : ¬isBlank c = true := Bool.not_eq_true _ ▸ hb
  rw [squeeze]
  cases hq : isQuote c with
  | true => rfl
  | false => exact (if_neg Bool.false_ne_true).trans ((if_neg hs).trans (if_neg hb'))

/-- In a string every character is written, whatever has been written before; only its own quote can
end it. -/
theorem squeeze_quoted (quote : Char) (escaped : Bool) :
    ∃ within, (within = .plain ∧ c = quote ∨ ∃ e, within = .quoted quote e) ∧
      ∀ written cs, squeeze (.quoted quote escaped) written (c :: cs) =
        c :: squeeze within .flush cs := by
  by_cases he : escaped = true
  · exact ⟨.quoted quote false, .inr ⟨_, rfl⟩, fun _ _ => by rw [squeeze, if_pos he]⟩
  by_cases hb : c = '\\'
  · exact ⟨.quoted quote true, .inr ⟨_, rfl⟩, fun _ _ => by rw [squeeze, if_neg he, if_pos hb]⟩
  by_cases hq : c = quote
  · exact ⟨.plain, .inl ⟨rfl, hq⟩, fun _ _ => by rw [squeeze, if_neg he, if_neg hb, if_pos hq]⟩
  · exact ⟨.quoted quote false, .inr ⟨_, rfl⟩, fun _ _ => by
      rw [squeeze, if_neg he, if_neg hb, if_neg hq]⟩

end Squeeze

/-- Nothing that stands for itself only in some places: no blank, no quote, no slash. -/
def isSteady (c : Char) : Bool := !isBlank c && !isQuote c && c != '/' && c != '\\'

theorem isSteady_iff {c : Char} : isSteady c = true ↔
    isBlank c = false ∧ isQuote c = false ∧ c ≠ '/' ∧ c ≠ '\\' := by
  simp [isSteady, and_assoc]

/-- Steady characters are written as they are. -/
theorem squeeze_steady {x : List Char} (h : x.all isSteady = true) (y : List Char) :
    squeeze .plain .flush (x ++ y) = x ++ squeeze .plain .flush y := by
  induction x with
  | nil => rfl
  | cons c x ih =>
      rw [List.all_cons, Bool.and_eq_true] at h
      obtain ⟨hb, hq, hs, -⟩ := isSteady_iff.1 h.1
      rw [List.cons_append, squeeze_visible hb fun e => hs e.1, hq, if_neg Bool.false_ne_true,
        ih h.2]
      rfl

theorem squeeze_backslash (y : List Char) :
    squeeze .plain .flush ('\\' :: y) = '\\' :: squeeze .plain .flush y :=
  squeeze_visible rfl fun e => by cases e.1

/-- Steady characters go on with a string that they stand in. -/
theorem squeeze_quoted_steady {q : Char} (hq : isQuote q = true) {x : List Char}
    (h : x.all isSteady = true) (y : List Char) (w : Written) :
    squeeze (.quoted q false) w (x ++ y) = x ++ squeeze (.quoted q false) .flush y := by
  have any : ∀ w, squeeze (.quoted q false) w y = squeeze (.quoted q false) .flush y := by
    intro w
    cases y <;> rfl
  induction x generalizing w with
  | nil => exact any w
  | cons c x ih =>
      rw [List.all_cons, Bool.and_eq_true] at h
      obtain ⟨-, hc, -, hb⟩ := isSteady_iff.1 h.1
      have hne : c ≠ q := by rintro rfl; rw [hq] at hc; cases hc
      rw [List.cons_append, squeeze, if_neg Bool.false_ne_true, if_neg hb, if_neg hne, ih h.2]
      rfl

/-- Blanks and comments in front are gone: what is left starts with a visible character, behind the
space if one is owed. -/
theorem squeeze_of_gap {within : Within} (h : within.squeezed = .plain) (written : Written)
    (hw : written.gap = written) (cs : List Char) :
    squeeze within written cs = [] ∨
      ∃ c o, isBlank c = false ∧ squeeze within written cs = written.space ++ c :: o := by
  induction cs generalizing within with
  | nil => cases within <;> exact .inl rfl
  | cons d ds ih =>
      cases within with
      | plain =>
          by_cases hb : isBlank d = true
          · rw [squeeze_blank hb, hw]; exact ih rfl
          by_cases hs : OpensComment d ds
          · rw [squeeze_opening hs, hw]; exact ih rfl
          have hb : isBlank d = false := Bool.not_eq_true _ ▸ hb
          exact .inr ⟨d, _, hb, squeeze_visible hb hs⟩
      | quoted quote escaped => cases h
      | opening => exact ih rfl
      | comment star =>
          rw [squeeze]
          split <;> exact ih rfl

/-- Where a space is owed, nothing comes before it. -/
theorem head?_squeeze_owing {within : Within} (h : within.squeezed = .plain) (cs : List Char) :
    ∀ c ∈ (squeeze within .owing cs).head?, c = ' ' := by
  intro c hc
  obtain he | ⟨d, o, -, he⟩ := squeeze_of_gap h .owing rfl cs
  · rw [he] at hc; cases hc
  · rw [he] at hc; exact (Option.some.inj hc).symm

/-- A star at the head of a squeezed text stands at the head of the text itself, so squeezing makes
no comment. -/
theorem head?_squeeze_flush {cs : List Char} (h : (squeeze .plain .flush cs).head? = some '*') :
    cs.head? = some '*' := by
  cases cs with
  | nil => cases h
  | cons c cs =>
      by_cases hb : isBlank c = true
      · rw [squeeze_blank hb] at h
        cases head?_squeeze_owing rfl cs _ h
      by_cases hs : OpensComment c cs
      · rw [squeeze_opening hs] at h
        cases head?_squeeze_owing rfl cs _ h
      · rwa [squeeze_visible (Bool.not_eq_true _ ▸ hb) hs] at h

/-- Squeezing what has been squeezed changes nothing, from wherever the text is taken up. -/
theorem squeeze_squeeze (within : Within) (written : Written) (cs : List Char) :
    squeeze within.squeezed written.squeezed (squeeze within written cs) =
      squeeze within written cs := by
  induction cs generalizing within written with
  | nil => cases within <;> cases written <;> rfl
  | cons c cs ih =>
      cases within with
      | plain =>
          by_cases hb : isBlank c = true
          · rw [squeeze_blank hb, ← Written.squeezed_gap]; exact ih .plain _
          by_cases hs : OpensComment c cs
          · rw [squeeze_opening hs, ← Written.squeezed_gap]; exact ih .opening _
          have hb : isBlank c = false := Bool.not_eq_true _ ▸ hb
          rw [squeeze_visible hb hs]
          -- a visible character comes out as it is, and opens no comment in what comes out
          have hrest := ih (if isQuote c then .quoted c false else .plain) .flush
          have hs' : ¬OpensComment c
              (squeeze (if isQuote c then .quoted c false else .plain) .flush cs) := by
            rintro ⟨rfl, hstar⟩
            exact hs ⟨rfl, head?_squeeze_flush hstar⟩
          have hq : (if isQuote c then Within.quoted c false else .plain).squeezed =
              if isQuote c then .quoted c false else .plain := by
            split <;> rfl
          rw [hq] at hrest
          -- the space that is owed is written once, in front of it
          cases written with
          | nothing => exact (squeeze_visible hb hs').trans (congrArg (c :: ·) hrest)
          | flush => exact (squeeze_visible hb hs').trans (congrArg (c :: ·) hrest)
          | owing =>
              exact (squeeze_blank rfl).trans
                ((squeeze_visible hb hs').trans (congrArg (fun o => ' ' :: c :: o) hrest))
      -- within quotes every character is kept
      | quoted quote escaped =>
          obtain ⟨next, hnext, hstep⟩ := squeeze_quoted (c := c) quote escaped
          have hsq : next.squeezed = next := by
            obtain ⟨rfl, -⟩ | ⟨e, rfl⟩ := hnext <;> rfl
          have hrest := ih next .flush
          rw [hsq] at hrest
          rw [hstep]
          exact (hstep _ _).trans (congrArg (c :: ·) hrest)
      -- a comment leaves nothing behind
      | opening => exact ih (.comment false) written
      | comment star =>
          rw [squeeze]
          split
          · exact ih .plain written
          · exact ih (.comment (c = '*')) written

/-- A normal text is its own normal form. -/
theorem normalize_normalize (raw : List Char) : normalize (normalize raw) = normalize raw :=
  squeeze_squeeze .plain .nothing raw

/-! ### Blank ends -/

/-- Blanks in front of a text do not count. -/
theorem normalize_blanks {s : List Char} (hs : s.all isBlank = true) (x : List Char) :
    normalize (s ++ x) = normalize x := by
  induction s with
  | nil => rfl
  | cons c s ih =>
      rw [List.all_cons, Bool.and_eq_true] at hs
      exact (squeeze_blank hs.1).trans (ih hs.2)

/-- Neither end is blank. -/
def Trimmed (x : List Char) : Prop :=
  (∀ c ∈ x.head?, isBlank c = false) ∧ ∀ c ∈ x.getLast?, isBlank c = false

/-- At the head of a text no blank is written. -/
theorem head?_squeeze_nothing {within : Within} (h : within.squeezed = .plain) (cs : List Char) :
    ∀ c ∈ (squeeze within .nothing cs).head?, isBlank c = false := by
  intro c hc
  obtain he | ⟨d, o, hd, he⟩ := squeeze_of_gap h .nothing rfl cs
  · rw [he] at hc; cases hc
  · rw [he] at hc; exact Option.some.inj hc ▸ hd

/-- The quotes that strings stand in are not blank. -/
def Within.Visible (within : Within) : Prop := ∀ q e, within = .quoted q e → isBlank q = false

theorem Within.Visible.of_squeezed {within : Within} (h : within.squeezed = .plain) :
    within.Visible := by
  rintro q e rfl; cases h

/-- What stands in a string is not lost. -/
theorem squeeze_quoted_ne_nil (quote : Char) (escaped : Bool) (written : Written) {cs : List Char}
    (h : cs ≠ []) : squeeze (.quoted quote escaped) written cs ≠ [] := by
  cases cs with
  | nil => exact absurd rfl h
  | cons c cs =>
      obtain ⟨next, -, hstep⟩ := squeeze_quoted (c := c) quote escaped
      rw [hstep]; exact List.cons_ne_nil _ _

/-- The last character is the last one of what follows it, or itself if nothing does. -/
theorem getLast?_cons_of {p : Char → Prop} {c : Char} {o : List Char}
    (ho : ∀ d ∈ o.getLast?, p d) (hc : o = [] → p c) : ∀ d ∈ (c :: o).getLast?, p d := by
  cases o with
  | nil => exact fun d hd => Option.some.inj hd ▸ hc rfl
  | cons e o => rwa [List.getLast?_cons_cons]

/-- A text whose last character is visible keeps it. -/
theorem getLast?_squeeze {within : Within} (hw : within.Visible) (written : Written)
    {cs : List Char} (h : ∀ c ∈ cs.getLast?, isBlank c = false) :
    ∀ c ∈ (squeeze within written cs).getLast?, isBlank c = false := by
  induction cs generalizing within written with
  | nil => cases within <;> intro _ h <;> cases h
  | cons c cs ih =>
      have hcs : ∀ d ∈ cs.getLast?, isBlank d = false := by
        intro d hd
        cases cs with
        | nil => cases hd
        | cons e cs => exact h d (by rwa [List.getLast?_cons_cons])
      cases within with
      | plain =>
          by_cases hb : isBlank c = true
          · rw [squeeze_blank hb]; exact ih hw _ hcs
          by_cases hs : OpensComment c cs
          · rw [squeeze_opening hs]; exact ih (.of_squeezed rfl) _ hcs
          have hb : isBlank c = false := Bool.not_eq_true _ ▸ hb
          rw [squeeze_visible hb hs, List.getLast?_append_of_ne_nil _ (List.cons_ne_nil _ _)]
          refine getLast?_cons_of (ih ?_ _ hcs) fun _ => hb
          split
          · rintro q e ⟨⟩; exact hb
          · exact .of_squeezed rfl
      -- the last character may be the quote, or one that an escape in the quotes keeps
      | quoted quote escaped =>
          obtain ⟨next, hnext, hstep⟩ := squeeze_quoted (c := c) quote escaped
          rw [hstep]
          obtain ⟨rfl, rfl⟩ | ⟨e, rfl⟩ := hnext
          · exact getLast?_cons_of (ih (.of_squeezed rfl) _ hcs) fun _ => hw _ _ rfl
          · refine getLast?_cons_of (ih (fun q _ e => by cases e; exact hw _ _ rfl) _ hcs) fun h0 => ?_
            by_cases hn : cs = []
            · subst hn; exact h c rfl
            · exact absurd h0 (squeeze_quoted_ne_nil _ _ _ hn)
      | opening => exact ih (.of_squeezed rfl) written hcs
      | comment star =>
          rw [squeeze]
          split <;> exact ih (.of_squeezed rfl) written hcs

theorem Trimmed.normalize {x : List Char} (h : Trimmed x) : Trimmed (normalize x) :=
  ⟨head?_squeeze_nothing rfl x, getLast?_squeeze (.of_squeezed rfl) _ h.2⟩

theorem trimStart_of {x : List Char} (h : ∀ c ∈ x.head?, isBlank c = false) : trimStart x = x := by
  cases x with
  | nil => rfl
  | cons c x => exact List.dropWhile_cons_of_neg (by rw [h c rfl]; decide)

theorem trimEnd_of {x : List Char} (h : ∀ c ∈ x.getLast?, isBlank c = false) : trimEnd x = x := by
  have := trimStart_of (x := x.reverse) (by rwa [List.head?_reverse])
  rw [trimStart] at this
  rw [trimEnd, this, List.reverse_reverse]

theorem Trimmed.trim {x : List Char} (h : Trimmed x) : trim x = x := by
  rw [Text.trim, trimStart_of h.1, trimEnd_of h.2]

theorem trimStart_blanks {s : List Char} (hs : s.all isBlank = true) (x : List Char) :
    trimStart (s ++ x) = trimStart x :=
  List.dropWhile_append_of_pos (List.all_eq_true.1 hs)

theorem trimEnd_blanks {s : List Char} (hs : s.all isBlank = true) (x : List Char) :
    trimEnd (x ++ s) = trimEnd x := by
  have hs' : ∀ c ∈ s.reverse, isBlank c = true := fun c hc =>
    List.all_eq_true.1 hs c (List.mem_reverse.1 hc)
  rw [trimEnd, trimEnd, List.reverse_append, List.dropWhile_append_of_pos hs']

theorem trim_blanks {s : List Char} (hs : s.all isBlank = true) (x : List Char) :
    trim (s ++ x) = trim x := by
  rw [trim, trim, trimStart_blanks hs]

/-- What is left begins with a visible character. -/
theorem head?_trimStart (x : List Char) : ∀ c ∈ (trimStart x).head?, isBlank c = false := by
  have := List.head?_dropWhile_not isBlank x
  intro c hc
  rw [trimStart] at hc
  rw [hc] at this
  simpa using this

theorem trimEnd_isPrefix (x : List Char) : trimEnd x <+: x := by
  have := List.dropWhile_suffix (l := x.reverse) isBlank
  rwa [← List.reverse_prefix, List.reverse_reverse] at this

theorem getLast?_trimEnd (x : List Char) : ∀ c ∈ (trimEnd x).getLast?, isBlank c = false := by
  rw [trimEnd, List.getLast?_reverse]
  exact head?_trimStart x.reverse

theorem head?_of_isPrefix {x y : List Char} (h : x <+: y) : ∀ c ∈ x.head?, c ∈ y.head? := by
  obtain ⟨t, rfl⟩ := h
  cases x with
  | nil => intro _ h; cases h
  | cons d x => exact fun c hc => hc

/-- Trimming leaves no blank end. -/
theorem trimmed_trim (x : List Char) : Trimmed (trim x) :=
  ⟨fun c hc => head?_trimStart x c (head?_of_isPrefix (trimEnd_isPrefix _) c hc), getLast?_trimEnd _⟩

theorem Trimmed.trimEnd {x : List Char} (h : ∀ c ∈ x.head?, isBlank c = false) :
    Trimmed (trimEnd x) :=
  ⟨fun c hc => h c (head?_of_isPrefix (trimEnd_isPrefix x) c hc), getLast?_trimEnd x⟩

end CssPrune.Text

/-! ### Values -/

namespace CssPrune.Declaration

open Text

/-- What the declaration's value and mark look like. -/
def written (d : Declaration) : List Char :=
  d.value.toList ++ if d.important then ' ' :: importantMark else []

/-- The value is a text that squeezing keeps, without blank ends. -/
def NormalValue (v : List Char) : Prop := Text.normalize v = v ∧ Trimmed v

theorem normalValue_normalize {x : List Char} (h : Trimmed x) : NormalValue (Text.normalize x) :=
  ⟨normalize_normalize x, h.normalize⟩

/-- Whatever text a value is read from, it is normal. -/
theorem splitImportant_normal (raw : List Char) : NormalValue (splitImportant raw).1 := by
  rw [splitImportant]
  simp only
  split
  · refine normalValue_normalize (Trimmed.trimEnd fun c hc => ?_)
    exact (trimmed_trim raw).1 c (head?_of_isPrefix (List.take_prefix _ _) c hc)
  · exact normalValue_normalize (trimmed_trim raw)

/-- A mark at the end of the text, blanks aside, is taken off. -/
theorem splitImportant_of_trim {raw v : List Char} (h : Text.trim raw = v ++ importantMark) :
    splitImportant raw = (Text.normalize (Text.trimEnd v), true) := by
  have hm : importantMark.isSuffixOf (v ++ importantMark) = true :=
    List.isSuffixOf_iff_suffix.2 (List.suffix_append _ _)
  simp only [splitImportant, h, hm, if_true, List.length_append, Nat.add_sub_cancel,
    List.take_left']

/-- A normal value is told apart from the mark behind it. -/
theorem splitImportant_marked {s v : List Char} (hs : s.all isBlank = true) (hv : NormalValue v) :
    splitImportant (s ++ (v ++ ' ' :: importantMark)) = (v, true) := by
  cases v with
  | nil => exact splitImportant_of_trim (v := []) (by rw [trim_blanks hs]; rfl)
  | cons c v =>
      have ht : Trimmed (c :: v ++ ' ' :: importantMark) := by
        refine ⟨hv.2.1, ?_⟩
        rw [List.getLast?_append_of_ne_nil _ (List.cons_ne_nil _ _)]
        intro d hd
        obtain rfl : 't' = d := Option.some.inj hd
        rfl
      have htrim : Text.trim (s ++ (c :: v ++ ' ' :: importantMark)) =
          (c :: v ++ [' ']) ++ importantMark := by
        rw [trim_blanks hs, ht.trim, List.append_assoc]; rfl
      rw [splitImportant_of_trim htrim, trimEnd_blanks rfl, trimEnd_of hv.2.2, hv.1]

/-- A value without a mark is read back unless it ends in what looks like one. -/
theorem splitImportant_unmarked {s v : List Char} (hs : s.all isBlank = true) (hv : NormalValue v)
    (hm : importantMark.isSuffixOf v = false) : splitImportant (s ++ v) = (v, false) := by
  rw [splitImportant, trim_blanks hs, hv.2.trim, hm, hv.1]; rfl

/-- The value and the mark of a declaration are told apart again, whatever blanks stand in front. -/
theorem splitImportant_written {s : List Char} {d : Declaration} (hs : s.all isBlank = true)
    (hv : NormalValue d.value.toList)
    (hm : d.important = false → importantMark.isSuffixOf d.value.toList = false) :
    splitImportant (s ++ d.written) = (d.value.toList, d.important) := by
  rw [written]
  cases hi : d.important with
  | true => exact splitImportant_marked hs hv
  | false =>
      rw [if_neg Bool.false_ne_true, List.append_nil]
      exact splitImportant_unmarked hs hv (hm hi)

end CssPrune.Declaration
