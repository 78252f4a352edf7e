import CssPrune.Proofs.Hooks
import CssPrune.Proofs.Pieces
import CssPrune.Proofs.PlainText

/-!
# Reading squeezed text

What the token readers make of a text in which the gaps have been squeezed.  Squeezing keeps visible
characters and strings, and leaves at most one space for a gap (`flush_eq`); a run of digits or a mark
is therefore read from the squeezed text as from the text itself.
-/

namespace CssPrune.Text

open Token (isSpace isHexDigit startsNewline startsDigit startsUnsigned readDigits readSign
  readFraction readExponent readNumeral readMark)

/-! ### Gaps -/

theorem not_isSpace_of_not_isBlank {c : Char} (h : isBlank c = false) : isSpace c = false := by
  by_contra hs
  rw [isBlank_of_isSpace ((Bool.not_eq_false _).mp hs)] at h
  cases h

/-- The normal form of a text that stands behind something visible. -/
def flush (cs : List Char) : List Char := squeeze .plain .flush cs

/-- A blank or a comment comes first. -/
def startsGap : List Char → Bool
  | [] => false
  | c :: cs => isBlank c || (c = '/' && cs.head? = some '*')

section Gaps

variable {c : Char} {cs : List Char}

theorem startsGap_iff : startsGap (c :: cs) = true ↔ isBlank c = true ∨ OpensComment c cs := by
  simp [startsGap, OpensComment]

/-- A visible character behind a visible one is kept, and the rest is written behind it. -/
theorem flush_visible (hb : isBlank c = false) (hq : isQuote c = false) (hs : ¬OpensComment c cs) :
    flush (c :: cs) = c :: flush cs := by
  rw [flush, squeeze_visible hb hs, if_neg (by rw [hq]; exact Bool.false_ne_true)]
  rfl

theorem flush_steady (h : isSteady c = true) (cs : List Char) : flush (c :: cs) = c :: flush cs := by
  obtain ⟨hb, hq, hs, -⟩ := isSteady_iff.1 h
  exact flush_visible hb hq fun e => hs e.1

/-- A space that is owed is written in front of the next piece, or never. -/
theorem lay_owing (ps : List Piece) :
    lay .nothing ps = [] ∧ lay .owing ps = [] ∨ lay .owing ps = ' ' :: lay .nothing ps := by
  induction ps with
  | nil => exact .inl ⟨rfl, rfl⟩
  | cons p ps ih =>
      rw [lay, lay]
      split
      · exact ih
      · exact .inr rfl

/-- Where a space is owed, it stands in front of the normal form if there is one. -/
theorem squeeze_owing_eq (cs : List Char) :
    normalize cs = [] ∧ squeeze .plain .owing cs = [] ∨
      squeeze .plain .owing cs = ' ' :: normalize cs := by
  rw [normalize, squeeze_eq_lay, squeeze_eq_lay]
  exact lay_owing _

/-- In front of a gap a space is owed. -/
theorem flush_of_startsGap (h : startsGap cs = true) : flush cs = squeeze .plain .owing cs := by
  cases cs with
  | nil => rfl
  | cons c cs =>
      rw [flush]
      rcases startsGap_iff.1 h with hb | hs
      · rw [squeeze_blank hb, squeeze_blank hb]; rfl
      · rw [squeeze_opening hs, squeeze_opening hs]; rfl

/-- Without a gap the text is written as it is at the beginning. -/
theorem flush_of_not_startsGap (h : startsGap cs = false) : flush cs = normalize cs := by
  cases cs with
  | nil => rfl
  | cons c cs =>
      rw [← Bool.not_eq_true, startsGap_iff, not_or, Bool.not_eq_true] at h
      rw [flush, normalize, squeeze_visible h.1 h.2, squeeze_visible h.1 h.2]
      rfl

/-- A visible character at the beginning is kept, and the rest is written behind it. -/
theorem normalize_visible (hb : isBlank c = false) (hq : isQuote c = false)
    (hs : ¬OpensComment c cs) : normalize (c :: cs) = c :: flush cs := by
  rw [normalize, squeeze_visible hb hs, if_neg (by rw [hq]; exact Bool.false_ne_true)]
  rfl

/-- Behind something visible a text is as by itself, or one space stands in front. -/
theorem flush_eq (cs : List Char) : flush cs = normalize cs ∨ flush cs = ' ' :: normalize cs := by
  cases h : startsGap cs with
  | true =>
      rw [flush_of_startsGap h]
      rcases squeeze_owing_eq cs with ⟨hn, ho⟩ | ho
      · exact .inl (ho.trans hn.symm)
      · exact .inr ho
  | false => exact .inl (flush_of_not_startsGap h)

/-- What comes first in a squeezed text came first in the text, or it is a space. -/
theorem head?_flush (cs : List Char) :
    ∀ c ∈ (flush cs).head?, c = ' ' ∨ cs.head? = some c ∧ isBlank c = false := by
  cases cs with
  | nil => intro _ h; cases h
  | cons c cs =>
      cases h : startsGap (c :: cs) with
      | true =>
          rw [flush_of_startsGap h]
          exact fun d hd => .inl (head?_squeeze_owing rfl _ d hd)
      | false =>
          rw [← Bool.not_eq_true, startsGap_iff, not_or, Bool.not_eq_true] at h
          rw [flush, squeeze_visible h.1 h.2]
          intro d hd
          obtain rfl : c = d := Option.some.inj hd
          exact .inr ⟨rfl, h.1⟩

/-- A kind of characters without the space that does not begin a text does not begin its normal
form. -/
theorem any_flush {p : Char → Bool} (hp : p ' ' = false) (h : cs.head?.any p = false) :
    (flush cs).head?.any p = false := by
  cases hd : (flush cs).head? with
  | none => rfl
  | some c =>
      rcases head?_flush cs c hd with rfl | ⟨hc, -⟩
      · exact hp
      · rwa [hc] at h

/-- No line break begins what is written. -/
theorem startsNewline_flush (cs : List Char) : startsNewline (flush cs) = false := by
  rw [startsNewline]
  cases hd : (flush cs).head? with
  | none => rfl
  | some c =>
      rcases head?_flush cs c hd with rfl | ⟨-, hb⟩
      · rfl
      · exact (Bool.or_eq_false_iff.1 (not_isSpace_of_not_isBlank hb)).2

theorem head?_normalize (cs : List Char) : ∀ c ∈ (normalize cs).head?, isBlank c = false :=
  head?_squeeze_nothing rfl cs

end Gaps

/-! ### Runs of characters -/

/-- `write` keeps characters of the kind `p` and puts none of them first. -/
structure Carries (p : Char → Bool) (write : List Char → List Char) : Prop where
  step : ∀ c cs, p c = true → write (c :: cs) = c :: write cs
  stop : ∀ cs, cs.head?.any p = false → (write cs).head?.any p = false

namespace Carries

variable {p : Char → Bool} {write : List Char → List Char}

theorem stop_eq (h : Carries p write) {cs : List Char} (hs : cs.head?.any p = false) (n : Nat) :
    ((write cs).take n).takeWhile p = [] ∧ (write cs).dropWhile p = write cs := by
  have hw := h.stop cs hs
  cases hcs : write cs with
  | nil => rw [List.take_nil]; exact ⟨rfl, rfl⟩
  | cons c ds =>
      rw [hcs] at hw
      have hc : ¬p c = true := Bool.not_eq_true _ ▸ hw
      refine ⟨?_, List.dropWhile_cons_of_neg hc⟩
      cases n with
      | zero => rfl
      | succ n => exact List.takeWhile_cons_of_neg hc

/-- A run of such characters, cut off at a length, is the same run. -/
theorem run_take (h : Carries p write) (n : Nat) (cs : List Char) :
    ((write cs).take n).takeWhile p = (cs.take n).takeWhile p := by
  induction n generalizing cs with
  | zero => rfl
  | succ n ih =>
      cases hs : cs.head?.any p with
      | false =>
          rw [(h.stop_eq hs _).1]
          cases cs with
          | nil => rfl
          | cons c cs => exact (List.takeWhile_cons_of_neg (Bool.not_eq_true _ ▸ hs)).symm
      | true =>
          cases cs with
          | nil => cases hs
          | cons c cs =>
              have hc : p c = true := hs
              rw [h.step c cs hc, List.take_succ_cons, List.take_succ_cons,
                List.takeWhile_cons_of_pos hc, List.takeWhile_cons_of_pos hc, ih]

/-- A run of such characters is written in front of what follows it. -/
theorem append (h : Carries p write) {u : List Char} (hu : u.all p = true) (cs : List Char) :
    write (u ++ cs) = u ++ write cs := by
  induction u with
  | nil => rfl
  | cons c u ih =>
      rw [List.all_cons, Bool.and_eq_true] at hu
      rw [List.cons_append, h.step _ _ hu.1, ih hu.2]
      rfl

/-- The run at the beginning is the same in what is written. -/
theorem takeWhile (h : Carries p write) (cs : List Char) :
    (write cs).takeWhile p = cs.takeWhile p := by
  have hrun := h.run_take ((write cs).length + cs.length) cs
  rwa [List.take_of_length_le (by omega), List.take_of_length_le (by omega)] at hrun

/-- What is behind the run is written as if it stood there alone. -/
theorem dropWhile (h : Carries p write) (cs : List Char) :
    (write cs).dropWhile p = write (cs.dropWhile p) := by
  have hcs : cs = cs.takeWhile p ++ cs.dropWhile p := List.takeWhile_append_dropWhile.symm
  have hstop : (cs.dropWhile p).head?.any p = false := by
    have := List.head?_dropWhile_not p cs
    cases hd : (cs.dropWhile p).head? with
    | none => rfl
    | some c => rw [hd] at this; simpa using this
  have hall : (cs.takeWhile p).all p = true := List.all_takeWhile
  conv_lhs => rw [hcs, h.append hall]
  rw [List.dropWhile_append_of_pos fun c hc => List.all_eq_true.1 hall c hc]
  exact (h.stop_eq hstop 0).2

end Carries

/-- Squeezing carries every kind of steady characters. -/
theorem carries_flush {p : Char → Bool} (hp : ∀ c, p c = true → isSteady c = true) :
    Carries p flush where
  step c cs h := flush_steady (hp c h) cs
  stop cs h := any_flush (by
    by_contra hs
    cases hp ' ' ((Bool.not_eq_false _).mp hs)) h

/-- Visible characters of ASCII other than quotes, slashes and backslashes. -/
theorem isSteady_of_code {c : Char} (lo : 39 < c.toNat) (hi : c.toNat < 127) (hs : c.toNat ≠ 47)
    (hb : c.toNat ≠ 92) : isSteady c = true := by
  refine isSteady_iff.2 ⟨not_isBlank_of_code (by omega) hi, ?_, ?_, ?_⟩
  · by_contra hq
    simp only [isQuote, Bool.not_eq_false, Bool.or_eq_true, decide_eq_true_eq] at hq
    rcases hq with rfl | rfl <;> revert lo <;> decide
  · rintro rfl; exact hs rfl
  · rintro rfl; exact hb rfl

theorem isSteady_of_isDigit {c : Char} (h : c.isDigit = true) : isSteady c = true := by
  have := isDigit_iff.1 h
  exact isSteady_of_code (by omega) (by omega) (by omega) (by omega)

theorem isSteady_of_isHexDigit {c : Char} (h : isHexDigit c = true) : isSteady c = true := by
  have halnum := Selector.isAlphanum_of_isHexDigit h
  rw [Char.isAlphanum, Bool.or_eq_true, isAlpha_iff, isUpper_iff, isLower_iff] at halnum
  rcases halnum with h | h
  · exact isSteady_of_code (by omega) (by omega) (by omega) (by omega)
  · exact isSteady_of_isDigit h

/-- A steady kind begins what is written just when it begins the text. -/
theorem any_flush_eq {p : Char → Bool} (hp : ∀ c, p c = true → isSteady c = true) (cs : List Char) :
    (flush cs).head?.any p = cs.head?.any p := by
  cases h : cs.head?.any p with
  | false => exact (carries_flush hp).stop cs h
  | true =>
      cases cs with
      | nil => cases h
      | cons c cs => rw [flush_steady (hp c h)]; exact h

/-- A steady character comes first in the squeezed text just when it does in the text. -/
theorem head?_flush_eq {c : Char} (hc : isSteady c = true) (cs : List Char) :
    (flush cs).head? = some c ↔ cs.head? = some c := by
  constructor
  · intro h
    rcases head?_flush cs c h with rfl | ⟨hcs, -⟩
    · cases hc
    · exact hcs
  · intro h
    obtain ⟨ds, rfl⟩ := List.head?_eq_some_iff.1 h
    rw [flush_steady hc]
    rfl

/-- A steady word begins what is written just when it begins the text. -/
theorem prefix_flush {w : List Char} (hw : w.all isSteady = true) (cs : List Char) :
    w <+: flush cs ↔ w <+: cs := by
  induction w generalizing cs with
  | nil => exact ⟨fun _ => List.nil_prefix, fun _ => List.nil_prefix⟩
  | cons c w ih =>
      rw [List.all_cons, Bool.and_eq_true] at hw
      have hhead : ∀ x : List Char, c :: w <+: x → x.head? = some c := by
        rintro x ⟨y, rfl⟩; rfl
      constructor
      · intro h
        obtain ⟨ds, rfl⟩ := List.head?_eq_some_iff.1 ((head?_flush_eq hw.1 cs).1 (hhead _ h))
        rw [flush_steady hw.1, List.cons_prefix_cons] at h
        exact List.cons_prefix_cons.2 ⟨rfl, (ih hw.2 ds).1 h.2⟩
      · intro h
        obtain ⟨ds, rfl⟩ := List.head?_eq_some_iff.1 (hhead _ h)
        rw [flush_steady hw.1, List.cons_prefix_cons]
        exact ⟨rfl, (ih hw.2 ds).2 (List.cons_prefix_cons.1 h).2⟩

/-! ### Numerals and marks -/

/-- What is read from the squeezed text is what is read from the text, and what is left is squeezed. -/
def Commutes {α : Type} (read : List Char → α × List Char) : Prop :=
  ∀ cs, read (flush cs) = ((read cs).1, flush (read cs).2)

theorem startsDigit_flush (cs : List Char) : startsDigit (flush cs) = startsDigit cs :=
  any_flush_eq (fun _ => isSteady_of_isDigit) cs

/-- Digits are read from squeezed text as from the text. -/
theorem commutes_readDigits : Commutes readDigits := by
  intro cs
  have hd : Carries Char.isDigit flush := carries_flush fun _ => isSteady_of_isDigit
  rw [readDigits, hd.takeWhile, hd.dropWhile]
  rfl

/-- A sign is read from squeezed text as from the text. -/
theorem commutes_readSign : Commutes readSign := by
  intro cs
  by_cases hp : cs.head? = some '+'
  · obtain ⟨ds, rfl⟩ := List.head?_eq_some_iff.1 hp
    rw [flush_steady rfl]; rfl
  by_cases hm : cs.head? = some '-'
  · obtain ⟨ds, rfl⟩ := List.head?_eq_some_iff.1 hm
    rw [flush_steady rfl]; rfl
  have hnone : ∀ x : List Char, x.head? ≠ some '+' → x.head? ≠ some '-' → readSign x = (none, x) := by
    intro x hp hm
    cases x with
    | nil => rfl
    | cons c x =>
        exact Token.readSign_cons (fun e => hp (congrArg some e)) (fun e => hm (congrArg some e)) x
  rw [hnone cs hp hm, hnone]
  · exact mt (head?_flush_eq rfl cs).1 hp
  · exact mt (head?_flush_eq rfl cs).1 hm

/-- A fraction is read from squeezed text as from the text: its point needs a digit behind it. -/
theorem commutes_readFraction : Commutes readFraction := by
  intro cs
  by_cases hp : cs.head? = some '.'
  · obtain ⟨ds, rfl⟩ := List.head?_eq_some_iff.1 hp
    rw [flush_steady rfl, readFraction, readFraction, startsDigit_flush]
    split
    · exact commutes_readDigits ds
    · rw [flush_steady rfl]
  have hnone : ∀ x : List Char, x.head? ≠ some '.' → readFraction x = ([], x) := by
    intro x hp
    cases x with
    | nil => rfl
    | cons c x => exact Token.readFraction_cons (fun e => hp (congrArg some e)) x
  rw [hnone cs hp, hnone]
  exact mt (head?_flush_eq rfl cs).1 hp

/-- An exponent is read from squeezed text as from the text, with or without a sign. -/
theorem commutes_readExponent : Commutes readExponent := by
  intro cs
  cases he : cs.head?.any fun c => c = 'e' || c = 'E' with
  | true =>
      cases cs with
      | nil => cases he
      | cons c cs =>
          have hc : (c = 'e' || c = 'E') = true := he
          have hst : isSteady c = true := by
            rcases (by simpa using hc : c = 'e' ∨ c = 'E') with rfl | rfl <;> rfl
          rw [flush_steady hst]
          simp only [readExponent, hc, if_true, commutes_readSign cs, startsDigit_flush,
            commutes_readDigits (readSign cs).2]
          split
          · rfl
          · rw [flush_steady hst]
  | false =>
      have hnone : ∀ x : List Char, (x.head?.any fun c => c = 'e' || c = 'E') = false →
          readExponent x = (none, x) := by
        intro x hx
        cases x with
        | nil => rfl
        | cons c x =>
            have hc : (c = 'e' || c = 'E') = false := hx
            simp only [readExponent, hc, Bool.false_eq_true, if_false]
      rw [hnone cs he, hnone _ (any_flush rfl he)]

theorem commutes_readNumeral : Commutes readNumeral := by
  intro cs
  simp only [readNumeral, commutes_readSign cs, commutes_readDigits (readSign cs).2,
    commutes_readFraction _, commutes_readExponent _]

/-- Whether a number begins is the same for squeezed text. -/
theorem startsUnsigned_flush (cs : List Char) : startsUnsigned (flush cs) = startsUnsigned cs := by
  by_cases hp : cs.head? = some '.'
  · obtain ⟨ds, rfl⟩ := List.head?_eq_some_iff.1 hp
    rw [flush_steady rfl]
    exact startsDigit_flush ds
  · have hdigit : ∀ x : List Char, x.head? ≠ some '.' → startsUnsigned x = startsDigit x := by
      intro x hp
      cases x with
      | nil => rfl
      | cons c x => exact Token.startsUnsigned_cons (fun e => hp (congrArg some e)) x
    rw [hdigit cs hp, hdigit _ (mt (head?_flush_eq rfl cs).1 hp), startsDigit_flush]

/-- The same mark is read from squeezed text, and what is left is squeezed. -/
theorem readMark_flush (c : Char) (cs : List Char) :
    readMark c (flush cs) = ((readMark c cs).1, flush (readMark c cs).2) := by
  have long : Token.LongMark c (flush cs) ↔ Token.LongMark c cs :=
    or_congr (and_congr_right fun _ => prefix_flush rfl cs)
      (and_congr_right fun _ => prefix_flush rfl cs)
  by_cases hl : Token.LongMark c cs
  · obtain ⟨rfl, ds, rfl⟩ | ⟨hc, ds, rfl⟩ := hl
    · rfl
    · simp only [List.mem_cons, List.not_mem_nil, or_false] at hc
      rcases hc with rfl | rfl | rfl | rfl | rfl <;> rfl
  · rw [Token.readMark_single hl, Token.readMark_single (mt long.1 hl)]

end CssPrune.Text
