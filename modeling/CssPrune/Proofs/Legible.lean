import CssPrune.Proofs.Squeezed

/-!
# Names and escapes in squeezed text

Squeezing knows strings, comments and blanks, but no escapes outside of strings.  A text is *legible*
when that does no harm: no quote and no comment stands in it, and a blank only where it belongs to an
escape or an argument of `url(` and squeezing leaves it there.

* `readEscape_flush`, `readName_flush`: a legible escape or name is read from the squeezed text.  An
  escape may take the space that a gap behind it leaves; `Follows` says what is left in either case.
-/

namespace CssPrune.Text

open Token (isSpace isHexDigit isNewline isNameChar startsNewline dropNewline dropSpace readEscape
  readName)

/-! ### Legible text -/

/-- What can go on with a name, or make it a function. -/
def goesOn (c : Char) : Bool := !Token.endsName c || c = '('

/-- The first character behind the gaps at the head of the text. -/
def firstVisible (cs : List Char) : Option Char :=
  (textOf ((pieces cs).dropWhile Piece.isGap)).head?

/-- A gap in front of the text can be left as one blank that belongs to an escape: no gap is there, or
what it parts from the escape does not go on with a name. -/
def settles (cs : List Char) : Bool := !startsGap cs || !(firstVisible cs).any goesOn

/-- Behind a backslash that begins an escape: the escape is the same in the normal text. -/
def keepsEscape : List Char → Bool
  | [] => true
  | c :: cs =>
    if isHexDigit c then settles (readEscape (c :: cs)).2
    else !isBlank c || (c = ' ' && settles cs && (firstVisible cs).isSome)

/-- The character `c` in front of `cs` means the same to the tokenizer and in raw text, if neither is
within a string or a comment; `escaped` says whether a backslash protects it. -/
def isLegible (escaped : Bool) (c : Char) (cs : List Char) : Bool :=
  !isQuote c && !(c = '/' && cs.head? = some '*') &&
    (escaped || (!isBlank c || isSpace c) && (c != '\\' || keepsEscape cs))

/-- All characters of the text in front of `rest` are legible. -/
def legibleTo (rest : List Char) : Bool → List Char → Bool
  | _, [] => true
  | escaped, c :: u =>
    isLegible escaped c (u ++ rest) && legibleTo rest (!escaped && c = '\\') u

theorem head?_lay (ps : List Piece) :
    (lay .nothing ps).head? = (textOf (ps.dropWhile Piece.isGap)).head? := by
  induction ps with
  | nil => rfl
  | cons p ps ih =>
      cases hp : p.isGap with
      | true => rw [lay, if_pos hp, List.dropWhile_cons_of_pos hp]; exact ih
      | false =>
          rw [lay, if_neg (Bool.eq_false_iff.1 hp),
            List.dropWhile_cons_of_neg (Bool.eq_false_iff.1 hp)]
          cases p <;> rfl

/-- What comes first in the normal form is the first character behind the gaps. -/
theorem head?_normalize_eq (cs : List Char) : (normalize cs).head? = firstVisible cs := by
  rw [normalize, squeeze_eq_lay]
  exact head?_lay _

/-- A legible character is no quote and begins no comment; outside of escapes a blank is white space
of a sheet, and a backslash keeps its escape. -/
theorem isLegible_iff {e : Bool} {c : Char} {cs : List Char} :
    isLegible e c cs = true ↔ isQuote c = false ∧ ¬OpensComment c cs ∧
      (e = false → (isBlank c = true → isSpace c = true) ∧ (c = '\\' → keepsEscape cs = true)) := by
  have himp : ∀ b d : Bool, (!b || d) = true ↔ (b = true → d = true) := by decide
  have hslash : (!(c = '/' && cs.head? = some '*')) = true ↔ ¬OpensComment c cs := by
    rw [Bool.not_eq_true', ← Bool.not_eq_true, Bool.and_eq_true, decide_eq_true_eq,
      decide_eq_true_eq]
    rfl
  have hback : (c != '\\' || keepsEscape cs) = true ↔ (c = '\\' → keepsEscape cs = true) := by
    rw [bne, himp, beq_iff_eq]
  rw [isLegible, Bool.and_eq_true, Bool.and_eq_true, hslash, and_assoc, Bool.not_eq_true']
  refine and_congr_right fun _ => and_congr_right fun _ => ?_
  cases e with
  | true => exact ⟨fun _ h => (by cases h), fun _ => rfl⟩
  | false =>
      rw [Bool.false_or, Bool.and_eq_true, himp, hback]
      exact ⟨fun h _ => h, fun h => h rfl⟩

section Legible

variable {e : Bool} {c : Char} {cs : List Char}

theorem not_isBlank_of_isLegible (h : isLegible false c cs = true) (hs : isSpace c = false) :
    isBlank c = false := by
  by_contra hb
  rw [((isLegible_iff.1 h).2.2 rfl).1 ((Bool.not_eq_false _).mp hb)] at hs
  cases hs

/-- A legible character other than a blank is written as it is. -/
theorem flush_of_isLegible (h : isLegible e c cs = true) (hb : isBlank c = false) :
    flush (c :: cs) = c :: flush cs :=
  flush_visible hb (isLegible_iff.1 h).1 (isLegible_iff.1 h).2.1

end Legible

/-- The text is legible up to its end `rest`. -/
def LegibleTo (e : Bool) (cs rest : List Char) : Prop :=
  ∃ u, cs = u ++ rest ∧ legibleTo rest e u = true

/-- A text is legible part by part, the state at the end of the first going on in the second. -/
theorem legibleTo_append (rest : List Char) (e : Bool) (u v : List Char) :
    legibleTo rest e (u ++ v) =
      (legibleTo (v ++ rest) e u && legibleTo rest (Selector.escaping e u) v) := by
  induction u generalizing e with
  | nil => rfl
  | cons c u ih =>
      rw [List.cons_append, legibleTo, legibleTo, ih, List.append_assoc, Bool.and_assoc]
      rfl

namespace LegibleTo

variable {e : Bool} {c : Char} {cs mid rest : List Char}

/-- The first character of a legible text is legible, and so is what follows it. -/
theorem cons (h : LegibleTo e (c :: cs) rest) (hs : rest <:+ cs) :
    isLegible e c cs = true ∧ LegibleTo (!e && c = '\\') cs rest := by
  obtain ⟨u, hu, hl⟩ := h
  cases u with
  | nil =>
      have := hs.length_le
      rw [← List.nil_append rest, ← hu, List.length_cons] at this
      omega
  | cons d u =>
      obtain ⟨rfl, rfl⟩ := List.cons.inj hu
      rw [legibleTo, Bool.and_eq_true] at hl
      exact ⟨hl.1, u, rfl, hl.2⟩

/-- Up to a place in front of the end. -/
theorem upTo (h : LegibleTo e cs rest) (hm : mid <:+ cs) (hs : rest <:+ mid) :
    LegibleTo e cs mid := by
  obtain ⟨u, rfl, hl⟩ := h
  obtain ⟨w, rfl⟩ := hs
  obtain ⟨v, hv⟩ := hm
  rw [← List.append_assoc] at hv
  obtain rfl := List.append_cancel_right hv
  rw [legibleTo_append, Bool.and_eq_true] at hl
  exact ⟨v, List.append_assoc _ _ _, hl.1⟩

/-- Behind characters other than backslashes. -/
theorem behind {u : List Char} (h : LegibleTo false (u ++ cs) rest) (hu : '\\' ∉ u)
    (hs : rest <:+ cs) : LegibleTo false cs rest := by
  induction u with
  | nil => exact h
  | cons c u ih =>
      rw [List.mem_cons, not_or] at hu
      have h := (h.cons (hs.trans (List.suffix_append u cs))).2
      rw [decide_eq_false (Ne.symm hu.1)] at h
      exact ih h hu.2

end LegibleTo

/-! ### What is left of the squeezed text -/

/-- What can be left of the squeezed text where `rest` is left of the text itself: `rest` squeezed, or
all of that but the space that an escape has taken. -/
def Follows (left rest : List Char) : Prop :=
  left = flush rest ∨ left = normalize rest ∧ settles rest = true

/-- Of the text `p` is read, of the squeezed text `q`. -/
def Same {α : Type} (p q : α × List Char) : Prop := q.1 = p.1 ∧ Follows q.2 p.2

section Same

variable {α β : Type} {p q : α × List Char}

theorem Same.map (h : Same p q) (g : α → β) : Same (g p.1, p.2) (g q.1, q.2) :=
  ⟨congrArg g h.1, h.2⟩

theorem Same.of_flush (h : q = (p.1, flush p.2)) : Same p q := by
  rw [h]
  exact ⟨rfl, .inl rfl⟩

/-- What comes first is the same unless a gap does. -/
theorem Follows.eq_flush {left rest : List Char} (h : Follows left rest)
    (hr : startsGap rest = false) : left = flush rest := by
  rcases h with h | ⟨h, -⟩
  · exact h
  · rw [h, flush_of_not_startsGap hr]

end Same

/-- No newline stands behind a backslash at the head of the text. -/
def NoBreak (cs : List Char) : Prop := ∀ ds, cs = '\\' :: ds → startsNewline ds = false

theorem noBreak_cons {c : Char} (h : c ≠ '\\') (cs : List Char) : NoBreak (c :: cs) :=
  fun _ e => absurd (List.cons.inj e).1 h

/-! ### Escapes -/

section Escapes

variable {cs rest : List Char}

/-- Line breaks are white space. -/
theorem isSpace_of_isNewline {c : Char} (h : isNewline c = true) : isSpace c = true := by
  rw [isSpace, h, Bool.or_true]

theorem dropNewline_of_head (h : startsNewline cs = false) : dropNewline cs = cs := by
  cases cs with
  | nil => rfl
  | cons c cs =>
      have h : isNewline c = false := h
      have hr : c ≠ '\r' := by rintro rfl; cases h
      rw [Token.dropNewline_cons, if_neg fun e => hr e.1,
        if_neg (by rw [h]; exact Bool.false_ne_true)]

theorem dropSpace_of_head (h : cs.head?.any isSpace = false) : dropSpace cs = cs := by
  cases cs with
  | nil => rfl
  | cons c cs =>
      have h : (c = ' ' || c = '\t' || isNewline c) = false := h
      rw [Bool.or_eq_false_iff] at h
      have hnew : startsNewline (c :: cs) = false := h.2
      rw [dropSpace, if_neg (by rw [h.1]; exact Bool.false_ne_true), dropNewline_of_head hnew]

/-- What is left out in front is white space. -/
theorem dropSpace_taken (cs : List Char) : ∃ s, cs = s ++ dropSpace cs ∧ s.all isSpace = true := by
  cases h : cs.head?.any isSpace with
  | false => exact ⟨[], (dropSpace_of_head h).symm, rfl⟩
  | true =>
      cases cs with
      | nil => cases h
      | cons c cs =>
          have h : (c = ' ' || c = '\t' || isNewline c) = true := h
          by_cases hc : (c = ' ' || c = '\t') = true
          · rw [dropSpace, if_pos hc]
            exact ⟨[c], rfl, by rw [List.all_cons, isSpace, h]; rfl⟩
          rw [dropSpace, if_neg hc, Token.dropNewline_cons]
          by_cases hr : c = '\r' ∧ cs.head? = some '\n'
          · obtain ⟨rfl, hn⟩ := hr
            obtain ⟨ds, rfl⟩ := List.head?_eq_some_iff.1 hn
            exact ⟨['\r', '\n'], rfl, rfl⟩
          · rw [Bool.not_eq_true] at hc
            rw [hc, Bool.false_or] at h
            rw [if_neg hr, if_pos h]
            exact ⟨[c], rfl, by rw [List.all_cons, isSpace, h, Bool.or_true]; rfl⟩

/-- The blank behind an escape is gone, or the one space that is left of it. -/
theorem dropSpace_flush (cs : List Char) : dropSpace (flush cs) = normalize (dropSpace cs) := by
  have hblank : normalize cs = normalize (dropSpace cs) := by
    obtain ⟨s, hs, hall⟩ := dropSpace_taken cs
    conv_lhs => rw [hs, normalize_blanks (all_isBlank_of_all_isSpace hall)]
  have hstop : dropSpace (normalize cs) = normalize cs := by
    refine dropSpace_of_head ?_
    cases hd : (normalize cs).head? with
    | none => rfl
    | some c => exact not_isSpace_of_not_isBlank (head?_normalize cs c hd)
  rw [← hblank]
  rcases flush_eq cs with h | h
  · rw [h, hstop]
  · rw [h]; rfl

/-- The digits of an escape, if it has any. -/
def hexRun (cs : List Char) : List Char := (cs.take 6).takeWhile isHexDigit

theorem all_hexRun (cs : List Char) : (hexRun cs).all isHexDigit = true := List.all_takeWhile

theorem hexRun_append (cs : List Char) : hexRun cs ++ cs.drop (hexRun cs).length = cs := by
  have hp : hexRun cs <+: cs := (List.takeWhile_prefix _).trans (List.take_prefix _ _)
  calc hexRun cs ++ cs.drop (hexRun cs).length
      = cs.take (hexRun cs).length ++ cs.drop (hexRun cs).length :=
        congrArg (· ++ _) (List.prefix_iff_eq_take.1 hp)
    _ = cs := List.take_append_drop _ _

theorem hexRun_ne_nil (h : cs.head?.any isHexDigit = true) : hexRun cs ≠ [] := by
  cases cs with
  | nil => cases h
  | cons c cs =>
      have hc : isHexDigit c = true := h
      rw [hexRun, List.take_succ_cons, List.takeWhile_cons_of_pos hc]
      exact List.cons_ne_nil _ _

/-- An escape by a number is its run of digits, with a blank behind it. -/
theorem readEscape_digits (h : cs.head?.any isHexDigit = true) :
    readEscape cs =
      (Token.charOfHex (hexRun cs), dropSpace (cs.drop (hexRun cs).length)) := by
  cases cs with
  | nil => cases h
  | cons c cs => exact if_neg (hexRun_ne_nil h)

/-- Any other escape is the character behind the backslash. -/
theorem readEscape_single {c : Char} (h : isHexDigit c = false) (cs : List Char) :
    readEscape (c :: cs) = (Token.denull c, cs) := by
  refine if_pos ?_
  rw [List.take_succ_cons, List.takeWhile_cons_of_neg (Bool.not_eq_true _ ▸ h)]

/-- An escape written with its digits kept has the same value; of the blank behind it remains what
is written of that. -/
theorem Carries.readEscape {write : List Char → List Char} (h : Carries isHexDigit write)
    (hd : cs.head?.any isHexDigit = true) :
    Token.readEscape (write cs) =
      ((Token.readEscape cs).1, dropSpace (write (cs.drop (hexRun cs).length))) := by
  have hwrite : write cs = hexRun cs ++ write (cs.drop (hexRun cs).length) := by
    conv_lhs => rw [← hexRun_append cs, h.append (all_hexRun cs)]
  have hhead : (write cs).head?.any isHexDigit = true := by
    cases cs with
    | nil => cases hd
    | cons c cs => rw [h.step c cs hd]; exact hd
  have hrun : hexRun (write cs) = hexRun cs := h.run_take 6 cs
  rw [readEscape_digits hhead, readEscape_digits hd, hrun]
  conv_lhs => rw [hwrite, List.drop_left]

/-- Behind its first character an escape takes digits and blanks only. -/
theorem readEscape_taken (h : cs ≠ []) : ∃ c u, cs = c :: (u ++ (readEscape cs).2) ∧ '\\' ∉ u := by
  cases cs with
  | nil => exact absurd rfl h
  | cons c cs =>
      cases hc : isHexDigit c with
      | false => exact ⟨c, [], by rw [readEscape_single hc]; rfl, List.not_mem_nil⟩
      | true =>
          have hd : (c :: cs).head?.any isHexDigit = true := hc
          obtain ⟨s, hs, hspace⟩ := dropSpace_taken ((c :: cs).drop (hexRun (c :: cs)).length)
          obtain ⟨d, ds, hrun⟩ := List.exists_cons_of_ne_nil (hexRun_ne_nil hd)
          have hall := all_hexRun (c :: cs)
          rw [hrun, List.all_cons, Bool.and_eq_true] at hall
          refine ⟨d, ds ++ s, ?_, ?_⟩
          · rw [readEscape_digits hd]
            conv_lhs => rw [← hexRun_append (c :: cs), hs]
            rw [hrun, List.cons_append, List.append_assoc]
          · rw [List.mem_append, not_or]
            exact ⟨fun hm => (by cases List.all_eq_true.1 hall.2 _ hm),
              fun hm => (by cases List.all_eq_true.1 hspace _ hm)⟩

/-- What is legible is so behind the escape at its head. -/
theorem LegibleTo.behind_escape (h : LegibleTo true cs rest) (hs : rest <:+ (readEscape cs).2) :
    LegibleTo false (readEscape cs).2 rest := by
  by_cases hn : cs = []
  · subst hn
    obtain ⟨u, hu, -⟩ := h
    obtain ⟨rfl, rfl⟩ := List.append_eq_nil_iff.1 hu.symm
    exact ⟨[], rfl, rfl⟩
  · obtain ⟨c, u, hcs, hu⟩ := readEscape_taken hn
    rw [hcs] at h
    exact ((h.cons (hs.trans (List.suffix_append _ _))).2).behind hu hs

/-- A legible escape is read from the squeezed text. -/
theorem readEscape_flush (hk : keepsEscape cs = true) (h : LegibleTo true cs rest)
    (hs : rest <:+ (readEscape cs).2) : Same (readEscape cs) (readEscape (flush cs)) := by
  cases cs with
  | nil => exact ⟨rfl, .inl rfl⟩
  | cons c cs =>
      rw [keepsEscape] at hk
      cases hc : isHexDigit c with
      | true =>
          rw [if_pos hc] at hk
          have hw : Carries isHexDigit flush := carries_flush fun _ => isSteady_of_isHexDigit
          have hd : (c :: cs).head?.any isHexDigit = true := hc
          rw [hw.readEscape hd, dropSpace_flush]
          refine ⟨rfl, .inr ⟨?_, hk⟩⟩
          rw [readEscape_digits hd]
      | false =>
          rw [if_neg (by rw [hc]; exact Bool.false_ne_true), Bool.or_eq_true, Bool.and_eq_true,
            Bool.and_eq_true, decide_eq_true_eq, ← head?_normalize_eq] at hk
          have hrest : rest <:+ cs := by rwa [readEscape_single hc] at hs
          have hleg := (h.cons hrest).1
          cases hb : isBlank c with
          | false =>
              rw [flush_of_isLegible hleg hb, readEscape_single hc, readEscape_single hc]
              exact .of_flush rfl
          -- an escaped blank is a space that squeezing writes for what is visible behind it
          | true =>
              rw [hb] at hk
              obtain ⟨⟨rfl, hset⟩, hne⟩ := hk.resolve_left (by decide)
              have hflush : flush (' ' :: cs) = ' ' :: normalize cs := by
                rw [flush, squeeze_blank rfl]
                refine (squeeze_owing_eq cs).resolve_left fun e => ?_
                rw [e.1] at hne
                cases hne
              rw [hflush, readEscape_single hc, readEscape_single hc]
              exact ⟨rfl, .inr ⟨rfl, hset⟩⟩

end Escapes

/-! ### Names -/

section Names

variable {cs : List Char}

theorem readName_stop {x : List Char} (h : x.head?.any (fun c => !Token.endsName c) = false) :
    readName x = ([], x) := by
  refine Token.readName_end ?_
  cases x with
  | nil => rfl
  | cons c x => exact (Bool.not_eq_false' _).mp h

/-- Where a gap may be left to an escape, what is behind it neither goes on with a name nor opens a
bracket. -/
theorem not_goesOn (hset : settles cs = true) (hg : startsGap cs = true) :
    (normalize cs).head?.any (fun c => !Token.endsName c) = false ∧
      (normalize cs).head? ≠ some '(' := by
  have hstop : (normalize cs).head?.any goesOn = false := by
    rwa [settles, hg, Bool.not_true, Bool.false_or, Bool.not_eq_true', ← head?_normalize_eq] at hset
  cases hd : (normalize cs).head? with
  | none => exact ⟨rfl, fun h => by cases h⟩
  | some c =>
      rw [hd] at hstop
      have hc := Bool.or_eq_false_iff.1 hstop
      exact ⟨hc.1, fun h => of_decide_eq_false hc.2 (Option.some.inj h)⟩

/-- A name does not go on with a gap. -/
theorem readName_gap (hg : startsGap cs = true) (h : LegibleTo false cs (readName cs).2) :
    readName cs = ([], cs) := by
  cases cs with
  | nil => cases hg
  | cons c cs =>
      have hb : c ≠ '\\' := by
        rintro rfl
        rcases startsGap_iff.1 hg with h | h
        · cases h
        · cases h.1
      cases hn : isNameChar c with
      | false => rw [readName, if_neg hb, if_neg (by rw [hn]; exact Bool.false_ne_true)]
      | true =>
          have hread : (readName (c :: cs)).2 = (readName cs).2 := by
            rw [readName, if_neg hb, if_pos hn]
          rw [hread] at h
          have hleg := (h.cons (Token.readName_suffix cs)).1
          have hblank := not_isBlank_of_isLegible hleg (Token.not_isSpace_of_isNameChar hn)
          rcases startsGap_iff.1 hg with h | h
          · rw [hblank] at h; cases h
          · exact absurd h (isLegible_iff.1 hleg).2.1

/-- A name is read behind an escape, whether the squeezed text has a space in front that the escape
has taken or not. -/
theorem Follows.readName {left : List Char} (hf : Follows left cs)
    (h : LegibleTo false cs (Token.readName cs).2)
    (hflush : Same (Token.readName cs) (Token.readName (flush cs))) :
    Same (Token.readName cs) (Token.readName left) := by
  cases hg : startsGap cs with
  | false => rwa [hf.eq_flush hg]
  | true =>
      rcases hf with rfl | ⟨rfl, hset⟩
      · exact hflush
      · rw [readName_gap hg h, readName_stop (not_goesOn hset hg).1]
        exact ⟨rfl, .inr ⟨rfl, hset⟩⟩

/-- A legible name is read from the squeezed text. -/
theorem readName_flush (h : LegibleTo false cs (readName cs).2) (hn : NoBreak (readName cs).2) :
    Same (readName cs) (readName (flush cs)) := by
  fun_induction readName cs with
  | case1 => rw [flush, squeeze, readName]; exact ⟨rfl, .inl rfl⟩
  | case2 cs hnew =>
      have := hn cs rfl
      rw [hnew] at this
      cases this
  -- the name goes on behind the escape, or behind the space that the escape has taken
  | case3 cs hnew e n ih =>
      have hs : n.2 <:+ e.2 := Token.readName_suffix e.2
      obtain ⟨hleg, hl⟩ := h.cons (hs.trans (Token.readEscape_suffix cs))
      have hk := ((isLegible_iff.1 hleg).2.2 rfl).2 rfl
      have he := readEscape_flush hk hl hs
      have hl := hl.behind_escape hs
      have hname : Same n (readName (readEscape (flush cs)).2) := he.2.readName hl (ih hl hn)
      have hread : readName (flush ('\\' :: cs)) = (e.1 :: (readName (readEscape (flush cs)).2).1,
          (readName (readEscape (flush cs)).2).2) := by
        rw [flush_of_isLegible hleg rfl, readName, if_pos rfl,
          if_neg (by rw [startsNewline_flush]; exact Bool.false_ne_true)]
        simp only [he.1]
        rfl
      rw [hread]
      exact hname.map (e.1 :: ·)
  | case4 c cs hc hname n ih =>
      obtain ⟨hleg, hl⟩ := h.cons (Token.readName_suffix cs)
      rw [decide_eq_false hc] at hl
      have hb := not_isBlank_of_isLegible hleg (Token.not_isSpace_of_isNameChar hname)
      rw [flush_of_isLegible hleg hb, readName, if_neg hc, if_pos hname]
      exact (ih hl hn).map (Token.denull c :: ·)
  | case5 c cs hc hname =>
      have hstop : (c :: cs).head?.any (fun d => !Token.endsName d) = false := by
        show (!(!isNameChar c && c != '\\')) = false
        rw [(Bool.not_eq_true _).mp hname, bne_iff_ne.2 hc]
        rfl
      rw [readName_stop (any_flush rfl hstop)]
      exact .of_flush rfl

end Names

end CssPrune.Text
