import CssPrune.Proofs.Legible

/-!
# Names, dimensions, hashes and addresses in squeezed text

Every token that a name is part of is read from the squeezed text if it is legible: a dimension
(`readNumeric_flush`), a hash (`readHash_flush`), an at-keyword (`readAt_flush`), and an identifier, a
function or the argument of `url(` without quotes (`readNamed_flush`).  Blanks around that argument
may be squeezed; they are no part of its value.
-/

namespace CssPrune.Text

open Token (isSpace isNameChar isNameStart startsNewline startsName startsNumeral readEscape
  readName readNumeral readNumeric readNamed readHash readAt readUrl readUrlEnd readUrlToken)

/-! ### Starts -/

section Starts

variable {cs : List Char}

/-- A hyphen starts a name by what stands behind it. -/
theorem startsName_hyphen (x : List Char) :
    startsName ('-' :: x) = x.head?.any fun d => isNameStart d || d = '-' || d = '\\' := by
  cases x with
  | nil => rfl
  | cons d x => rfl

/-- What can start a name belongs to names. -/
theorem isNameChar_of_start {c : Char} (h : (isNameStart c || c = '-') = true) :
    isNameChar c = true := by
  rw [Bool.or_eq_true] at h
  rw [isNameChar, Bool.or_eq_true, Bool.or_eq_true]
  exact h.imp_left .inl

/-- A name character that a legible name takes in is kept. -/
theorem flush_nameChar {c : Char} (hc : isNameChar c = true)
    (h : LegibleTo false (c :: cs) (readName (c :: cs)).2) :
    flush (c :: cs) = c :: flush cs ∧ LegibleTo false cs (readName cs).2 := by
  have hb : c ≠ '\\' := by rintro rfl; cases hc
  have hread : (readName (c :: cs)).2 = (readName cs).2 := by
    rw [readName, if_neg hb, if_pos hc]
  rw [hread] at h
  obtain ⟨hleg, hl⟩ := h.cons (Token.readName_suffix cs)
  rw [decide_eq_false hb] at hl
  exact ⟨flush_of_isLegible hleg
    (not_isBlank_of_isLegible hleg (Token.not_isSpace_of_isNameChar hc)), hl⟩

/-- What starts a legible name starts one in squeezed text. -/
theorem startsName_flush (h : startsName cs = true) (hl : LegibleTo false cs (readName cs).2) :
    startsName (flush cs) = true := by
  cases cs with
  | nil => cases h
  | cons c cs =>
      by_cases hb : c = '\\'
      · subst hb
        rw [flush, squeeze_backslash]
        show (!startsNewline (flush cs)) = true
        rw [startsNewline_flush]; rfl
      by_cases hm : c = '-'
      · subst hm
        have hm : isNameChar '-' = true := rfl
        obtain ⟨hflush, hl⟩ := flush_nameChar hm hl
        rw [hflush, startsName_hyphen]
        rw [startsName_hyphen] at h
        cases cs with
        | nil => cases h
        | cons d cs =>
            have hd : (isNameStart d || d = '-' || d = '\\') = true := h
            have hkeep : flush (d :: cs) = d :: flush cs := by
              rcases Bool.or_eq_true_iff.1 hd with hn | hback
              · exact (flush_nameChar (isNameChar_of_start hn) hl).1
              · obtain rfl : d = '\\' := of_decide_eq_true hback
                exact squeeze_backslash cs
            rw [hkeep]
            exact hd
      · rw [Token.startsName_cons hm hb] at h
        have hc : isNameChar c = true := isNameChar_of_start (by rw [h]; rfl)
        rw [(flush_nameChar hc hl).1, Token.startsName_cons hm hb, h]

/-- What starts no name starts none in squeezed text, unless a backslash breaks a line. -/
theorem startsName_flush_not (h : startsName cs = false) (hn : NoBreak cs) :
    startsName (flush cs) = false := by
  have hspace : ∀ x : List Char, (∀ c ∈ x.head?, c = ' ') → startsName x = false := by
    intro x hx
    cases x with
    | nil => rfl
    | cons c x => rw [hx c rfl]; rfl
  cases hg : startsGap cs with
  | true =>
      rw [flush_of_startsGap hg]
      exact hspace _ (head?_squeeze_owing rfl cs)
  | false =>
      cases cs with
      | nil => rfl
      | cons c cs =>
          rw [← Bool.not_eq_true, startsGap_iff, not_or, Bool.not_eq_true] at hg
          by_cases hb : c = '\\'
          · subst hb
            have hstart : startsName ('\\' :: cs) = !startsNewline cs := rfl
            rw [hstart, hn cs rfl] at h
            cases h
          by_cases hm : c = '-'
          · subst hm
            rw [flush_steady rfl, startsName_hyphen]
            rw [startsName_hyphen] at h
            exact any_flush rfl h
          · rw [Token.startsName_cons hm hb] at h
            rw [flush, squeeze_visible hg.1 hg.2]
            exact (Token.startsName_cons hm hb _).trans h

/-- Whether a number begins is the same for squeezed text. -/
theorem startsNumeral_flush {c : Char} (cs : List Char) :
    startsNumeral (c :: flush cs) = startsNumeral (c :: cs) := by
  simp only [startsNumeral]
  split
  · exact startsUnsigned_flush cs
  · by_cases hp : c = '.'
    · subst hp
      exact startsDigit_flush cs
    · rw [Token.startsUnsigned_cons hp, Token.startsUnsigned_cons hp]

end Starts

/-! ### Tokens that names are part of -/

section Names

variable {cs : List Char}

/-- **Numbers**, percentages and legible dimensions are read from squeezed text as from the text. -/
theorem readNumeric_flush (h : LegibleTo false cs (readNumeric cs).2)
    (hn : NoBreak (readNumeric cs).2) : Same (readNumeric cs) (readNumeric (flush cs)) := by
  have hnum := commutes_readNumeral cs
  by_cases hp : (readNumeral cs).2.head? = some '%'
  · obtain ⟨v, hv⟩ := List.head?_eq_some_iff.1 hp
    have hv' : (readNumeral (flush cs)).2 = '%' :: flush v := by
      rw [hnum, hv]
      show flush ('%' :: v) = '%' :: flush v
      exact flush_steady rfl v
    rw [Token.readNumeric_percent hv, Token.readNumeric_percent hv', hnum]
    exact .of_flush rfl
  · have hp' : (readNumeral (flush cs)).2.head? ≠ some '%' := by
      rw [hnum]
      intro e
      rcases head?_flush _ _ e with h | ⟨h, -⟩
      · cases h
      · exact hp h
    rw [Token.readNumeric_unit hp] at h hn ⊢
    rw [Token.readNumeric_unit hp', hnum]
    by_cases hs : startsName (readNumeral cs).2 = true
    · rw [if_pos hs] at h hn ⊢
      obtain ⟨u, hu, hall⟩ := Plain.takes_readNumeral cs
      have hunit : LegibleTo false (readNumeral cs).2 (readName (readNumeral cs).2).2 := by
        have h : LegibleTo false cs (readName (readNumeral cs).2).2 := h
        generalize (readNumeral cs).2 = r at *
        subst hu
        refine h.behind (fun hm => ?_) (Token.readName_suffix r)
        cases List.all_eq_true.1 hall _ hm
      rw [if_pos (startsName_flush hs hunit)]
      exact (readName_flush hunit hn).map
        fun n => Token.dimension (readNumeral cs).1 (String.ofList n)
    · rw [if_neg hs] at h hn ⊢
      rw [Bool.not_eq_true] at hs
      rw [if_neg (by rw [startsName_flush_not hs hn]; exact Bool.false_ne_true)]
      exact .of_flush rfl

/-- **Hashes** with legible names are read from squeezed text as from the text. -/
theorem readHash_flush (h : LegibleTo false cs (readHash cs).2) (hn : NoBreak (readHash cs).2) :
    Same (readHash cs) (readHash (flush cs)) := by
  have hdigit : ∀ c : Char, (c.isDigit || c = '-') = true → isSteady c = true := by
    intro c hc
    rcases Bool.or_eq_true_iff.1 hc with hc | hc
    · exact isSteady_of_isDigit hc
    · exact of_decide_eq_true hc ▸ rfl
  have hhead := any_flush_eq hdigit cs
  simp only [readHash] at h hn ⊢
  by_cases hs : startsName cs = true
  · rw [if_pos hs] at h hn ⊢
    rw [if_pos (startsName_flush hs h)]
    exact (readName_flush h hn).map fun n => Token.idHash (String.ofList n)
  rw [if_neg hs] at h hn ⊢
  rw [Bool.not_eq_true] at hs
  rw [hhead]
  by_cases hd : (cs.head?.any fun c => c.isDigit || c = '-') = true
  · have hnb : NoBreak cs := by
      rintro ds rfl
      cases hd
    rw [if_pos hd] at h hn ⊢
    rw [if_neg (by rw [startsName_flush_not hs hnb]; exact Bool.false_ne_true), if_pos hd]
    exact (readName_flush h hn).map fun n => Token.hash (String.ofList n)
  · rw [if_neg hd] at h hn ⊢
    rw [if_neg (by rw [startsName_flush_not hs hn]; exact Bool.false_ne_true), if_neg hd]
    exact .of_flush rfl

/-- **At-keywords** are read from squeezed text as from the text. -/
theorem readAt_flush (h : LegibleTo false cs (readAt cs).2) (hn : NoBreak (readAt cs).2) :
    Same (readAt cs) (readAt (flush cs)) := by
  simp only [readAt] at h hn ⊢
  by_cases hs : startsName cs = true
  · rw [if_pos hs] at h hn ⊢
    rw [if_pos (startsName_flush hs h)]
    exact (readName_flush h hn).map fun n => Token.atKeyword (String.ofList n)
  · rw [if_neg hs] at h hn ⊢
    rw [Bool.not_eq_true] at hs
    rw [if_neg (by rw [startsName_flush_not hs hn]; exact Bool.false_ne_true)]
    exact .of_flush rfl

end Names

/-! ### Arguments of `url(` -/

section Urls

variable {cs rest : List Char}

/-- Blanks in front of a text are gone from its normal form. -/
theorem normalize_dropWhile (cs : List Char) : normalize (cs.dropWhile isSpace) = normalize cs := by
  have hall : (cs.takeWhile isSpace).all isSpace = true := List.all_takeWhile
  conv_rhs => rw [← List.takeWhile_append_dropWhile (p := isSpace) (l := cs),
    normalize_blanks (all_isBlank_of_all_isSpace hall)]

/-- No space begins a normal form. -/
theorem dropWhile_normalize (cs : List Char) :
    (normalize cs).dropWhile isSpace = normalize cs := by
  cases hd : normalize cs with
  | nil => rfl
  | cons c x =>
      have hb := head?_normalize cs c (by rw [hd]; rfl)
      exact List.dropWhile_cons_of_neg (Bool.eq_false_iff.1 (not_isSpace_of_not_isBlank hb))

/-- Without the space in front, squeezed text is in normal form. -/
theorem dropWhile_flush (cs : List Char) : (flush cs).dropWhile isSpace = normalize cs := by
  rcases flush_eq cs with h | h
  · rw [h, dropWhile_normalize]
  · rw [h, List.dropWhile_cons_of_pos rfl, dropWhile_normalize]

/-- The end of an argument, behind a blank, is the end in the normal form. -/
theorem readUrlEnd_normalize (h : readUrlEnd cs = (.closed, rest)) :
    readUrlEnd (normalize cs) = (.closed, flush rest) ∧
      readUrl (normalize cs) = ([], .closed, flush rest) := by
  rw [readUrlEnd] at h
  rw [← normalize_dropWhile]
  cases hcs : cs.dropWhile isSpace with
  | nil =>
      rw [hcs] at h
      cases h
      exact ⟨rfl, by rw [normalize, squeeze, readUrl]; rfl⟩
  | cons c ds =>
      rw [hcs] at h
      have h : (if c = ')' then (Token.UrlEnd.closed, ds) else (.bad, ds)) = (.closed, rest) := h
      by_cases hc : c = ')'
      · subst hc
        cases h
        rw [normalize_visible rfl rfl fun e => by cases e.1]
        exact ⟨rfl, by rw [readUrl, if_pos rfl]⟩
      · rw [if_neg hc] at h
        cases h

theorem readUrl_space {c : Char} (hs : isSpace c = true) (cs : List Char) :
    readUrl (c :: cs) = ([], readUrlEnd cs) := by
  have hp : c ≠ ')' := by rintro rfl; cases hs
  rw [readUrl, if_neg hp, if_pos hs]

/-- Reading an argument takes at least one character. -/
theorem readUrl_shorter (c : Char) (cs : List Char) : (readUrl (c :: cs)).2.2 <:+ cs := by
  rw [readUrl]
  split
  · exact List.suffix_refl _
  split
  · exact Token.readUrlEnd_suffix cs
  split
  · exact List.suffix_refl _
  split
  · split
    · exact List.suffix_refl _
    · exact (Token.readUrl_suffix _).trans (Token.readEscape_suffix cs)
  · exact Token.readUrl_suffix cs

/-- A gap in a legible argument is in front of its end. -/
theorem readUrl_gap (hg : startsGap cs = true) (h : (readUrl cs).2 = (.closed, rest))
    (hl : LegibleTo false cs rest) :
    readUrl (normalize cs) = ((readUrl cs).1, .closed, flush rest) := by
  cases cs with
  | nil => cases hg
  | cons c cs =>
      have hs : rest <:+ cs := by
        have := readUrl_shorter c cs
        rwa [h] at this
      have hleg := isLegible_iff.1 (hl.cons hs).1
      have hb : isBlank c = true := (startsGap_iff.1 hg).resolve_right hleg.2.1
      have hspace := (hleg.2.2 rfl).1 hb
      rw [readUrl_space hspace] at h ⊢
      rw [normalize, squeeze_blank hb]
      exact (readUrlEnd_normalize h).2

/-- A legible argument without quotes is read from the squeezed text. -/
theorem readUrl_flush (h : (readUrl cs).2 = (.closed, rest)) (hl : LegibleTo false cs rest) :
    readUrl (flush cs) = ((readUrl cs).1, .closed, flush rest) := by
  fun_induction readUrl cs with
  | case1 =>
      cases h
      rw [flush, squeeze, readUrl]
  | case2 cs =>
      cases h
      rw [flush_steady rfl, readUrl, if_pos rfl]
  | case3 c cs hp hs =>
      have hnorm : normalize (c :: cs) = normalize cs := squeeze_blank (isBlank_of_isSpace hs)
      obtain ⟨hend, hurl⟩ := readUrlEnd_normalize h
      rcases flush_eq (c :: cs) with hf | hf
      · rw [hf, hnorm, hurl]
      · rw [hf, hnorm, readUrl_space rfl, hend]
  | case4 => cases h
  | case5 => cases h
  -- a gap behind an escape is in front of the parenthesis, which does not go on with the escape
  | case6 cs hnew e u hp hs hu ih =>
      have hsuf : rest <:+ e.2 := by
        have := Token.readUrl_suffix e.2
        rwa [show (readUrl e.2).2 = _ from h] at this
      obtain ⟨hleg, hl⟩ := hl.cons (hsuf.trans (Token.readEscape_suffix cs))
      have he := readEscape_flush (((isLegible_iff.1 hleg).2.2 rfl).2 rfl) hl hsuf
      have hl := hl.behind_escape hsuf
      have hleft : readUrl (readEscape (flush cs)).2 = (u.1, .closed, flush rest) := by
        cases hg : startsGap e.2 with
        | false => rw [he.2.eq_flush hg, ih h hl]
        | true =>
            rcases he.2 with hf | ⟨hf, -⟩
            · rw [hf, ih h hl]
            · rw [hf, readUrl_gap hg h hl]
      rw [flush_of_isLegible hleg rfl, readUrl, if_neg hp, if_neg hs, if_neg hu, if_pos rfl,
        if_neg (by rw [startsNewline_flush]; exact Bool.false_ne_true)]
      simp only [hleft, he.1]
      rfl
  | case7 c cs hp hs hu hb u ih =>
      have hsuf : rest <:+ cs := by
        have := Token.readUrl_suffix cs
        rwa [show (readUrl cs).2 = _ from h] at this
      obtain ⟨hleg, hl⟩ := hl.cons hsuf
      rw [decide_eq_false hb] at hl
      rw [flush_of_isLegible hleg (not_isBlank_of_isLegible hleg ((Bool.not_eq_true _).mp hs)),
        readUrl, if_neg hp, if_neg hs, if_neg hu, if_neg hb]
      simp only [ih h hl]
      rfl

/-- A quote within the argument spoils the address. -/
theorem readUrl_quote {c : Char} (hq : isQuote c = true) (cs : List Char) :
    readUrl (c :: cs) = ([], .bad, cs) := by
  rcases (by simpa [isQuote] using hq : c = '"' ∨ c = '\'') with rfl | rfl <;>
    rw [readUrl] <;> rfl

theorem isQuote_of_head {x : List Char} (h : x.head? = some '"' ∨ x.head? = some '\'') :
    ∃ q ds, x = q :: ds ∧ isQuote q = true := by
  rcases h with h | h <;> obtain ⟨ds, rfl⟩ := List.head?_eq_some_iff.1 h
  · exact ⟨'"', ds, rfl, rfl⟩
  · exact ⟨'\'', ds, rfl, rfl⟩

/-- A legible argument without quotes has none in the normal form. -/
theorem readUrlToken_flush {value : String} (h : readUrlToken cs = some (.url value, rest))
    (hl : LegibleTo false cs rest) : readUrlToken (flush cs) = some (.url value, flush rest) := by
  rw [Token.readUrlToken_eq] at h ⊢
  rw [dropWhile_flush, ← normalize_dropWhile]
  rw [← List.takeWhile_append_dropWhile (p := isSpace) (l := cs)] at hl
  have hspace : '\\' ∉ cs.takeWhile isSpace := fun hm =>
    (by cases List.all_eq_true.1 (List.all_takeWhile (l := cs) (p := isSpace)) _ hm)
  generalize cs.dropWhile isSpace = arg at h hl ⊢
  split at h
  · cases h
  cases hu : readUrl arg with
  | mk value' u =>
      obtain ⟨k, left⟩ := u
      rw [hu] at h
      cases k with
      | bad => cases h
      | closed =>
          cases h
          have hend : (readUrl arg).2 = (.closed, rest) := by rw [hu]
          have hsuf : rest <:+ arg := by
            have := Token.readUrl_suffix arg
            rwa [hend] at this
          have hl := hl.behind hspace hsuf
          have hread : readUrl (normalize arg) = (value', .closed, flush rest) := by
            have hvalue : value' = (readUrl arg).1 := by rw [hu]
            rw [hvalue]
            cases hg : startsGap arg with
            | true => exact readUrl_gap hg hend hl
            | false =>
                rw [← flush_of_not_startsGap hg]
                exact readUrl_flush hend hl
          -- an argument that begins with a quote is not read to its end
          rw [if_neg, hread]
          · rfl
          · intro hq
            obtain ⟨q, ds, hds, hq⟩ := isQuote_of_head hq
            rw [hds, readUrl_quote hq] at hread
            cases hread

/-- Where an argument without quotes is read, an address comes out, spoiled or not. -/
theorem readUrlToken_kind {t : Token × List Char} (h : readUrlToken cs = some t) :
    (∃ value, t.1 = .url value) ∨ ∃ text, t.1 = .badUrl text := by
  rw [Token.readUrlToken_eq] at h
  split at h
  · cases h
  · cases h
    rcases readUrl (cs.dropWhile isSpace) with ⟨value, _ | _, left⟩
    · exact .inl ⟨_, rfl⟩
    · exact .inr ⟨_, rfl⟩

/-- A quoted argument is quoted in the normal form. -/
theorem readUrlToken_flush_none (h : readUrlToken cs = none) : readUrlToken (flush cs) = none := by
  rw [Token.readUrlToken_eq] at h ⊢
  rw [dropWhile_flush, ← normalize_dropWhile]
  split at h
  · next hq =>
      obtain ⟨q, ds, hds, hquote⟩ := isQuote_of_head hq
      rw [hds] at hq ⊢
      rw [normalize, squeeze_visible (not_isBlank_of_isQuote hquote) fun e => by
        rw [e.1] at hquote; cases hquote]
      exact if_pos hq
  · cases h

end Urls

section Named

variable {cs rest : List Char}

/-- What is legible is so behind the name at its head. -/
theorem LegibleTo.behind_name (h : LegibleTo false cs rest) (hs : rest <:+ (readName cs).2) :
    LegibleTo false (readName cs).2 rest := by
  fun_induction readName cs with
  | case1 => exact h
  | case2 => exact h
  | case3 cs hnew e n ih =>
      have he : rest <:+ e.2 := hs.trans (Token.readName_suffix e.2)
      have h := (h.cons (he.trans (Token.readEscape_suffix cs))).2
      exact ih (h.behind_escape he) hs
  | case4 c cs hc hname n ih =>
      have h := (h.cons (hs.trans (Token.readName_suffix cs))).2
      rw [decide_eq_false hc] at h
      exact ih h hs
  | case5 => exact h

/-- No bracket opens in squeezed text where none opens in the text. -/
theorem Follows.head?_ne_paren {left : List Char} (h : Follows left rest)
    (hr : rest.head? ≠ some '(') : left.head? ≠ some '(' := by
  have hflush : (flush rest).head? ≠ some '(' := mt (head?_flush_eq rfl rest).1 hr
  cases hg : startsGap rest with
  | false => rwa [h.eq_flush hg]
  | true =>
      rcases h with rfl | ⟨rfl, hset⟩
      · exact hflush
      · exact (not_goesOn hset hg).2

/-- **Identifiers, functions and addresses** are read from squeezed text as from the text. -/
theorem readNamed_flush (h : LegibleTo false cs (readNamed cs).2) (hn : NoBreak (readNamed cs).2)
    (hbad : ∀ text, (readNamed cs).1 ≠ .badUrl text) : Same (readNamed cs) (readNamed (flush cs)) := by
  by_cases hp : (readName cs).2.head? = some '('
  · obtain ⟨r, hr⟩ := List.head?_eq_some_iff.1 hp
    have hname : Same (readName cs) (readName (flush cs)) :=
      readName_flush (h.upTo (Token.readName_suffix cs) (Token.readNamed_suffix cs))
        (hr ▸ noBreak_cons (by decide) r)
    have hleft : (readName (flush cs)).2 = '(' :: flush r := by
      rw [hname.2.eq_flush (by rw [hr]; rfl), hr, flush_steady rfl]
    have hl := h.behind_name (Token.readNamed_suffix cs)
    rw [hr] at hl
    rw [Token.readNamed_paren hr] at hbad hl ⊢
    rw [Token.readNamed_paren hleft, hname.1]
    split
    · next hurl =>
        rw [if_pos hurl] at hbad hl
        cases ht : readUrlToken r with
        | none =>
            rw [readUrlToken_flush_none ht]
            exact .of_flush rfl
        | some t =>
            obtain ⟨t, left⟩ := t
            rw [ht] at hbad hl
            have hsuf := Token.readUrlToken_suffix ht
            obtain ⟨value, rfl⟩ : ∃ value, t = .url value :=
              (readUrlToken_kind ht).resolve_right fun ⟨text, e⟩ => hbad text e
            rw [readUrlToken_flush ht (hl.cons hsuf).2]
            exact .of_flush rfl
    · exact .of_flush rfl
  · rw [Token.readNamed_ident hp] at h hn ⊢
    have hname : Same (readName cs) (readName (flush cs)) := readName_flush h hn
    rw [Token.readNamed_ident (hname.2.head?_ne_paren hp)]
    exact hname.map fun n => Token.ident (String.ofList n)

end Named

end CssPrune.Text
