import CssPrune.Proofs.Spelling

/-!
# Selector lists read back

A list of selectors is written with commas between and read by cutting at commas.
`settledSelectors` says of each selector what this takes: that it reaches the mark behind it, has no
comma outside its brackets and, unless it is the last, does not end in a block.  `reached_selectors`
is the round trip.
-/

namespace CssPrune

open Text (normalize normalString)

/-- The blank that the pretty layout puts in front of a block. -/
def Layout.gap (l : Layout) : List Char := (l.only " ").toList

theorem Layout.gap_cases (l : Layout) : l.gap = [] ∨ l.gap = [' '] := by
  cases l
  · exact .inl rfl
  · exact .inr rfl

theorem Layout.gap_isSpace (l : Layout) : l.gap.all Token.isSpace = true := by
  cases l <;> rfl

/-- A selector that counts, as it is kept. -/
structure NormalSelector (s : String) : Prop where
  ne_empty : s ≠ ""
  normal : normalize s.toList = s.toList

namespace Text

theorem all_isBlank_of_all_isSpace {s : List Char} (h : s.all Token.isSpace = true) :
    s.all isBlank = true :=
  List.all_eq_true.2 fun c hc => isBlank_of_isSpace (List.all_eq_true.1 h c hc)

/-- A text that squeezing keeps does not begin with a blank. -/
theorem not_isSpace_head {x : List Char} (h : normalize x = x) :
    ∀ c ∈ x.head?, Token.isSpace c = false := by
  intro c hc
  rw [← h] at hc
  cases hs : Token.isSpace c with
  | false => rfl
  | true =>
      have := head?_squeeze_nothing rfl x c hc
      rw [isBlank_of_isSpace hs] at this; cases this

end Text

namespace Component

/-- A lexeme on its own. -/
def isLeaf : Component → Bool
  | .leaf _ => true
  | .block .. => false

/-! ### Segments -/

theorem opening_of_isLeaf {c : Component} (h : c.isLeaf = true) : c.opening = c.text := by
  cases c with
  | leaf x => rfl
  | block opener body closer => cases h

/-- Without a comma there is one segment. -/
theorem segments_of_no_comma {cs : List Component} (h : cs.all (fun c => !c.isComma) = true) :
    segments cs = [textOf cs] := by
  induction cs with
  | nil => rfl
  | cons c cs ih =>
      rw [List.all_cons, Bool.and_eq_true, Bool.not_eq_true'] at h
      have hn : ¬cs.head?.any isComma = true := by
        cases cs with
        | nil => exact Bool.false_ne_true
        | cons d cs =>
            rw [List.all_cons, Bool.and_eq_true, Bool.not_eq_true'] at h
            exact Bool.not_eq_true _ ▸ h.2.1
      rw [segments, if_neg (by rw [h.1]; exact Bool.false_ne_true), if_neg hn, ih h.2]
      rfl

/-- The text in front of a comma is whole unless a block stands directly before the comma. -/
theorem segments_append {cs : List Component} {comma : Component} (hc : comma.isComma = true)
    (h : cs.all (fun c => !c.isComma) = true) (hl : cs.getLast?.all isLeaf = true)
    (rest : List Component) : segments (cs ++ comma :: rest) = textOf cs :: segments rest := by
  have hcomma : segments (comma :: rest) = [] :: segments rest := by rw [segments, if_pos hc]
  induction cs with
  | nil => exact hcomma
  | cons c cs ih =>
      rw [List.all_cons, Bool.and_eq_true, Bool.not_eq_true'] at h
      rw [List.cons_append, segments, if_neg (by rw [h.1]; exact Bool.false_ne_true)]
      cases cs with
      | nil =>
          -- the component in front of the comma: only a block would take the comma with it
          have hleaf : c.isLeaf = true := hl
          rw [List.nil_append, List.head?_cons, Option.any_some, if_pos hc, hcomma,
            opening_of_isLeaf hleaf, textOf, textOf, List.append_nil, List.tail_cons]
      | cons d cs =>
          rw [List.getLast?_cons_cons] at hl
          have hd : ¬d.isComma = true := by
            have := h.2
            rw [List.all_cons, Bool.and_eq_true, Bool.not_eq_true'] at this
            exact Bool.not_eq_true _ ▸ this.1
          rw [List.cons_append, List.head?_cons, Option.any_some, if_neg hd, ← List.cons_append,
            ih h.2 hl]
          rfl

/-! ### Lists of selectors -/

/-- A list of selectors as it is written, with `sep` behind each comma. -/
def selectorText (sep : List Char) : List String → List Char
  | [] => []
  | [s] => s.toList
  | s :: ss => s.toList ++ ',' :: (sep ++ selectorText sep ss)

/-- Each selector of the list reaches the comma or block behind it and is whole in front of it. -/
def settledSelectors (b : Option Bracket) (t : Terminators) (l : Layout) : List String → Bool
  | [] => true
  | [s] =>
    (reach? b t '\x7b' (s.toList ++ l.gap)).any (fun cs => cs.all fun c => !c.isComma) &&
      normalize (s.toList ++ l.gap) = s.toList
  | s :: ss =>
    (reach? b t ',' s.toList).any (fun cs =>
      (cs.all fun c => !c.isComma) && cs.getLast?.all isLeaf) && settledSelectors b t l ss

/-- The components of the first selector. -/
def leading (l : Layout) : List String → List Component
  | [] => []
  | [s] => (front? '\x7b' (s.toList ++ l.gap)).getD []
  | s :: _ => (front? ',' s.toList).getD []

theorem front?_of_reach? {b : Option Bracket} {t : Terminators} {f : Char} {x : List Char}
    {cs : List Component} (h : reach? b t f x = some cs) : front? f x = some cs :=
  (Option.filter_eq_some_iff.1 h).1

/-- The first character of a list of selectors. -/
theorem head?_selectorText {s : String} (h : NormalSelector s) (sep : List Char) (ss : List String)
    (y : List Char) :
    ∃ c, (selectorText sep (s :: ss) ++ y).head? = some c ∧ Token.isSpace c = false := by
  obtain ⟨c, cs, hs⟩ : ∃ c cs, s.toList = c :: cs := by
    cases hl : s.toList with
    | nil => exact absurd (String.ext_iff.2 hl) h.ne_empty
    | cons c cs => exact ⟨c, cs, rfl⟩
  refine ⟨c, ?_, Text.not_isSpace_head h.normal c (by rw [hs]; rfl)⟩
  cases ss <;> simp [selectorText, hs]

/-! ### Blanks between selectors -/

/-- The blank component has the text of the blanks. -/
theorem textOf_blanks (s : List Char) (cs : List Component) :
    textOf (blanks s ++ cs) = s ++ textOf cs := by
  rw [blanks]
  split
  · next h => subst h; rfl
  · rfl

theorem blanks_no_comma (s : List Char) : (blanks s).all (fun c => !c.isComma) = true := by
  rw [blanks]
  split
  · rfl
  · simp [isComma, token]

/-- Blanks in front do not make the last component a block. -/
theorem getLast?_blanks_append (s : List Char) {cs : List Component}
    (h : cs.getLast?.all isLeaf = true) : (blanks s ++ cs).getLast?.all isLeaf = true := by
  cases cs with
  | nil =>
      rw [blanks]
      split <;> rfl
  | cons c cs => rwa [List.getLast?_append_of_ne_nil _ (List.cons_ne_nil _ _)]

/-- Blanks end no statement. -/
theorem ending?_blanks (t : Terminators) (s : List Char) :
    ∀ c ∈ blanks s, t.ending? c = none := by
  rw [blanks]
  split
  · intro c hc; cases hc
  · intro c hc
    rw [List.mem_singleton] at hc
    subst hc
    simp [Terminators.ending?]

/-- A selector, the comma behind it and the rest of the list. -/
theorem Reached.comma {b : Option Bracket} {t : Terminators} {x y sep gap : List Char}
    {cs ds : List Component} (hx : Reached b t ',' x cs) (hsep : sep.all Token.isSpace = true)
    (hfirst : ∀ z, ∃ c, (y ++ z).head? = some c ∧ Token.isSpace c = false)
    (hy : Reached b t '\x7b' (y ++ gap) ds) :
    Reached b t '\x7b' (x ++ ',' :: (sep ++ y) ++ gap)
      (cs ++ .leaf (Lexeme.mark ',') :: (blanks sep ++ ds)) where
  upTo := by
    have hcomma : Spells b (x ++ [',']) (cs ++ [.leaf (Lexeme.mark ',')]) :=
      hx.upTo.append (spells_mark rfl rfl)
    have hrest := hcomma.upTo (hy.upTo.blanks hsep (by rw [List.append_assoc]; exact hfirst _))
    simpa using hrest
  text := by
    have hm : ∀ ds, textOf (.leaf (Lexeme.mark ',') :: ds) = ',' :: textOf ds := fun _ => rfl
    rw [textOf_append, hx.text, hm, textOf_blanks, hy.text]
    simp
  goesOn := by
    intro c hc
    rcases List.mem_append.1 hc with hc | hc
    · exact hx.goesOn c hc
    rcases List.mem_cons.1 hc with rfl | hc
    · have : decide ((Lexeme.mark ',').token = .semicolon) = false := rfl
      simp [Terminators.ending?, this]
    rcases List.mem_append.1 hc with hc | hc
    · exact ending?_blanks t sep c hc
    · exact hy.goesOn c hc

/-- Blanks in front of a selector are gone from its normal form. -/
theorem normalString_blanks {t x : List Char} {s : String} (ht : t.all Token.isSpace = true)
    (hx : normalize x = s.toList) : normalString (t ++ x) = s := by
  rw [normalString, Text.normalize_blanks (Text.all_isBlank_of_all_isSpace ht), hx,
    String.ofList_toList]

/-! ### Cutting what was written -/

/-- A list of selectors is cut at the commas that were written. -/
theorem reached_selectors {b : Option Bracket} {t : Terminators} {l : Layout} {sep : List Char}
    (hsep : sep.all Token.isSpace = true) {ss : List String} (hne : ss ≠ [])
    (hn : ∀ s ∈ ss, NormalSelector s) (h : settledSelectors b t l ss = true) :
    ∃ more, Reached b t '\x7b' (selectorText sep ss ++ l.gap) (leading l ss ++ more) ∧
      (∀ c ∈ more.head?, c.isComma = true) ∧
      ∀ s, s.all Token.isSpace = true →
        (segments (blanks s ++ (leading l ss ++ more))).map normalString = ss := by
  induction ss with
  | nil => exact absurd rfl hne
  | cons s ss ih =>
      have hs := hn s List.mem_cons_self
      cases ss with
      | nil =>
          -- the last selector: nothing comes between it and the block
          rw [settledSelectors, Bool.and_eq_true, Option.any_eq_true] at h
          obtain ⟨⟨cs, hcs, hcomma⟩, hnorm⟩ := h
          have hlead : leading l [s] = cs := by
            rw [leading, front?_of_reach? hcs, Option.getD_some]
          have hr := reached_of_reach? rfl hcs
          rw [hlead]
          refine ⟨[], by rwa [List.append_nil], fun _ h => (by cases h), fun t ht => ?_⟩
          have hfree : (blanks t ++ cs).all (fun c => !c.isComma) = true := by
            rw [List.all_append, blanks_no_comma, hcomma]; rfl
          rw [List.append_nil, segments_of_no_comma hfree, textOf_blanks, hr.text,
            List.map_singleton, normalString_blanks ht (of_decide_eq_true hnorm)]
      | cons s' ss =>
          -- a selector in front of a comma, and the list behind it
          obtain ⟨hreach, hrest⟩ := Bool.and_eq_true_iff.1 h
          obtain ⟨cs, hcs, hall⟩ := (Option.any_eq_true _ _).1 hreach
          rw [Bool.and_eq_true] at hall
          have hlead : leading l (s :: s' :: ss) = cs := by
            show (front? ',' s.toList).getD [] = cs
            rw [front?_of_reach? hcs, Option.getD_some]
          have hr := reached_of_reach? rfl hcs
          obtain ⟨more, hm, -, hseg⟩ := ih (List.cons_ne_nil _ _)
            (fun x hx => hn x (List.mem_cons_of_mem _ hx)) hrest
          rw [hlead]
          refine ⟨.leaf (Lexeme.mark ',') :: (blanks sep ++ (leading l (s' :: ss) ++ more)), ?_,
            fun c hc => Option.some.inj hc ▸ rfl, fun t ht => ?_⟩
          · exact hr.comma hsep (fun z => head?_selectorText (hn s' (by simp)) sep ss z) hm
          · have hfree : (blanks t ++ cs).all (fun c => !c.isComma) = true := by
              rw [List.all_append, blanks_no_comma, hall.1]; rfl
            rw [← List.append_assoc, segments_append rfl hfree (getLast?_blanks_append t hall.2),
              textOf_blanks, hr.text, List.map_cons, hseg sep hsep,
              normalString_blanks ht hs.normal]

end Component

end CssPrune
