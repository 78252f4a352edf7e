import CssPrune.Proofs.Analysis

/-!
# Selectors whose names are all found

Selectors made of compounds (`Complex`): types, classes, ids, pseudo-classes and pseudo-elements without
arguments, and negations of lists of such.  The text of such a selector has no brackets and no values in
quotes, so that what stands outside of the negations is taken apart exactly.

`Scanned` says of a part of the text what is left of it without its negations, which hooks the search
finds there, and which hook is the anchor if it reaches one; it composes (`Scanned.append`), so it holds of
the text of the selector (`Complex.scanned`).  `analyze_complex`: the analysis finds the first class or id
if nothing but letters and blanks stands in front of it, and otherwise all of them outside of negations.
-/

namespace CssPrune.Selector

/-! ### Selectors -/

/-- The name of a type. -/
structure Tag where
  text : List Char
  starts : text.head?.any Char.isAlpha = true
  letters : text.all Char.isAlphanum = true

/-- A pseudo-class, or a pseudo-element under two colons. -/
structure Pseudo where
  isElement : Bool
  word : List Char
  letters : (word.all fun c => c.isAlpha || c = '-') = true

/-- The test of a type, or the star that takes all of them. -/
inductive Kind where
  | universal
  | tag (t : Tag)

/-- What is demanded of an element besides its type. -/
inductive Feature where
  | hasClass (n : Name)
  | hasId (n : Name)
  | pseudo (p : Pseudo)

/-- A simple selector within a negation. -/
inductive Denied where
  | kind (k : Kind)
  | feature (f : Feature)

/-- No name has a closing parenthesis. -/
def Denied.parenFree : Denied → Bool
  | .kind _ | .feature (.pseudo _) => true
  | .feature (.hasClass n) | .feature (.hasId n) => n.parenFree

/-- A feature that is demanded, or a negation of a list whose names have no closing parenthesis. -/
inductive Part where
  | feature (f : Feature)
  | not (list : List Denied) (free : list.all Denied.parenFree = true)

/-- What one element has to be: a type and any number of parts. -/
structure Compound where
  kind : Option Kind
  parts : List Part

/-- Compounds with combinators between. -/
structure Complex where
  first : Compound
  rest : List (Combinator × Compound)

/-! ### Their texts -/

def Pseudo.text (p : Pseudo) : List Char := (if p.isElement then [':'] else []) ++ ':' :: p.word

/-- The star, or the name of the type. -/
def Kind.text : Kind → List Char
  | .universal => ['*']
  | .tag t => t.text

/-- The mark of the feature and its name. -/
def Feature.text : Feature → List Char
  | .hasClass n => '.' :: n.written
  | .hasId n => '#' :: n.written
  | .pseudo p => p.text

def Denied.text : Denied → List Char
  | .kind k => k.text
  | .feature f => f.text

/-- A list within a negation, with a comma and a space between. -/
def Denied.listText (ds : List Denied) : List Char := [',', ' '].intercalate (ds.map Denied.text)

/-- A feature, or `:not(` with its list. -/
def Part.text : Part → List Char
  | .feature f => f.text
  | .not list _ => negation ++ (Denied.listText list ++ [')'])

/-- The type first, then the parts. -/
def Compound.text (c : Compound) : List Char := c.kind.elim [] Kind.text ++ c.parts.flatMap Part.text

/-- The compounds with their combinators, written with spaces around. -/
def Complex.text (s : Complex) : List Char :=
  s.first.text ++ s.rest.flatMap fun kc => kc.1.text .pretty ++ kc.2.text

/-! ### Their names -/

/-- A class or an id has its own name; a pseudo-class has none. -/
def Feature.hooks : Feature → List (Char × String)
  | .hasClass n => [('.', n.text)]
  | .hasId n => [('#', n.text)]
  | .pseudo _ => []

/-- A negation demands no name. -/
def Part.hooks : Part → List (Char × String)
  | .feature f => f.hooks
  | .not _ _ => []

/-- The classes and ids outside of negations, in order. -/
def Compound.hooks (c : Compound) : List (Char × String) := c.parts.flatMap Part.hooks

/-- The classes and ids outside of negations, in order. -/
def Complex.hooks (s : Complex) : List (Char × String) :=
  s.first.hooks ++ s.rest.flatMap fun kc => kc.2.hooks

/-! ### Texts that are taken apart -/

/-- The text `u` is what taking out the negations leaves of `t`, the hooks in it are `hs`, and the first
of them is the anchor if the search for one comes to a mark in `t`. -/
structure Scanned (t u : List Char) (hs : List (Char × String)) : Prop where
  drop : ∀ y, Front y → dropNegations (t ++ y) = u ++ dropNegations y
  hooks : ∀ y, Stops y → hooks (u ++ y) = hs ++ hooks y
  reach : ∀ y m r, Front y → Reaches (t ++ y) m r →
    (hs = [] ∧ Reaches y m r) ∨ (hs.head? = some (m, nameAt r) ∧ 0 < identLength r)

/-- Such a text behind another one: no identifier in front goes on with it. -/
structure Follows (t u : List Char) (hs : List (Char × String)) : Prop extends Scanned t u hs where
  front : ∀ y, Front y → Front (t ++ y)
  opens : Opens u

section Scanned

variable {t t' u u' : List Char} {hs hs' : List (Char × String)}

/-- A text with such a text behind it is taken apart into what the two are. -/
theorem Scanned.append (h : Scanned t u hs) (h' : Follows t' u' hs') :
    Scanned (t ++ t') (u ++ u') (hs ++ hs') where
  drop y hy := by
    rw [List.append_assoc, h.drop _ (h'.front y hy), h'.drop y hy, List.append_assoc]
  hooks y hy := by
    rw [List.append_assoc, h.hooks _ (h'.opens y hy), h'.hooks y hy, List.append_assoc]
  reach y m r hy hr := by
    rw [List.append_assoc] at hr
    rcases h.reach _ m r (h'.front y hy) hr with ⟨rfl, hr⟩ | ⟨hhead, hpos⟩
    · rw [List.nil_append]
      exact h'.reach y m r hy hr
    · refine .inr ⟨?_, hpos⟩
      rw [List.head?_append, hhead, Option.some_or]

theorem Follows.append (h : Follows t u hs) (h' : Follows t' u' hs') :
    Follows (t ++ t') (u ++ u') (hs ++ hs') where
  toScanned := h.toScanned.append h'
  front y hy := by
    rw [List.append_assoc]
    exact h.front _ (h'.front y hy)
  opens := h.opens.append h'.opens

theorem Follows.nil : Follows [] [] [] where
  drop _ _ := rfl
  hooks _ _ := rfl
  reach _ _ _ _ hr := .inl ⟨rfl, hr⟩
  front _ hy := hy
  opens := .nil

/-- Any number of texts that can stand behind others can stand so together. -/
theorem Follows.flatMap {α : Type} {text : α → List Char} {names : α → List (Char × String)}
    (h : ∀ x, ∃ u, Follows (text x) u (names x)) (xs : List α) :
    ∃ u, Follows (xs.flatMap text) u (xs.flatMap names) := by
  induction xs with
  | nil => exact ⟨[], .nil⟩
  | cons x xs ih =>
      obtain ⟨u, hu⟩ := h x
      obtain ⟨v, hv⟩ := ih
      rw [List.flatMap_cons, List.flatMap_cons]
      exact ⟨u ++ v, hu.append hv⟩

/-- No anchor stands in a text without marks. -/
theorem Reaches.unmarked {y r : List Char} {m : Char} (ht : t.any isMark = false)
    (h : Reaches (t ++ y) m r) : Reaches y m r := by
  induction t with
  | nil => exact h
  | cons c t ih =>
      rw [List.any_cons, Bool.or_eq_false_iff] at ht
      rcases Reaches.cons h with ⟨rfl, -⟩ | ⟨-, h⟩
      · rw [h.mark] at ht
        cases ht.1
      · exact ih ht.2 h

/-- A text without marks that stays as it is. -/
theorem Scanned.unmarked (hd : ∀ y, Front y → dropNegations (t ++ y) = t ++ dropNegations y)
    (hm : t.any isMark = false) : Scanned t t [] where
  drop := hd
  hooks y _ := hooks_unmarked hm y
  reach _ _ _ _ hr := .inl ⟨rfl, hr.unmarked hm⟩

theorem Inert.scanned (h : Inert t) : Scanned t t [] :=
  .unmarked (fun y _ => dropNegations_append h.colon y) h.mark

end Scanned

/-! ### Parts of a selector -/

theorem Inert.append {p q : List Char} (hp : Inert p) (hq : Inert q) : Inert (p ++ q) where
  colon := by simp [hp.colon, hq.colon]
  paren := by simp [hp.paren, hq.paren]
  backslash := by simp [hp.backslash, hq.backslash]
  mark := by simp [hp.mark, hq.mark]

/-- Letters, digits and hyphens. -/
theorem inert_of_all {p : List Char} (h : (p.all fun c => c.isAlphanum || c = '-') = true) :
    Inert p := by
  have hne : ∀ d : Char, (d.isAlphanum || d = '-') = false → d ∉ p := fun d hd hm => by
    rw [List.all_eq_true.1 h d hm] at hd
    cases hd
  refine ⟨hne _ rfl, hne _ rfl, hne _ rfl, List.any_eq_false.2 fun c hc hm => ?_⟩
  rcases isMark_cases hm with rfl | rfl
  · exact hne _ rfl hc
  · exact hne _ rfl hc

/-- The test of a type is inert. -/
theorem Kind.inert (k : Kind) : Inert k.text := by
  cases k with
  | universal => exact ⟨by decide, by decide, by decide, rfl⟩
  | tag t =>
      refine inert_of_all (List.all_eq_true.2 fun c hc => ?_)
      rw [List.all_eq_true.1 t.letters c hc, Bool.true_or]

theorem inert_kind (kind : Option Kind) : Inert (kind.elim [] Kind.text) := by
  cases kind with
  | none => exact ⟨by decide, by decide, by decide, rfl⟩
  | some k => exact k.inert

theorem Pseudo.inert_word (p : Pseudo) : Inert p.word := by
  refine inert_of_all (List.all_eq_true.2 fun c hc => ?_)
  have hl := List.all_eq_true.1 p.letters c hc
  rw [Bool.or_eq_true] at hl ⊢
  exact hl.imp_left fun ha => Bool.or_eq_true_iff.2 (.inl ha)

/-- The word of a pseudo-class is its own spelling. -/
theorem Pseudo.spelling_word (p : Pseudo) : Spelling p.word p.word := by
  have hall : ∀ c ∈ p.word, isIdentChar c = true := by
    intro c hc
    have hl := List.all_eq_true.1 p.letters c hc
    rw [Bool.or_eq_true, decide_eq_true_eq] at hl
    rcases hl with ha | rfl
    · simp [isIdentChar, Char.isAlphanum, ha]
    · rfl
  generalize p.word = w at hall
  induction w with
  | nil => exact .nil
  | cons c w ih =>
      exact .cons (.plain (hall c List.mem_cons_self)) (ih fun d hd => hall d (List.mem_cons_of_mem _ hd))

theorem Pseudo.exists_cons (p : Pseudo) : ∃ w, p.text = ':' :: w := by
  rw [Pseudo.text]
  split
  · exact ⟨_, rfl⟩
  · exact ⟨_, rfl⟩

theorem Pseudo.unmarked (p : Pseudo) : p.text.any isMark = false := by
  rw [Pseudo.text, List.any_append, List.any_cons, p.inert_word.mark]
  split <;> rfl

/-- No negation begins at a colon in front of a word, for no parenthesis follows. -/
theorem Pseudo.dropNegations_word (p : Pseudo) {y : List Char} (hy : Front y) :
    dropNegations (':' :: (p.word ++ y)) = ':' :: (p.word ++ dropNegations y) := by
  rw [dropNegations_cons, dropNegations_append p.inert_word.colon]
  intro hpre
  exact p.spelling_word.not_prefix hy (w := ['n', 'o', 't']) rfl (List.cons_prefix_cons.1 hpre).2

/-- A pseudo-class without arguments begins no negation. -/
theorem Pseudo.dropNegations (p : Pseudo) {y : List Char} (hy : Front y) :
    dropNegations (p.text ++ y) = p.text ++ Selector.dropNegations y := by
  rw [Pseudo.text]
  split
  -- the first of two colons
  · have hcolon : ¬negation <+: ':' :: ':' :: (p.word ++ y) := by
      intro hpre
      cases (List.cons_prefix_cons.1 (List.cons_prefix_cons.1 hpre).2).1
    exact (dropNegations_cons hcolon).trans (congrArg _ (p.dropNegations_word hy))
  · exact p.dropNegations_word hy

/-- A pseudo-class can stand behind any text, and no hook is in it. -/
theorem Pseudo.follows (p : Pseudo) : Follows p.text p.text [] := by
  obtain ⟨w, hw⟩ := p.exists_cons
  refine ⟨.unmarked (fun y hy => p.dropNegations hy) p.unmarked, fun y _ => ?_, ?_⟩
  · rw [hw]
    exact .cons rfl (by decide) (by decide) _
  · rw [hw]
    exact .cons rfl (by decide) w

/-- A mark and a name are a hook, and the anchor if the search for one comes here. -/
theorem follows_hook {m : Char} (hm : isMark m = true) (n : Name) :
    Follows (m :: n.written) (m :: n.written) [(m, n.text)] where
  drop := (taken_hook hm n).drop
  hooks y hy := by
    rw [List.cons_append, hooks, if_pos ⟨hm, n.identLength_pos hy⟩, n.nameAt_written hy,
      n.spelling.identLength hy, List.drop_left]
    rfl
  reach y m' r hy hr := by
    rw [List.cons_append] at hr
    rcases hr.cons with ⟨rfl, rfl⟩ | ⟨ha, -⟩
    · refine .inr ⟨?_, n.identLength_pos hy.1⟩
      rw [n.nameAt_written hy.1]
      rfl
    · rcases isMark_cases hm with rfl | rfl <;> cases ha
  front y _ := by
    rcases isMark_cases hm with rfl | rfl
    · exact .cons rfl (by decide) (by decide) _
    · exact .cons rfl (by decide) (by decide) _
  opens := by
    rcases isMark_cases hm with rfl | rfl
    · exact .cons rfl (by decide) _
    · exact .cons rfl (by decide) _

/-- A feature can stand behind any text, and its name is the one hook in it. -/
theorem Feature.follows (f : Feature) : Follows f.text f.text f.hooks := by
  cases f with
  | hasClass n => exact follows_hook rfl n
  | hasId n => exact follows_hook rfl n
  | pseudo p => exact p.follows

/-! ### Negations -/

/-- What is free of parentheses is written without a closing one. -/
theorem Denied.not_mem_text {d : Denied} (h : d.parenFree = true) : ')' ∉ d.text := by
  cases d with
  | kind k => exact k.inert.paren
  | feature f =>
      cases f with
      | hasClass n => exact not_mem_cons_written (by decide) h
      | hasId n => exact not_mem_cons_written (by decide) h
      | pseudo p =>
          have hword := p.inert_word.paren
          rw [Denied.text, Feature.text, Pseudo.text]
          split <;> simp [hword]

/-- A list of what is free of parentheses is written without a closing one. -/
theorem Denied.not_mem_listText {ds : List Denied} (h : ds.all Denied.parenFree = true) :
    ')' ∉ Denied.listText ds := by
  rw [Denied.listText]
  induction ds with
  | nil => exact List.not_mem_nil
  | cons d ds ih =>
      rw [List.all_cons, Bool.and_eq_true] at h
      have hd := Denied.not_mem_text h.1
      cases ds with
      | nil => rwa [List.map_cons, List.map_nil, List.intercalate_singleton]
      | cons e ds =>
          rw [List.map_cons, List.map_cons, List.intercalate_cons_cons, List.mem_append, List.mem_append]
          rintro ((hm | hm) | hm)
          · exact hd hm
          · revert hm; decide
          · exact ih h.2 hm

/-- A negation goes up to its own parenthesis, and nothing is left of it. -/
theorem Part.follows (p : Part) : ∃ u, Follows p.text u p.hooks := by
  cases p with
  | feature f => exact ⟨f.text, f.follows⟩
  | not list free =>
      refine ⟨[], ⟨fun y _ => ?_, fun _ _ => rfl, fun y m r _ hr => ?_⟩, fun y _ => ?_, .nil⟩
      · rw [Part.text, List.append_assoc, dropNegations_negation (by simp), List.append_assoc,
          behind_append (Denied.not_mem_listText free)]
        exact behind_close y
      · exact (hr.absurd_cons rfl (by decide)).elim
      · exact .cons rfl (by decide) (by decide) _

/-! ### Whole selectors -/

/-- A compound has the hooks of its features. -/
theorem Compound.scanned (c : Compound) : ∃ u, Scanned c.text u c.hooks := by
  obtain ⟨u, hu⟩ := Follows.flatMap Part.follows c.parts
  exact ⟨_, (inert_kind c.kind).scanned.append hu⟩

/-- A compound behind a combinator. -/
theorem Compound.follows (kc : Combinator × Compound) :
    ∃ u, Follows (kc.1.text .pretty ++ kc.2.text) u kc.2.hooks := by
  obtain ⟨k, c⟩ := kc
  obtain ⟨u, hu⟩ := Follows.flatMap Part.follows c.parts
  have hk : Follows (k.text .pretty ++ c.kind.elim [] Kind.text)
      (k.text .pretty ++ c.kind.elim [] Kind.text) [] := by
    refine ⟨(k.inert.append (inert_kind c.kind)).scanned, fun y _ => ?_, k.opens _⟩
    rw [List.append_assoc]
    exact k.front
  have h := hk.append hu
  rw [List.append_assoc] at h
  exact ⟨_, h⟩

/-- A selector has the hooks of its compounds, in order. -/
theorem Complex.scanned (s : Complex) : ∃ u, Scanned s.text u s.hooks := by
  obtain ⟨u, hu⟩ := s.first.scanned
  obtain ⟨v, hv⟩ := Follows.flatMap Compound.follows s.rest
  exact ⟨u ++ v, hu.append hv⟩

/-! ### The analysis -/

/-- Nothing but letters and blanks stands in front of the first mark. -/
def anchored (t : List Char) : Bool := (t.takeWhile fun c => !isMark c).all isAnchorChar

theorem not_isAnchorChar_of_isMark {c : Char} (h : isMark c = true) : isAnchorChar c = false := by
  rcases isMark_cases h with rfl | rfl <;> decide

/-- A text that reaches a mark is anchored. -/
theorem Reaches.anchored {t r : List Char} {m : Char} (h : Reaches t m r) : anchored t = true := by
  obtain ⟨⟨x, rfl, hx⟩, hm⟩ := h
  have hall : ∀ c ∈ x, (!isMark c) = true := fun c hc => by
    rw [Bool.not_eq_true', ← Bool.not_eq_true]
    intro hmark
    have ha := List.all_eq_true.1 hx c hc
    rw [not_isAnchorChar_of_isMark hmark] at ha
    cases ha
  rw [Selector.anchored, List.takeWhile_append_of_pos hall, List.takeWhile_cons_of_neg (by simp [hm]),
    List.append_nil]
  exact hx

/-- The anchor is the name behind the mark that the text reaches. -/
theorem anchor?_of_reaches {t r : List Char} {m : Char} (h : Reaches t m r) (hr : 0 < identLength r) :
    anchor? t = some (m, nameAt r) := by
  obtain ⟨⟨x, rfl, hx⟩, hm⟩ := h
  have hneg : ¬isAnchorChar m = true := by
    rw [not_isAnchorChar_of_isMark hm]
    exact Bool.false_ne_true
  rw [anchor?, List.dropWhile_append_of_pos (List.all_eq_true.1 hx), List.dropWhile_cons_of_neg hneg]
  exact if_pos ⟨hm, hr⟩

/-- Where nothing but letters and blanks stands in front of the first mark, there is no mark, or one is
reached. -/
theorem exists_of_anchored {t : List Char} (h : anchored t = true) :
    t.all isAnchorChar = true ∨ ∃ m r, Reaches t m r := by
  have hsplit := List.takeWhile_append_dropWhile (p := fun c => !isMark c) (l := t)
  cases hd : t.dropWhile fun c => !isMark c with
  | nil =>
      rw [hd, List.append_nil] at hsplit
      rw [anchored, hsplit] at h
      exact .inl h
  | cons m r =>
      have hm := List.head?_dropWhile_not (fun c => !isMark c) t
      rw [hd] at hsplit hm
      exact .inr ⟨m, r, ⟨_, hsplit.symm, h⟩, by simpa using hm⟩

theorem not_isAnchorChar_colon : isAnchorChar ':' = false := by decide

/-- No hook stands among letters and blanks. -/
theorem hooks_of_all_isAnchorChar {t : List Char} (h : t.all isAnchorChar = true) :
    hooks (dropNegations t) = [] := by
  have hall := List.all_eq_true.1 h
  have hcolon : ':' ∉ t := fun hm => by
    have ha := hall _ hm
    rw [not_isAnchorChar_colon] at ha
    cases ha
  have hmark : t.any isMark = false := List.any_eq_false.2 fun c hc hm => by
    have ha := hall c hc
    rw [not_isAnchorChar_of_isMark hm] at ha
    cases ha
  have hdrop := dropNegations_append hcolon []
  have hhooks := hooks_unmarked hmark []
  rw [dropNegations_nil, List.append_nil] at hdrop
  rw [List.append_nil, hooks] at hhooks
  rw [hdrop, hhooks]

theorem anchor?_of_all {t : List Char} (h : t.all isAnchorChar = true) : anchor? t = none := by
  rw [anchor?, List.dropWhile_eq_nil_iff.2 (List.all_eq_true.1 h)]

/-- The dependency of a selector: its first class or id if that is an anchor, or all of them. -/
theorem dependencyOf_complex (s : Complex) : dependencyOf s.text =
    .ofHooks (if anchored s.text then s.hooks.take 1 else s.hooks) := by
  obtain ⟨u, hu⟩ := s.scanned
  have hall : hooks (dropNegations s.text) = s.hooks := by
    have hdrop := hu.drop [] .nil
    have hhooks := hu.hooks [] Front.nil.1
    rw [dropNegations_nil, List.append_nil, List.append_nil] at hdrop
    rw [List.append_nil, hooks, List.append_nil] at hhooks
    rw [hdrop, hhooks]
  have hreach : ∀ m r, Reaches s.text m r → s.hooks.head? = some (m, nameAt r) ∧ 0 < identLength r := by
    intro m r hr
    rw [← List.append_nil s.text] at hr
    rcases hu.reach [] m r .nil hr with ⟨-, hr⟩ | h
    · obtain ⟨⟨x, hx, -⟩, -⟩ := hr
      cases (List.append_eq_nil_iff.1 hx.symm).2
    · exact h
  by_cases ha : anchored s.text = true
  · rw [if_pos ha]
    rcases exists_of_anchored ha with h | ⟨m, r, hr⟩
    -- no mark at all
    · rw [dependencyOf, anchor?_of_all h, ← hall, hooks_of_all_isAnchorChar h]
      rfl
    · obtain ⟨hhead, hpos⟩ := hreach m r hr
      rw [dependencyOf, anchor?_of_reaches hr hpos, List.take_one, hhead]
      rfl
  · rw [if_neg ha, dependencyOf]
    split
    · next hook h =>
        obtain ⟨m, name⟩ := hook
        obtain ⟨r, hr, -⟩ := Reaches.of_anchor? h
        exact (ha hr.anchored).elim
    · rw [hall]

/-- **Main theorem.**  The analysis finds the first class or id alone when nothing but letters and blanks
stands in front of the first mark, and else every class and every id outside of negations; it finds no
others. -/
theorem mem_analyze_complex (s : Complex) (x : String) :
    (x ∈ (analyze (String.ofList s.text)).classes ↔
      ('.', x) ∈ if anchored s.text then s.hooks.take 1 else s.hooks) ∧
    (x ∈ (analyze (String.ofList s.text)).ids ↔
      ('#', x) ∈ if anchored s.text then s.hooks.take 1 else s.hooks) := by
  rw [analyze, String.toList_ofList, dependencyOf_complex]
  exact Dependency.mem_ofHooks

example :
    let s : Complex :=
      ⟨⟨some (.tag ⟨"h1".toList, by decide, by decide⟩), [.feature (.hasClass ⟨"a:b", by decide⟩),
          .not [.feature (.hasClass ⟨"c", by decide⟩), .kind .universal] (by decide)]⟩,
        [(.child, ⟨none, [.feature (.hasId ⟨"1", by decide⟩),
          .feature (.pseudo ⟨true, "before".toList, by decide⟩)]⟩)]⟩
    String.ofList s.text = "h1.a\\:b:not(.c, *) > #\\31 ::before" ∧
      analyze (String.ofList s.text) = ⟨.ofList ["a:b"], .ofList ["1"]⟩ := by
  decide +kernel

end CssPrune.Selector
