import CssPrune.Proofs.Faults

/-!
# Statements by themselves

A statement of a sheet, taken out of it, is read as the same statement.  What stands behind it begins
with a mark, or the statement ends with one, or nothing is left; so its lexemes do not change
(`Lexeme.scan_of_border`, `Lexeme.scan_of_mark`).  They come to the same components, because the
components of a text fit, but for blocks that the end of the text leaves open
(`Component.gathered_ofText`).

* `Statement.Taken.ofText_text`: what is given up in a sheet has the same components alone.
* `Statement.GivenUp.shift`: it is given up wherever it stands.
-/

namespace CssPrune

open Token (Border border_nil border_cons)

/-! ### Lexemes -/

namespace Lexeme

variable {x w : List Char} {f : Char} {xs ys : List Lexeme}

/-- Lexemes in front of a border are those of the text up to it. -/
theorem scan_of_border (h : scan (x ++ w) = xs ++ ys) (hx : textOf xs = x) (hw : Border w) :
    scan x = xs := by
  cases w with
  | nil =>
      have hys := scan_suffix h hx
      rw [scan_nil] at hys
      rwa [List.append_nil, ← hys, List.append_nil] at h
  | cons f w =>
      have := scan_border (hw f rfl) border_nil h hx
      rwa [List.append_nil, scan_nil, List.append_nil] at this

theorem scan_of_mark (hf : Token.standsAlone f = true) (h : scan (x ++ w) = xs ++ mark f :: ys)
    (hx : textOf xs ++ [f] = x) : scan x = xs ++ [mark f] := by
  subst hx
  rw [List.append_assoc, List.singleton_append] at h
  have := scan_border hf (border_cons hf []) h rfl
  rwa [scan_mark hf, scan_nil] at this

end Lexeme

namespace Component

mutual

/-- The lexemes of a component have its text. -/
theorem textOf_lexemes : ∀ c : Component, Lexeme.textOf c.lexemes = c.text
  | .leaf x => by simp [lexemes, Lexeme.textOf, text]
  | .block x body y => by
      have hy : Lexeme.textOf y.toList = y.elim [] Lexeme.text := by
        cases y <;> simp [Lexeme.textOf]
      rw [lexemes, text, ← textOf_lexemesOf body, ← hy, ← Lexeme.textOf_append]
      rfl

theorem textOf_lexemesOf : ∀ cs : List Component, Lexeme.textOf (lexemesOf cs) = textOf cs
  | [] => rfl
  | c :: cs => by
      rw [lexemesOf, Lexeme.textOf_append, textOf_lexemes c, textOf_lexemesOf cs, textOf]

end

/-! ### Components of a text -/

/-- Components fit one behind the other just when both lists do. -/
theorem fitAll_append (b : Option Bracket) (cs ds : List Component) :
    fitAll b (cs ++ ds) = (fitAll b cs && fitAll b ds) := by
  induction cs with
  | nil => rfl
  | cons c cs ih => rw [List.cons_append, fitAll, fitAll, ih, Bool.and_assoc]

/-- What fits somewhere fits outside of all brackets. -/
theorem fits_none {b : Option Bracket} {c : Component} (h : c.fits b = true) :
    c.fits none = true := by
  cases c with
  | leaf x =>
      rw [fits, Bool.and_eq_true] at h ⊢
      refine ⟨h.1, ?_⟩
      cases x.token.closes? <;> rfl
  | block x body y => exact h

/-- What fits in a bracket fits outside of brackets. -/
theorem fitAll_none {b : Option Bracket} {cs : List Component} (h : fitAll b cs = true) :
    fitAll none cs = true := by
  induction cs with
  | nil => rfl
  | cons c cs ih =>
      rw [fitAll, Bool.and_eq_true] at h ⊢
      exact ⟨fits_none h.1, ih h.2⟩

/-- The components fit, but the last one may be a block that nothing closes. -/
inductive Gathered : Option Bracket → List Component → Prop
  | fit {b : Option Bracket} {cs : List Component} (h : fitAll b cs = true) : Gathered b cs
  | unfinished {b : Option Bracket} {cs body : List Component} {x : Lexeme}
      (hc : fitAll b cs = true) (hx : x.token.opens?.isSome = true)
      (hb : Gathered x.token.opens? body) : Gathered b (cs ++ [.block x body none])

section Gathered

variable {b : Option Bracket} {cs ds : List Component}

/-- What is gathered inside of a bracket could have been gathered outside. -/
theorem Gathered.none (h : Gathered b cs) : Gathered none cs := by
  cases h with
  | fit h => exact .fit (fitAll_none h)
  | unfinished hc hx hb => exact .unfinished (fitAll_none hc) hx hb

/-- Only the last component can be unfinished: what stands in front of others fits. -/
theorem Gathered.split (h : Gathered b (cs ++ ds)) (hd : ds ≠ []) :
    fitAll b cs = true ∧ Gathered b ds := by
  generalize he : cs ++ ds = es at h
  cases h with
  | fit h =>
      rw [← he, fitAll_append, Bool.and_eq_true] at h
      exact ⟨h.1, .fit h.2⟩
  | unfinished hc hx hb =>
      obtain ⟨ds, d, rfl⟩ := (List.eq_nil_or_concat ds).resolve_left hd
      rw [List.concat_eq_append, ← List.append_assoc] at he
      obtain ⟨rfl, hd⟩ := List.append_inj' he rfl
      rw [fitAll_append, Bool.and_eq_true] at hc
      refine ⟨hc.1, ?_⟩
      rw [List.concat_eq_append, hd]
      exact .unfinished hc.2 hx hb

theorem Gathered.left (h : Gathered b (cs ++ ds)) (hd : ds ≠ []) : fitAll b cs = true :=
  (h.split hd).1

/-- What stands in front is gathered as well. -/
theorem Gathered.of_append (h : Gathered b (cs ++ ds)) : Gathered b cs := by
  by_cases hd : ds = []
  · subst hd
    rwa [List.append_nil] at h
  · exact .fit (h.left hd)

theorem Gathered.right (h : Gathered b (cs ++ ds)) : Gathered b ds := by
  by_cases hd : ds = []
  · subst hd
    exact .fit rfl
  · exact (h.split hd).2

/-- A block that fits is closed by the bracket that belongs to the one that opens it. -/
theorem fits_block {x : Lexeme} {body : List Component} {y : Option Lexeme}
    (h : fits b (.block x body y) = true) :
    fitAll x.token.opens? body = true ∧ ∃ z, y = some z ∧ z.token.closes? = x.token.opens? := by
  rw [fits, Bool.and_eq_true, Bool.and_eq_true, Option.any_eq_true] at h
  obtain ⟨⟨-, z, hz, hc⟩, hb⟩ := h
  exact ⟨hb, z, hz, of_decide_eq_true hc⟩

/-- What a last block holds is gathered inside of it; when the block is closed, all of the components
fit. -/
theorem Gathered.last_block {x : Lexeme} {body : List Component} {y : Option Lexeme}
    (h : Gathered b (cs ++ [.block x body y])) :
    Gathered x.token.opens? body ∧
      (y = Option.none ∨ fitAll b (cs ++ [.block x body y]) = true) := by
  generalize he : cs ++ [.block x body y] = es at h ⊢
  cases h with
  | fit h =>
      refine ⟨.fit ?_, .inr h⟩
      rw [← he, fitAll_append, fitAll, Bool.and_eq_true, Bool.and_eq_true] at h
      exact (fits_block h.2.1).1
  | unfinished hc hx hb =>
      obtain ⟨-, hd⟩ := List.append_inj' he rfl
      cases hd
      exact ⟨hb, .inl rfl⟩

/-- Components fit when a leaf comes last: nothing is left open. -/
theorem Gathered.fitAll_of_leaf {x : Lexeme} (h : Gathered b (cs ++ [.leaf x])) :
    fitAll b (cs ++ [.leaf x]) = true := by
  generalize he : cs ++ [.leaf x] = es at h ⊢
  cases h with
  | fit h => exact h
  | unfinished hc hx hb =>
      obtain ⟨-, hd⟩ := List.append_inj' he rfl
      cases hd

end Gathered

/-- The blocks that wait are open, and what stands in front of each one fits. -/
def Waiting : List Unclosed → Prop
  | [] => True
  | u :: us => u.opener.token.opens?.isSome = true ∧ fitAll (enclosing us) u.before.reverse = true ∧
      Waiting us

/-- At the end of the text, closing what is open leaves gathered components. -/
theorem gathered_closeAll {level : List Component} {us : List Unclosed}
    (hl : Gathered (enclosing us) level.reverse) (hu : Waiting us) :
    Gathered none (closeAll level us) := by
  induction us generalizing level with
  | nil => exact hl
  | cons u us ih =>
      obtain ⟨hx, hb, hus⟩ := hu
      refine ih ?_ hus
      rw [List.reverse_cons]
      exact .unfinished hb hx hl

/-- Whatever lexemes come, what they are gathered to is so. -/
theorem gathered_gatherFrom {level : List Component} {us : List Unclosed} (xs : List Lexeme)
    (hl : fitAll (enclosing us) level.reverse = true) (hu : Waiting us) :
    Gathered none (gatherFrom level us xs) := by
  have push : ∀ {b : Option Bracket} {c : Component} {cs : List Component}, c.fits b = true →
      fitAll b cs.reverse = true → fitAll b (c :: cs).reverse = true := by
    intro b c cs hc hcs
    rw [List.reverse_cons, fitAll_append, hcs, fitAll, hc]
    rfl
  induction xs generalizing level us with
  | nil => exact gathered_closeAll (.fit hl) hu
  | cons x xs ih =>
      by_cases ho : x.token.opens?.isSome = true
      · rw [gatherFrom_opener ho]
        exact ih rfl ⟨ho, hl, hu⟩
      have hno : x.token.opens?.isNone = true := by simpa using ho
      cases us with
      | nil =>
          rw [gatherFrom, if_neg ho]
          refine ih (push ?_ hl) trivial
          rw [fits, hno]
          cases x.token.closes? <;> rfl
      | cons u us =>
          obtain ⟨hx, hb, hus⟩ := hu
          rw [gatherFrom, if_neg ho]
          split
          -- the block is closed, and fits into the level in front of it
          · next hc =>
              rw [Bool.and_eq_true, decide_eq_true_eq] at hc
              refine ih (push ?_ hb) hus
              have hl : fitAll u.opener.token.opens? level.reverse = true := hl
              rw [fits, hx, hl, Option.any_some, hc.2]
              simp
          · next hc =>
              refine ih (push ?_ hl) ⟨hx, hb, hus⟩
              rw [fits, hno, Bool.true_and]
              show (_ || x.token.closes? != u.opener.token.opens?) = true
              cases hcl : x.token.closes? with
              | none => rfl
              | some c =>
                  rw [hcl] at hc
                  simpa using hc

theorem gathered_ofText (text : List Char) : Gathered none (ofText text) :=
  gathered_gatherFrom _ rfl trivial

/-- Gathered components come from their lexemes again, inside of the bracket that they were gathered
in. -/
theorem gatherFrom_gathered {b : Option Bracket} {cs : List Component} (h : Gathered b cs)
    (level : List Component) (us : List Unclosed) (hu : enclosing us = b) :
    gatherFrom level us (lexemesOf cs) = closeAll (cs.reverse ++ level) us := by
  induction h generalizing level us with
  | fit h =>
      have := gatherFrom_lexemesOf level us [] _ (hu ▸ h)
      rwa [List.append_nil] at this
  | @unfinished b cs body x hc hx _ ih =>
      have := ih [] (⟨cs.reverse ++ level, x⟩ :: us) rfl
      rw [List.append_nil] at this
      rw [lexemesOf_append, gatherFrom_lexemesOf level us _ cs (hu ▸ hc)]
      simp only [lexemesOf, lexemes, Option.toList_none, List.append_nil]
      rw [gatherFrom_opener hx, this, closeAll]
      simp

/-- Components of a text are gathered again from their lexemes. -/
theorem gather_lexemesOf {cs : List Component} (h : Gathered none cs) :
    gather (lexemesOf cs) = cs := by
  rw [gather, gatherFrom_gathered h [] [] rfl, closeAll]
  simp

/-- The components are read from the text inside of a bracket `b`.  A mark comes behind them, or the
text ends there, as it does when they are not finished. -/
structure Stands (text : List Char) (b : Option Bracket) (cs : List Component) : Prop where
  gathered : Gathered b cs
  scan : ∃ xs ys, Lexeme.scan text = xs ++ (lexemesOf cs ++ ys) ∧
    (ys = [] ∨ fitAll b cs = true ∧ Border (Lexeme.textOf ys))

section Stands

variable {text : List Char} {b : Option Bracket} {as cs : List Component}

theorem stands_ofText (text : List Char) : Stands text none (ofText text) where
  gathered := gathered_ofText text
  scan := ⟨[], [], by rw [ofText, lexemesOf_gather, List.append_nil]; rfl, .inl rfl⟩

/-- What stands behind other components stands in the text as well. -/
theorem Stands.right (h : Stands text b (as ++ cs)) : Stands text b cs where
  gathered := h.gathered.right
  scan := by
    obtain ⟨xs, ys, hscan, hys⟩ := h.scan
    refine ⟨xs ++ lexemesOf as, ys, ?_, hys.imp_right fun h => ?_⟩
    · rw [hscan, lexemesOf_append]; simp
    · rw [fitAll_append, Bool.and_eq_true] at h
      exact ⟨h.1.2, h.2⟩

/-- What stands in a text is read from it. -/
theorem Stands.faithful (h : Stands text b cs) : Faithful cs := by
  obtain ⟨xs, ys, hscan, -⟩ := h.scan
  intro x hx
  refine Lexeme.faithful_of_mem_scan text x ?_
  rw [hscan]
  exact List.mem_append_right _ (List.mem_append_left _ hx)

end Stands

end Component

open Component (Stands fitAll lexemesOf Faithful)

/-! ### Statements -/

theorem Token.eq_closeCurly {t : Token} (h : t.closes? = some .curly) : t = .closeCurly := by
  cases t <;> first | rfl | cases h

/-- A block that ends a statement has curly brackets. -/
theorem Terminators.eq_openCurly {t : Terminators} {c : Component} {x : Lexeme}
    {body : List Component} {y : Option Lexeme} (h : t.ending? c = some (.block x body y)) :
    x.token = .openCurly := by
  cases c with
  | leaf z => simp only [ending?] at h; split at h <;> cases h
  | block z body' y' =>
      simp only [ending?] at h
      split at h
      · next hz =>
          cases h
          exact of_decide_eq_true (Bool.and_eq_true_iff.1 hz).2
      · cases h

namespace Statement

variable {g : Grammar} {text : List Char} {b : Option Bracket} {s : Statement}
  {rest : List Component}

theorem eq_openCurly (hc : g.Cuts s rest) {x : Lexeme} {body : List Component} {y : Option Lexeme}
    (he : s.ending = .block x body y) : x.token = .openCurly := by
  rcases ((g.ends (s.components ++ rest)).cut_spec (s.components ++ rest)).2 with h | ⟨c, h, -⟩
  · rw [hc.cut, he] at h
    cases congrArg (fun q => q.2.1) h
  · rw [hc.cut, he] at h
    exact Terminators.eq_openCurly h

/-- A statement without an ending is the last one. -/
theorem eq_nil_of_missing (hc : g.Cuts s rest) (he : s.ending = .missing) : rest = [] := by
  rcases ((g.ends (s.components ++ rest)).cut_spec (s.components ++ rest)).2 with h | ⟨c, h, -⟩
  · rw [hc.cut] at h
    exact congrArg (fun q => q.2.2) h
  · rw [hc.cut, he] at h
    exact absurd h Terminators.ending?_ne_missing

/-- The closing bracket of a statement that is finished. -/
theorem eq_mark_closer (hf : Faithful s.components) (hc : g.Cuts s rest) {x : Lexeme}
    {body : List Component} {y : Option Lexeme} (he : s.ending = .block x body y)
    (hfit : fitAll b s.components = true) :
    y = some (Lexeme.mark '\x7d') ∧ fitAll (some .curly) body = true := by
  rw [components, he] at hf hfit
  rw [Component.fitAll_append, Ending.components, fitAll, Bool.and_eq_true, Bool.and_eq_true] at hfit
  obtain ⟨hbody, z, rfl, hz⟩ := Component.fits_block hfit.2.1
  have hopen : x.token.opens? = some .curly := by rw [eq_openCurly hc he]; rfl
  have hzf : z.Faithful := hf.right z (by simp [Ending.components, lexemesOf, Component.lexemes])
  rw [hopen] at hbody hz
  exact ⟨congrArg some (hzf.eq_mark (f := '\x7d') rfl (Token.eq_closeCurly hz) fun c hc => hc),
    hbody⟩

/-- A finished statement ends with a mark. -/
theorem exists_mark (hf : Faithful s.components) (hc : g.Cuts s rest)
    (hfit : fitAll b s.components = true) (hne : s.ending ≠ .missing) :
    ∃ xs f, Token.standsAlone f = true ∧ lexemesOf s.components = xs ++ [Lexeme.mark f] := by
  cases he : s.ending with
  | missing => exact absurd he hne
  | semicolon =>
      refine ⟨lexemesOf s.head, ';', rfl, ?_⟩
      rw [components, he, Component.lexemesOf_append]
      rfl
  | block x body y =>
      obtain ⟨rfl, -⟩ := eq_mark_closer hf hc he hfit
      refine ⟨lexemesOf s.head ++ x :: lexemesOf body, '\x7d', rfl, ?_⟩
      rw [components, he, Component.lexemesOf_append]
      simp [Ending.components, lexemesOf, Component.lexemes]

/-- A statement has the same components alone. -/
theorem ofText_text (h : Stands text b (s.components ++ rest)) (hc : g.Cuts s rest) :
    Component.ofText s.text = s.components := by
  have hgathered := h.gathered.of_append
  obtain ⟨xs, ys, hscan, hys⟩ := h.scan
  rw [Component.lexemesOf_append, List.append_assoc] at hscan
  -- the lexemes from the statement on
  have hall : Lexeme.scan (Lexeme.textOf xs ++
      Lexeme.textOf (lexemesOf s.components ++ (lexemesOf rest ++ ys))) =
      xs ++ (lexemesOf s.components ++ (lexemesOf rest ++ ys)) := by
    rw [← Lexeme.textOf_append, ← hscan, Lexeme.textOf_scan]
  have htail := Lexeme.scan_suffix hall rfl
  rw [Lexeme.textOf_append, Component.textOf_lexemesOf] at htail
  have hscan' : Lexeme.scan s.text = lexemesOf s.components := by
    by_cases hr : rest = []
    · subst hr
      refine Lexeme.scan_of_border htail (Component.textOf_lexemesOf _) ?_
      rcases hys with rfl | hys
      · exact border_nil
      · exact hys.2
    · have hne : s.ending ≠ .missing := mt (eq_nil_of_missing hc) hr
      obtain ⟨zs, f, hf, hzs⟩ := exists_mark h.faithful.left hc (h.gathered.left hr) hne
      have htext := Component.textOf_lexemesOf s.components
      rw [hzs, Lexeme.textOf_append] at htext
      rw [hzs, List.append_assoc, List.singleton_append] at htail
      rw [hzs]
      exact Lexeme.scan_of_mark hf htail htext
  rw [Component.ofText, hscan', Component.gather_lexemesOf hgathered.none]

/-- The components of the block that a statement ends with. -/
theorem stands_body (h : Stands text b (s.components ++ rest)) (hc : g.Cuts s rest) {x : Lexeme}
    {body : List Component} {y : Option Lexeme} (he : s.ending = .block x body y) :
    Stands text (some .curly) body := by
  have hopen : x.token.opens? = some .curly := by rw [eq_openCurly hc he]; rfl
  have hcomp : s.components = s.head ++ [.block x body y] := by rw [components, he]; rfl
  have hgathered := h.gathered.of_append
  rw [hcomp] at hgathered
  obtain ⟨hbody, hy⟩ := hgathered.last_block
  obtain ⟨xs, ys, hscan, hys⟩ := h.scan
  refine ⟨hopen ▸ hbody, xs ++ lexemesOf s.head ++ [x], y.toList ++ lexemesOf rest ++ ys, ?_, ?_⟩
  · rw [hscan, hcomp]
    simp [Component.lexemesOf_append, lexemesOf, Component.lexemes]
  · rcases hy with rfl | hfit
    -- a block that nothing closes is at the end
    · have hno : fitAll b s.components ≠ true := fun hf => by
        cases (eq_mark_closer h.faithful.left hc he hf).1
      obtain rfl : rest = [] := by
        by_contra hr
        exact hno (h.gathered.left hr)
      rw [List.append_nil] at hys
      obtain rfl : ys = [] := hys.resolve_right fun hf => hno hf.1
      exact .inl rfl
    · right
      rw [← hcomp] at hfit
      obtain ⟨rfl, hb⟩ := eq_mark_closer h.faithful.left hc he hfit
      exact ⟨hb, border_cons rfl _⟩

/-! ### Rules taken out of a sheet -/

/-- The statement is one of a list of rules in some text. -/
def Taken (s : Statement) : Prop :=
  ∃ text b rest, Stands text b (s.components ++ rest) ∧ Grammar.rules.Cuts s rest

/-- The statements of a list of rules that stands in a text are taken out of it. -/
theorem taken_of_mem {pos : Nat} {cs : List Component} (h : Stands text b cs)
    (hs : s ∈ Grammar.rules.statements pos cs) : s.Taken := by
  obtain ⟨as, rest, rfl, -, hc⟩ := Grammar.exists_cuts h.faithful hs
  exact ⟨text, b, rest, h.right, hc⟩

theorem Taken.inside (h : s.Taken) {t : Statement} (ht : t ∈ s.inside) : t.Taken := by
  obtain ⟨text, b, rest, hst, hc⟩ := h
  obtain ⟨name, x, body, y, -, he, hs⟩ := inside_cases ht
  rw [hs] at ht
  exact taken_of_mem (stands_body hst hc he) (Grammar.mem_of_mem_ruleStatements ht)

/-- Everything that is given up in a statement taken out of a text is taken out of it, too. -/
theorem Taken.faulty (s : Statement) (h : s.Taken) : ∀ t ∈ s.faulty, t.Taken ∧ t.GivenUp := by
  induction s using inside_induction with
  | h s ih =>
      intro t ht
      obtain hs | hs := s.rule_cases
      · rw [hs.faulty, List.mem_singleton] at ht
        subst ht
        exact ⟨h, hs⟩
      · rw [hs.faulty] at ht
        obtain ⟨u, hu, ht⟩ := List.mem_flatMap.1 ht
        exact ih u hu (h.inside hu) t ht

/-- **A statement of a sheet has the same components by itself.** -/
theorem Taken.ofText_text (h : s.Taken) : Component.ofText s.text = s.components := by
  obtain ⟨text, b, rest, hst, hc⟩ := h
  exact Statement.ofText_text hst hc

/-- Where such a statement stands in a list of rules, it is the first one, unless what follows belongs
to it. -/
theorem Taken.statements (h : s.Taken) (pos : Nat) (more : List Component)
    (hm : s.ending = .missing → more = []) :
    ∃ pos', Grammar.rules.statements pos (s.components ++ more) =
      ⟨pos, s.head, s.ending⟩ :: Grammar.rules.statements pos' more := by
  obtain ⟨text, b, rest, -, hc⟩ := h
  obtain ⟨c, cs, hcs, hskip⟩ := hc.skips
  obtain ⟨hhead, hmissing | ⟨d, hd, heq⟩⟩ :=
    (Grammar.rules.ends (s.components ++ rest)).cut_spec (s.components ++ rest)
  · have he : s.ending = .missing := by
      rw [hc.cut] at hmissing
      exact congrArg (fun q => q.2.1) hmissing
    obtain rfl := eq_nil_of_missing hc he
    obtain rfl := hm he
    have hcut := hc.cut
    rw [hcs] at hcut ⊢
    exact Grammar.statements_cut pos hskip hcut
  · rw [hc.cut] at hhead hd heq
    have hcomp : s.components = s.head ++ [d] := by
      refine List.append_cancel_right (heq.trans ?_)
      simp
    -- the first component says what ends the statement
    obtain ⟨e, es, he⟩ : ∃ e es, s.head ++ [d] = e :: es :=
      List.exists_cons_of_ne_nil (by simp)
    rw [hcomp, he] at hcs hd hhead ⊢
    obtain rfl : e = c := (List.cons.inj hcs).1
    have hcut : (Grammar.rules.ends (e :: (es ++ more))).cut (e :: (es ++ more)) =
        (s.head, s.ending, more) := by
      have hends : Grammar.rules.ends (e :: (es ++ more)) = Grammar.rules.ends (e :: es ++ rest) :=
        rfl
      have hlist : e :: (es ++ more) = s.head ++ d :: more := by
        rw [← List.cons_append, ← he, List.append_assoc]
        rfl
      rw [hends, hlist]
      exact Terminators.cut_append hhead hd
    exact Grammar.statements_cut pos hskip hcut

/-! ### What is given up -/

/-- What makes a statement be given up: a rule without selectors or without a block, a custom property,
a group without a block. -/
def isLost (s : Statement) : Bool :=
  match s.atName?, s.ending with
  | none, .block .. => s.looksCustom || Component.selectors s.head = []
  | none, .semicolon | none, .missing => true
  | some _, .block .. => false
  | some name, .semicolon | some name, .missing =>
    Rule.groupNames.contains (Text.lower name) && Text.lower name ≠ "layer"

/-- An at-rule without a block is given up if a group needs one; `@layer` does not. -/
theorem isSome_fault?_bareAtRule (s : Statement) (name : String) :
    (s.bareAtRule name).fault?.isSome = (Rule.groupNames.contains name && name ≠ "layer") := by
  by_cases h : Rule.groupNames.contains name ∧ name ≠ "layer"
  · rw [bareAtRule, if_pos h, h.1, decide_eq_true h.2]
    rfl
  · rw [bareAtRule, if_neg h]
    simp only [not_and_or, Bool.not_eq_true] at h
    rcases h with h | h
    · rw [h]; rfl
    · rw [decide_eq_false h, Bool.and_false]; rfl

/-- A style rule is given up without a block, as a custom property or without selectors. -/
theorem isSome_fault?_plainRule (s : Statement) : s.plainRule.fault?.isSome =
    match s.ending with
    | .block .. => s.looksCustom || Component.selectors s.head = []
    | .semicolon | .missing => true := by
  by_cases hc : s.looksCustom = true
  · rw [plainRule, if_pos hc, hc]
    cases s.ending <;> rfl
  rw [plainRule, if_neg hc]
  rw [Bool.not_eq_true] at hc
  cases s.ending with
  | block x body y =>
      simp only [hc, Bool.false_or]
      split
      · next h => rw [decide_eq_true h]; rfl
      · next h => rw [decide_eq_false h]; rfl
  | semicolon => rfl
  | missing => rfl

/-- A statement is given up as a whole just when it is lost by its own components. -/
theorem isSome_fault? (s : Statement) : s.rule.fault?.isSome = s.isLost := by
  cases hn : s.atName? with
  | none =>
      rw [rule_of_plain hn, isSome_fault?_plainRule, isLost, hn]
      cases s.ending <;> rfl
  | some name =>
      cases he : s.ending with
      | block x body y =>
          simp only [rule_of_block hn he, isLost, hn, he]
          split <;> rfl
      | semicolon =>
          rw [rule_of_bare hn (.inl he), isSome_fault?_bareAtRule]
          simp only [isLost, hn, he]
      | missing =>
          rw [rule_of_bare hn (.inr he), isSome_fault?_bareAtRule]
          simp only [isLost, hn, he]

theorem GivenUp.isLost (h : s.GivenUp) : s.isLost = true := by
  obtain ⟨f, hf, -⟩ := h.fault?
  rw [← isSome_fault?, hf]; rfl

/-- A statement is given up wherever it stands. -/
theorem GivenUp.shift (h : s.GivenUp) (pos : Nat) : (⟨pos, s.head, s.ending⟩ : Statement).GivenUp := by
  refine (rule_cases _).resolve_right fun hk => ?_
  have := isSome_fault? ⟨pos, s.head, s.ending⟩
  rw [hk.fault?] at this
  cases this.trans h.isLost

/-- A `@charset` is not given up. -/
theorem GivenUp.isCharset (h : s.GivenUp) : s.isCharset = false := by
  have hl := h.isLost
  by_contra hc
  rw [Bool.not_eq_false, Statement.isCharset, Option.any_eq_true] at hc
  obtain ⟨name, hn, hname⟩ := hc
  rw [Statement.isLost, hn] at hl
  cases he : s.ending with
  | block x body y => rw [he] at hl; cases hl
  | semicolon | missing =>
      rw [he] at hl
      simp only [of_decide_eq_true hname] at hl
      exact absurd hl (by decide)

end Statement

end CssPrune
