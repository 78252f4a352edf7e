import CssPrune.Proofs.Alone
import CssPrune.Proofs.Errors

/-!
# What statements come to

A statement in a list of rules comes to a rule, or it is given up; what is given up in it comes to
texts.  These are its `Reading`.  Rules that are read without a fault, statements that are given up and
groups are put together from `reading_of_fine`, `reading_of_isLost` and `reading_of_group`.

A text `Comes` to readings when nothing follows; what its sheet is made of can be told from them
(`Comes.consists`).
-/

namespace CssPrune

open Grammar

/-! ### What a statement comes to -/

/-- The rule that a statement comes to, the faults in the blocks of style rules and the statements given
up. -/
structure Reading where
  rule? : Option Rule
  dropped : List Fault
  lost : List (List Char)
  isCharset : Bool

/-- What a statement of a list of rules comes to. -/
def Statement.reading (s : Statement) : Reading :=
  ⟨s.rule.value?, s.rule.dropped, s.faulty.map Statement.text, s.isCharset⟩

namespace Reading

/-- A rule without anything given up in it. -/
def ofRule (r : Rule) : Reading := ⟨some r, [], [], r.isCharset⟩

/-- A text that is given up as a whole. -/
def ofLost (x : List Char) : Reading := ⟨none, [], [x], false⟩

end Reading

/-- A rule that is read without a fault has this reading. -/
theorem Statement.reading_of_fine {s : Statement} {r : Rule} (h : s.rule = fine r) :
    s.reading = .ofRule r := by
  have hf : s.faulty = [] := s.faulty_eq_nil (by rw [h]; rfl) (by rw [h]; rfl)
  rw [reading, hf, Statement.isCharset_rule h, h]
  rfl

theorem Statement.GivenUp.reading {s : Statement} (h : s.GivenUp) : s.reading = .ofLost s.text := by
  obtain ⟨cause, place, hrule, -⟩ := id h
  rw [Statement.reading, h.faulty, h.isCharset, hrule]
  rfl

/-- A statement that is lost by its components is read as its own text. -/
theorem Statement.reading_of_isLost {s : Statement} (h : s.isLost = true) :
    s.reading = .ofLost s.text := by
  refine (s.rule_cases.resolve_right fun hk => ?_).reading
  rw [← isSome_fault?, hk.fault?] at h
  cases h

/-- Another reading of the same components. -/
theorem Grammar.Reads.imp {α β γ : Type} {g : Grammar} {read : Statement → α}
    {read' : Statement → β} {f : γ → α} {f' : γ → β} {cs : List Component} {rs : List γ}
    (h : Reads g read cs (rs.map f)) (hr : ∀ s r, read s = f r → read' s = f' r) :
    Reads g read' cs (rs.map f') := by
  intro pos more
  obtain ⟨ss, pos', heq, hmap⟩ := h pos more
  refine ⟨ss, pos', heq, ?_⟩
  clear heq h
  induction ss generalizing rs with
  | nil =>
      rw [List.map_nil] at hmap
      rw [List.map_eq_nil_iff.1 hmap.symm]
      rfl
  | cons s ss ih =>
      obtain ⟨r, rs, rfl, hs, hss⟩ := List.map_eq_cons_iff.1 hmap.symm
      rw [List.map_cons, List.map_cons, hr s r hs.symm, ih hss.symm]

/-- A text that comes to one thing under a reader comes under another to what this makes of it. -/
theorem Grammar.Yields.imp {α β γ : Type} {g : Grammar} {read : Statement → α}
    {read' : Statement → β} {f : γ → α} {f' : γ → β} {b : Option Bracket} {x : List Char} {r : γ}
    (h : Yields g read b x (f r)) (hr : ∀ s r, read s = f r → read' s = f' r) :
    Yields g read' b x (f' r) := by
  intro s hs
  obtain ⟨cs, hc, hread⟩ := h s hs
  have hone : Reads g read cs ([r].map f) := hread
  exact ⟨cs, hc, hone.imp hr⟩

/-- Only a leading `@charset` is passed over. -/
theorem ruleStatements_of_map {cs : List Component} {as : List Reading} {pos : Nat}
    (h : (rules.statements pos cs).map Statement.reading = as)
    (hc : as.head?.any Reading.isCharset = false) :
    (ruleStatements pos cs).map Statement.reading = as := by
  rw [ruleStatements]
  cases hl : rules.statements pos cs with
  | nil => rwa [hl] at h
  | cons s ss =>
      rw [hl] at h
      have : s.isCharset = false := by
        rw [← h] at hc
        exact hc
      simp only [this, Bool.false_eq_true, if_false]
      exact h

/-- A group comes to a group of the rules in its block, and what is given up there is given up. -/
theorem Statement.reading_of_group {s : Statement} {name : String} {opener : Lexeme}
    {body : List Component} {closer : Option Lexeme} {as : List Reading}
    (hn : s.atName? = some name) (he : s.ending = .block opener body closer)
    (hg : Rule.groupNames.contains (Text.lower name) = true) (hc : s.isCharset = false)
    (h : Reads rules Statement.reading body as) (ha : as.head?.any Reading.isCharset = false) :
    s.reading = ⟨some (.group (Text.lower name) s.prelude (as.filterMap Reading.rule?)),
      as.flatMap Reading.dropped, as.flatMap Reading.lost, false⟩ := by
  have hss := ruleStatements_of_map (statements_of_reads h s.bodyStart) ha
  have hinside : s.inside = ruleStatements s.bodyStart body := by
    rw [inside_of_block hn he, if_pos hg]
  have hrule := rule_of_block hn he
  rw [if_pos hg, readRules_eq] at hrule
  have hk : s.Kept := s.rule_cases.resolve_left fun hgiven => by
    obtain ⟨f, hf, -⟩ := hgiven.fault?
    rw [hrule] at hf
    cases hf
  rw [reading, hk.faulty, hinside, hc, hrule, ← hss]
  simp [groupRule, Outcome.value?, Outcome.values, Outcome.allDropped, List.filterMap_map,
    List.flatMap_map, List.map_flatMap, reading, Function.comp_def, Except.toOption]

/-- The text comes to these readings when nothing follows. -/
def Comes (x : List Char) (as : List Reading) : Prop :=
  ∀ pos, (rules.statements pos (Component.ofText x)).map Statement.reading = as

theorem comes_nil : Comes [] [] := by
  intro pos
  rw [Component.ofText_nil, statements_nil]
  rfl

/-- A text in front, with blanks or without, adds its reading in front. -/
theorem Comes.append {x y : List Char} {a : Reading} {bs : List Reading}
    (hy : Yields rules Statement.reading none y a) {s : List Char}
    (hs : s.all Token.isSpace = true) (hx : Comes x bs) : Comes (s ++ y ++ x) (a :: bs) := by
  intro pos
  obtain ⟨cs, hc, hread⟩ := hy s hs
  obtain ⟨ss, pos', hss, hmap⟩ := hread pos (Component.ofText x)
  rw [Component.ofText_append hc, hss, List.map_append, hmap, hx pos']
  rfl

/-- Blanks behind what is read whatever follows. -/
theorem Grammar.YieldsAll.comes {x s : List Char} {as : List Reading}
    (h : YieldsAll rules Statement.reading none x as) (hs : s.all Token.isSpace = true) :
    Comes (x ++ s) as := by
  obtain ⟨cs, hc, hread⟩ := h
  have hblanks : Component.ofText s = Component.blanks s := by
    simpa using Component.ofText_blanks (y := []) hs rfl
  have hreads := hread.append (Reads.blanks skipsBlanks_rules s)
  rw [List.append_nil, ← hblanks, ← Component.ofText_append hc s] at hreads
  exact statements_of_reads hreads

/-! ### Sheets -/

/-- A text without a `@charset` in front. -/
theorem Comes.consists {x : String} {as : List Reading} (h : Comes x.toList as)
    (hc : as.head?.any Reading.isCharset = false) :
    ∃ ss, Stylesheet.Consists x [] ss ∧ ss.map Statement.reading = as := by
  have hlead : leadingCharset (Component.ofText x.toList) = none := by
    refine leadingCharset_eq_none fun s hs => ?_
    rw [← h 0, List.head?_map, hs] at hc
    exact hc
  exact ⟨_, Stylesheet.consists_of_none hlead, ruleStatements_of_map (h 0) hc⟩

namespace Stylesheet

variable {css : String} {rs : List Rule} {ss : List Statement} {as : List Reading}

/-- The rules of a sheet are those of its readings. -/
theorem Consists.rules_of_readings (h : Consists css rs ss) (ha : ss.map Statement.reading = as) :
    (parse css).rules = rs ++ as.filterMap Reading.rule? := by
  rw [h.rules_eq, ← ha, Outcome.values, List.filterMap_map, List.filterMap_map]
  rfl

/-- Nothing is dropped inside of rules whose readings drop nothing. -/
theorem Consists.dropped_of_readings (h : Consists css rs ss) (ha : ss.map Statement.reading = as)
    (hd : as.flatMap Reading.dropped = []) : (parse css).dropped = [] := by
  rw [← ha, List.flatMap_map, List.flatMap_eq_nil_iff] at hd
  rw [h.dropped_eq]
  refine List.flatMap_eq_nil_iff.2 fun q hq => List.map_eq_nil_iff.2 ?_
  exact hd q.2 (Statement.mem_of_mem_numbered hq)

/-- The fragments of a sheet are the texts lost in its readings, but for blank ones. -/
theorem Consists.fragments_of_readings (h : Consists css rs ss)
    (ha : ss.map Statement.reading = as) :
    Candidate.fragments (parse css).errors = (as.flatMap Reading.lost).filterMap sourceOf := by
  rw [h.fragments_eq, ← ha, List.flatMap_map, List.filterMap_flatMap, List.filterMap_flatMap]
  refine List.flatMap_congr fun s _ => ?_
  rw [Statement.reading, List.filterMap_map]
  rfl

end Stylesheet

end CssPrune
