import CssPrune.Proofs.Places
import CssPrune.Proofs.Reading
import CssPrune.Proofs.Tiling

/-!
# What is at fault in a sheet

A statement of a list of rules is given up as a whole, or it is a rule; then only rules inside of a
group can be given up (`Statement.rule_cases`).  `Statement.faulty` are the statements that are given
up in a statement, in the order of the text.

While a sheet is read, the faults inside its rules and those of its rules are kept apart, and those
inside of a group come innermost first.  Sorting puts them back into the order of the text
(`Stylesheet.Consists.errors_eq`): a fault outside lies at or before the end of its statement, and a
fault inside of a later group behind the at-sign that the group begins with, so the two never share a
location.
-/

namespace CssPrune

open Component (Placed)

namespace Statement

/-! ### Rules inside of a group -/

/-- The rules in the block of a group. -/
def inside (s : Statement) : List Statement :=
  match s.atName?, s.ending with
  | some name, .block _ body _ =>
    if Rule.groupNames.contains (Text.lower name) then Grammar.ruleStatements s.bodyStart body
    else []
  | _, _ => []

variable {s t : Statement}

theorem inside_of_plain (hn : s.atName? = none) : s.inside = [] := by
  simp only [inside, hn]

theorem inside_of_bare (he : s.ending = .semicolon ∨ s.ending = .missing) : s.inside = [] := by
  rw [inside]
  split
  · next he' => rcases he with he | he <;> rw [he] at he' <;> cases he'
  · rfl

/-- The block of an at-rule has rules inside just when its name is that of a group. -/
theorem inside_of_block {name : String} {o : Lexeme} {body : List Component} {c : Option Lexeme}
    (hn : s.atName? = some name) (he : s.ending = .block o body c) :
    s.inside =
      if Rule.groupNames.contains (Text.lower name) then Grammar.ruleStatements s.bodyStart body
      else [] := by
  simp only [inside, hn, he]

/-- A statement with a rule inside is an at-rule whose block is read as a list of rules. -/
theorem inside_cases (h : t ∈ s.inside) :
    ∃ name opener body closer, s.atName? = some name ∧ s.ending = .block opener body closer ∧
      s.inside = Grammar.ruleStatements s.bodyStart body := by
  rw [inside] at h ⊢
  split at h
  · next name opener body closer hn he =>
      split at h
      · next hg => exact ⟨name, opener, body, closer, hn, he, if_pos hg⟩
      · cases h
  · cases h

/-- The block of a rule inside counts fewer components than the block that the rule stands in. -/
theorem count_inside (h : t ∈ s.inside) : t.ending.count < s.ending.count := by
  obtain ⟨name, opener, body, closer, -, he, hs⟩ := inside_cases h
  rw [hs] at h
  have := Grammar.count_ending_le _ _ _ t (Grammar.mem_of_mem_ruleStatements h)
  rw [he, Ending.count]
  omega

/-- Induction over the rules inside of groups. -/
theorem inside_induction {motive : Statement → Prop}
    (h : ∀ s, (∀ t ∈ s.inside, motive t) → motive s) (s : Statement) : motive s :=
  h s fun t _ => inside_induction h t
termination_by s.ending.count
decreasing_by exact count_inside ‹_›

/-! ### One statement -/

/-- The statement is given up as a whole, and the fault lies in it. -/
def GivenUp (s : Statement) : Prop :=
  ∃ cause place, s.rule = .plain (.error (s.fault cause place)) ∧ s.start ≤ place ∧
    place ≤ s.stop ∧ s.inside = []

/-- The statement is a rule, and the faults in it are those of the rules inside. -/
def Kept (s : Statement) : Prop :=
  ∃ r, s.rule.result = .ok r ∧ s.rule.inner =
    s.inside.flatMap (fun t => t.rule.inner) ++ s.inside.filterMap fun t => t.rule.fault?

theorem kept_of_plain {r : Rule} (h : s.rule.result = .ok r) (hn : s.rule.inner = [])
    (hs : s.inside = []) : s.Kept :=
  ⟨r, h, by rw [hn, hs]; rfl⟩

/-- The block of a statement stops inside of the statement. -/
theorem bodyStop_le_stop (s : Statement) : s.bodyStop ≤ s.stop := by
  rw [bodyStop, stop, bodyStart]
  cases s.ending with
  | block opener body closer => simp only [Ending.width, Component.width]; omega
  | semicolon => exact Nat.le_add_right _ _
  | missing => exact Nat.le_add_right _ _

/-- The block of a statement starts inside of the statement. -/
theorem start_le_bodyStart (s : Statement) : s.start ≤ s.bodyStart := by
  rw [bodyStart, headStop]
  cases s.ending with
  | block opener body closer => simp only; omega
  | semicolon => exact Nat.le_add_right _ _
  | missing => exact Nat.le_add_right _ _

theorem start_le_bodyStop (s : Statement) : s.start ≤ s.bodyStop := by
  refine s.start_le_bodyStart.trans ?_
  rw [bodyStop]
  cases s.ending with
  | block opener body closer => exact Nat.le_add_right _ _
  | semicolon => exact Nat.le_refl _
  | missing => exact Nat.le_refl _

/-- A style rule is given up as a whole, or it is kept without any fault. -/
theorem plainRule_cases (h : s.rule = s.plainRule) (hs : s.inside = []) : s.GivenUp ∨ s.Kept := by
  have hstop := s.start_le_stop
  by_cases hc : s.looksCustom = true
  · rw [plainRule, if_pos hc] at h
    exact .inl ⟨_, _, h, Nat.le_refl _, hstop, hs⟩
  rw [plainRule, if_neg hc] at h
  cases he : s.ending with
  | block opener body closer =>
      rw [he] at h
      simp only at h
      split at h
      · exact .inl ⟨_, _, h, s.start_le_bodyStop, s.bodyStop_le_stop, hs⟩
      · exact .inr (kept_of_plain (by rw [h]; rfl) (by rw [h]; rfl) hs)
  | semicolon | missing =>
      rw [he] at h
      exact .inl ⟨_, _, h, hstop, Nat.le_refl _, hs⟩

/-- An at-rule without a block is given up as a whole, or it is kept without any fault. -/
theorem bareAtRule_cases {name : String} (h : s.rule = s.bareAtRule name) (hs : s.inside = []) :
    s.GivenUp ∨ s.Kept := by
  rw [bareAtRule] at h
  split at h
  · exact .inl ⟨_, _, h, s.start_le_stop, Nat.le_refl _, hs⟩
  · exact .inr (kept_of_plain (by rw [h]; rfl) (by rw [h]; rfl) hs)

/-- Every statement of a list of rules is given up as a whole, or it is kept. -/
theorem rule_cases (s : Statement) : s.GivenUp ∨ s.Kept := by
  cases hn : s.atName? with
  | none => exact plainRule_cases (rule_of_plain hn) (inside_of_plain hn)
  | some name =>
      cases he : s.ending with
      | block opener body closer =>
          have hrule := rule_of_block hn he
          have hinside := inside_of_block hn he
          by_cases hg : Rule.groupNames.contains (Text.lower name) = true
          · rw [if_pos hg, readRules_eq] at hrule
            rw [if_pos hg] at hinside
            refine .inr ⟨_, by rw [hrule]; rfl, ?_⟩
            simp only [hrule, groupRule, Outcome.allInner, Outcome.faults, List.flatMap_map,
              List.filterMap_map, hinside]
            rfl
          · rw [if_neg hg] at hrule hinside
            exact .inr (kept_of_plain (by rw [hrule]; rfl) (by rw [hrule]; rfl) hinside)
      | semicolon =>
          exact bareAtRule_cases (rule_of_bare hn (.inl he)) (inside_of_bare (.inl he))
      | missing =>
          exact bareAtRule_cases (rule_of_bare hn (.inr he)) (inside_of_bare (.inr he))

/-- A statement that is given up has one fault, which spans it and lies in it. -/
theorem GivenUp.fault? (h : s.GivenUp) : ∃ f, s.rule.fault? = some f ∧ f.start = s.start ∧
    f.stop = s.stop ∧ s.start ≤ f.place ∧ f.place ≤ s.stop := by
  obtain ⟨cause, place, hrule, hlo, hhi, -⟩ := h
  exact ⟨s.fault cause place, by rw [hrule]; rfl, rfl, rfl, hlo, hhi⟩

/-- The place of the fault lies in the statement. -/
theorem GivenUp.place (h : s.GivenUp) {f : Fault} (hf : s.rule.fault? = some f) :
    s.start ≤ f.place ∧ f.place ≤ s.stop := by
  obtain ⟨g, hg, -, -, hplace⟩ := h.fault?
  obtain rfl := Option.some.inj (hf.symm.trans hg)
  exact hplace

theorem GivenUp.inner (h : s.GivenUp) : s.rule.inner = [] := by
  obtain ⟨cause, place, hrule, -⟩ := h
  rw [hrule]; rfl

theorem Kept.fault? (h : s.Kept) : s.rule.fault? = none := by
  obtain ⟨r, hr, -⟩ := h
  rw [Outcome.fault?, hr]

/-- The faults in a kept statement are those inside of its rules, and then those of the rules. -/
theorem Kept.inner (h : s.Kept) : s.rule.inner =
    s.inside.flatMap (fun t => t.rule.inner) ++ s.inside.filterMap fun t => t.rule.fault? := by
  obtain ⟨r, -, hi⟩ := h
  exact hi

/-! ### The statements given up -/

/-- The statements that are given up in a statement, itself or rules inside, in the order of the
text. -/
def faulty (s : Statement) : List Statement :=
  if s.rule.fault?.isSome then [s] else s.inside.attach.flatMap fun t => t.1.faulty
termination_by s.ending.count
decreasing_by exact count_inside t.2

/-- The faults of these statements. -/
def faults (s : Statement) : List Fault := s.faulty.filterMap fun t => t.rule.fault?

theorem GivenUp.faulty (h : s.GivenUp) : s.faulty = [s] := by
  obtain ⟨f, hf, -⟩ := h.fault?
  simp [Statement.faulty, hf]

/-- What is given up in a kept statement is given up in one of the rules inside. -/
theorem Kept.faulty (h : s.Kept) : s.faulty = s.inside.flatMap Statement.faulty := by
  rw [Statement.faulty, h.fault?, Option.isSome_none, if_neg Bool.false_ne_true,
    ← List.flatMap_map]
  simp

/-- A statement that is given up has its own fault only. -/
theorem GivenUp.faults (h : s.GivenUp) : s.faults = s.rule.fault?.toList := by
  rw [Statement.faults, h.faulty]
  simp [List.filterMap_cons]
  cases s.rule.fault? <;> rfl

/-- A kept statement has the faults of the rules inside, in the order of the text. -/
theorem Kept.faults (h : s.Kept) : s.faults = s.inside.flatMap Statement.faults := by
  rw [Statement.faults, h.faulty, List.filterMap_flatMap]
  rfl

/-- What is at fault inside of a rule is at fault in one of the rules in its block. -/
theorem exists_of_mem_inner (s : Statement) :
    ∀ f ∈ s.rule.inner, ∃ t ∈ s.inside, f ∈ t.faults := by
  induction s using inside_induction with
  | h s ih =>
      intro f hf
      obtain h | h := s.rule_cases
      · rw [h.inner] at hf; cases hf
      rw [h.inner, List.mem_append] at hf
      rcases hf with hf | hf
      · obtain ⟨t, ht, hf⟩ := List.mem_flatMap.1 hf
        refine ⟨t, ht, ?_⟩
        -- the rule has faults inside, so it is not given up itself
        have hk : t.Kept := t.rule_cases.resolve_left fun hg => by rw [hg.inner] at hf; cases hf
        obtain ⟨u, hu, hfu⟩ := ih t ht f hf
        rw [hk.faults]
        exact List.mem_flatMap_of_mem hu hfu
      · obtain ⟨t, ht, hf⟩ := List.mem_filterMap.1 hf
        refine ⟨t, ht, ?_⟩
        have hg : t.GivenUp := t.rule_cases.resolve_right fun hk => by rw [hk.fault?] at hf; cases hf
        rw [hg.faults, hf]
        exact List.mem_singleton_self f

/-- A rule without faults inside holds no statement that is given up. -/
theorem faulty_eq_nil (s : Statement) (h : s.rule.fault? = none) (hi : s.rule.inner = []) :
    s.faulty = [] := by
  induction s using inside_induction with
  | h s ih =>
      have hk : s.Kept := s.rule_cases.resolve_left fun hg => by
        obtain ⟨f, hf, -⟩ := hg.fault?
        rw [hf] at h; cases h
      rw [hk.inner, List.append_eq_nil_iff, List.flatMap_eq_nil_iff,
        List.filterMap_eq_nil_iff] at hi
      rw [hk.faulty, List.flatMap_eq_nil_iff]
      exact fun t ht => ih t ht (hi.2 t ht) (hi.1 t ht)

/-! ### The order of the faults -/

section Placed

variable {text : List Char}

/-- The rules inside of a group lie in its block. -/
theorem placed_inside (hp : Placed text s.start s.components) (h : t ∈ s.inside) :
    Placed text t.start t.components ∧ s.bodyStart ≤ t.start ∧ t.stop ≤ s.stop := by
  obtain ⟨name, opener, body, closer, -, he, hs⟩ := inside_cases h
  rw [hs] at h
  have hbody := hp.body he
  have hmem := Grammar.mem_of_mem_ruleStatements h
  refine ⟨hbody.statement hmem, Grammar.le_start hmem, ?_⟩
  have hstop : s.bodyStop = s.bodyStart + Component.widthOf body := by rw [bodyStop, he]
  exact (Grammar.stop_le hbody.faithful hmem).trans (hstop ▸ s.bodyStop_le_stop)

/-- A group begins with an at-sign; its rules come behind it. -/
theorem location_inside (hp : Placed text s.start s.components) (h : t ∈ s.inside) {i j : Nat}
    (hi : i ≤ s.start) (hj : t.start ≤ j) :
    Location.ofOffset text i < Location.ofOffset text j := by
  obtain ⟨name, opener, body, closer, hn, he, -⟩ := inside_cases h
  obtain ⟨c, cs, hhead, hc⟩ := exists_of_atName? hn
  obtain ⟨a, b, htext, hlen⟩ := hp.at_pos
  have hcomp : s.components = c :: (cs ++ s.ending.components) := by
    rw [components, hhead]; rfl
  rw [hcomp] at hp htext
  obtain ⟨d, u, hd, hbegins⟩ := hp.faithful.begins
  rw [hc] at hbegins
  obtain rfl : d = '@' := hbegins
  rw [hd, List.cons_append] at htext
  -- the keyword takes one place at least
  have hstart : s.start < s.bodyStart := by
    have hw : 0 < c.text.length := by
      obtain ⟨v, hv⟩ := Component.text_first c
      obtain ⟨d, u, hd, -⟩ := hp.faithful.first.begins
      rw [hv, hd]
      simp
    rw [bodyStart, he, headStop, hhead, Component.widthOf, Component.width_eq]
    simp only
    omega
  have := (placed_inside (by rw [hcomp]; exact hp) h).2.1
  exact Location.ofOffset_lt htext rfl (hi.trans_eq hlen.symm) (by omega)

/-- What is given up in a placed statement is placed, and lies between its offsets. -/
theorem placed_of_mem_faulty (s : Statement) (hp : Placed text s.start s.components) :
    ∀ t ∈ s.faulty, Placed text t.start t.components ∧ t.GivenUp ∧ s.start ≤ t.start ∧
      t.stop ≤ s.stop := by
  induction s using inside_induction with
  | h s ih =>
      intro t ht
      obtain h | h := s.rule_cases
      · rw [h.faulty, List.mem_singleton] at ht
        subst ht
        exact ⟨hp, h, Nat.le_refl _, Nat.le_refl _⟩
      · rw [h.faulty] at ht
        obtain ⟨u, hu, ht⟩ := List.mem_flatMap.1 ht
        obtain ⟨hpu, hstart, hstop⟩ := placed_inside hp hu
        obtain ⟨hpt, hg, hlo, hhi⟩ := ih u hu hpu t ht
        exact ⟨hpt, hg, (s.start_le_bodyStart.trans hstart).trans hlo, hhi.trans hstop⟩

/-- The faults in a placed statement lie between its offsets. -/
theorem place_of_mem_faults (hp : Placed text s.start s.components) :
    ∀ f ∈ s.faults, s.start ≤ f.place ∧ f.place ≤ s.stop := by
  intro f hf
  obtain ⟨t, ht, hft⟩ := List.mem_filterMap.1 hf
  obtain ⟨-, hg, hlo, hhi⟩ := placed_of_mem_faulty s hp t ht
  obtain ⟨hplo, hphi⟩ := hg.place hft
  exact ⟨hlo.trans hplo, hphi.trans hhi⟩

/-- What is given up in statements that follow each other does not overlap when what is given up in
each one does not. -/
theorem pairwise_flatMap_faulty {ss : List Statement}
    (hs : ss.Pairwise fun s t => s.stop ≤ t.start)
    (hp : ∀ s ∈ ss, Placed text s.start s.components)
    (h : ∀ s ∈ ss, s.faulty.Pairwise fun t u => t.stop ≤ u.start) :
    (ss.flatMap faulty).Pairwise fun t u => t.stop ≤ u.start := by
  refine List.pairwise_flatMap.2 ⟨h, hs.imp_of_mem fun {s t} hsm htm hst u hu v hv => ?_⟩
  obtain ⟨-, -, -, hstop⟩ := placed_of_mem_faulty s (hp s hsm) u hu
  obtain ⟨-, -, hstart, -⟩ := placed_of_mem_faulty t (hp t htm) v hv
  exact (hstop.trans hst).trans hstart

/-- Of two rules inside of a group, the later starts where the earlier stops, or behind. -/
theorem pairwise_inside (s : Statement) : s.inside.Pairwise fun s t => s.stop ≤ t.start := by
  cases h : s.inside with
  | nil => exact .nil
  | cons t ts =>
      obtain ⟨-, -, body, -, -, -, hs⟩ := inside_cases (h ▸ List.mem_cons_self : t ∈ s.inside)
      rw [← h, hs]
      exact Grammar.pairwise_ruleStatements _ _

/-- The statements given up do not overlap: a group that holds some is not given up itself. -/
theorem pairwise_faulty (s : Statement) (hp : Placed text s.start s.components) :
    s.faulty.Pairwise fun t u => t.stop ≤ u.start := by
  induction s using inside_induction with
  | h s ih =>
      obtain h | h := s.rule_cases
      · rw [h.faulty]
        exact List.pairwise_singleton _ s
      · rw [h.faulty]
        exact pairwise_flatMap_faulty s.pairwise_inside (fun t ht => (placed_inside hp ht).1)
          fun t ht => ih t ht (placed_inside hp ht).1

/-- The faults in a placed statement come in the order of the text. -/
theorem pairwise_faults (s : Statement) (hp : Placed text s.start s.components) :
    s.faults.Pairwise fun f g => f.place ≤ g.place := by
  refine List.pairwise_filterMap.2 ((pairwise_faulty s hp).imp_of_mem ?_)
  intro t u ht hu htu f hf g hg
  have hft := (placed_of_mem_faulty s hp t ht).2.1.place hf
  have hgu := (placed_of_mem_faulty s hp u hu).2.1.place hg
  exact (hft.2.trans htu).trans hgu.1

end Placed

end Statement

end CssPrune
