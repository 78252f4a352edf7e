import CssPrune.Sheet.Reader
import CssPrune.Proofs.Errors

/-!
# The counts of rules agree

A reader that visits a statement comes to what the statement comes to, and has counted it when it is a
rule at top level (`Statement.run_visit`); rules inside of a group are not counted.  So between the
statements at top level the reader's count is the number of rules taken in (`Pass.Sound.step`), and a
sheet that is read with counters is the sheet that is read without (`Stylesheet.sheet_of_passes`).

`Stylesheet.counts_agree`: whatever the text, the counts agree throughout, and the rule indices that come
of them are in order and within the bounds of the list of rules.
-/

namespace CssPrune

/-! ### Visiting a statement -/

namespace Outcome

variable {α : Type} (os : List (Outcome α))

/-- Results alone have the values of the outcomes that they are taken from. -/
theorem values_results : values ((os.map result).map plain) = values os := by
  simp only [values, List.filterMap_map]
  rfl

theorem faults_results : faults ((os.map result).map plain) = faults os := by
  simp only [faults, List.filterMap_map]
  rfl

end Outcome

namespace Reader

variable {text : List Char}

/-- A reader goes on from where the first part of its program has left it. -/
theorem run_bind_of_run {α β : Type} {x : StateM Reader α} {f : α → StateM Reader β} {a : α}
    {r r' : Reader} (h : x.run r = (a, r')) : (x >>= f).run r = (f a).run r' := by
  rw [StateT.run_bind, h]
  rfl

/-- The reader behind a statement that has come to `o`. -/
def after (text : List Char) (r : Reader) (o : Outcome Rule) : Reader :=
  { finished := r.finished + if r.depth = 0 then o.value?.toList.length else 0
    depth := r.depth
    inner := r.inner ++ o.inner.map (Fault.report text r.finished)
    dropped := r.dropped ++ o.dropped.map (Fault.report text r.finished) }

/-- Finishing a rule counts it when no group is open. -/
theorem finish_eq (r : Reader) :
    r.finish = { r with finished := r.finished + if r.depth = 0 then 1 else 0 } := by
  rw [finish]
  split <;> rfl

theorem take_error (f : Fault) (r : Reader) :
    (take text (.plain (.error f))).run r = (.error f, r) := rfl

/-- Taking in a rule notes what was dropped inside of it and counts it. -/
theorem take_ok {o : Outcome Rule} {rule : Rule} (h : o.result = .ok rule) (r : Reader) :
    (take text o).run r = (.ok rule, (r.noteDropped text o.dropped).finish) := by
  rw [take, h]
  rfl

/-- A statement that holds no rules. -/
theorem take_rule {s : Statement} (h : s.inside = []) (r : Reader) :
    (take text s.rule).run r = (s.rule.result, r.after text s.rule) := by
  obtain ⟨cause, place, hrule, -⟩ | ⟨rule, hrule, hinner⟩ := s.rule_cases
  · rw [hrule, take_error]
    simp [after, Outcome.plain, Outcome.value?, Except.toOption]
  · rw [h] at hinner
    rw [take_ok hrule, hrule, finish_eq]
    simp only [after, noteDropped, Outcome.value?, hrule, hinner, Except.toOption,
      List.flatMap_nil, List.filterMap_nil, List.append_nil, List.map_nil]
    rfl

/-- The reader behind statements in a group that have come to `os`. -/
def afterAll (text : List Char) (r : Reader) (os : List (Outcome Rule)) : Reader :=
  { r with
    inner := r.inner ++ (Outcome.allInner os).map (Fault.report text r.finished)
    dropped := r.dropped ++ (Outcome.allDropped os).map (Fault.report text r.finished) }

/-- In a group nothing is counted, so all faults get the same rule index. -/
theorem run_mapM {ι : Type} {visit : ι → StateM Reader (Except Fault Rule)}
    {outcome : ι → Outcome Rule} {is : List ι}
    (h : ∀ i ∈ is, ∀ r, (visit i).run r = ((outcome i).result, r.after text (outcome i)))
    (r : Reader) (hr : r.depth ≠ 0) :
    (is.mapM visit).run r =
      ((is.map outcome).map Outcome.result, r.afterAll text (is.map outcome)) := by
  induction is generalizing r with
  | nil =>
      simp only [List.mapM_nil, List.map_nil, afterAll, Outcome.allInner, Outcome.allDropped,
        List.flatMap_nil, List.append_nil]
      rfl
  | cons i is ih =>
      have hi := h i List.mem_cons_self r
      have his := ih (fun j hj => h j (List.mem_cons_of_mem _ hj)) (r.after text (outcome i)) hr
      rw [List.mapM_cons, run_bind_of_run hi, run_bind_of_run his]
      simp only [after, afterAll, if_neg hr, Outcome.allInner, Outcome.allDropped, List.map_cons,
        List.flatMap_cons, List.map_append, List.append_assoc]
      rfl

end Reader

namespace Statement

variable {text : List Char} {s : Statement}

theorem visit_of_plain (h : s.atName? = none) : s.visit text = Reader.take text s.rule := by
  rw [rule_of_plain h, visit]
  simp only [h]

/-- An at-rule without a block is taken in as it is. -/
theorem visit_of_bare {name : String} (hn : s.atName? = some name)
    (he : s.ending = .semicolon ∨ s.ending = .missing) : s.visit text = Reader.take text s.rule := by
  rw [rule_of_bare hn he, visit, hn]
  simp only
  split
  · next heq => rcases he with he | he <;> rw [he] at heq <;> cases heq
  · rfl
  · rfl

/-- An at-rule with a block is entered when it is a group, and its rules are visited one by one. -/
theorem visit_of_block {name : String} {o : Lexeme} {body : List Component} {c : Option Lexeme}
    (hn : s.atName? = some name) (he : s.ending = .block o body c) :
    s.visit text =
      if Rule.groupNames.contains (Text.lower name) then do
        modify Reader.enter
        let results ← (Grammar.ruleStatements s.bodyStart body).attach.mapM fun t => t.1.visit text
        let block := results.map Outcome.plain
        modify Reader.leave
        modify (Reader.noteInner text (Outcome.faults block))
        modify Reader.finish
        return .ok (.group (Text.lower name) s.prelude (Outcome.values block))
      else Reader.take text s.rule := by
  rw [visit, hn]
  simp only
  split
  · next heq =>
      rw [he] at heq
      cases heq
      split
      · rfl
      · next hg => rw [rule_of_block hn he, if_neg hg]
  · next heq => rw [he] at heq; cases heq
  · next heq => rw [he] at heq; cases heq

/-- A group: the rules in its block are not counted, the group itself is. -/
theorem run_visit_group {name : String} {o : Lexeme} {body : List Component} {c : Option Lexeme}
    (hn : s.atName? = some name) (he : s.ending = .block o body c)
    (hg : Rule.groupNames.contains (Text.lower name) = true)
    (ih : ∀ t ∈ Grammar.ruleStatements s.bodyStart body, ∀ r,
      (t.visit text).run r = (t.rule.result, r.after text t.rule)) (r : Reader) :
    (s.visit text).run r = (s.rule.result, r.after text s.rule) := by
  set ts := Grammar.ruleStatements s.bodyStart body
  have hrule : s.rule = groupRule (Text.lower name) s.prelude (ts.map Statement.rule) := by
    rw [rule_of_block hn he, if_pos hg, readRules_eq]
  have henter : (modify Reader.enter : StateM Reader PUnit).run r = (⟨⟩, r.enter) := rfl
  have hts := Reader.run_mapM (fun (t : { t // t ∈ ts }) (_ : t ∈ ts.attach) => ih t.1 t.2) r.enter
    (Nat.succ_ne_zero _)
  have hattach : (ts.attach.map fun t => t.1.rule) = ts.map Statement.rule := List.attach_map_val
  rw [hattach] at hts
  rw [visit_of_block hn he, if_pos hg, Reader.run_bind_of_run henter, Reader.run_bind_of_run hts]
  show (Except.ok (Rule.group _ _ _), Reader.finish _) = _
  rw [Outcome.values_results, Outcome.faults_results, hrule, Reader.finish_eq]
  simp [groupRule, Reader.after, Reader.afterAll, Reader.enter, Reader.leave, Reader.noteInner,
    Outcome.value?, Except.toOption]

/-- Whatever is visited, the reader comes to the same as it would without counting, and knows how many
rules at top level have ended. -/
theorem run_visit (s : Statement) (r : Reader) :
    (s.visit text).run r = (s.rule.result, r.after text s.rule) := by
  induction s using inside_induction generalizing r with
  | h s ih =>
      cases hn : s.atName? with
      | none => rw [visit_of_plain hn, Reader.take_rule (inside_of_plain hn)]
      | some name =>
          cases he : s.ending with
          | block opener body closer =>
              have hinside := inside_of_block hn he
              by_cases hg : Rule.groupNames.contains (Text.lower name) = true
              · rw [if_pos hg] at hinside
                exact run_visit_group hn he hg (hinside ▸ ih) r
              · rw [if_neg hg] at hinside
                rw [visit_of_block hn he, if_neg hg, Reader.take_rule hinside]
          | semicolon => rw [visit_of_bare hn (.inl he), Reader.take_rule (inside_of_bare (.inl he))]
          | missing => rw [visit_of_bare hn (.inr he), Reader.take_rule (inside_of_bare (.inr he))]

/-- Something is dropped only from the block of a rule that is kept. -/
theorem length_value?_of_mem_dropped {f : Fault} (h : f ∈ s.rule.dropped) :
    s.rule.value?.toList.length = 1 := by
  obtain ⟨cause, place, hrule, -⟩ | ⟨rule, hrule, -⟩ := s.rule_cases
  · rw [hrule] at h
    cases h
  · rw [Outcome.value?, hrule]
    rfl

end Statement

/-! ### Between the statements at top level -/

namespace Pass

variable {text : List Char} {p : Pass}

/-- A step leaves the reader behind the statement, and keeps its rule and its report. -/
theorem step_eq (p : Pass) (s : Statement) : p.step text s =
    { reader := p.reader.after text s.rule
      rules := p.rules ++ s.rule.value?.toList
      outer := p.outer ++ s.rule.fault?.toList.map (Fault.report text p.rules.length) } := by
  rw [step, s.run_visit]
  cases h : s.rule.result with
  | ok rule => simp [Outcome.value?, Outcome.fault?, h, Except.toOption]
  | error f => simp [Outcome.value?, Outcome.fault?, h, Except.toOption]

/-- The two counts agree, and no rule index is out of order. -/
structure Sound (p : Pass) : Prop where
  finished : p.reader.finished = p.rules.length
  depth : p.reader.depth = 0
  dropped : ∀ e ∈ p.reader.dropped, e.ruleIndex < p.rules.length
  ordered : p.reader.dropped.Pairwise fun e d => e.ruleIndex ≤ d.ruleIndex
  reported : ∀ e ∈ p.reader.inner ++ p.outer, e.ruleIndex ≤ p.rules.length

/-- The counts agree where reading starts. -/
theorem sound_start (rules : List Rule) : (start rules).Sound where
  finished := rfl
  depth := rfl
  dropped := List.forall_mem_nil _
  ordered := .nil
  reported := List.forall_mem_nil _

theorem ruleIndex_of_mem_reports {n : Nat} {fs : List Fault} {e : SyntaxError}
    (h : e ∈ fs.map (Fault.report text n)) : e.ruleIndex = n := by
  obtain ⟨f, -, rfl⟩ := List.mem_map.1 h
  rfl

/-- **A step keeps the counts in agreement.** -/
theorem Sound.step (h : p.Sound) (s : Statement) : (p.step text s).Sound := by
  rw [step_eq, Reader.after, h.finished, if_pos h.depth]
  refine
    { finished := List.length_append.symm
      depth := h.depth
      dropped := ?dropped
      ordered := List.pairwise_append.2 ⟨h.ordered, ?within, ?across⟩
      reported := ?reported }
  case dropped =>
    intro e he
    rw [List.length_append]
    rcases List.mem_append.1 he with he | he
    · exact Nat.lt_add_right _ (h.dropped e he)
    · -- the rule that it has been dropped from is the new one
      obtain ⟨f, hf, -⟩ := List.mem_map.1 he
      rw [ruleIndex_of_mem_reports he, Statement.length_value?_of_mem_dropped hf]
      exact Nat.lt_succ_self _
  case within =>
    refine List.pairwise_of_forall_mem_list fun e he d hd => ?_
    rw [ruleIndex_of_mem_reports he, ruleIndex_of_mem_reports hd]
  case across =>
    intro e he d hd
    rw [ruleIndex_of_mem_reports hd]
    exact (h.dropped e he).le
  case reported =>
    intro e he
    simp only [List.mem_append, or_assoc] at he
    rw [List.length_append]
    refine Nat.le_add_right_of_le ?_
    rcases he with he | he | he | he
    · exact h.reported e (List.mem_append_left _ he)
    · exact (ruleIndex_of_mem_reports he).le
    · exact h.reported e (List.mem_append_right _ he)
    · exact (ruleIndex_of_mem_reports he).le

theorem Sound.scanl (h : p.Sound) (ss : List Statement) :
    ∀ q ∈ ss.scanl (Pass.step text) p, q.Sound := by
  induction ss generalizing p with
  | nil => simpa using h
  | cons s ss ih =>
      rw [List.scanl_cons, List.forall_mem_cons]
      exact ⟨h, ih (h.step s)⟩

/-- What is known of the sheet, without the depth. -/
def progress (p : Pass) : Progress :=
  ⟨p.reader.finished, p.rules, p.reader.inner, p.outer, p.reader.dropped⟩

/-- A step with counters is a step without, as far as the sheet is concerned. -/
theorem progress_step (h : p.Sound) (s : Statement) :
    (p.step text s).progress = p.progress.step text s.rule := by
  rw [step_eq]
  simp only [progress, Progress.step, Reader.after, if_pos h.depth]

theorem progress_foldl (h : p.Sound) (ss : List Statement) :
    (ss.foldl (step text) p).progress =
      (ss.map Statement.rule).foldl (Progress.step text) p.progress := by
  induction ss generalizing p with
  | nil => rfl
  | cons s ss ih =>
      rw [List.foldl_cons, ih (h.step s), progress_step h, List.map_cons, List.foldl_cons]

end Pass

namespace Stylesheet

/-- The passes over a sheet start behind its `@charset` and step over its statements. -/
theorem exists_passes (css : String) : ∃ rs ss, Consists css rs ss ∧
    passes css = ss.scanl (Pass.step css.toList) (.start rs) := by
  cases h : leadingCharset (Component.ofText css.toList) with
  | none => exact ⟨_, _, consists_of_none h, by simp only [passes, h]⟩
  | some q => exact ⟨_, _, consists_of_charset h, by simp only [passes, h]⟩

theorem sound_of_mem_passes {css : String} {p : Pass} (h : p ∈ passes css) : p.Sound := by
  obtain ⟨rs, ss, -, hpasses⟩ := exists_passes css
  rw [hpasses] at h
  exact (Pass.sound_start rs).scanl ss p h

/-- Counting changes nothing in what is read. -/
theorem sheet_of_passes (css : String) : (passes css).getLast?.map Pass.sheet = some (parse css) := by
  obtain ⟨rs, ss, hc, hpasses⟩ := exists_passes css
  have hlast : (ss.foldl (Pass.step css.toList) (.start rs)).progress =
      (ss.map Statement.rule).foldl (Progress.step css.toList) (.start rs) :=
    Pass.progress_foldl (Pass.sound_start rs) ss
  rw [hpasses, List.getLast?_scanl, parse, hc.read]
  exact congrArg (fun p : Progress => some p.sheet) hlast

/-- The rule indices of the errors are in order. -/
theorem pairwise_errors (css : String) :
    (parse css).errors.Pairwise fun e d => e.ruleIndex ≤ d.ruleIndex := by
  refine (List.pairwise_mergeSort SyntaxError.before_trans SyntaxError.before_total _).imp ?_
  intro e d h
  rw [SyntaxError.before_iff] at h
  omega

/-- **The counts of rules agree.**  Between the statements at top level the reader has counted the rules
that have been taken in and is outside of all groups; its last state is the sheet.  So what is dropped is
labelled with a rule of the sheet, errors with one or with the end, and both in order. -/
theorem counts_agree (css : String) :
    (∀ p ∈ passes css, p.reader.finished = p.rules.length ∧ p.reader.depth = 0) ∧
    (passes css).getLast?.map Pass.sheet = some (parse css) ∧
    (∀ e ∈ (parse css).dropped, e.ruleIndex < (parse css).rules.length) ∧
    ((parse css).dropped.Pairwise fun e d => e.ruleIndex ≤ d.ruleIndex) ∧
    (∀ e ∈ (parse css).errors, e.ruleIndex ≤ (parse css).rules.length) ∧
    (parse css).errors.Pairwise fun e d => e.ruleIndex ≤ d.ruleIndex := by
  have hlast := sheet_of_passes css
  obtain ⟨p, hp, hsheet⟩ := Option.map_eq_some_iff.1 hlast
  have hsound := sound_of_mem_passes (List.mem_of_getLast? hp)
  refine ⟨fun q hq => ⟨(sound_of_mem_passes hq).finished, (sound_of_mem_passes hq).depth⟩, hlast,
    ?_, ?_, ?_, pairwise_errors css⟩
  · rw [← hsheet]
    exact hsound.dropped
  · rw [← hsheet]
    exact hsound.ordered
  · rw [← hsheet]
    intro e he
    exact hsound.reported e (List.mem_mergeSort.1 he)

end Stylesheet

end CssPrune
