import CssPrune.Proofs.Faults
import CssPrune.Proofs.RoundTrip
import CssPrune.Candidate

/-!
# The errors of a sheet are in the order of its text

A sheet consists of statements, maybe with a `@charset` in front (`Stylesheet.exists_consists`).  Its
errors are the faults of these statements, in the order of the text (`Consists.errors_eq`), and the
texts that they report are those of the statements given up (`Consists.sources_eq`).
-/

namespace CssPrune

open Component (Placed)
open SyntaxError (Rearranged)

/-! ### Rearranging what is collected -/

/-- What is collected in two lists may be collected in one, when nothing in the second list shares its
place with something that comes later in the first one. -/
theorem SyntaxError.Rearranged.flatMap {ι : Type} {qs : List ι}
    (inner own whole : ι → List SyntaxError)
    (h : ∀ q ∈ qs, Rearranged (inner q ++ own q) (whole q))
    (hd : qs.Pairwise fun q q' => ∀ e ∈ own q, ∀ d ∈ inner q', e.samePlace d = false) :
    Rearranged (qs.flatMap inner ++ qs.flatMap own) (qs.flatMap whole) := by
  induction qs with
  | nil => exact .refl []
  | cons q qs ih =>
      rw [List.pairwise_cons] at hd
      have hq := h q List.mem_cons_self
      have hqs := ih (fun q' hq' => h q' (List.mem_cons_of_mem _ hq')) hd.2
      -- the faults of the first one go in front of what later ones hold
      have hswap : Rearranged (qs.flatMap inner ++ own q) (own q ++ qs.flatMap inner) := by
        refine (Rearranged.swap fun e he d hd' => ?_).symm
        obtain ⟨q', hq', hd'⟩ := List.mem_flatMap.1 hd'
        exact hd.1 q' hq' e he d hd'
      have := ((Rearranged.refl (inner q)).append (hswap.append (.refl (qs.flatMap own)))).trans
        (by simpa using hq.append hqs)
      simpa using this

namespace Statement

variable {text : List Char} {s t : Statement}

theorem location_report (text : List Char) (n : Nat) (f : Fault) :
    (f.report text n).location = Location.ofOffset text f.place := rfl

/-- A statement that is given up and what is at fault inside of a later one are at different places. -/
theorem samePlace_report_eq_false (hp : Placed text t.start t.components) (hst : s.stop ≤ t.start)
    {f g : Fault} (hf : s.rule.fault? = some f) (hg : g ∈ t.rule.inner) (n m : Nat) :
    (f.report text n).samePlace (g.report text m) = false := by
  have hs : s.GivenUp := s.rule_cases.resolve_right fun hk => by rw [hk.fault?] at hf; cases hf
  obtain ⟨f', hf', -, -, -, hhi⟩ := hs.fault?
  obtain rfl : f = f' := Option.some.inj (hf.symm.trans hf')
  obtain ⟨u, hu, hgu⟩ := exists_of_mem_inner t g hg
  have hgp := (place_of_mem_faults (placed_inside hp hu).1 g hgu).1
  have hlt := location_inside hp hu (hhi.trans hst) hgp
  rw [Bool.eq_false_iff, ne_eq, SyntaxError.samePlace_iff, location_report, location_report]
  rintro ⟨-, he⟩
  rw [he, Location.lt_def] at hlt
  omega

/-- What is collected of a statement, and its faults in order. -/
theorem rearranged_rule (n : Nat) (s : Statement) (hp : Placed text s.start s.components) :
    Rearranged ((s.rule.inner ++ s.rule.fault?.toList).map (Fault.report text n))
      (s.faults.map (Fault.report text n)) := by
  induction s using inside_induction with
  | h s ih =>
      obtain h | h := s.rule_cases
      · rw [h.inner, h.faults]
        exact .refl _
      · have hin : ∀ t ∈ s.inside, Placed text t.start t.components := fun t ht =>
          (placed_inside hp ht).1
        have := Rearranged.flatMap
          (fun t : Statement => t.rule.inner.map (Fault.report text n))
          (fun t => t.rule.fault?.toList.map (Fault.report text n))
          (fun t => t.faults.map (Fault.report text n))
          (fun t ht => by rw [← List.map_append]; exact ih t ht (hin t ht))
          (s.pairwise_inside.imp_of_mem fun {t u} _ hu htu e he d hd => by
            obtain ⟨f, hf, rfl⟩ := List.mem_map.1 he
            obtain ⟨g, hg, rfl⟩ := List.mem_map.1 hd
            exact samePlace_report_eq_false (hin u hu) htu (Option.mem_toList.1 hf) hg n n)
        rw [h.inner, h.fault?, h.faults, List.filterMap_eq_flatMap_toList]
        simpa [List.map_flatMap] using this

/-! ### Statements at top level -/

/-- Statements with the number of rules in front of each one, when `n` rules are in front of them
all. -/
def numbered (n : Nat) : List Statement → List (Nat × Statement)
  | [] => []
  | s :: ss => (n, s) :: numbered (n + s.rule.value?.toList.length) ss

theorem map_numbered (n : Nat) (ss : List Statement) : (numbered n ss).map Prod.snd = ss := by
  induction ss generalizing n with
  | nil => rfl
  | cons s ss ih => rw [numbered, List.map_cons, ih]

theorem mem_of_mem_numbered {n : Nat} {ss : List Statement} {q : Nat × Statement}
    (h : q ∈ numbered n ss) : q.2 ∈ ss := by
  rw [← map_numbered n ss]
  exact List.mem_map_of_mem h

/-- No number is smaller than the first one. -/
theorem le_of_mem_numbered {n : Nat} {ss : List Statement} {q : Nat × Statement}
    (h : q ∈ numbered n ss) : n ≤ q.1 := by
  induction ss generalizing n with
  | nil => cases h
  | cons s ss ih =>
      rcases List.mem_cons.1 h with rfl | h
      · exact Nat.le_refl _
      · exact (Nat.le_add_right _ _).trans (ih h)

/-- The numbers are in order. -/
theorem pairwise_numbered (n : Nat) (ss : List Statement) :
    (numbered n ss).Pairwise fun p q => p.1 ≤ q.1 := by
  induction ss generalizing n with
  | nil => exact .nil
  | cons s ss ih =>
      exact .cons (fun q hq => (Nat.le_add_right _ _).trans (le_of_mem_numbered hq)) (ih _)

/-- What comes of statements that are taken in one after the other.  The two counts of rules agree. -/
theorem foldl_step (text : List Char) (ss : List Statement) (p : Progress)
    (hp : p.finished = p.rules.length) :
    (ss.map rule).foldl (Progress.step text) p =
      { finished := p.finished + (Outcome.values (ss.map rule)).length
        rules := p.rules ++ Outcome.values (ss.map rule)
        inner := p.inner ++ (numbered p.finished ss).flatMap fun q =>
          q.2.rule.inner.map (Fault.report text q.1)
        outer := p.outer ++ (numbered p.finished ss).flatMap fun q =>
          q.2.rule.fault?.toList.map (Fault.report text q.1)
        dropped := p.dropped ++ (numbered p.finished ss).flatMap fun q =>
          q.2.rule.dropped.map (Fault.report text q.1) } := by
  induction ss generalizing p with
  | nil => simp [numbered, Outcome.values]
  | cons s ss ih =>
      have hstep : (p.step text s.rule).finished = (p.step text s.rule).rules.length := by
        simp [Progress.step, hp]
      have hvalues : Outcome.values ((s :: ss).map rule) =
          s.rule.value?.toList ++ Outcome.values (ss.map rule) := by
        simp only [Outcome.values, List.map_cons, List.filterMap_eq_flatMap_toList,
          List.flatMap_cons]
      rw [List.map_cons, List.foldl_cons, ih _ hstep, ← List.map_cons, hvalues]
      simp [Progress.step, numbered, hp, Nat.add_assoc]

end Statement

/-- What is reported of a text that is given up: nothing when it is blank. -/
def sourceOf (x : List Char) : Option String :=
  if Text.allBlank x then none else some (String.ofList x)

/-- What is reported of a text is the text itself, and is not empty. -/
theorem eq_of_sourceOf {x : List Char} {f : String} (h : sourceOf x = some f) :
    f = String.ofList x ∧ f ≠ "" := by
  rw [sourceOf] at h
  split at h
  · cases h
  · next hx =>
      cases h
      refine ⟨rfl, fun hempty => hx ?_⟩
      rw [String.ofList_eq_empty_iff.1 hempty]
      rfl

namespace Stylesheet

open Statement (numbered)

/-- A sheet is read as the rules `rs`, a `@charset` or nothing, and then statement by statement. -/
structure Consists (css : String) (rs : List Rule) (ss : List Statement) : Prop where
  read : Progress.read css.toList (Component.ofText css.toList) =
    (ss.map Statement.rule).foldl (Progress.step css.toList) (.start rs)
  behind : ∃ as cs, Component.ofText css.toList = as ++ cs ∧
    ss = Grammar.ruleStatements (Component.widthOf as) cs

/-- A sheet without a `@charset` in front is read statement by statement. -/
theorem consists_of_none {css : String} (h : leadingCharset (Component.ofText css.toList) = none) :
    Consists css [] (Grammar.ruleStatements 0 (Component.ofText css.toList)) where
  read := by
    rw [Progress.read, h]
    simp only
    rw [readRules_eq]
  behind := ⟨[], _, rfl, rfl⟩

/-- A leading `@charset` is a statement behind blanks. -/
theorem consists_of_charset {css : String} {s : Statement} {rest : List Component}
    (h : leadingCharset (Component.ofText css.toList) = some (s, rest)) :
    Consists css [.statement "charset" s.prelude] (Grammar.ruleStatements s.stop rest) where
  read := by
    rw [Progress.read, h]
    simp only
    rw [readRules_eq]
  behind := by
    have hf := Component.faithful_ofText css.toList
    generalize Component.ofText css.toList = cs at h hf
    simp only [leadingCharset] at h
    split at h
    · cases h
      have hcs := List.takeWhile_append_dropWhile (p := Component.isBlank) (l := cs)
      have hcut := Terminators.cut_eq ⟨true, false⟩ (hcs ▸ hf).right
      generalize cs.takeWhile Component.isBlank = as at hcs ⊢
      generalize cs.dropWhile Component.isBlank = ds at hcs hcut ⊢
      generalize hs : (⟨Component.widthOf as, (Terminators.cut ⟨true, false⟩ ds).1,
        (Terminators.cut ⟨true, false⟩ ds).2.1⟩ : Statement) = s
      have hds : ds = s.components ++ (Terminators.cut ⟨true, false⟩ ds).2.2 := by
        rw [Statement.components, ← hs, List.append_assoc]
        exact hcut.symm
      refine ⟨as ++ s.components, (Terminators.cut ⟨true, false⟩ ds).2.2, ?_, ?_⟩
      · rw [← hcs, List.append_assoc, ← hds]
      · rw [Component.widthOf_eq, Component.textOf_append, List.length_append,
          ← Component.widthOf_eq, Statement.stop_eq, Statement.text, ← hs]
    · cases h

/-- **Every sheet is read statement by statement**, with a `@charset` in front or without. -/
theorem exists_consists (css : String) : ∃ rs ss, Consists css rs ss := by
  cases h : leadingCharset (Component.ofText css.toList) with
  | none => exact ⟨_, _, consists_of_none h⟩
  | some q => exact ⟨_, _, consists_of_charset h⟩

section Consists

variable {css : String} {rs : List Rule} {ss : List Statement}

/-- Each statement of a sheet stands in its text where it starts. -/
theorem Consists.placed (h : Consists css rs ss) :
    ∀ s ∈ ss, Placed css.toList s.start s.components := by
  obtain ⟨as, cs, hcs, rfl⟩ := h.behind
  have hp := Component.placed_ofText css.toList
  rw [hcs, ← List.append_nil cs] at hp
  have hrest := hp.infix
  rw [Nat.zero_add] at hrest
  exact fun s hs => hrest.statement (Grammar.mem_of_mem_ruleStatements hs)

/-- The statements of a sheet follow each other. -/
theorem Consists.ordered (h : Consists css rs ss) : ss.Pairwise fun s t => s.stop ≤ t.start := by
  obtain ⟨as, cs, -, rfl⟩ := h.behind
  exact Grammar.pairwise_ruleStatements _ _

/-- The rules of a sheet are the `@charset` and those that its statements come to. -/
theorem Consists.rules_eq (h : Consists css rs ss) :
    (parse css).rules = rs ++ Outcome.values (ss.map Statement.rule) := by
  rw [parse, h.read]
  exact Progress.rules_foldl _ _ _

/-- The faults within style rules are reported in the order of the statements. -/
theorem Consists.dropped_eq (h : Consists css rs ss) : (parse css).dropped =
    (numbered rs.length ss).flatMap fun q =>
      q.2.rule.dropped.map (Fault.report css.toList q.1) := by
  rw [parse, h.read, Statement.foldl_step _ _ _ rfl]
  rfl

/-- The errors of a sheet are the faults of its statements, one after the other. -/
theorem Consists.errors_eq (h : Consists css rs ss) : (parse css).errors =
    (numbered rs.length ss).flatMap fun q =>
      q.2.faults.map (Fault.report css.toList q.1) := by
  have hmem : ∀ q ∈ numbered rs.length ss, Placed css.toList q.2.start q.2.components :=
    fun q hq => h.placed q.2 (Statement.mem_of_mem_numbered hq)
  have hpair : (numbered rs.length ss).Pairwise fun p q => p.1 ≤ q.1 ∧ p.2.stop ≤ q.2.start := by
    have hs := h.ordered
    rw [← Statement.map_numbered rs.length ss] at hs
    exact (Statement.pairwise_numbered _ _).and (List.pairwise_map.1 hs)
  have hbefore : ∀ {p q : Nat × Fault}, p.1 ≤ q.1 → p.2.place ≤ q.2.place →
      (p.2.report css.toList p.1).before (q.2.report css.toList q.1) = true := by
    intro p q hn hpl
    rw [SyntaxError.before_iff]
    rcases Nat.lt_or_eq_of_le hn with h | h
    · exact .inl h
    · exact .inr ⟨h, Location.ofOffset_mono _ hpl⟩
  rw [parse, h.read, Statement.foldl_step _ _ _ rfl]
  refine SyntaxError.mergeSort_eq ?_ (List.pairwise_flatMap.2 ⟨fun q hq => ?_, ?_⟩)
  -- the two lists hold what the statements come to
  · refine Rearranged.flatMap _ _ _ (fun q hq => ?_) (hpair.imp_of_mem ?_)
    · rw [← List.map_append]
      exact Statement.rearranged_rule q.1 q.2 (hmem q hq)
    · intro q q' _ hq' hqq e he d hd
      obtain ⟨f, hf, rfl⟩ := List.mem_map.1 he
      obtain ⟨g, hg, rfl⟩ := List.mem_map.1 hd
      exact Statement.samePlace_report_eq_false (hmem q' hq') hqq.2 (Option.mem_toList.1 hf) hg _ _
  -- which are in order
  · refine List.pairwise_map.2 ((Statement.pairwise_faults q.2 (hmem q hq)).imp fun h => ?_)
    exact hbefore (p := (q.1, _)) (q := (q.1, _)) (Nat.le_refl _) h
  · refine hpair.imp_of_mem fun {p q} hpm hqm hpq e he d hd => ?_
    obtain ⟨f, hf, rfl⟩ := List.mem_map.1 he
    obtain ⟨g, hg, rfl⟩ := List.mem_map.1 hd
    have hf' := (Statement.place_of_mem_faults (hmem p hpm) f hf).2
    have hg' := (Statement.place_of_mem_faults (hmem q hqm) g hg).1
    exact hbefore (p := (p.1, f)) (q := (q.1, g)) hpq.1 ((hf'.trans hpq.2).trans hg')

/-- The texts of the errors are those of the statements given up. -/
theorem Consists.sources_eq (h : Consists css rs ss) :
    (parse css).errors.map (fun e => (e.source, e.ruleIndex)) =
      (numbered rs.length ss).flatMap fun q => q.2.faulty.map fun t => (sourceOf t.text, q.1) := by
  rw [h.errors_eq, List.map_flatMap]
  refine List.flatMap_congr fun q hq => ?_
  rw [List.map_map, Statement.faults, List.map_filterMap]
  refine List.filterMap_eq_map_iff_forall_eq_some.2 fun t ht => ?_
  have hp := h.placed q.2 (Statement.mem_of_mem_numbered hq)
  obtain ⟨hpt, hg, -⟩ := Statement.placed_of_mem_faulty q.2 hp t ht
  obtain ⟨f, hf, hstart, hstop, -⟩ := hg.fault?
  have hslice : slice css.toList f.start f.stop = t.text := by rw [hstart, hstop, hpt.slice]
  simp only [hf, Option.map_some, Function.comp_apply, Fault.report, hslice, sourceOf]

/-- The fragments of a sheet are these texts. -/
theorem Consists.fragments_eq (h : Consists css rs ss) :
    Candidate.fragments (parse css).errors =
      (ss.flatMap Statement.faulty).filterMap fun t => sourceOf t.text := by
  have hsource : Candidate.fragments (parse css).errors =
      ((parse css).errors.map fun e => (e.source, e.ruleIndex)).filterMap Prod.fst := by
    rw [List.filterMap_map]; rfl
  rw [hsource, h.sources_eq, List.filterMap_flatMap, List.filterMap_flatMap,
    ← Statement.map_numbered rs.length ss, List.flatMap_map, Statement.map_numbered]
  simp only [List.filterMap_map]
  rfl

end Consists

end Stylesheet

end CssPrune
