import CssPrune.Candidate
import Mathlib.Logic.Basic

/-!
# What a document keeps

`isRetainedBy_ofRule`: a document keeps a rule when the rule is kept unconditionally or the document
mentions a name of one of the selectors that the rule reaches.  A group reaches every selector that
a rule within it reaches (`Rule.Within.reachable_subset`), so the names that keep the one keep the
other; `retained_within_iff` says what this leaves open for rules that need no name.
-/

namespace CssPrune

/-! ### Names of selectors -/

namespace Dependency

/-- The document, given by its classes and, where they count, its ids, mentions a name. -/
def Met (d : Dependency) (classes : NameSet) (ids : Option NameSet) : Prop :=
  (∃ x ∈ d.classes, x ∈ classes) ∨ ∃ I ∈ ids, ∃ x ∈ d.ids, x ∈ I

/-- Every name of `d` is one of `e`. -/
def Within (d e : Dependency) : Prop :=
  (∀ x ∈ d.classes, x ∈ e.classes) ∧ ∀ x ∈ d.ids, x ∈ e.ids

variable {d e : Dependency} {classes : NameSet} {ids : Option NameSet}

theorem Met.mono (h : d.Met classes ids) (hde : d.Within e) : e.Met classes ids := by
  rcases h with ⟨x, hx, hc⟩ | ⟨I, hI, x, hx, hi⟩
  · exact .inl ⟨x, hde.1 x hx, hc⟩
  · exact .inr ⟨I, hI, x, hde.2 x hx, hi⟩

/-- No name can be found in a document without classes and ids. -/
theorem not_met_empty : ¬d.Met ∅ none := by
  rintro (⟨x, -, hx⟩ | ⟨I, hI, -⟩)
  · exact List.not_mem_nil hx
  · cases hI

/-- A dependency is empty when it has neither a class nor an id. -/
theorem isEmpty_iff : d.isEmpty = true ↔ (∀ x, x ∉ d.classes) ∧ ∀ x, x ∉ d.ids := by
  simp only [isEmpty, NameSet.isEmpty, Bool.and_eq_true, List.isEmpty_iff,
    List.eq_nil_iff_forall_not_mem]
  rfl

/-- The names of a union that is built up one dependency at a time. -/
theorem foldl_union (ds : List Dependency) (d : Dependency) (x : String) :
    (x ∈ (ds.foldl union d).classes ↔ x ∈ d.classes ∨ ∃ e ∈ ds, x ∈ e.classes) ∧
      (x ∈ (ds.foldl union d).ids ↔ x ∈ d.ids ∨ ∃ e ∈ ds, x ∈ e.ids) := by
  induction ds generalizing d with
  | nil => simp
  | cons e ds ih =>
      rw [List.foldl_cons, (ih _).1, (ih _).2, mem_classes_union, mem_ids_union]
      simp only [List.mem_cons, exists_eq_or_imp]
      constructor
      · rw [or_comm (a := x ∈ e.classes), or_assoc]
      · rw [or_comm (a := x ∈ e.ids), or_assoc]

/-- A name of a union of several is a name of one of them. -/
theorem mem_unionAll {ds : List Dependency} {x : String} :
    (x ∈ (unionAll ds).classes ↔ ∃ d ∈ ds, x ∈ d.classes) ∧
      (x ∈ (unionAll ds).ids ↔ ∃ d ∈ ds, x ∈ d.ids) := by
  have hc : x ∉ empty.classes := List.not_mem_nil
  have hi : x ∉ empty.ids := List.not_mem_nil
  rw [unionAll, (foldl_union ds _ x).1, (foldl_union ds _ x).2]
  simp only [hc, hi, false_or, and_self]

/-- The names of a dependency that is built up one hook at a time. -/
theorem foldl_add (hs : List (Char × String)) (d : Dependency) (x : String) :
    (x ∈ (hs.foldl add d).classes ↔ ('.', x) ∈ hs ∨ x ∈ d.classes) ∧
      (x ∈ (hs.foldl add d).ids ↔ ('#', x) ∈ hs ∨ x ∈ d.ids) := by
  induction hs generalizing d with
  | nil => simp
  | cons h hs ih =>
      rw [List.foldl_cons, (ih _).1, (ih _).2, mem_classes_add, mem_ids_add, List.mem_cons,
        List.mem_cons, or_left_comm, ← or_assoc, or_left_comm (a := ('#', x) ∈ hs), ← or_assoc,
        eq_comm (a := h), eq_comm (a := h)]
      exact ⟨Iff.rfl, Iff.rfl⟩

/-- Hooks give classes and ids by their marks. -/
theorem mem_ofHooks {hs : List (Char × String)} {x : String} :
    (x ∈ (ofHooks hs).classes ↔ ('.', x) ∈ hs) ∧ (x ∈ (ofHooks hs).ids ↔ ('#', x) ∈ hs) := by
  rw [ofHooks, (foldl_add hs _ x).1, (foldl_add hs _ x).2]
  simp only [show x ∉ empty.classes from List.not_mem_nil,
    show x ∉ empty.ids from List.not_mem_nil, or_false, and_self]

end Dependency

namespace Selector

/-- A list of selectors asks for the classes that one of them asks for. -/
theorem mem_classes_analyzeAll {ss : List String} {x : String} :
    x ∈ (analyzeAll ss).classes ↔ ∃ s ∈ ss, x ∈ (analyze s).classes := by
  rw [analyzeAll, Dependency.mem_unionAll.1]
  simp only [List.mem_map, exists_exists_and_eq_and]

/-- A list of selectors asks for the ids that one of them asks for. -/
theorem mem_ids_analyzeAll {ss : List String} {x : String} :
    x ∈ (analyzeAll ss).ids ↔ ∃ s ∈ ss, x ∈ (analyze s).ids := by
  rw [analyzeAll, Dependency.mem_unionAll.2]
  simp only [List.mem_map, exists_exists_and_eq_and]

/-- More selectors mention more names. -/
theorem analyzeAll_mono {ss ss' : List String} (h : ss ⊆ ss') :
    (analyzeAll ss).Within (analyzeAll ss') := by
  refine ⟨fun x hx => ?_, fun x hx => ?_⟩
  · obtain ⟨s, hs, hx⟩ := mem_classes_analyzeAll.1 hx
    exact mem_classes_analyzeAll.2 ⟨s, h hs, hx⟩
  · obtain ⟨s, hs, hx⟩ := mem_ids_analyzeAll.1 hx
    exact mem_ids_analyzeAll.2 ⟨s, h hs, hx⟩

end Selector

/-! ### Rules within groups -/

namespace Rule

/-- The rule is one of the list, or stands within a group of it. -/
inductive Within (r : Rule) : List Rule → Prop where
  | top {rs : List Rule} : r ∈ rs → Within r rs
  | nested {rs inner : List Rule} {name prelude : String} :
      .group name prelude inner ∈ rs → Within r inner → Within r rs

/-- A list of rules reaches what each of them reaches. -/
theorem reachable_subset {r : Rule} {rs : List Rule} (h : r ∈ rs) :
    r.reachable ⊆ reachableAll rs := by
  induction rs with
  | nil => cases h
  | cons r' rs ih =>
      rw [reachableAll]
      rcases List.mem_cons.1 h with rfl | h
      · exact List.subset_append_left _ _
      · exact List.Subset.trans (ih h) (List.subset_append_right _ _)

/-- A list of rules reaches what rules within its groups reach, at any depth. -/
theorem Within.reachable_subset {r : Rule} {rs : List Rule} (h : r.Within rs) :
    r.reachable ⊆ reachableAll rs := by
  induction h with
  | top h => exact Rule.reachable_subset h
  | @nested rs inner name prelude hg _ ih =>
      have hinner := Rule.reachable_subset hg
      rw [reachable] at hinner
      exact List.Subset.trans ih hinner

end Rule

/-! ### Retention -/

namespace Candidate

variable {print : Layout → Rule → String} {o : Options} {r : Rule}
  {classes : NameSet} {ids : Option NameSet}

/-- The rule is kept whatever the document: it reaches no selector, or, on demand, none of those that
it reaches mentions a name. -/
def Unconditional (o : Options) (r : Rule) : Prop :=
  r.reachable = [] ∨
    o.keepUnanchoredRules = true ∧ (Selector.analyzeAll r.reachable).isEmpty = true

/-- The candidate of a rule has its print, and is kept always or by the names of the selectors that
the rule reaches. -/
theorem ofRule_eq (print : Layout → Rule → String) (o : Options) (r : Rule) :
    (Unconditional o r ∧ ofRule print o r = .always (print o.layout r)) ∨
      (¬Unconditional o r ∧
        ofRule print o r = .dependent (print o.layout r) (Selector.analyzeAll r.reachable)) := by
  by_cases hr : r.reachable = []
  · exact .inl ⟨.inl hr, if_pos hr⟩
  · by_cases hd : ((Selector.analyzeAll r.reachable).isEmpty && o.keepUnanchoredRules) = true
    · exact .inl ⟨.inr (Bool.and_eq_true_iff.1 hd).symm, (if_neg hr).trans (if_pos hd)⟩
    · refine .inr ⟨?_, (if_neg hr).trans (if_neg hd)⟩
      rintro (h | h)
      · exact hr h
      · exact hd (Bool.and_eq_true_iff.2 h.symm)

/-- A rule is always kept exactly if it is kept unconditionally. -/
theorem isAlways_ofRule : (ofRule print o r).isAlways = true ↔ Unconditional o r := by
  rcases ofRule_eq print o r with ⟨hu, h⟩ | ⟨hu, h⟩
  · rw [h]; exact ⟨fun _ => hu, fun _ => rfl⟩
  · rw [h]
    refine ⟨fun hd => ?_, fun hd => absurd hd hu⟩
    cases of_decide_eq_true hd

/-- A candidate that asks for names is kept by a document that mentions one of them. -/
theorem isRetainedBy_dependent {css : String} {d : Dependency} :
    (dependent css d).isRetainedBy classes ids = true ↔ d.Met classes ids := by
  simp only [isRetainedBy, dependent, Bool.or_eq_true, List.any_eq_true, NameSet.contains,
    decide_eq_true_eq, Option.any_eq_true]
  rfl

/-- A document keeps a rule that is kept unconditionally, or of which it mentions a name. -/
theorem isRetainedBy_ofRule : (ofRule print o r).isRetainedBy classes ids = true ↔
    Unconditional o r ∨ (Selector.analyzeAll r.reachable).Met classes ids := by
  rcases ofRule_eq print o r with ⟨hu, h⟩ | ⟨hu, h⟩
  · rw [h]; exact ⟨fun _ => .inl hu, fun _ => rfl⟩
  · rw [h, isRetainedBy_dependent]; exact ⟨.inr, fun h => h.resolve_left hu⟩

/-- A group loses a rule within it for some document only if the rule is kept unconditionally and
the group is not. -/
theorem retained_within_iff {name prelude : String} {rules : List Rule} (h : r.Within rules) :
    (∀ classes ids, (ofRule print o r).isRetainedBy classes ids = true →
      (ofRule print o (.group name prelude rules)).isRetainedBy classes ids = true) ↔
    ((ofRule print o r).isAlways = true →
      (ofRule print o (.group name prelude rules)).isAlways = true) := by
  have hsub : r.reachable ⊆ (Rule.group name prelude rules).reachable := by
    rw [Rule.reachable]; exact h.reachable_subset
  simp only [isRetainedBy_ofRule, isAlways_ofRule]
  constructor
  · intro hret hr
    exact (hret ∅ none (.inl hr)).resolve_right Dependency.not_met_empty
  · rintro hal classes ids (hr | hmet)
    · exact .inl (hal hr)
    · exact .inr (hmet.mono (Selector.analyzeAll_mono hsub))

/-- A style rule two groups deep keeps the outer group, beside a block that reaches no selector. -/
theorem retained_within_supports :
    (Rule.style [".a"] []).Within [.group "supports" "(x: y)" [.style [".a"] []],
      .block "font-face" "" []] ∧
    ∀ classes ids, (ofRule Rule.print .default (.style [".a"] [])).isRetainedBy classes ids = true →
      (ofRule Rule.print .default (.group "media" "print" [
        .group "supports" "(x: y)" [.style [".a"] []],
        .block "font-face" "" []])).isRetainedBy classes ids = true := by
  have h : (Rule.style [".a"] []).Within [.group "supports" "(x: y)" [.style [".a"] []],
      .block "font-face" "" []] := .nested List.mem_cons_self (.top List.mem_cons_self)
  exact ⟨h, (retained_within_iff h).2 fun ha => absurd ha (by decide +kernel)⟩

/-- On its own an at-rule that is no group is always kept; in a group it goes with the selectors of
the other rules. -/
theorem font_face_lost_within_media :
    (ofRule Rule.print .default (.block "font-face" "" [])).isRetainedBy ∅ none = true ∧
      (ofRule Rule.print .default (.group "media" "print" [
        .block "font-face" "" [], .style [".a"] []])).isRetainedBy ∅ none = false := by
  decide +kernel

end Candidate

end CssPrune
