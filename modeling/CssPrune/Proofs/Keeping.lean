import CssPrune.Proofs.Output

/-!
# Which rules a document keeps

`Filter.Keeps` says for a rule, the options and a document why the document keeps the rule, in terms of
the single selectors that the rule reaches through groups.  The candidate of the rule decides by one
dependency, merged from all of these selectors; `Filter.keepsRule_iff` says that this comes to the same.

`Filter.apply_withBackend`: the output of a filter is put together from the rules that the document
keeps, the closed fragments and the open ones, whatever the backend has read.

`Candidate.isRetainedBy_list` compares a list of selectors with its single selectors.  Names in the list
take the place of the option that keeps rules without any (`Candidate.type_lost_in_list`).
-/

namespace CssPrune

/-! ### Selectors that a rule reaches -/

/-- A selector of a style rule, or of a style rule that a group holds, other groups between them or
not. -/
inductive Rule.Reaches (s : String) : Rule → Prop where
  | style {selectors : List String} {ds : List Declaration} (h : s ∈ selectors) :
      Reaches s (.style selectors ds)
  | group {name prelude : String} {rs : List Rule} {r : Rule} (hr : r ∈ rs) (h : Reaches s r) :
      Reaches s (.group name prelude rs)

namespace Rule

mutual

theorem reaches_of_mem {s : String} : ∀ {r : Rule}, s ∈ r.reachable → Reaches s r
  | .style _ _, h => .style (by rwa [reachable] at h)
  | .group _ _ rs, h => by
      rw [reachable] at h
      obtain ⟨r, hr, hs⟩ : ∃ r ∈ rs, Reaches s r := reaches_of_mem_all h
      exact .group hr hs
  | .block .., h | .statement .., h => by rw [reachable] at h; cases h

theorem reaches_of_mem_all {s : String} :
    ∀ {rs : List Rule}, s ∈ reachableAll rs → ∃ r ∈ rs, Reaches s r
  | [], h => by rw [reachableAll] at h; cases h
  | r :: rs, h => by
      rw [reachableAll] at h
      rcases List.mem_append.1 h with h | h
      · exact ⟨r, List.mem_cons_self, reaches_of_mem h⟩
      · obtain ⟨q, hq, hs⟩ := reaches_of_mem_all h
        exact ⟨q, List.mem_cons_of_mem _ hq, hs⟩

end

/-- The selectors that a candidate is made of are those that its rule reaches. -/
theorem mem_reachable {s : String} {r : Rule} : s ∈ r.reachable ↔ Reaches s r := by
  refine ⟨reaches_of_mem, fun h => ?_⟩
  induction h with
  | style h => rwa [reachable]
  | group hr _ ih => rw [reachable]; exact reachable_subset hr ih

end Rule

/-! ### Why a rule is kept -/

namespace Filter

variable {o : Options} {document : String} {r : Rule}

/-- The reasons for which a document keeps a rule. -/
inductive Keeps (o : Options) (document : String) : Rule → Prop where
  | block {name prelude : String} {items : List BlockItem} : Keeps o document (.block name prelude items)
  | statement {name prelude : String} : Keeps o document (.statement name prelude)
  /-- The rule reaches no selector. -/
  | selectorless {r : Rule} (h : ∀ s, ¬Rule.Reaches s r) : Keeps o document r
  /-- No selector mentions a name, and such rules are to be kept. -/
  | unanchored {r : Rule} (ho : o.keepUnanchoredRules = true)
      (h : ∀ s, Rule.Reaches s r → (Selector.analyze s).isEmpty = true) : Keeps o document r
  | byClass {r : Rule} {s x : String} (hs : Rule.Reaches s r) (hx : x ∈ (Selector.analyze s).classes)
      (hd : x ∈ Markup.classes document) : Keeps o document r
  /-- Ids keep rules only where they count. -/
  | byId {r : Rule} {s x : String} (ho : o.matchIds = true) (hs : Rule.Reaches s r)
      (hx : x ∈ (Selector.analyze s).ids) (hd : x ∈ Markup.ids document) : Keeps o document r

/-- The merged dependency is empty when that of every selector is. -/
theorem isEmpty_analyzeAll {ss : List String} :
    (Selector.analyzeAll ss).isEmpty = true ↔ ∀ s ∈ ss, (Selector.analyze s).isEmpty = true := by
  simp only [Dependency.isEmpty_iff, Selector.mem_classes_analyzeAll, Selector.mem_ids_analyzeAll,
    not_exists, not_and]
  exact ⟨fun h s hs => ⟨fun x => h.1 x s hs, fun x => h.2 x s hs⟩,
    fun h => ⟨fun x s hs => (h s hs).1 x, fun x s hs => (h s hs).2 x⟩⟩

/-- A rule is kept unconditionally if it reaches no selector or, on demand, none with a name. -/
theorem unconditional_iff : Candidate.Unconditional o r ↔
    (∀ s, ¬Rule.Reaches s r) ∨ o.keepUnanchoredRules = true ∧
      ∀ s, Rule.Reaches s r → (Selector.analyze s).isEmpty = true := by
  simp only [Candidate.Unconditional, isEmpty_analyzeAll, List.eq_nil_iff_forall_not_mem,
    Rule.mem_reachable]

/-- The document mentions a name of a selector that the rule reaches. -/
theorem met_iff : (Selector.analyzeAll r.reachable).Met (Markup.classes document)
      (if o.matchIds then some (Markup.ids document) else none) ↔
    (∃ s, Rule.Reaches s r ∧ ∃ x ∈ (Selector.analyze s).classes, x ∈ Markup.classes document) ∨
      o.matchIds = true ∧
        ∃ s, Rule.Reaches s r ∧ ∃ x ∈ (Selector.analyze s).ids, x ∈ Markup.ids document := by
  simp only [Dependency.Met, Selector.mem_classes_analyzeAll, Selector.mem_ids_analyzeAll,
    Rule.mem_reachable, Option.mem_def]
  constructor
  · rintro (⟨x, ⟨s, hs, hx⟩, hd⟩ | ⟨ids, hids, x, ⟨s, hs, hx⟩, hd⟩)
    · exact .inl ⟨s, hs, x, hx, hd⟩
    · obtain ⟨ho, hids⟩ := Option.ite_none_right_eq_some.1 hids
      cases hids
      exact .inr ⟨ho, s, hs, x, hx, hd⟩
  · rintro (⟨s, hs, x, hx, hd⟩ | ⟨ho, s, hs, x, hx, hd⟩)
    · exact .inl ⟨x, ⟨s, hs, hx⟩, hd⟩
    · exact .inr ⟨_, if_pos ho, x, ⟨s, hs, hx⟩, hd⟩

/-- The merged dependency of a rule keeps it for the reasons that its single selectors give. -/
theorem keepsRule_iff : keepsRule o document r = true ↔ Keeps o document r := by
  rw [keepsRule, Candidate.isRetainedBy_ofRule, unconditional_iff, met_iff]
  constructor
  · rintro ((h | ⟨ho, h⟩) | (⟨s, hs, x, hx, hd⟩ | ⟨ho, s, hs, x, hx, hd⟩))
    · exact .selectorless h
    · exact .unanchored ho h
    · exact .byClass hs hx hd
    · exact .byId ho hs hx hd
  · intro h
    cases h with
    | block | statement => exact .inl (.inl fun s hs => by cases hs)
    | selectorless h => exact .inl (.inl h)
    | unanchored ho h => exact .inl (.inr ⟨ho, h⟩)
    | byClass hs hx hd => exact .inr (.inl ⟨_, hs, _, hx, hd⟩)
    | byId ho hs hx hd => exact .inr (.inr ⟨ho, _, hs, _, hx, hd⟩)

instance (o : Options) (document : String) (r : Rule) : Decidable (Keeps o document r) :=
  decidable_of_iff _ keepsRule_iff

/-- **What a filter puts out.**  The rules that the document keeps, as they are printed and in the order
of the sheet; then the fragments that are closed, and then the others, both in the order of the
errors. -/
theorem apply_withBackend (parse : String → Option Stylesheet) (css : String) {sheet : Stylesheet}
    (hparse : parse css = some sheet) (o : Options) :
    ∃ f, withBackend ⟨parse, Rule.print⟩ o css = .ok f ∧ ∀ document,
      f.apply document = (if o.compress then "" else "\n").intercalate
        ((sheet.rules.filter fun r => Keeps o document r).map (Rule.print (.ofCompress o.compress)) ++
          ((Candidate.fragments sheet.errors).filter fun s => Candidate.isClosed s.toList) ++
          ((Candidate.fragments sheet.errors).filter fun s => !Candidate.isClosed s.toList)) := by
  refine ⟨_, withBackend_of_parse _ o hparse, fun document => ?_⟩
  have hsep : o.layout.only "\n" = if o.compress then "" else "\n" := by
    rw [Options.layout, Layout.ofCompress]
    split <;> rfl
  have hkeep : (fun r => decide (Keeps o document r)) = keepsRule o document :=
    funext fun r => by rw [Bool.eq_iff_iff, decide_eq_true_iff, keepsRule_iff]
  rw [apply_ofSheet, hsep, hkeep, List.append_assoc]
  rfl

/-- Rules of every kind, and fragments that are closed, open and missing. -/
theorem apply_withBackend_mixed :
    ∃ f, withBackend ⟨fun _ => some ⟨[.style ["p"] [], .block "font-face" "" [], .style [".b"] [],
        .group "media" "print" [.style [".b"] [], .group "supports" "(x: y)" [.style ["#x"] []]]],
      [⟨"", some ".y", 1, 1, 0⟩, ⟨"", none, 1, 1, 0⟩, ⟨"", some "\x7bz\x7d ", 1, 1, 0⟩], []⟩,
      Rule.print⟩ ⟨true, true, false⟩ "" = .ok f ∧
    f.apply "<p id=x>" = "@font-face\x7b\x7d@media print\x7b.b\x7b\x7d" ++
      "@supports (x: y)\x7b#x\x7b\x7d\x7d\x7d\x7bz\x7d .y" := by
  obtain ⟨f, hf, h⟩ := apply_withBackend (fun _ => some _) "" rfl ⟨true, true, false⟩
  exact ⟨f, hf, (h "<p id=x>").trans (by decide +kernel)⟩

end Filter

/-! ### Lists of selectors -/

namespace Dependency

variable {d : Dependency} {classes : NameSet} {ids : Option NameSet}

/-- A document mentions no name of an empty dependency. -/
theorem Met.not_isEmpty (h : d.Met classes ids) : d.isEmpty = false := by
  rw [← Bool.not_eq_true, isEmpty_iff]
  rintro ⟨hclasses, hids⟩
  rcases h with ⟨x, hx, -⟩ | ⟨-, -, x, hx, -⟩
  · exact hclasses x hx
  · exact hids x hx

end Dependency

namespace Candidate

variable {print : Layout → Rule → String} {o : Options} {ss : List String} {ds : List Declaration}
  {classes : NameSet} {ids : Option NameSet}

/-- A list of selectors is met just when one of them is. -/
theorem met_analyzeAll : (Selector.analyzeAll ss).Met classes ids ↔
    ∃ s ∈ ss, (Selector.analyze s).Met classes ids := by
  simp only [Dependency.Met, Selector.mem_classes_analyzeAll, Selector.mem_ids_analyzeAll]
  constructor
  · rintro (⟨x, ⟨s, hs, hx⟩, hc⟩ | ⟨I, hI, x, ⟨s, hs, hx⟩, hi⟩)
    · exact ⟨s, hs, .inl ⟨x, hx, hc⟩⟩
    · exact ⟨s, hs, .inr ⟨I, hI, x, hx, hi⟩⟩
  · rintro ⟨s, hs, ⟨x, hx, hc⟩ | ⟨I, hI, x, hx, hi⟩⟩
    · exact .inl ⟨x, ⟨s, hs, hx⟩, hc⟩
    · exact .inr ⟨I, hI, x, ⟨s, hs, hx⟩, hi⟩

/-- The rule of a list is kept when none of its selectors mentions a name and such rules are kept, or
when the document mentions a name of one of them. -/
theorem isRetainedBy_style (hne : ss ≠ []) :
    (ofRule print o (.style ss ds)).isRetainedBy classes ids = true ↔
      (o.keepUnanchoredRules = true ∧ ∀ s ∈ ss, (Selector.analyze s).isEmpty = true) ∨
        ∃ s ∈ ss, (Selector.analyze s).Met classes ids := by
  rw [isRetainedBy_ofRule, Unconditional, Rule.reachable, Filter.isEmpty_analyzeAll, met_analyzeAll,
    or_iff_right hne]

/-- A single selector decides by its names, or by having none. -/
theorem isRetainedBy_single {s : String} :
    (ofRule print o (.style [s] ds)).isRetainedBy classes ids = true ↔
      (o.keepUnanchoredRules = true ∧ (Selector.analyze s).isEmpty = true) ∨
        (Selector.analyze s).Met classes ids := by
  rw [isRetainedBy_style (List.cons_ne_nil s []), List.forall_mem_singleton]
  simp only [List.mem_singleton, exists_eq_left]

/-- **Lists of selectors.**  A document keeps the rule of a list exactly when it keeps the rule of one
of the selectors that mention a name, or the rule of each single selector. -/
theorem isRetainedBy_list (hne : ss ≠ []) :
    (ofRule print o (.style ss ds)).isRetainedBy classes ids = true ↔
      (∃ s ∈ ss, (Selector.analyze s).isEmpty = false ∧
        (ofRule print o (.style [s] ds)).isRetainedBy classes ids = true) ∨
      ∀ s ∈ ss, (ofRule print o (.style [s] ds)).isRetainedBy classes ids = true := by
  rw [isRetainedBy_style hne]
  simp only [isRetainedBy_single]
  constructor
  · rintro (⟨ho, hall⟩ | ⟨s, hs, hmet⟩)
    · exact .inr fun s hs => .inl ⟨ho, hall s hs⟩
    · exact .inl ⟨s, hs, hmet.not_isEmpty, .inr hmet⟩
  · rintro (⟨s, hs, hnames, ⟨-, hempty⟩ | hmet⟩ | hall)
    · rw [hempty] at hnames
      cases hnames
    · exact .inr ⟨s, hs, hmet⟩
    · by_cases hmet : ∃ s ∈ ss, (Selector.analyze s).Met classes ids
      · exact .inr hmet
      -- no name is met, so each selector is kept because it has none
      · have hlone : ∀ s ∈ ss, o.keepUnanchoredRules = true ∧ (Selector.analyze s).isEmpty = true :=
          fun s hs => (hall s hs).resolve_right fun h => hmet ⟨s, hs, h⟩
        obtain ⟨s, hs⟩ := List.exists_mem_of_ne_nil ss hne
        exact .inl ⟨(hlone s hs).1, fun t ht => (hlone t ht).2⟩

/-- In `p, .a` the class keeps the rule for a document that mentions it. -/
theorem isRetainedBy_list_class :
    ["p", ".a"] ≠ [] ∧
      (ofRule Rule.print ⟨true, false, true⟩ (.style ["p", ".a"] [])).isRetainedBy (.ofList ["a"]) none =
        true := by
  refine ⟨List.cons_ne_nil _ _, (isRetainedBy_list (List.cons_ne_nil _ _)).2 (.inl ⟨".a", ?_⟩)⟩
  decide +kernel

/-- On its own `p` is kept for every document; in the list `p, .a` it goes with the class. -/
theorem type_lost_in_list :
    (ofRule Rule.print ⟨true, false, true⟩ (.style ["p"] [])).isRetainedBy ∅ none = true ∧
      (ofRule Rule.print ⟨true, false, true⟩ (.style ["p", ".a"] [])).isRetainedBy ∅ none = false := by
  decide +kernel

end Candidate

end CssPrune
