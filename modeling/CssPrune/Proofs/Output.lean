import CssPrune.Filter
import CssPrune.Proofs.PlainTree
import CssPrune.Proofs.Retention

/-!
# What a filter puts out

The output for a document is made of the rules that the document keeps, the closed fragments and the
open ones, in this order (`apply_ofSheet`).

* `parse_append`: rules that leave nothing open are read whatever text follows them.
* `keptRules_isPrefix`: the output of a filter over plain rules begins with the rules kept, however
  malformed the fragments behind them are.
-/

namespace CssPrune

open Grammar (YieldsAll)

/-! ### Rules and fragments -/

namespace Filter

variable {print : Layout → Rule → String} {o : Options} {sheet : Stylesheet} {document : String}

theorem withBackend_of_parse (print : Layout → Rule → String) (o : Options)
    {parse : String → Option Stylesheet} {css : String} (h : parse css = some sheet) :
    withBackend ⟨parse, print⟩ o css = .ok (ofSheet print o sheet) := by
  simp only [withBackend, h]

/-- The document keeps the rule. -/
def keepsRule (o : Options) (document : String) (r : Rule) : Bool :=
  (Candidate.ofRule Rule.print o r).isRetainedBy (Markup.classes document)
    (if o.matchIds then some (Markup.ids document) else none)

/-- The text of a rule's candidate is the print of the rule. -/
theorem css_ofRule (print : Layout → Rule → String) (o : Options) (r : Rule) :
    (Candidate.ofRule print o r).css = print o.layout r := by
  obtain ⟨-, h⟩ | ⟨-, h⟩ := Candidate.ofRule_eq print o r
  · rw [h]; rfl
  · rw [h]; rfl

/-- The fragments of a sheet in the order of the output. -/
def fragments (sheet : Stylesheet) : List String :=
  Candidate.closedFragments sheet.errors ++ Candidate.openFragments sheet.errors

/-- A document keeps the rules that it keeps, and all fragments. -/
theorem kept_ofSheet (o : Options) (sheet : Stylesheet) (document : String) :
    (ofSheet Rule.print o sheet).kept document =
      (sheet.rules.filter (keepsRule o document)).map (Candidate.ofRule Rule.print o) ++
        (fragments sheet).map Candidate.always := by
  rw [kept, ofSheet, Candidate.ofSheet, List.filter_append, List.filter_map]
  refine congrArg _ (List.filter_eq_self.2 fun c hc => ?_)
  obtain ⟨s, -, rfl⟩ := List.mem_map.1 hc
  rfl

/-- The output is made of the rules that the document keeps and of all fragments, with a line feed
between in the pretty layout. -/
theorem apply_ofSheet (o : Options) (sheet : Stylesheet) (document : String) :
    (ofSheet Rule.print o sheet).apply document = (o.layout.only "\n").intercalate
      ((sheet.rules.filter (keepsRule o document)).map (Rule.print o.layout) ++
        fragments sheet) := by
  have hcss : Candidate.css ∘ Candidate.ofRule Rule.print o = Rule.print o.layout :=
    funext (css_ofRule Rule.print o)
  have halways : Candidate.css ∘ Candidate.always = id := rfl
  rw [apply, kept_ofSheet, List.map_append, List.map_map, List.map_map, hcss, halways, List.map_id]
  rfl

end Filter

/-! ### Rules in front of other text -/

/-- A list of rules is plain if each of them is. -/
theorem Rule.plainAll_iff {p : Place} {rs : List Rule} :
    Rule.plainAll p rs = true ↔ ∀ r ∈ rs, r.plain p = true := by
  induction rs with
  | nil => simp [plainAll]
  | cons r rs ih => simp [plainAll, ih]

theorem Outcome.values_append {α : Type} (os os' : List (Outcome α)) :
    values (os ++ os') = values os ++ values os' :=
  List.filterMap_append

/-- The rules of a text that leaves nothing open come first, whatever follows. -/
theorem parse_append {x : List Char} {rs : List Rule}
    (h : YieldsAll Grammar.rules Statement.rule none x (rs.map fine))
    (hc : rs.head?.any Rule.isCharset = false) (hne : rs ≠ []) (y : List Char) :
    rs <+: (Stylesheet.parse (String.ofList (x ++ y))).rules := by
  obtain ⟨cs, hx, hr⟩ := h
  obtain ⟨r, rs, rfl⟩ := List.exists_cons_of_ne_nil hne
  obtain ⟨ss, pos, hss, hmap⟩ := hr 0 (Component.ofText y)
  obtain ⟨s, ss, rfl⟩ : ∃ s ss', ss = s :: ss' := by
    cases ss with
    | nil => cases hmap
    | cons s ss => exact ⟨s, ss, rfl⟩
  -- the first statement is a rule of the text, so no `@charset` is taken off
  have hs : s.isCharset = false := by
    rw [Statement.isCharset_rule (List.cons.inj hmap).1]; exact hc
  have hlead : leadingCharset (cs ++ Component.ofText y) = none := by
    refine leadingCharset_eq_none fun t ht => ?_
    rw [hss] at ht
    exact Option.some.inj ht ▸ hs
  have hrules : readRules 0 (cs ++ Component.ofText y) =
      (r :: rs).map fine ++ (Grammar.rules.statements pos (Component.ofText y)).map Statement.rule := by
    rw [readRules_eq, Grammar.ruleStatements, hss, ← hmap, ← List.map_append]
    simp [hs]
  have hparse : (Stylesheet.parse (String.ofList (x ++ y))).rules =
      Outcome.values (readRules 0 (cs ++ Component.ofText y)) := by
    rw [Stylesheet.parse, String.toList_ofList, Component.ofText_append hx, Progress.read, hlead]
    exact Progress.rules_foldl _ _ _
  rw [hparse, hrules, Outcome.values_append, Outcome.values_fine]
  exact List.prefix_append _ _

/-- **Kept rules come through.**  The output of a filter over plain rules is read as the rules that
the document keeps, in their order, and then whatever the fragments come to. -/
theorem Filter.keptRules_isPrefix (parse : String → Option Stylesheet) (css : String)
    {sheet : Stylesheet} (hparse : parse css = some sheet)
    (h : Rule.plainAll .sheet sheet.rules = true) (o : Options) :
    ∃ f, withBackend ⟨parse, Rule.print⟩ o css = .ok f ∧ ∀ document,
      sheet.rules.filter (keepsRule o document) <+: (Stylesheet.parse (f.apply document)).rules := by
  refine ⟨ofSheet Rule.print o sheet, ?_, fun document => ?_⟩
  · simp only [withBackend, hparse]
  rw [apply_ofSheet]
  generalize fragments sheet = fs
  have hplain : Rule.plainAll .sheet (sheet.rules.filter (keepsRule o document)) = true := by
    rw [Rule.plainAll_iff] at h ⊢
    exact fun r hr => h r (List.mem_filter.1 hr).1
  generalize sheet.rules.filter (keepsRule o document) = rs at hplain ⊢
  cases rs with
  | nil => exact List.nil_prefix
  | cons r rs =>
      -- the rules with the separators between them, and then the fragments
      have hsep : (o.layout.only "\n").toList.all Token.isSpace = true := by
        cases o.layout <;> rfl
      have hhead := head?_not_isCharset hplain
      obtain ⟨hn, hs⟩ := Rule.normal_settled_of_plainAll o.layout .sheet _ hplain
      rw [Rule.settledAll, Bool.and_eq_true] at hs
      have hyields := YieldsAll.cons (s := []) rfl (yields_print hn.1 hs.1)
        (yields_printed hsep hn.2 hs.2)
      have htext := toList_intercalate_cons (o.layout.only "\n") (r.print o.layout)
        (rs.map (Rule.print o.layout) ++ fs)
      rw [List.flatMap_append, ← List.append_assoc] at htext
      rw [List.map_cons, List.cons_append, ← String.ofList_toList (s := String.intercalate _ _),
        htext]
      exact parse_append hyields hhead (List.cons_ne_nil _ _) _

/-- A fragment opens a string and another one a comment, in front of which a style rule and a group
are kept. -/
theorem Filter.keptRules_isPrefix_unclosed :
    ∃ f, withBackend ⟨fun _ => some ⟨[.style [".a"] [⟨"b", "c", false⟩], .style [".z"] [],
        .group "media" "print" [.style ["p #x", ".a"] []]],
        [⟨"", some "@media \x7b\"", 1, 1, 0⟩, ⟨"", some ".x\x7b/*", 1, 1, 0⟩], []⟩,
        Rule.print⟩ .default "" = .ok f ∧
      [.style [".a"] [⟨"b", "c", false⟩], .group "media" "print" [.style ["p #x", ".a"] []]] <+:
        (Stylesheet.parse (f.apply "<p class=a>")).rules := by
  let sheet : Stylesheet := ⟨[.style [".a"] [⟨"b", "c", false⟩], .style [".z"] [],
    .group "media" "print" [.style ["p #x", ".a"] []]],
    [⟨"", some "@media \x7b\"", 1, 1, 0⟩, ⟨"", some ".x\x7b/*", 1, 1, 0⟩], []⟩
  have hplain : Rule.plainAll .sheet sheet.rules = true := by decide +kernel
  have hkept : sheet.rules.filter (keepsRule .default "<p class=a>") =
      [.style [".a"] [⟨"b", "c", false⟩], .group "media" "print" [.style ["p #x", ".a"] []]] := by
    decide +kernel
  obtain ⟨f, hf, hrules⟩ := keptRules_isPrefix (fun _ => some sheet) "" rfl hplain .default
  exact ⟨f, hf, hkept ▸ hrules "<p class=a>"⟩

end CssPrune
