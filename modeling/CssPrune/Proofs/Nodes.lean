import CssPrune.Proofs.NormalForm

/-!
# The rules of a sheet, one by one

A tree of rules is normal as a whole when every rule that occurs in it is (`Rule.Occurs.normal`).
`Rule.WellFormed` says what that means for a single rule, its selectors, prelude and declarations, in
terms of the place that the rule stands at.

`Stylesheet.wellFormed_of_occurs`: so is every rule of a sheet that has been read, at any depth.
-/

namespace CssPrune

/-! ### Rules at any depth -/

/-- The rule is one of the list, or stands somewhere in one of them; the place is that of its own
list. -/
inductive Rule.Occurs (rs : List Rule) : Place → Rule → Prop where
  | top {r : Rule} (h : r ∈ rs) : Occurs rs .sheet r
  | inGroup {p : Place} {name prelude : String} {inner : List Rule} {r : Rule}
      (hg : Occurs rs p (.group name prelude inner)) (h : r ∈ inner) : Occurs rs .group r
  | inBlock {p : Place} {name prelude : String} {items : List BlockItem} {r : Rule}
      (hb : Occurs rs p (.block name prelude items)) (h : .rule r ∈ items) : Occurs rs .block r

/-- A rule that occurs in a normal tree is normal at its place. -/
theorem Rule.Occurs.normal {rs : List Rule} {p : Place} {r : Rule} (h : Occurs rs p r)
    (hn : NormalAll .sheet rs) : r.Normal p := by
  induction h with
  | top h => exact normalAll_iff.1 hn _ h
  | inGroup _ h ih => exact normalAll_iff.1 ih.2.2.2 _ h
  | inBlock _ h ih => exact normalAll_items_iff.1 ih.2.2.2 _ h

/-! ### What holds of each -/

/-- No capital letter of ASCII. -/
def SmallName (s : String) : Prop := ∀ c ∈ s.toList, c.isUpper = false

/-- A name that lowering leaves as it is has no capital letter. -/
theorem smallName_of_lower {s : String} (h : Text.lower s = s) : SmallName s := by
  intro c hc
  rw [← h, Text.toList_lower] at hc
  obtain ⟨d, -, rfl⟩ := List.mem_map.1 hc
  exact d.isUpper_toLower_eq_false

/-- What holds of a declaration that has been read. -/
structure Declaration.WellFormed (d : Declaration) : Prop where
  value : NormalText d.value
  /-- Only custom properties keep their capital letters. -/
  name : isCustom d.name = false → SmallName d.name

/-- Normal declarations are well formed. -/
theorem Declaration.Normal.wellFormed {d : Declaration} (h : d.Normal) : d.WellFormed where
  value := h.value.1
  name hc := by
    have hname := h.name
    rw [normalName, if_neg (Bool.eq_false_iff.1 hc)] at hname
    exact smallName_of_lower hname

/-- What is kept of a rule is in normal form, and the kind of the rule fits its name and its place.  Of
the rules inside, it says nothing. -/
def Rule.WellFormed (p : Place) : Rule → Prop
  | .style selectors ds =>
    (p ≠ .block → selectors ≠ []) ∧ (∀ s ∈ selectors, s ≠ "" ∧ NormalText s) ∧
      ∀ d ∈ ds, Declaration.WellFormed d
  | .group name prelude _ => p ≠ .block ∧ name ∈ groupNames ∧ NormalText prelude
  | .block name prelude items =>
    (p ≠ .block → name ∉ groupNames) ∧ SmallName name ∧ NormalText prelude ∧
      ∀ d, .declaration d ∈ items → Declaration.WellFormed d
  | .statement name prelude =>
    (p ≠ .block → name ∈ groupNames → name = "layer") ∧ SmallName name ∧ NormalText prelude

/-- Normal rules are well formed, whatever their kind. -/
theorem Rule.Normal.wellFormed {p : Place} {r : Rule} (h : r.Normal p) : r.WellFormed p := by
  cases r with
  | style selectors ds =>
      obtain ⟨hne, hsel, hds⟩ := h
      exact ⟨hne, fun s hs => ⟨(hsel s hs).ne_empty, (hsel s hs).normal⟩,
        fun d hd => (hds d hd).wellFormed⟩
  | group name prelude rs => exact ⟨h.1, h.2.1, h.2.2.1⟩
  | block name prelude items =>
      obtain ⟨hname, hlower, hprelude, hitems⟩ := h
      refine ⟨hname, smallName_of_lower hlower, hprelude, fun d hd => ?_⟩
      have hd : d.Normal := normalAll_items_iff.1 hitems _ hd
      exact hd.wellFormed
  | statement name prelude =>
      obtain ⟨hname, hlower, hprelude⟩ := h
      exact ⟨hname, smallName_of_lower hlower, hprelude⟩

/-- **Sheets are read in normal form.**  Every rule that occurs in a sheet that has been read, at any
depth, is well formed for its place. -/
theorem Stylesheet.wellFormed_of_occurs (css : String) {p : Place} {r : Rule}
    (h : Rule.Occurs (parse css).rules p r) : r.WellFormed p :=
  (h.normal (normal_parse css)).wellFormed

/-- A block within a block within a group, with names in capital letters, a custom property and a
value in quotes. -/
theorem Stylesheet.wellFormed_of_occurs_page :
    Rule.Occurs (parse ("@MEDIA print\x7b@Page  :first\x7bX : y;@Top-Left/**/\x7b" ++
      "--Q: \"a  B\" !important\x7d\x7d\x7d")).rules .block
      (.block "top-left" "" [.declaration ⟨"--Q", "\"a  B\"", true⟩]) ∧
    (Rule.block "top-left" "" [.declaration ⟨"--Q", "\"a  B\"", true⟩]).WellFormed .block := by
  have hrules : (parse ("@MEDIA print\x7b@Page  :first\x7bX : y;@Top-Left/**/\x7b" ++
      "--Q: \"a  B\" !important\x7d\x7d\x7d")).rules = [.group "media" "print"
        [.block "page" ":first" [.declaration ⟨"x", "y", false⟩,
          .rule (.block "top-left" "" [.declaration ⟨"--Q", "\"a  B\"", true⟩])]]] := by
    decide +kernel
  have h : Rule.Occurs (parse ("@MEDIA print\x7b@Page  :first\x7bX : y;@Top-Left/**/\x7b" ++
      "--Q: \"a  B\" !important\x7d\x7d\x7d")).rules .block
      (.block "top-left" "" [.declaration ⟨"--Q", "\"a  B\"", true⟩]) := by
    rw [hrules]
    exact .inBlock (.inGroup (.top List.mem_cons_self) List.mem_cons_self) (by simp)
  exact ⟨h, wellFormed_of_occurs _ h⟩

end CssPrune
