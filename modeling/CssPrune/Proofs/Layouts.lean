import CssPrune.Proofs.Output
import Mathlib.Data.List.Forall2

/-!
# The layouts differ in blanks only

Two writers *agree* when they have written the same text but for blanks; layout and depth may differ.
Each step of the writer keeps this (`Writer.Agree.put`, `Writer.Agree.openBlock` and so on), hence
writing a whole rule does (`Writer.Agree.rule`), and the prints of a rule are the same but for blanks
(`Rule.ink_print`).

`Filter.apply_layouts`: filters that differ in their layout only have alike candidates, keep the same
ones for every document, and put out the same text but for blanks.
-/

namespace CssPrune

open Text (isBlank)

/-! ### Texts without their blanks -/

namespace Text

/-- What is left of a text without its blanks. -/
def ink (s : String) : List Char := s.toList.filter fun c => !isBlank c

theorem ink_append (s t : String) : ink (s ++ t) = ink s ++ ink t := by
  rw [ink, String.toList_append, List.filter_append, ink, ink]

theorem ink_eq_nil {s : String} : ink s = [] ↔ allBlank s.toList = true := by
  simp [ink, allBlank, List.filter_eq_nil_iff]

/-- A separator without ink does not show. -/
theorem ink_intercalate {sep : String} (hsep : ink sep = []) (ss : List String) :
    ink (sep.intercalate ss) = ss.flatMap ink := by
  cases ss with
  | nil => rfl
  | cons s ss =>
      have hstep : ∀ t : String, (sep.toList ++ t.toList).filter (fun c => !isBlank c) = ink t := by
        intro t
        rw [List.filter_append, ← ink, ← ink, hsep, List.nil_append]
      rw [ink, toList_intercalate_cons, List.filter_append, List.filter_flatMap, ← ink,
        List.flatMap_cons, List.flatMap_congr fun t _ => hstep t]

end Text

open Text (ink ink_append)

/-- What only the pretty layout has does not show if it has no ink. -/
theorem Layout.ink_only {l : Layout} {s : String} (h : ink s = []) : ink (l.only s) = [] := by
  cases l with
  | compressed => rfl
  | pretty => exact h

/-! ### Writers that agree -/

namespace Writer

/-- The same has been written, blanks aside. -/
def Agree (w w' : Writer) : Prop := ink w.out = ink w'.out

section Agree

variable {w w' : Writer}

theorem Agree.put (h : Agree w w') (s : String) : Agree (w.put s) (w'.put s) := by
  show ink (w.out ++ s) = ink (w'.out ++ s)
  rw [ink_append, ink_append, h]

/-- What only the pretty layout has is blank, and need not be the same. -/
theorem Agree.putPretty (h : Agree w w') (s s' : String) (hs : ink s = []) (hs' : ink s' = []) :
    Agree (w.putPretty s) (w'.putPretty s') := by
  show ink (w.out ++ w.layout.only s) = ink (w'.out ++ w'.layout.only s')
  rw [ink_append, ink_append, Layout.ink_only hs, Layout.ink_only hs', h]

theorem ink_indentation (depth : Nat) : ink (indentation depth) = [] := by
  rw [Text.ink_eq_nil, indentation, String.toList_ofList, Text.allBlank, List.all_eq_true]
  intro c hc
  rw [List.eq_of_mem_replicate hc]
  rfl

theorem Agree.indent (h : Agree w w') : Agree w.indent w'.indent :=
  h.putPretty _ _ (ink_indentation _) (ink_indentation _)

/-- Only the pretty layout begins a new line. -/
theorem Agree.newline (h : Agree w w') : Agree w.newline w'.newline :=
  h.putPretty "\n" "\n" rfl rfl

theorem Agree.openBlock (h : Agree w w') : Agree w.openBlock w'.openBlock :=
  (h.putPretty " " " " rfl rfl).put _

/-- Only the pretty layout puts the bracket on a line of its own. -/
theorem Agree.closeBlock (h : Agree w w') (empty : Bool) :
    Agree (w.closeBlock empty) (w'.closeBlock empty) := by
  have hback : Agree { w with depth := w.depth - 1 } { w' with depth := w'.depth - 1 } := h
  cases empty with
  | true => exact hback.put _
  | false => exact hback.newline.indent.put _

/-- Selectors are written alike but for the lines they stand on. -/
theorem Agree.selectors (h : Agree w w') (ss : List String) :
    Agree (w.selectors ss) (w'.selectors ss) := by
  cases ss with
  | nil => exact h
  | cons s ss =>
      rw [Writer.selectors, Writer.selectors]
      replace h := h.put s
      generalize w.put s = v at h ⊢
      generalize w'.put s = v' at h ⊢
      induction ss generalizing v v' with
      | nil => exact h
      | cons t ts ih => exact ih _ _ ((h.put ",").newline.indent.put t)

theorem Agree.atKeyword (h : Agree w w') (name prelude : String) :
    Agree (w.atKeyword name prelude) (w'.atKeyword name prelude) := by
  rw [Writer.atKeyword, Writer.atKeyword]
  split
  · exact (h.put "@").put name
  · exact (((h.put "@").put name).put " ").put prelude

/-- A declaration is written alike but for the blank behind its colon. -/
theorem Agree.declaration (h : Agree w w') (d : Declaration) :
    Agree (w.declaration d) (w'.declaration d) := by
  have hvalue := (((h.indent.put d.name).put ":").putPretty " " " " rfl rfl).put d.value
  rw [Writer.declaration, Writer.declaration]
  split
  · exact (hvalue.put " !important").put ";"
  · exact hvalue.put ";"

theorem Agree.declarations (h : Agree w w') (ds : List Declaration) :
    Agree (w.declarations ds) (w'.declarations ds) := by
  rw [Writer.declarations, Writer.declarations]
  induction ds generalizing w w' with
  | nil => exact h
  | cons d ds ih => exact ih (h.newline.declaration d)

end Agree

mutual

/-- A rule is written alike, with everything in its blocks. -/
theorem Agree.rule {w w' : Writer} (h : Agree w w') : ∀ r : Rule, Agree (w.rule r) (w'.rule r)
  | .style ss ds => by
      rw [Writer.rule, Writer.rule]
      exact (((h.indent.selectors ss).openBlock).declarations ds).closeBlock _
  | .group name prelude rs => by
      rw [Writer.rule, Writer.rule]
      exact (Agree.rules (h.indent.atKeyword name prelude).openBlock rs).closeBlock _
  | .block name prelude is => by
      rw [Writer.rule, Writer.rule]
      exact (Agree.items (h.indent.atKeyword name prelude).openBlock is).closeBlock _
  | .statement name prelude => by
      rw [Writer.rule, Writer.rule]
      exact (h.indent.atKeyword name prelude).put ";"

theorem Agree.rules {w w' : Writer} (h : Agree w w') :
    ∀ rs : List Rule, Agree (w.rules rs) (w'.rules rs)
  | [] => by rw [Writer.rules, Writer.rules]; exact h
  | r :: rs => by
      rw [Writer.rules, Writer.rules]
      exact Agree.rules (Agree.rule h.newline r) rs

theorem Agree.items {w w' : Writer} (h : Agree w w') :
    ∀ is : List BlockItem, Agree (w.items is) (w'.items is)
  | [] => by rw [Writer.items, Writer.items]; exact h
  | i :: is => by
      rw [Writer.items, Writer.items]
      exact Agree.items (Agree.item h.newline i) is

theorem Agree.item {w w' : Writer} (h : Agree w w') :
    ∀ i : BlockItem, Agree (w.item i) (w'.item i)
  | .declaration d => by rw [Writer.item, Writer.item]; exact h.declaration d
  | .rule r => by rw [Writer.item, Writer.item]; exact Agree.rule h r

end

end Writer

/-- The prints of a rule in the two layouts are the same but for blanks. -/
theorem Rule.ink_print (l l' : Layout) (r : Rule) : ink (r.print l) = ink (r.print l') := by
  have h : Writer.Agree (.start l) (.start l') := rfl
  exact h.rule r

/-! ### Filters that agree -/

/-- Both are kept by the same documents, and their texts are the same but for blanks. -/
structure Candidate.Alike (c d : Candidate) : Prop where
  retention : c.retention = d.retention
  ink_css : ink c.css = ink d.css

namespace Filter

/-- The document keeps the candidate, which need not be one of the filter. -/
def keeps (f : Filter) (document : String) (c : Candidate) : Bool :=
  c.isRetainedBy (Markup.classes document)
    (if f.options.matchIds then some (Markup.ids document) else none)

/-- A filter keeps those of its candidates that the document keeps. -/
theorem kept_eq (f : Filter) (document : String) :
    f.kept document = f.candidates.filter (f.keeps document) := rfl

variable {o o' : Options} {sheet : Stylesheet} {document : String}

/-- A rule makes alike candidates under options that differ in the layout. -/
theorem alike_ofRule (hkeep : o.keepUnanchoredRules = o'.keepUnanchoredRules) (r : Rule) :
    (Candidate.ofRule Rule.print o r).Alike (Candidate.ofRule Rule.print o' r) := by
  have hink : ink (Candidate.ofRule Rule.print o r).css = ink (Candidate.ofRule Rule.print o' r).css := by
    rw [css_ofRule, css_ofRule]
    exact r.ink_print _ _
  refine ⟨?_, hink⟩
  simp only [Candidate.ofRule, hkeep]
  split
  · rfl
  · split
    · rfl
    · rfl

/-- A sheet makes alike candidates under such options, one for one. -/
theorem alike_ofSheet (hkeep : o.keepUnanchoredRules = o'.keepUnanchoredRules) (sheet : Stylesheet) :
    List.Forall₂ Candidate.Alike (Candidate.ofSheet Rule.print o sheet)
      (Candidate.ofSheet Rule.print o' sheet) := by
  have hrules : List.Forall₂ Candidate.Alike (sheet.rules.map (Candidate.ofRule Rule.print o))
      (sheet.rules.map (Candidate.ofRule Rule.print o')) := by
    rw [List.forall₂_map_left_iff, List.forall₂_map_right_iff]
    exact List.forall₂_same.2 fun r _ => alike_ofRule hkeep r
  exact List.rel_append hrules (List.forall₂_same.2 fun c _ => ⟨rfl, rfl⟩)

/-- Alike candidates of which a document keeps the same have the same text on the whole, blanks
aside. -/
theorem flatMap_ink_filter {cs ds : List Candidate} (h : List.Forall₂ Candidate.Alike cs ds)
    {p q : Candidate → Bool} (hpq : cs.map p = ds.map q) :
    ((cs.filter p).map Candidate.css).flatMap ink = ((ds.filter q).map Candidate.css).flatMap ink := by
  induction h with
  | nil => rfl
  | @cons c d cs ds hcd _ ih =>
      obtain ⟨hhead, htail⟩ := List.cons.inj hpq
      replace ih := ih htail
      rw [List.filter_cons, List.filter_cons, hhead]
      split
      · rw [List.map_cons, List.map_cons, List.flatMap_cons, List.flatMap_cons, hcd.ink_css, ih]
      · exact ih

/-- A document keeps the same candidates of both filters. -/
theorem map_keeps {f g : Filter} (h : List.Forall₂ Candidate.Alike f.candidates g.candidates)
    (hids : f.options.matchIds = g.options.matchIds) (document : String) :
    f.candidates.map (f.keeps document) = g.candidates.map (g.keeps document) := by
  have hkeeps : ∀ c d : Candidate, c.Alike d → f.keeps document c = g.keeps document d := by
    intro c d hcd
    simp only [keeps, hids, Candidate.isRetainedBy, hcd.retention]
  exact List.forall₂_eq_eq_eq ▸ List.forall₂_map_left_iff.2
    (List.forall₂_map_right_iff.2 (h.imp hkeeps))

/-- What the two filters put out is the same but for blanks. -/
theorem ink_apply {f g : Filter} (h : List.Forall₂ Candidate.Alike f.candidates g.candidates)
    (hids : f.options.matchIds = g.options.matchIds) (document : String) :
    ink (f.apply document) = ink (g.apply document) := by
  have hsep : ∀ l : Layout, ink (l.only "\n") = [] := fun l => Layout.ink_only rfl
  rw [apply, apply, Text.ink_intercalate (hsep _), Text.ink_intercalate (hsep _), kept_eq, kept_eq]
  exact flatMap_ink_filter h (map_keeps h hids document)

/-- **The layouts differ in blanks only.**  Filters over the same sheet whose options differ in the
layout have alike candidates, one by one; every document keeps the same ones of them, and the outputs
are the same but for blanks. -/
theorem apply_layouts (parse : String → Option Stylesheet) (css : String) {sheet : Stylesheet}
    (hparse : parse css = some sheet) {o o' : Options} (hids : o.matchIds = o'.matchIds)
    (hkeep : o.keepUnanchoredRules = o'.keepUnanchoredRules) :
    ∃ f g, withBackend ⟨parse, Rule.print⟩ o css = .ok f ∧
      withBackend ⟨parse, Rule.print⟩ o' css = .ok g ∧
      List.Forall₂ Candidate.Alike f.candidates g.candidates ∧ ∀ document,
        f.candidates.map (f.keeps document) = g.candidates.map (g.keeps document) ∧
        ink (f.apply document) = ink (g.apply document) := by
  have halike := alike_ofSheet hkeep sheet
  refine ⟨ofSheet Rule.print o sheet, ofSheet Rule.print o' sheet, ?_, ?_, halike, fun document =>
    ⟨map_keeps halike hids document, ink_apply halike hids document⟩⟩
  · exact withBackend_of_parse _ o hparse
  · exact withBackend_of_parse _ o' hparse

/-- A group with a style rule whose texts have blanks in them, a block, and a fragment that ends in
blanks. -/
theorem apply_layouts_nested :
    ∃ f g, withBackend ⟨fun _ => some ⟨[.group "media" "print" [.style [".a  b", ".c"]
          [⟨"x", " y", true⟩], .block "page" "" [.rule (.style ["d"] [])]]],
        [⟨"", some ".x \n", 1, 1, 0⟩], []⟩, Rule.print⟩ ⟨true, false, false⟩ "" = .ok f ∧
      withBackend ⟨fun _ => some ⟨[.group "media" "print" [.style [".a  b", ".c"]
          [⟨"x", " y", true⟩], .block "page" "" [.rule (.style ["d"] [])]]],
        [⟨"", some ".x \n", 1, 1, 0⟩], []⟩, Rule.print⟩ ⟨false, false, false⟩ "" = .ok g ∧
      List.Forall₂ Candidate.Alike f.candidates g.candidates ∧ ∀ document,
        f.candidates.map (f.keeps document) = g.candidates.map (g.keeps document) ∧
        ink (f.apply document) = ink (g.apply document) :=
  @apply_layouts (fun _ => some _) "" _ rfl ⟨true, false, false⟩ ⟨false, false, false⟩ rfl rfl

end Filter

end CssPrune
