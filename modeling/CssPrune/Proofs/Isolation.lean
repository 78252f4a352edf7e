import CssPrune.Proofs.Readings
import CssPrune.Proofs.Words

/-!
# Errors are isolated

`Items` are lists of rules, well formed or not, nested to any depth.  A block without a selector and a
group without a block are given up; whatever else stands in the list is kept (`Item.yields`).

`Stylesheet.parse_items`: the sheet that such a list spells has the rules that are well formed, and one
error for each that is not, with its text and the number of rules in front of it at top level.
-/

namespace CssPrune

open Component (Spells UpTo nameLeaf keywordLeaf)
open Grammar

/-! ### Items -/

/-- Spaces and line feeds. -/
structure Gap where
  text : List Char
  blank : text.all (fun c => c = ' ' || c = '\n') = true

theorem Gap.isSpace (g : Gap) : g.text.all Token.isSpace = true := by
  refine List.all_eq_true.2 fun c hc => ?_
  have := List.all_eq_true.1 g.blank c hc
  rw [Bool.or_eq_true, decide_eq_true_eq, decide_eq_true_eq] at this
  rcases this with rfl | rfl <;> rfl

mutual

/-- A style rule, a block without a selector, a group without a block, or a group of items. -/
inductive Item where
  | style (n p v : Word)
  | bare (p v : Word)
  | unblocked (w : Word)
  | media (w : Word) (items : Items) (gap : Gap)

/-- Items with gaps in front of them. -/
inductive Items where
  | nil
  | cons (gap : Gap) (item : Item) (items : Items)

end

/-- The head of a group. -/
def mediaText (w : Word) : List Char := '@' :: "media".toList ++ ' ' :: w.text

mutual

/-- An item as it is written. -/
def Item.text : Item → List Char
  | .style n p v => '.' :: n.text ++ Word.pairText p v
  | .bare p v => Word.pairText p v
  | .unblocked w => mediaText w ++ [';']
  | .media w items gap => mediaText w ++ braced items.text gap.text

/-- Items as they are written. -/
def Items.text : Items → List Char
  | .nil => []
  | .cons gap item items => gap.text ++ item.text ++ items.text

end

mutual

/-- The rule that an item is, if it is one. -/
def Item.rule? : Item → Option Rule
  | .style n p v => some (.style [String.ofList ('.' :: n.text)] [Word.declaration p v])
  | .bare .. | .unblocked .. => none
  | .media w items _ => some (.group "media" w.name items.rules)

/-- The items that are rules. -/
def Items.rules : Items → List Rule
  | .nil => []
  | .cons _ item items => item.rule?.toList ++ items.rules

end

mutual

/-- The items at any depth that are no rules. -/
def Item.faulty : Item → List Item
  | .style .. => []
  | .bare p v => [.bare p v]
  | .unblocked w => [.unblocked w]
  | .media _ items _ => items.faulty

/-- The items that are no rules, from left to right. -/
def Items.faulty : Items → List Item
  | .nil => []
  | .cons _ item items => item.faulty ++ items.faulty

end

/-- The texts of these items, each with the number of rules in front of it at top level, when `n` rules
are in front of the list. -/
def Items.reports (n : Nat) : Items → List (Option String × Nat)
  | .nil => []
  | .cons _ item items =>
    item.faulty.map (fun i => (some (String.ofList i.text), n)) ++
      items.reports (n + item.rule?.toList.length)

/-- Items and a gap behind them, as a sheet. -/
def Items.sheet (items : Items) (gap : Gap) : String := String.ofList (items.text ++ gap.text)

/-- What an item is read as: the rule, if it is one, and the texts that are given up in it. -/
def Item.reading (i : Item) : Reading := ⟨i.rule?, [], i.faulty.map Item.text, false⟩

def Items.readings : Items → List Reading
  | .nil => []
  | .cons _ item items => item.reading :: items.readings

theorem Items.not_isCharset (items : Items) :
    items.readings.head?.any Reading.isCharset = false := by
  cases items <;> rfl

/-- What a list of items is read as: its rules, no lost declaration, and the texts of its faulty
items. -/
theorem Items.readings_eq : ∀ items : Items,
    items.readings.filterMap Reading.rule? = items.rules ∧
      items.readings.flatMap Reading.dropped = [] ∧
      items.readings.flatMap Reading.lost = items.faulty.map Item.text
  | .nil => by simp [readings, rules, faulty]
  | .cons gap item items => by
      obtain ⟨hr, hd, hl⟩ := readings_eq items
      refine ⟨?_, by simp [readings, Item.reading, hd], ?_⟩
      · rw [readings, List.filterMap_cons, Item.reading, hr, rules]
        cases item.rule? <;> rfl
      · rw [readings, List.flatMap_cons, Item.reading, hl, faulty, List.map_append]

/-! ### Items are read as such -/

section Yields

variable {b : Option Bracket} {f : Char}

/-- The head of a group, as components. -/
def mediaHead (w : Word) : List Component :=
  keywordLeaf "media".toList :: (Component.blanks [' '] ++ [nameLeaf w.text])

/-- The head of a group is read up to a mark. -/
theorem upTo_media (w : Word) (hf : Token.standsAlone f = true) :
    UpTo b f (mediaText w) (mediaHead w) := by
  obtain ⟨c, cs, hw, hstart⟩ := w.exists_cons
  have hc : Token.isSpace c = false :=
    Token.not_isSpace_of_isNameChar (by rw [Token.isNameChar, hstart]; rfl)
  have hu : UpTo b f (' ' :: w.text) (Component.blanks [' '] ++ [nameLeaf w.text]) :=
    (w.upTo hf).blanks (s := [' ']) rfl ⟨c, by rw [hw]; rfl, hc⟩
  exact Component.upTo_keyword rfl rfl hu

theorem textOf_mediaHead (w : Word) : Component.textOf (mediaHead w) = mediaText w := by
  simp [mediaHead, mediaText, Component.blanks, Component.textOf, Component.text, keywordLeaf,
    nameLeaf]

/-- No part of the head of a group ends a statement. -/
theorem ending?_mediaHead (w : Word) (t : Terminators) : ∀ d ∈ mediaHead w, t.ending? d = none := by
  intro d hd
  rcases List.mem_cons.1 hd with rfl | hd
  · exact ending?_keyword t _
  rcases List.mem_append.1 hd with hd | hd
  · exact Component.ending?_blanks t _ d hd
  · rw [List.mem_singleton.1 hd]
    simp [nameLeaf, Terminators.ending?]

/-- The prelude of a group is its word. -/
theorem prelude_mediaHead (w : Word) (pos : Nat) (e : Ending) :
    Statement.prelude ⟨pos, mediaHead w, e⟩ = w.name := by
  have : Component.textOf (Statement.tail ⟨pos, mediaHead w, e⟩) = [' '] ++ w.text := by
    simp [Statement.tail, mediaHead, Component.blanks, Component.textOf, Component.text, nameLeaf]
  rw [Statement.prelude, this]
  exact Component.normalString_blanks rfl (by rw [w.normalize, w.toList_name])

/-- A style rule is read as a rule, and nothing in it is given up. -/
theorem Item.yields_style (n p v : Word) :
    Yields rules Statement.reading b (Item.style n p v).text (Item.style n p v).reading := by
  have hdigit : Token.startsDigit n.text = false := by
    obtain ⟨c, cs, hn, hstart⟩ := n.exists_cons
    rw [hn]
    exact Token.not_isDigit_of_isNameStart hstart
  have := (yields_classRule hdigit (n.upTo rfl) p v).imp (b := b) fun s r =>
    Statement.reading_of_fine
  rwa [Text.normalString, n.normalize_class] at this

/-- A block without a selector is given up. -/
theorem Item.yields_bare (p v : Word) :
    Yields rules Statement.reading b (Item.bare p v).text (Item.bare p v).reading := by
  have hempty : UpTo b '\x7b' [] [] := .nil
  refine Yields.of_head (t := ⟨false, true⟩) (e := Word.pairEnding p v) skipsBlanks_rules
    ⟨_, rfl, rfl⟩ hempty (Word.spells_pair p v) (fun d hd => ?_) (fun more => rfl)
    (fun d hd => by cases hd) rfl fun pos => ?_
  · cases hd; rfl
  · have hlost : Statement.isLost ⟨pos, [], Word.pairEnding p v⟩ = true := by
      have hsel : Component.selectors [] = [] := by decide
      simp [Statement.isLost, Statement.atName?, Word.pairEnding, hsel]
    rw [Statement.reading_of_isLost hlost]
    have htext : Statement.text ⟨pos, [], Word.pairEnding p v⟩ = Word.pairText p v := by
      simp [Statement.text, Statement.components, Ending.components, Word.pairEnding,
        Word.pairBody, Word.pairText, Component.textOf, Component.text, nameLeaf, Lexeme.mark]
    rw [htext]
    rfl

/-- A group that ends at a semicolon is given up. -/
theorem Item.yields_unblocked (w : Word) :
    Yields rules Statement.reading b (Item.unblocked w).text (Item.unblocked w).reading := by
  have hsemi : Spells b [';'] [.leaf (Lexeme.mark ';')] := Component.spells_mark rfl (by rfl)
  refine Yields.of_head (t := ⟨true, true⟩) (e := .semicolon) skipsBlanks_rules ⟨_, rfl, rfl⟩
    (upTo_media w rfl) hsemi (fun d hd => Option.some.inj hd ▸ rfl) (fun more => rfl)
    (fun d hd => ?_) rfl fun pos => ?_
  · exact ending?_mediaHead w _ d hd
  · have hlost : Statement.isLost ⟨pos, mediaHead w, .semicolon⟩ = true := by
      have hmedia : (Rule.groupNames.contains (Text.lower "media") &&
        decide (Text.lower "media" ≠ "layer")) = true := by decide
      rw [Statement.isLost, atName?_keyword rfl]
      exact hmedia
    rw [Statement.reading_of_isLost hlost, Statement.text, Statement.components,
      Component.textOf_append, textOf_mediaHead]
    rfl

/-- A group is read as a rule with the rules in it; what is given up in it is given up there. -/
theorem Item.yields_media (w : Word) {items : Items} (gap : Gap)
    (h : YieldsAll rules Statement.reading (some .curly) items.text items.readings) :
    Yields rules Statement.reading b (Item.media w items gap).text
      (Item.media w items gap).reading := by
  obtain ⟨cs, hcs, hread⟩ := h
  refine Yields.of_head (t := ⟨true, true⟩) skipsBlanks_rules ⟨_, rfl, rfl⟩ (upTo_media w rfl)
    (spells_braced gap.isSpace hcs) (fun d hd => Option.some.inj hd ▸ rfl) (fun more => rfl)
    (fun d hd => ?_) (ending?_braced rfl cs gap.text) fun pos => ?_
  · exact ending?_mediaHead w _ d hd
  · have hbody : Reads rules Statement.reading (cs ++ Component.blanks gap.text) items.readings := by
      have := hread.append (Reads.blanks skipsBlanks_rules gap.text)
      rwa [List.append_nil] at this
    rw [Statement.reading_of_group (atName?_keyword rfl) rfl (by decide) rfl hbody
      items.not_isCharset, prelude_mediaHead]
    obtain ⟨hr, hd, hl⟩ := items.readings_eq
    rw [hr, hd, hl]
    rfl

mutual

/-- An item comes to the rule that it is, and what is no rule in it is given up. -/
theorem Item.yields (b : Option Bracket) :
    ∀ i : Item, Yields rules Statement.reading b i.text i.reading
  | .style n p v => Item.yields_style n p v
  | .bare p v => Item.yields_bare p v
  | .unblocked w => Item.yields_unblocked w
  | .media w items gap => Item.yields_media w gap (items.yields (some .curly))

/-- Items are read one by one, each as it would be read alone. -/
theorem Items.yields (b : Option Bracket) :
    ∀ items : Items, YieldsAll rules Statement.reading b items.text items.readings
  | .nil => .nil
  | .cons gap item items => .cons gap.isSpace (item.yields b) (items.yields b)

end

end Yields

/-! ### Sheets of items -/

theorem Item.not_allBlank (i : Item) : Text.allBlank i.text = false := by
  cases i <;> rfl

/-- What is given up in statements that come to items. -/
theorem reports_eq {ss : List Statement} (n : Nat) :
    ∀ items : Items, ss.map Statement.reading = items.readings →
      ((Statement.numbered n ss).flatMap fun q => q.2.faulty.map fun t => (sourceOf t.text, q.1)) =
        items.reports n
  | .nil, h => by
      rw [List.map_eq_nil_iff.1 h]
      rfl
  | .cons gap item items, h => by
      obtain ⟨s, ss, rfl, hs, hss⟩ := List.map_eq_cons_iff.1 h
      have hrule : s.rule.value? = item.rule? := congrArg Reading.rule? hs
      have hlost : s.faulty.map Statement.text = item.faulty.map Item.text :=
        congrArg Reading.lost hs
      have hfirst : s.faulty.map (fun t => (sourceOf t.text, n)) =
          item.faulty.map fun i => (some (String.ofList i.text), n) := by
        have := congrArg (List.map fun x => (sourceOf x, n)) hlost
        rw [List.map_map, List.map_map] at this
        refine this.trans (List.map_congr_left fun i _ => ?_)
        simp only [Function.comp_apply, sourceOf, i.not_allBlank, Bool.false_eq_true, if_false]
      rw [Statement.numbered, List.flatMap_cons, hrule, reports_eq _ items hss, hfirst]
      rfl

/-- **Errors are isolated.**  A sheet of items has the rules that are well formed, with what is well
formed in them.  Each item that is no rule is reported with its text, in the order of the sheet, and
with the number of rules in front of it at top level. -/
theorem Stylesheet.parse_items (items : Items) (gap : Gap) :
    (parse (items.sheet gap)).rules = items.rules ∧ (parse (items.sheet gap)).dropped = [] ∧
      (parse (items.sheet gap)).errors.map (fun e => (e.source, e.ruleIndex)) =
        items.reports 0 := by
  have hcomes : Comes (items.sheet gap).toList items.readings := by
    rw [Items.sheet, String.toList_ofList]
    exact (items.yields none).comes gap.isSpace
  obtain ⟨ss, hc, hss⟩ := hcomes.consists items.not_isCharset
  obtain ⟨hrules, hdropped, -⟩ := items.readings_eq
  refine ⟨?_, hc.dropped_of_readings hss hdropped, ?_⟩
  · rw [hc.rules_of_readings hss, hrules]
    rfl
  · rw [hc.sources_eq]
    exact reports_eq 0 items hss

end CssPrune
