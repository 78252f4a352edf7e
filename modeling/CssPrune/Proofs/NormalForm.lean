import CssPrune.Proofs.Settled
import Mathlib

/-!
# Sheets are read in normal form

`normal_parse`: whatever the text, the rules that are read are normal.  Texts are squeezed and names
lowered as they are read; what kind of rule a statement becomes depends on its name and on the list
it stands in, which is what `Rule.Normal` records.  The induction is on the number of components of
the block that a statement ends with (`normal_item`, `normal_rule`).
-/

namespace CssPrune

namespace Text

/-! ### Letter case -/

theorem lower_lower (s : String) : lower (lower s) = lower s := by
  rw [lower, toList_lower, List.map_map]
  exact congrArg String.ofList (List.map_congr_left fun c _ => c.toLower_toLower_eq_toLower)

end Text

open Outcome (values)

/-! ### Texts -/

theorem normalText_normalString (raw : List Char) : NormalText (Text.normalString raw) := by
  rw [NormalText, Text.normalString, String.toList_ofList, Text.normalize_normalize]

/-- The selectors of a head are in normal form. -/
theorem normal_selectors (cs : List Component) :
    ∀ s ∈ Component.selectors cs, NormalSelector s := by
  intro s hs
  obtain ⟨hm, hne⟩ := List.mem_filter.1 hs
  obtain ⟨raw, -, rfl⟩ := List.mem_map.1 hm
  exact ⟨of_decide_eq_true hne, normalText_normalString raw⟩

/-- The name of a property is kept as it is once it is normal. -/
theorem Declaration.normalName_normalName (name : String) :
    normalName (normalName name) = normalName name := by
  by_cases h : isCustom name = true
  · have e : normalName name = name := if_pos h
    rw [e, e]
  · have e : normalName name = Text.lower name := if_neg h
    rw [e, normalName]
    split
    · rfl
    · exact Text.lower_lower name

/-- A declaration made of a name and a raw text is normal, whatever the text. -/
theorem normal_ofText (name : String) (raw : List Char) : (Declaration.ofText name raw).Normal where
  name := Declaration.normalName_normalName name
  value := by
    have := Declaration.splitImportant_normal raw
    rwa [Declaration.ofText, String.toList_ofList]

/-- A statement that is a declaration of some name is a normal one. -/
theorem normal_asDeclaration {s : Statement} {name : String} {d : Declaration}
    (h : s.asDeclaration name = .ok d) : d.Normal := by
  unfold Statement.asDeclaration at h
  split at h
  · cases h
  split at h
  · cases h; exact normal_ofText _ _
  · cases h

/-- Every declaration that is read is normal. -/
theorem normal_declaration {s : Statement} {d : Declaration} (h : s.declaration = .ok d) :
    d.Normal := by
  unfold Statement.declaration at h
  split at h
  · cases h
  split at h
  · exact normal_asDeclaration h
  · cases h
  · cases h

/-! ### Rules -/

/-- A value of the outcomes is the result of one of them. -/
theorem mem_values {α : Type} {os : List (Outcome α)} {a : α} :
    a ∈ values os ↔ ∃ o ∈ os, o.result = .ok a := by
  rw [values, List.mem_filterMap]
  refine exists_congr fun o => and_congr_right fun _ => ?_
  rw [Outcome.value?]
  cases o.result <;> simp [Except.toOption]

/-- A list of rules is normal when each of its rules is. -/
theorem normalAll_iff {p : Place} {rs : List Rule} :
    Rule.NormalAll p rs ↔ ∀ r ∈ rs, r.Normal p := by
  induction rs with
  | nil => exact ⟨fun _ _ h => (List.not_mem_nil h).elim, fun _ => trivial⟩
  | cons r rs ih => rw [List.forall_mem_cons, ← ih]; exact Iff.rfl

/-- A list of items is normal when each of its items is. -/
theorem normalAll_items_iff {is : List BlockItem} :
    BlockItem.NormalAll is ↔ ∀ i ∈ is, i.Normal := by
  induction is with
  | nil => exact ⟨fun _ _ h => (List.not_mem_nil h).elim, fun _ => trivial⟩
  | cons i is ih => rw [List.forall_mem_cons, ← ih]; exact Iff.rfl

/-- A style rule is normal when its selectors are, whatever its block: the declarations are read. -/
theorem normal_styleRule {p : Place} {ss : List String} {pos : Nat} {body : List Component}
    {r : Rule} (hne : p ≠ .block → ss ≠ []) (hss : ∀ s ∈ ss, NormalSelector s)
    (h : (styleRule ss (readDeclarations pos body)).result = .ok r) : r.Normal p := by
  cases h
  refine ⟨hne, hss, fun d hd => ?_⟩
  obtain ⟨o, ho, hr⟩ := mem_values.1 hd
  obtain ⟨e, he, rfl⟩ := List.mem_map.1 ho
  obtain ⟨s, -, rfl⟩ := List.mem_map.1 he
  exact normal_declaration hr

theorem ok_of_map {α β : Type} {o : Outcome α} {f : α → β} {b : β}
    (h : (o.map f).result = .ok b) : ∃ a, o.result = .ok a ∧ b = f a := by
  rw [Outcome.map] at h
  cases hr : o.result with
  | error e => rw [hr] at h; cases h
  | ok a => rw [hr] at h; cases h; exact ⟨a, rfl, rfl⟩

/-- A statement among items that is no at-rule comes to a normal item. -/
theorem normal_plainItem {s : Statement} {i : BlockItem} (h : s.plainItem.result = .ok i) :
    i.Normal := by
  unfold Statement.plainItem at h
  split at h
  · obtain ⟨r, hr, rfl⟩ := ok_of_map h
    exact normal_styleRule (fun h => absurd rfl h) (normal_selectors _) hr
  · cases hd : s.asDeclaration _ with
    | error f => rw [hd] at h; cases h
    | ok d => rw [hd] at h; cases h; exact normal_asDeclaration hd
  · cases h
  · cases h

/-- A statement among rules that is no at-rule comes to a normal rule. -/
theorem normal_plainRule {p : Place} {s : Statement} {r : Rule} (h : s.plainRule.result = .ok r) :
    r.Normal p := by
  unfold Statement.plainRule at h
  split at h
  · cases h
  split at h
  · simp only at h
    split at h
    · cases h
    · next hne => exact normal_styleRule (fun _ => hne) (normal_selectors _) h
  · cases h
  · cases h

/-- An at-rule without a block comes to a normal rule in every place. -/
theorem normal_bareAtRule {p : Place} {s : Statement} {name : String} {r : Rule}
    (hn : Text.lower name = name) (h : (s.bareAtRule name).result = .ok r) : r.Normal p := by
  unfold Statement.bareAtRule at h
  split at h
  · cases h
  · next hno =>
      cases h
      refine ⟨fun _ hg => ?_, hn, normalText_normalString _⟩
      by_contra hl
      exact hno ⟨List.contains_iff_mem.2 hg, hl⟩

/-- An at-rule with a block of normal items is normal, unless groups of its name can stand there. -/
theorem normal_blockRule {p : Place} {name : String} {s : Statement} {block : List (Outcome BlockItem)}
    {r : Rule} (hname : p ≠ .block → Text.lower name ∉ Rule.groupNames)
    (hi : ∀ i, (∃ o ∈ block, o.result = .ok i) → i.Normal)
    (h : (blockRule (Text.lower name) s.prelude block).result = .ok r) : r.Normal p := by
  cases h
  refine ⟨hname, Text.lower_lower name, normalText_normalString _,
    normalAll_items_iff.2 fun i hm => ?_⟩
  exact hi i (mem_values.1 hm)

/-- The items of a block are normal. -/
theorem normal_item (s : Statement) {i : BlockItem} (h : s.item.result = .ok i) : i.Normal := by
  rw [Statement.item] at h
  split at h
  · exact normal_plainItem h
  split at h
  · next he =>
      obtain ⟨r, hr, rfl⟩ := ok_of_map h
      refine normal_blockRule (fun h => absurd rfl h) (fun i hi => ?_) hr
      obtain ⟨o, ho, hoi⟩ := hi
      rw [readItems_eq] at ho
      obtain ⟨s', hs', rfl⟩ := List.mem_map.1 ho
      -- the statements in a block are smaller than the statement that ends with it
      have hle := Grammar.count_ending_le _ _ _ s' hs'
      have hlt : s'.ending.count < s.ending.count := by
        rw [he]; exact Nat.lt_succ_of_le hle
      exact normal_item s' hoi
  · cases h; exact ⟨fun h => absurd rfl h, Text.lower_lower _, normalText_normalString _⟩
  · cases h; exact ⟨fun h => absurd rfl h, Text.lower_lower _, normalText_normalString _⟩
termination_by s.ending.count

/-- Every item that is read in a block is normal. -/
theorem normal_readItems {pos : Nat} {cs : List Component} {i : BlockItem}
    (h : ∃ o ∈ readItems pos cs, o.result = .ok i) : i.Normal := by
  obtain ⟨o, ho, hi⟩ := h
  rw [readItems_eq] at ho
  obtain ⟨s, -, rfl⟩ := List.mem_map.1 ho
  exact normal_item s hi

/-- The rules of a list are normal. -/
theorem normal_rule {p : Place} (hp : p ≠ .block) (s : Statement) {r : Rule}
    (h : s.rule.result = .ok r) : r.Normal p := by
  rw [Statement.rule] at h
  split at h
  · exact normal_plainRule h
  split at h
  · next he =>
      split at h
      -- a group: its rules stand in a smaller statement
      · next hg =>
          cases h
          refine ⟨hp, List.contains_iff_mem.1 hg, normalText_normalString _,
            normalAll_iff.2 fun r hr => ?_⟩
          obtain ⟨o, ho, hor⟩ := mem_values.1 hr
          rw [readRules_eq] at ho
          obtain ⟨s', hs', rfl⟩ := List.mem_map.1 ho
          have hle := Grammar.count_ending_le _ _ _ s' (Grammar.mem_of_mem_ruleStatements hs')
          have hlt : s'.ending.count < s.ending.count := by
            rw [he]; exact Nat.lt_succ_of_le hle
          exact normal_rule (by decide) s' hor
      -- any other at-rule with a block: its items are normal
      · next hg =>
          exact normal_blockRule (fun _ => mt List.contains_iff_mem.2 hg)
            (fun i => normal_readItems) h
  · exact normal_bareAtRule (Text.lower_lower _) h
  · exact normal_bareAtRule (Text.lower_lower _) h
termination_by s.ending.count

/-- Every rule of a list at top level is normal. -/
theorem normal_readRules {pos : Nat} {cs : List Component} :
    Rule.NormalAll .sheet (values (readRules pos cs)) := by
  refine normalAll_iff.2 fun r hr => ?_
  obtain ⟨o, ho, hor⟩ := mem_values.1 hr
  rw [readRules_eq] at ho
  obtain ⟨s, -, rfl⟩ := List.mem_map.1 ho
  exact normal_rule (by decide) s hor

/-! ### Sheets -/

/-- The outcomes that are taken in add their values to the rules, in order. -/
theorem Progress.rules_foldl (text : List Char) (os : List (Outcome Rule)) (p : Progress) :
    (os.foldl (step text) p).rules = p.rules ++ values os := by
  induction os generalizing p with
  | nil => simp [values]
  | cons o os ih =>
      rw [List.foldl_cons, ih]
      have : values (o :: os) = o.value?.toList ++ values os := by
        rw [values, List.filterMap_cons]
        cases o.value? <;> rfl
      rw [this, ← List.append_assoc]
      rfl

/-- The rules of a sheet, whatever its text. -/
theorem normal_parse (css : String) : Rule.NormalAll .sheet (Stylesheet.parse css).rules := by
  show Rule.NormalAll .sheet (Progress.read _ _).rules
  rw [Progress.read]
  split
  · rw [Progress.rules_foldl]
    -- the leading `@charset`, with the rules behind it
    exact ⟨⟨fun _ h => absurd h (by decide +kernel), by decide +kernel, normalText_normalString _⟩,
      normal_readRules⟩
  · rw [Progress.rules_foldl]
    exact normal_readRules

end CssPrune
