import CssPrune.Proofs.NormalForm
import CssPrune.Proofs.Writing

/-!
# Printed sheets are read back

`append_rule` and its companions go through a tree of rules: the writer appends a text that comes to
the rule.  `parse_printAll`: a normal and settled list of rules, printed in either layout, is read
back as it was, and nothing in the printed text is at fault.  `Stylesheet.parse_print`: so is the
sheet read from a text, when its rules are settled.
-/

namespace CssPrune

open Component (Spells selectorText)
open Grammar (Yields YieldsAll)
open Writer (append_append append_nil margin lineStart closing)

/-! ### Declarations -/

/-- The writer appends a text that comes to the declaration. -/
theorem append_declaration {α : Type} {g : Grammar} {read : Statement → α} {a : α} {l : Layout}
    {w : Writer} {d : Declaration} (hw : w.layout = l)
    (h : Yields g read (some .curly) (declarationText l d ++ [';']) a) :
    ∃ x, w.declaration d = w.append x ∧ Yields g read (some .curly) x a :=
  ⟨_, Writer.declaration_eq w d, by rw [hw]; exact h.behind (Writer.margin_isSpace l _)⟩

/-- A new line, what stands in it and the lines below. -/
theorem append_line {α : Type} {g : Grammar} {read : Statement → α} {a : α} {as : List α}
    {b : Option Bracket} {w : Writer} {x y : List Char} (hx : Yields g read b x a)
    (hy : YieldsAll g read b y as) :
    ∃ z, ((w.newline).append x).append y = w.append z ∧ YieldsAll g read b z (a :: as) := by
  have hs : (w.layout.only "\n").toList.all Token.isSpace = true := by
    cases w.layout <;> rfl
  refine ⟨_, ?_, .cons hs hx hy⟩
  rw [Writer.newline_eq, append_append, append_append, List.append_assoc]

/-- The writer appends a text that comes to all declarations of a block. -/
theorem append_declarations {l : Layout} {w : Writer} (hw : w.layout = l) {ds : List Declaration}
    (hn : ∀ d ∈ ds, d.Normal) (hs : ds.all (Declaration.settled l) = true) :
    ∃ x, w.declarations ds = w.append x ∧
      YieldsAll Grammar.declarations Statement.declaration (some .curly) x (ds.map .ok) := by
  induction ds generalizing w with
  | nil => exact ⟨[], (append_nil w).symm, .nil⟩
  | cons d ds ih =>
      rw [List.all_cons, Bool.and_eq_true] at hs
      have hd := yields_declaration_style (hn d List.mem_cons_self) hs.1
      obtain ⟨x, hx, hxd⟩ := append_declaration (w := w.newline) hw hd
      obtain ⟨y, hy, hyd⟩ := ih (w := w.newline.declaration d) (by rw [hx]; exact hw)
        (fun e he => hn e (List.mem_cons_of_mem _ he)) hs.2
      -- each declaration begins a line of its own
      obtain ⟨z, hz, hzd⟩ := append_line (w := w) hxd hyd
      refine ⟨z, ?_, hzd⟩
      rw [← hz, ← hx]
      exact hy

/-! ### Rules -/

/-- What a rule comes to depends on the place it stands in. -/
def RuleYields (p : Place) (x : List Char) (r : Rule) : Prop :=
  (p ≠ .block → Yields Grammar.rules Statement.rule p.bracket x (fine r)) ∧
    (p = .block → Yields Grammar.items Statement.item (some .curly) x (fine (.rule r)))

theorem RuleYields.behind {p : Place} {s x : List Char} {r : Rule}
    (hs : s.all Token.isSpace = true) (h : RuleYields p x r) : RuleYields p (s ++ x) r :=
  ⟨fun hp => (h.1 hp).behind hs, fun hp => (h.2 hp).behind hs⟩

/-- A block around what has been appended. -/
theorem append_braced {w : Writer} {head : List Char} (x : List Char) (empty : Bool) :
    ((w.indent.append head).openBlock.append x).closeBlock empty =
      w.append (margin w.layout w.depth ++
        (head ++ w.layout.gap ++ braced x (closing w.layout w.depth empty))) := by
  rw [Writer.closeBlock_eq, Writer.indent_eq, append_append, append_append]
  simp

/-- A rule that is written as a head and a block. -/
theorem append_block {p : Place} {l : Layout} {w : Writer} {r : Rule} {head x : List Char}
    {empty : Bool} (hw : w.layout = l)
    (hr : w.rule r = ((w.indent.append head).openBlock.append x).closeBlock empty)
    (h : RuleYields p (head ++ l.gap ++ braced x (closing l w.depth empty)) r) :
    ∃ y, w.rule r = w.append y ∧ RuleYields p y r := by
  subst hw
  exact ⟨_, hr.trans (append_braced x empty), h.behind (Writer.margin_isSpace _ w.depth)⟩

mutual

/-- **The writer appends a text that comes to the rule**, at whatever depth it stands. -/
theorem append_rule {l : Layout} : ∀ (p : Place) (w : Writer) (r : Rule), w.layout = l →
    r.Normal p → r.settled l p = true → ∃ x, w.rule r = w.append x ∧ RuleYields p x r
  | p, w, .style ss ds, hw, hn, hs => by
      have hds : ds.all (Declaration.settled l) = true := by
        rw [Rule.settled, Bool.and_eq_true] at hs; exact hs.2
      -- the body is written before it is known how the block is closed
      obtain ⟨x, hx, hy⟩ := append_declarations (w := (w.indent.selectors ss).openBlock)
        (by rw [Writer.selectors_eq]; exact hw) hn.2.2 hds
      refine append_block hw (by rw [Writer.rule, hx, Writer.selectors_eq])
        ⟨fun hp => yields_style hp (Writer.lineStart_isSpace _ _) (Writer.closing_isSpace l _ _)
          hn hs hy, fun hp => ?_⟩
      subst hp
      exact yields_style_item (Writer.lineStart_isSpace _ _) (Writer.closing_isSpace l _ _) hn hs hy
  | p, w, .group name prelude rs, hw, hn, hs => by
      have hrs : Rule.settledAll l .group rs = true := by
        rw [Rule.settled, Bool.and_eq_true] at hs; exact hs.2
      obtain ⟨x, hx, hy⟩ := append_rules (w.indent.atKeyword name prelude).openBlock rs
        (by rw [Writer.atKeyword_eq]; exact hw) hn.2.2.2 hrs
      exact append_block hw (by rw [Writer.rule, hx, Writer.atKeyword_eq])
        ⟨fun _ => yields_group hn hs (Writer.closing_isSpace l _ _) hy, fun hp => absurd hp hn.1⟩
  | p, w, .block name prelude is, hw, hn, hs => by
      have his : BlockItem.settledAll l is = true := by
        rw [Rule.settled, Bool.and_eq_true] at hs; exact hs.2
      obtain ⟨x, hx, hy⟩ := append_items (w.indent.atKeyword name prelude).openBlock is
        (by rw [Writer.atKeyword_eq]; exact hw) hn.2.2.2 his
      refine append_block hw (by rw [Writer.rule, hx, Writer.atKeyword_eq])
        ⟨fun hp => yields_block hp hn hs (Writer.closing_isSpace l _ _) hy, fun hp => ?_⟩
      subst hp
      exact yields_block_item hn hs (Writer.closing_isSpace l _ _) hy
  | p, w, .statement name prelude, hw, hn, hs => by
      refine ⟨_, ?_, RuleYields.behind (Writer.margin_isSpace l w.depth)
        ⟨fun hp => yields_statement hp hn hs, fun hp => ?_⟩⟩
      · rw [Writer.rule, Writer.atKeyword_eq, Writer.indent_eq, Writer.put_eq, append_append,
          append_append, hw]
        rfl
      · subst hp
        exact yields_statement_item hn hs

/-- A list of rules, each one on a line of its own. -/
theorem append_rules {l : Layout} : ∀ (w : Writer) (rs : List Rule), w.layout = l →
    Rule.NormalAll .group rs → Rule.settledAll l .group rs = true →
    ∃ x, w.rules rs = w.append x ∧
      YieldsAll Grammar.rules Statement.rule (some .curly) x (rs.map fine)
  | w, [], _, _, _ => ⟨[], by rw [Writer.rules, append_nil], .nil⟩
  | w, r :: rs, hw, hn, hs => by
      rw [Rule.settledAll, Bool.and_eq_true] at hs
      obtain ⟨x, hx, hxr⟩ := append_rule .group w.newline r hw hn.1 hs.1
      obtain ⟨y, hy, hyr⟩ := append_rules (w.newline.rule r) rs (by rw [hx]; exact hw) hn.2 hs.2
      obtain ⟨z, hz, hzr⟩ := append_line (w := w) (hxr.1 (by decide)) hyr
      exact ⟨z, by rw [Writer.rules, hy, hx, hz], hzr⟩

/-- An item of a block, which is a declaration or a rule. -/
theorem append_item {l : Layout} : ∀ (w : Writer) (i : BlockItem), w.layout = l →
    i.Normal → i.settled l = true →
    ∃ x, w.item i = w.append x ∧ Yields Grammar.items Statement.item (some .curly) x (fine i)
  | w, .declaration d, hw, hn, hs => by
      rw [Writer.item]
      exact append_declaration hw (yields_declaration_item hn hs)
  | w, .rule r, hw, hn, hs => by
      obtain ⟨x, hx, hy⟩ := append_rule .block w r hw hn hs
      exact ⟨x, by rw [Writer.item, hx], hy.2 rfl⟩

/-- A list of items, each one on a line of its own. -/
theorem append_items {l : Layout} : ∀ (w : Writer) (is : List BlockItem), w.layout = l →
    BlockItem.NormalAll is → BlockItem.settledAll l is = true →
    ∃ x, w.items is = w.append x ∧
      YieldsAll Grammar.items Statement.item (some .curly) x (is.map fine)
  | w, [], _, _, _ => ⟨[], by rw [Writer.items, append_nil], .nil⟩
  | w, i :: is, hw, hn, hs => by
      rw [BlockItem.settledAll, Bool.and_eq_true] at hs
      obtain ⟨x, hx, hxi⟩ := append_item w.newline i hw hn.1 hs.1
      obtain ⟨y, hy, hyi⟩ := append_items (w.newline.item i) is (by rw [hx]; exact hw) hn.2 hs.2
      obtain ⟨z, hz, hzi⟩ := append_line (w := w) hxi hyi
      exact ⟨z, by rw [Writer.items, hy, hx, hz], hzi⟩

end

/-! ### Sheets -/

/-- Joined texts are the first text, and the others with the separator in front of each. -/
theorem toList_intercalate_cons (sep s : String) (ss : List String) :
    (sep.intercalate (s :: ss)).toList =
      s.toList ++ ss.flatMap fun t => sep.toList ++ t.toList := by
  induction ss generalizing s with
  | nil => simp
  | cons t ts ih => rw [String.intercalate_cons_cons, String.toList_append, ih]; simp

/-- A rule at top level. -/
theorem yields_print {l : Layout} {r : Rule} (hn : r.Normal .sheet) (hs : r.settled l .sheet = true) :
    Yields Grammar.rules Statement.rule none (r.print l).toList (fine r) := by
  obtain ⟨x, hx, hy⟩ := append_rule .sheet (.start l) r rfl hn hs
  have : (r.print l).toList = x := by
    rw [Rule.print, hx]
    show ("" ++ String.ofList x).toList = x
    simp
  rw [this]
  exact hy.1 (by decide)

/-- Rules at top level, each with blanks in front. -/
theorem yields_printed {l : Layout} {sep : String} (hsep : sep.toList.all Token.isSpace = true)
    {rs : List Rule} (hn : Rule.NormalAll .sheet rs) (hs : Rule.settledAll l .sheet rs = true) :
    YieldsAll Grammar.rules Statement.rule none
      ((rs.map (Rule.print l)).flatMap fun t => sep.toList ++ t.toList) (rs.map fine) := by
  induction rs with
  | nil => exact .nil
  | cons r rs ih =>
      rw [Rule.settledAll, Bool.and_eq_true] at hs
      exact .cons hsep (yields_print hn.1 hs.1) (ih hn.2 hs.2)

namespace Progress

/-- Rules without faults are taken in one after the other. -/
theorem foldl_fine (text : List Char) (rs : List Rule) (p : Progress) :
    (rs.map fine).foldl (step text) p =
      { p with finished := p.finished + rs.length, rules := p.rules ++ rs } := by
  induction rs generalizing p with
  | nil => simp
  | cons r rs ih =>
      have h : step text p (fine r) =
          { p with finished := p.finished + 1, rules := p.rules ++ [r] } := by
        simp [step, fine, Outcome.plain, Outcome.value?, Outcome.fault?, Except.toOption]
      rw [List.map_cons, List.foldl_cons, h, ih]
      simp [Nat.add_assoc, Nat.add_comm 1]

/-- A sheet of rules without faults has these rules and no reports. -/
theorem sheet_fine (text : List Char) (rs rs' : List Rule) :
    ((rs'.map fine).foldl (step text) (start rs)).sheet = ⟨rs ++ rs', [], []⟩ := by
  rw [foldl_fine]
  simp [start, sheet]

end Progress

/-- Blanks in front only move the statements of a list on. -/
theorem statements_dropWhile (pos : Nat) (cs : List Component) :
    ∃ pos', Grammar.rules.statements pos cs =
      Grammar.rules.statements pos' (cs.dropWhile Component.isBlank) := by
  induction cs generalizing pos with
  | nil => exact ⟨pos, rfl⟩
  | cons c cs ih =>
      by_cases hc : c.isBlank = true
      · rw [List.dropWhile_cons_of_pos hc, Grammar.statements_skip (skipsBlanks_rules c hc)]
        exact ih _
      · exact ⟨pos, by rw [List.dropWhile_cons_of_neg hc]⟩

/-- A statement that begins with an at-keyword begins with it wherever it is cut. -/
theorem cut_of_atKeyword {c : Component} {n : String} (hc : c.token = .atKeyword n)
    (cs : List Component) (t : Terminators) :
    ∃ cs', (t.cut (c :: cs)).1 = c :: cs' := by
  have : t.ending? c = none := by
    cases c with
    | leaf x =>
        have hx : x.token = .atKeyword n := hc
        simp [Terminators.ending?, hx]
    | block opener body closer =>
        have hx : opener.token = .atKeyword n := hc
        simp [Terminators.ending?, hx]
  exact ⟨_, by rw [Terminators.cut, this]⟩

/-- A statement begins with the first component of what it is cut off. -/
theorem head_cut {t : Terminators} {c d : Component} {cs ds : List Component}
    (h : (t.cut (c :: cs)).1 = d :: ds) : d = c := by
  rw [Terminators.cut] at h
  split at h
  · cases h
  · exact (List.cons.inj h).1.symm

/-- A `@charset` begins with an at-keyword. -/
theorem atKeyword_of_isCharset {s : Statement} (h : s.isCharset = true) :
    ∃ c cs n, s.head = c :: cs ∧ c.token = .atKeyword n := by
  obtain ⟨n, hn, -⟩ := (Option.any_eq_true _ _).1 h
  obtain ⟨c, cs, hs, hc⟩ := Statement.exists_of_atName? hn
  exact ⟨c, cs, n, hs, hc⟩

theorem isCharset_of_head {s t : Statement} {c : Component} {cs cs' : List Component}
    (h : s.head = c :: cs) (h' : t.head = c :: cs') : s.isCharset = t.isCharset := by
  simp only [Statement.isCharset, Statement.atName?, h, h']

/-- A sheet does not begin with a `@charset` unless its first statement is one. -/
theorem leadingCharset_eq_none {cs : List Component}
    (h : ∀ s ∈ (Grammar.rules.statements 0 cs).head?, s.isCharset = false) :
    leadingCharset cs = none := by
  refine if_neg fun hc => ?_
  obtain ⟨pos', hpos⟩ := statements_dropWhile 0 cs
  rw [hpos] at h
  cases hd : cs.dropWhile Component.isBlank with
  | nil => rw [hd] at hc; cases hc
  | cons c rest =>
      rw [hd] at hc h
      -- the at-keyword begins the first statement, however that statement ends
      obtain ⟨d, ds, n, hds, hn⟩ := atKeyword_of_isCharset hc
      obtain rfl := head_cut hds
      have hskip : Grammar.rules.skips d = false := by
        simp [Grammar.rules, Component.isBlank, hn, Token.isBlank]
      obtain ⟨head', hhead'⟩ := cut_of_atKeyword hn rest (Grammar.rules.ends (d :: rest))
      rcases hcut : (Grammar.rules.ends (d :: rest)).cut (d :: rest) with ⟨head, e, more⟩
      rw [hcut] at hhead'
      obtain ⟨pos'', hst⟩ := Grammar.statements_cut pos' hskip hcut
      rw [hst] at h
      have hfirst := h _ rfl
      rw [isCharset_of_head (s := ⟨pos', head, e⟩) (t := ⟨_, _, _⟩) hhead' hds, hc] at hfirst
      cases hfirst

/-- A settled sheet has one `@charset` in front or none. -/
theorem settledSheet_cases {l : Layout} {rs : List Rule} (h : settledSheet l rs = true) :
    (∃ prelude rest, rs = .statement "charset" prelude :: rest ∧
      settledPrelude none ⟨true, false⟩ ';' [] "charset" prelude = true ∧
      rest.head?.any Rule.isCharset = false ∧ Rule.settledAll l .sheet rest = true) ∨
    (rs.head?.any Rule.isCharset = false ∧ Rule.settledAll l .sheet rs = true) := by
  unfold settledSheet at h
  split at h
  · next name prelude rest =>
      rw [Bool.and_eq_true] at h
      split at h
      · next he =>
          subst he
          rw [Bool.and_eq_true, Bool.not_eq_true'] at h
          exact .inl ⟨prelude, rest, rfl, h.1.1, h.1.2, h.2⟩
      · next he =>
          refine .inr ⟨decide_eq_false he, ?_⟩
          rw [Rule.settledAll, Rule.settled, Bool.and_eq_true]
          exact h
  · rw [Bool.and_eq_true, Bool.not_eq_true'] at h
    exact .inr h

/-- A sheet whose first rule is no `@charset`. -/
theorem parse_of_yields {x : List Char} {rs : List Rule}
    (h : YieldsAll Grammar.rules Statement.rule none x (rs.map fine))
    (hc : rs.head?.any Rule.isCharset = false) :
    Stylesheet.parse (String.ofList x) = ⟨rs, [], []⟩ := by
  obtain ⟨cs, hx, hr⟩ := h
  have hs := statements_of_reads hr 0
  have hfirst : ∀ s ∈ (Grammar.rules.statements 0 cs).head?, s.isCharset = false := by
    intro s hsm
    obtain ⟨ss, hss⟩ := List.head?_eq_some_iff.1 hsm
    rw [hss] at hs
    cases rs with
    | nil => cases hs
    | cons r rs => rw [Statement.isCharset_rule (List.cons.inj hs).1]; exact hc
  rw [Stylesheet.parse, String.toList_ofList, Component.ofText_of_spells hx, Progress.read,
    leadingCharset_eq_none hfirst]
  simp only
  rw [readRules_of_reads hr hc, Progress.sheet_fine]
  rfl

/-- A `@charset` in front of a text is the leading one, and the text is what follows it. -/
theorem leadingCharset_atHead {prelude : String} (hp : NormalText prelude)
    (hs : settledPrelude none ⟨true, false⟩ ';' [] "charset" prelude = true) (x : List Char) :
    ∃ s, leadingCharset (Component.ofText (atHead "charset" prelude ++ ';' :: x)) =
      some (s, Component.ofText x) ∧ s.prelude = prelude := by
  obtain ⟨head, hh⟩ := atHead_of_settled (.inr rfl) (.inl rfl) hp hs
  have hu := hh.upTo
  rw [List.append_nil] at hu
  -- the prelude ends at the first semicolon
  have hsemi : Spells none [';'] [.leaf (Lexeme.mark ';')] := Component.spells_mark rfl rfl
  have htext : Component.ofText (atHead "charset" prelude ++ ';' :: x) =
      Component.keywordLeaf "charset".toList :: head ++
        .leaf (Lexeme.mark ';') :: Component.ofText x := by
    have := Component.ofText_append (hu.append hsemi) x
    rwa [List.append_assoc, List.append_assoc] at this
  have hcut : Terminators.cut ⟨true, false⟩ (Component.keywordLeaf "charset".toList :: head ++
      .leaf (Lexeme.mark ';') :: Component.ofText x) =
      (Component.keywordLeaf "charset".toList :: head, .semicolon, Component.ofText x) :=
    Terminators.cut_append hh.goesOn rfl
  have hdrop : (Component.keywordLeaf "charset".toList :: head ++
      .leaf (Lexeme.mark ';') :: Component.ofText x).dropWhile Component.isBlank =
      Component.keywordLeaf "charset".toList :: head ++
        .leaf (Lexeme.mark ';') :: Component.ofText x := rfl
  refine ⟨⟨0, Component.keywordLeaf "charset".toList :: head, .semicolon⟩, ?_, hh.prelude_eq rfl⟩
  rw [htext, leadingCharset]
  simp only [hdrop, hcut]
  rfl

/-- A sheet with a `@charset` in front, behind which a list of its own begins. -/
theorem parse_behind_charset {x : List Char} {rs : List Rule} {prelude : String}
    (h : YieldsAll Grammar.rules Statement.rule none x (rs.map fine)) (hp : NormalText prelude)
    (hs : settledPrelude none ⟨true, false⟩ ';' [] "charset" prelude = true) :
    Stylesheet.parse (String.ofList (atHead "charset" prelude ++ ';' :: x)) =
      ⟨.statement "charset" prelude :: Rule.lessCharset rs, [], []⟩ := by
  obtain ⟨cs, hx, hr⟩ := h
  obtain ⟨s, hlead, hprelude⟩ := leadingCharset_atHead hp hs x
  rw [Component.ofText_of_spells hx] at hlead
  rw [Stylesheet.parse, String.toList_ofList, Progress.read, hlead]
  simp only
  rw [readRules_lessCharset hr, hprelude, Progress.sheet_fine]
  rfl

/-- A `@charset` in front of settled rules is read back with them. -/
theorem parse_charset {x : List Char} {rs : List Rule} {prelude : String}
    (h : YieldsAll Grammar.rules Statement.rule none x (rs.map fine))
    (hc : rs.head?.any Rule.isCharset = false) (hp : NormalText prelude)
    (hs : settledPrelude none ⟨true, false⟩ ';' [] "charset" prelude = true) :
    Stylesheet.parse (String.ofList (atHead "charset" prelude ++ ';' :: x)) =
      ⟨.statement "charset" prelude :: rs, [], []⟩ := by
  rw [parse_behind_charset h hp hs, Rule.lessCharset_eq hc]

/-- An at-rule without a block is printed as its head and a semicolon. -/
theorem print_statement (l : Layout) (name prelude : String) :
    (Rule.print l (.statement name prelude)).toList = atHead name prelude ++ [';'] := by
  have hm : margin l 0 = [] := by cases l <;> rfl
  rw [Rule.print, Writer.rule, Writer.atKeyword_eq, Writer.indent_eq, Writer.put_eq,
    append_append, append_append]
  show ("" ++ String.ofList (margin l 0 ++ _)).toList = _
  rw [hm]
  simp

/-- **Round trip.**  A normal, settled list of rules is read back from its text in either layout, and
nothing in that text is at fault. -/
theorem parse_printAll {l : Layout} {rs : List Rule} (hn : Rule.NormalAll .sheet rs)
    (hs : settledSheet l rs = true) : Stylesheet.parse (Rule.printAll l rs) = ⟨rs, [], []⟩ := by
  have hsep : (l.only "\n\n").toList.all Token.isSpace = true := by
    cases l <;> rfl
  have htext : ∀ r rs, Rule.printAll l (r :: rs) = String.ofList ((r.print l).toList ++
      (rs.map (Rule.print l)).flatMap fun t => (l.only "\n\n").toList ++ t.toList) := by
    intro r rs
    rw [← toList_intercalate_cons, String.ofList_toList]; rfl
  obtain ⟨prelude, rest, rfl, hpre, hc, hrest⟩ | ⟨hc, hall⟩ := settledSheet_cases hs
  · rw [htext, print_statement, List.append_assoc]
    exact parse_charset (yields_printed hsep hn.2 hrest) hc hn.1.2.2 hpre
  · cases rs with
    | nil => exact parse_of_yields (x := []) .nil rfl
    | cons r rs =>
        rw [Rule.settledAll, Bool.and_eq_true] at hall
        rw [htext]
        exact parse_of_yields
          (.cons (s := []) rfl (yields_print hn.1 hall.1) (yields_printed hsep hn.2 hall.2)) hc

/-- A sheet read from a text is read back from its print, provided that its rules are settled for the
layout; printing once more then changes nothing. -/
theorem Stylesheet.parse_print {l : Layout} {css : String}
    (h : settledSheet l (parse css).rules = true) :
    parse (print l (parse css)) = ⟨(parse css).rules, [], []⟩ ∧
      print l (parse (print l (parse css))) = print l (parse css) := by
  have hparse : parse (print l (parse css)) = ⟨(parse css).rules, [], []⟩ :=
    parse_printAll (normal_parse css) h
  refine ⟨hparse, ?_⟩
  rw [hparse]
  rfl

/-- A style rule within a group is settled in the pretty layout. -/
theorem Stylesheet.parse_print_media :
    settledSheet .pretty
      (parse "@media screen\x7b.a,p:hover\x7bcolor:red !important\x7d\x7d").rules = true ∧
    parse (print .pretty (parse "@media screen\x7b.a,p:hover\x7bcolor:red !important\x7d\x7d")) =
      ⟨(parse "@media screen\x7b.a,p:hover\x7bcolor:red !important\x7d\x7d").rules, [], []⟩ := by
  have h : settledSheet .pretty
      (parse "@media screen\x7b.a,p:hover\x7bcolor:red !important\x7d\x7d").rules = true := by
    decide +kernel
  exact ⟨h, (parse_print h).1⟩

/-- A string that the end of the text closes is printed without its closing quote, and then takes the
marks behind it for its own. -/
theorem Stylesheet.parse_print_open_string :
    (parse (print .compressed (parse ".a\x7bb:\"x"))).rules ≠ (parse ".a\x7bb:\"x").rules := by
  decide +kernel

end CssPrune
