import CssPrune.Proofs.RoundTrip

/-!
# Indented text without a depth

The writer knows at each place how deep it is.  `Rule.pretty` says the same text without that: a block
is its header and its items, each of them shifted by two spaces.

* `Writer.exists_rule`: a rule appends one text wherever the layout, and in the pretty layout the depth,
  is the same; so the depth is afterwards what it was before.
* `Writer.writes_rule_pretty`: if no text of the rule has a line feed, this is the pretty text, hung at the
  depth.

`Rule.print_pretty` puts the two together.
-/

namespace CssPrune

open Component (selectorText)
open Writer (append_append append_nil margin lineStart closing)

/-! ### Text without a depth -/

/-- Two spaces in front of every line. -/
def shift (x : List Char) : List Char :=
  ' ' :: ' ' :: x.flatMap fun c => if c = '\n' then ['\n', ' ', ' '] else [c]

/-- A header and a block.  Each item starts a line, and so does the bracket behind them. -/
def blockText (header : List Char) (items : List (List Char)) : List Char :=
  header ++ ([' ', '\x7b'] ++ (items.flatMap (fun x => '\n' :: shift x) ++
    if items.isEmpty then ['\x7d'] else ['\n', '\x7d']))

/-- A declaration in the pretty layout. -/
def Declaration.pretty (d : Declaration) : List Char :=
  d.name.toList ++ ':' :: ' ' :: d.value.toList ++
    (if d.important then " !important".toList else []) ++ [';']

mutual

/-- The text of a rule in the pretty layout. -/
def Rule.pretty : Rule → List Char
  | .style selectors ds =>
    blockText ([',', '\n'].intercalate (selectors.map String.toList)) (ds.map Declaration.pretty)
  | .group name prelude rs => blockText (atHead name prelude) (Rule.prettyAll rs)
  | .block name prelude is => blockText (atHead name prelude) (BlockItem.prettyAll is)
  | .statement name prelude => atHead name prelude ++ [';']

def Rule.prettyAll : List Rule → List (List Char)
  | [] => []
  | r :: rs => r.pretty :: Rule.prettyAll rs

/-- An item of a block in the pretty layout. -/
def BlockItem.pretty : BlockItem → List Char
  | .declaration d => d.pretty
  | .rule r => r.pretty

def BlockItem.prettyAll : List BlockItem → List (List Char)
  | [] => []
  | i :: is => i.pretty :: BlockItem.prettyAll is

end

/-! ### Texts on one line -/

/-- No line feed. -/
def oneLine (s : String) : Bool := '\n' ∉ s.toList

/-- Neither name nor value has a line feed. -/
def Declaration.oneLine (d : Declaration) : Bool := CssPrune.oneLine d.name && CssPrune.oneLine d.value

mutual

/-- No selector, name, prelude or value has a line feed. -/
def Rule.oneLine : Rule → Bool
  | .style selectors ds => selectors.all CssPrune.oneLine && ds.all Declaration.oneLine
  | .group name prelude rs =>
    CssPrune.oneLine name && CssPrune.oneLine prelude && Rule.oneLineAll rs
  | .block name prelude is =>
    CssPrune.oneLine name && CssPrune.oneLine prelude && BlockItem.oneLineAll is
  | .statement name prelude => CssPrune.oneLine name && CssPrune.oneLine prelude

def Rule.oneLineAll : List Rule → Bool
  | [] => true
  | r :: rs => r.oneLine && Rule.oneLineAll rs

/-- No text of the item has a line feed. -/
def BlockItem.oneLine : BlockItem → Bool
  | .declaration d => d.oneLine
  | .rule r => r.oneLine

def BlockItem.oneLineAll : List BlockItem → Bool
  | [] => true
  | i :: is => i.oneLine && BlockItem.oneLineAll is

end

theorem oneLine_iff {s : String} : oneLine s = true ↔ '\n' ∉ s.toList := decide_eq_true_iff

/-! ### The same text wherever it is written -/

namespace Writer

/-- The layout is `l`, and the depth is `depth` if that can be seen. -/
def At (l : Layout) (depth : Nat) (w : Writer) : Prop :=
  w.layout = l ∧ (l = .pretty → w.depth = depth)

section At

variable {l : Layout} {depth : Nat} {w : Writer}

theorem At.append (h : w.At l depth) (x : List Char) : (w.append x).At l depth := h

theorem At.openBlock (h : w.At l depth) : w.openBlock.At l (depth + 1) :=
  ⟨h.1, fun hl => congrArg (· + 1) (h.2 hl)⟩

/-- Indentation does not depend on what cannot be seen. -/
theorem At.margin_eq (h : w.At l depth) : margin w.layout w.depth = margin l depth := by
  obtain ⟨rfl, hd⟩ := h
  cases hl : w.layout with
  | compressed => rfl
  | pretty => rw [hd hl]

theorem At.lineStart_eq (h : w.At l depth) : lineStart w.layout w.depth = lineStart l depth := by
  rw [lineStart, lineStart, h.margin_eq, h.1]

theorem At.closing_eq (h : w.At l depth) (empty : Bool) :
    closing w.layout w.depth empty = closing l depth empty := by
  rw [closing, closing, h.lineStart_eq]

end At

/-- Every writer of this layout and depth appends the text `x`. -/
def Writes (l : Layout) (depth : Nat) (write : Writer → Writer) (x : List Char) : Prop :=
  ∀ w : Writer, w.At l depth → write w = w.append x

section Writes

variable {l : Layout} {depth : Nat} {f g : Writer → Writer} {x y : List Char}

theorem writes_nil : Writes l depth id [] := fun w _ => (append_nil w).symm

/-- What is written in two steps is the two texts. -/
theorem Writes.comp (hf : Writes l depth f x) (hg : Writes l depth g y) :
    Writes l depth (g ∘ f) (x ++ y) := by
  intro w h
  rw [Function.comp_apply, hf w h, hg _ (h.append x), append_append]

theorem writes_newline : Writes l depth newline (l.only "\n").toList := by
  intro w h
  rw [newline_eq, h.1]

theorem writes_selectors (ss : List String) :
    Writes l depth (selectors · ss) (selectorText (lineStart l depth) ss) := by
  intro w h
  simp only [selectors_eq, h.lineStart_eq]

theorem writes_atKeyword (name prelude : String) :
    Writes l depth (atKeyword · name prelude) (atHead name prelude) :=
  fun w _ => atKeyword_eq w name prelude

theorem writes_declaration (d : Declaration) :
    Writes l depth (declaration · d) (margin l depth ++ (declarationText l d ++ [';'])) := by
  intro w h
  show w.declaration d = _
  rw [declaration_eq, h.margin_eq, h.1]

/-- A head and a block around what is written one level deeper. -/
theorem Writes.block (hf : Writes l depth f x) (hg : Writes l (depth + 1) g y) (empty : Bool) :
    Writes l depth (fun w => (g (f w.indent).openBlock).closeBlock empty)
      (margin l depth ++ (x ++ l.gap ++ braced y (closing l depth empty))) := by
  intro w h
  have hin : w.indent.At l depth := by rw [indent_eq]; exact h.append _
  simp only
  rw [hf _ hin, hg _ (hin.append x).openBlock, append_braced, h.margin_eq, h.closing_eq, h.1]

theorem writes_statement (name prelude : String) :
    Writes l depth (rule · (.statement name prelude))
      (margin l depth ++ (atHead name prelude ++ [';'])) := by
  intro w h
  simp only
  rw [rule, atKeyword_eq, indent_eq, put_eq, append_append, append_append, h.margin_eq]
  simp

theorem exists_declarations (ds : List Declaration) : ∃ x, Writes l depth (declarations · ds) x := by
  induction ds with
  | nil => exact ⟨_, writes_nil⟩
  | cons d ds ih =>
      obtain ⟨x, hx⟩ := ih
      exact ⟨_, (writes_newline.comp (writes_declaration d)).comp hx⟩

end Writes

mutual

/-- A rule appends the same text wherever the layout and, if it is the pretty one, the depth are the
same. -/
theorem exists_rule (l : Layout) : ∀ (depth : Nat) (r : Rule), ∃ x, Writes l depth (rule · r) x
  | depth, .style ss ds => by
      obtain ⟨x, hx⟩ := exists_declarations ds
      simp only [rule]
      exact ⟨_, (writes_selectors ss).block hx _⟩
  | depth, .group name prelude rs => by
      obtain ⟨x, hx⟩ := exists_rules l (depth + 1) rs
      simp only [rule]
      exact ⟨_, (writes_atKeyword name prelude).block hx _⟩
  | depth, .block name prelude is => by
      obtain ⟨x, hx⟩ := exists_items l (depth + 1) is
      simp only [rule]
      exact ⟨_, (writes_atKeyword name prelude).block hx _⟩
  | depth, .statement name prelude => ⟨_, writes_statement name prelude⟩

/-- Rules of a block append one text, too. -/
theorem exists_rules (l : Layout) : ∀ (depth : Nat) (rs : List Rule),
    ∃ x, Writes l depth (rules · rs) x
  | _, [] => by
      simp only [rules]
      exact ⟨_, writes_nil⟩
  | depth, r :: rs => by
      obtain ⟨x, hx⟩ := exists_rule l depth r
      obtain ⟨y, hy⟩ := exists_rules l depth rs
      simp only [rules]
      exact ⟨_, (writes_newline.comp hx).comp hy⟩

theorem exists_item (l : Layout) : ∀ (depth : Nat) (i : BlockItem), ∃ x, Writes l depth (item · i) x
  | depth, .declaration d => by
      simp only [item]
      exact ⟨_, writes_declaration d⟩
  | depth, .rule r => by
      simp only [item]
      exact exists_rule l depth r

/-- The items of a block are written as one text, whatever the depth. -/
theorem exists_items (l : Layout) : ∀ (depth : Nat) (is : List BlockItem),
    ∃ x, Writes l depth (items · is) x
  | _, [] => by
      simp only [items]
      exact ⟨_, writes_nil⟩
  | depth, i :: is => by
      obtain ⟨x, hx⟩ := exists_item l depth i
      obtain ⟨y, hy⟩ := exists_items l depth is
      simp only [items]
      exact ⟨_, (writes_newline.comp hx).comp hy⟩

end

/-- After a rule the writer is as deep as before. -/
theorem depth_rule (w : Writer) (r : Rule) : (w.rule r).depth = w.depth := by
  obtain ⟨x, hx⟩ := exists_rule w.layout w.depth r
  have hw : w.rule r = w.append x := hx w ⟨rfl, fun _ => rfl⟩
  rw [hw, depth_append]

/-- In the compressed layout the depth does not show. -/
theorem out_rule_compressed {w : Writer} (h : w.layout = .compressed) (r : Rule) :
    (w.rule r).out = w.out ++ r.print .compressed := by
  obtain ⟨x, hx⟩ := exists_rule .compressed 0 r
  have hw : w.rule r = w.append x := hx w ⟨h, fun e => by cases e⟩
  have hs : (start .compressed).rule r = (start .compressed).append x := hx _ ⟨rfl, fun _ => rfl⟩
  rw [Rule.print, hs, hw]
  show w.out ++ String.ofList x = w.out ++ ("" ++ String.ofList x)
  rw [String.empty_append]

/-! ### The pretty layout -/

/-- A text whose lines but the first are moved to a depth. -/
def hang (depth : Nat) (x : List Char) : List Char :=
  x.flatMap fun c => if c = '\n' then lineStart .pretty depth else [c]

section Hang

variable {depth : Nat} {x : List Char}

theorem hang_append (depth : Nat) (x y : List Char) :
    hang depth (x ++ y) = hang depth x ++ hang depth y := List.flatMap_append

/-- A text on one line stays as it is. -/
theorem hang_of_oneLine (h : '\n' ∉ x) : hang depth x = x := by
  induction x with
  | nil => rfl
  | cons c x ih =>
      rw [List.mem_cons, not_or] at h
      rw [hang, List.flatMap_cons, if_neg (Ne.symm h.1), ← hang, ih h.2]
      rfl

/-- At the top level no line is moved. -/
theorem hang_zero (x : List Char) : hang 0 x = x := by
  have : ∀ c : Char, (if c = '\n' then lineStart .pretty 0 else [c]) = [c] := fun c => by
    split
    · next hc => rw [hc]; rfl
    · rfl
  simp only [hang, this]
  exact List.flatMap_singleton' x

/-- One block deeper, indentation has two more spaces. -/
theorem margin_succ (depth : Nat) :
    margin .pretty (depth + 1) = margin .pretty depth ++ [' ', ' '] := by
  have hm : ∀ n, margin .pretty n = List.replicate (2 * n) ' ' := fun n => by
    simp [margin, Layout.only, indentation]
  rw [hm, hm, Nat.mul_succ, List.replicate_add]
  rfl

/-- A shifted line is one level deeper. -/
theorem hang_line (depth : Nat) (x : List Char) : hang depth ('\n' :: shift x) =
    lineStart .pretty (depth + 1) ++ hang (depth + 1) x := by
  have hstart : lineStart .pretty (depth + 1) = lineStart .pretty depth ++ [' ', ' '] := by
    rw [lineStart, lineStart, margin_succ, List.append_assoc]
  have hlines : hang depth (x.flatMap fun c => if c = '\n' then ['\n', ' ', ' '] else [c]) =
      hang (depth + 1) x := by
    rw [hang, hang, List.flatMap_assoc]
    refine List.flatMap_congr fun c _ => ?_
    by_cases hc : c = '\n'
    · rw [if_pos hc, if_pos hc, hstart]; rfl
    · simp [hc]
  rw [shift, hstart, ← hlines]
  simp [hang]

/-- A block as it stands at a depth: what is in it is one level deeper. -/
theorem hang_blockText (depth : Nat) (header : List Char) (items : List (List Char)) :
    hang depth (blockText header items) = hang depth header ++ Layout.pretty.gap ++
      braced (items.flatMap fun x => lineStart .pretty (depth + 1) ++ hang (depth + 1) x)
        (closing .pretty depth items.isEmpty) := by
  have hitems : hang depth (items.flatMap fun x => '\n' :: shift x) =
      items.flatMap fun x => lineStart .pretty (depth + 1) ++ hang (depth + 1) x := by
    rw [hang, List.flatMap_assoc]
    exact List.flatMap_congr fun x _ => hang_line depth x
  have hopen : hang depth [' ', '\x7b'] = [' ', '\x7b'] := hang_of_oneLine (by decide)
  have hclose : hang depth (if items.isEmpty then ['\x7d'] else ['\n', '\x7d']) =
      closing .pretty depth items.isEmpty ++ ['\x7d'] := by
    cases items.isEmpty with
    | true => exact hang_of_oneLine (by decide)
    | false => simp [hang, closing]
  have hgap : Layout.pretty.gap = [' '] := rfl
  rw [blockText, hang_append, hang_append, hang_append, hopen, hitems, hclose, hgap]
  simp [braced]

/-- Selectors with a line feed behind each comma hang as the writer puts them. -/
theorem hang_selectors {ss : List String} (h : ss.all oneLine = true) :
    hang depth ([',', '\n'].intercalate (ss.map String.toList)) =
      selectorText (lineStart .pretty depth) ss := by
  induction ss with
  | nil => rfl
  | cons s ss ih =>
      rw [List.all_cons, Bool.and_eq_true] at h
      have hs : hang depth s.toList = s.toList := hang_of_oneLine (oneLine_iff.1 h.1)
      cases ss with
      | nil => simpa [selectorText, List.intercalate] using hs
      | cons t ss =>
          have hcomma : hang depth [',', '\n'] = ',' :: lineStart .pretty depth :=
            congrArg (',' :: ·) (List.append_nil _)
          have hrest := ih h.2
          rw [List.map_cons] at hrest
          rw [List.map_cons, List.map_cons, List.intercalate_cons_cons, hang_append, hang_append,
            hs, hcomma, hrest, List.append_assoc]
          rfl

/-- The head of an at-rule is on one line if its name and prelude are. -/
theorem oneLine_atHead {name prelude : String} (hn : oneLine name = true)
    (hp : oneLine prelude = true) : '\n' ∉ atHead name prelude := by
  rw [oneLine_iff] at hn hp
  rw [atHead]
  split <;> simp [hn, hp]

theorem pretty_eq (d : Declaration) : d.pretty = declarationText .pretty d ++ [';'] := by
  have hmark : " !important".toList = ' ' :: Declaration.importantMark := rfl
  have hgap : Layout.pretty.gap = [' '] := rfl
  rw [Declaration.pretty, declarationText, Declaration.written, hmark, hgap]
  simp

theorem oneLine_pretty {d : Declaration} (h : d.oneLine = true) : '\n' ∉ d.pretty := by
  rw [Declaration.oneLine, Bool.and_eq_true, oneLine_iff, oneLine_iff] at h
  obtain ⟨hn, hv⟩ := h
  have hmark : '\n' ∉ " !important".toList := by decide +kernel
  rw [Declaration.pretty]
  generalize " !important".toList = mark at hmark
  cases d.important <;> simp [hn, hv, hmark]

end Hang

/-! ### Rules in the pretty layout -/

/-- Each item on lines of its own. -/
theorem Writes.line {depth : Nat} {f g : Writer → Writer} {x : List Char} {xs : List (List Char)}
    (hf : Writes .pretty depth f (margin .pretty depth ++ hang depth x))
    (hg : Writes .pretty depth g (xs.flatMap fun x => lineStart .pretty depth ++ hang depth x)) :
    Writes .pretty depth (g ∘ f ∘ newline)
      ((x :: xs).flatMap fun x => lineStart .pretty depth ++ hang depth x) := by
  have := (writes_newline.comp hf).comp hg
  rwa [← List.append_assoc, ← lineStart] at this

/-- A declaration is its pretty text, on one line. -/
theorem writes_declaration_pretty {depth : Nat} {d : Declaration} (h : d.oneLine = true) :
    Writes .pretty depth (declaration · d) (margin .pretty depth ++ hang depth d.pretty) := by
  rw [hang_of_oneLine (oneLine_pretty h), pretty_eq]
  exact writes_declaration d

/-- Declarations are their pretty texts, each on a line of its own. -/
theorem writes_declarations_pretty {depth : Nat} {ds : List Declaration}
    (h : ds.all Declaration.oneLine = true) : Writes .pretty depth (declarations · ds)
      ((ds.map Declaration.pretty).flatMap fun x => lineStart .pretty depth ++ hang depth x) := by
  induction ds with
  | nil => exact writes_nil
  | cons d ds ih =>
      rw [List.all_cons, Bool.and_eq_true] at h
      exact (writes_declaration_pretty h.1).line (ih h.2)

/-- A block whose items are written at one level deeper. -/
theorem Writes.block_pretty {depth : Nat} {f g : Writer → Writer} {header : List Char}
    {items : List (List Char)} {empty : Bool} (hf : Writes .pretty depth f (hang depth header))
    (hg : Writes .pretty (depth + 1) g
      (items.flatMap fun x => lineStart .pretty (depth + 1) ++ hang (depth + 1) x))
    (he : items.isEmpty = empty) :
    Writes .pretty depth (fun w => (g (f w.indent).openBlock).closeBlock empty)
      (margin .pretty depth ++ hang depth (blockText header items)) := by
  subst he
  rw [hang_blockText]
  exact hf.block hg _

/-- The head of an at-rule is its pretty text. -/
theorem writes_atKeyword_pretty {depth : Nat} {name prelude : String}
    (hn : oneLine name = true) (hp : oneLine prelude = true) :
    Writes .pretty depth (atKeyword · name prelude)
      (hang depth (atHead name prelude)) := by
  rw [hang_of_oneLine (oneLine_atHead hn hp)]
  exact writes_atKeyword name prelude

mutual

/-- A rule of one-line texts appends its pretty text, hung at the depth. -/
theorem writes_rule_pretty : ∀ (depth : Nat) (r : Rule), r.oneLine = true →
    Writes .pretty depth (rule · r) (margin .pretty depth ++ hang depth r.pretty)
  | depth, .style ss ds, h => by
      obtain ⟨hs, hd⟩ := Bool.and_eq_true_iff.1 h
      have hhead : Writes .pretty depth (selectors · ss) (selectorText (lineStart .pretty depth) ss) :=
        writes_selectors ss
      rw [← hang_selectors hs] at hhead
      simp only [rule]
      exact hhead.block_pretty (writes_declarations_pretty hd) (by cases ds <;> rfl)
  | depth, .group name prelude rs, h => by
      rw [Rule.oneLine, Bool.and_eq_true, Bool.and_eq_true] at h
      obtain ⟨⟨hn, hp⟩, hrs⟩ := h
      simp only [rule]
      exact (writes_atKeyword_pretty hn hp).block_pretty (writes_rules_pretty (depth + 1) rs hrs)
        (by cases rs <;> rfl)
  | depth, .block name prelude is, h => by
      rw [Rule.oneLine, Bool.and_eq_true, Bool.and_eq_true] at h
      obtain ⟨⟨hn, hp⟩, his⟩ := h
      simp only [rule]
      exact (writes_atKeyword_pretty hn hp).block_pretty (writes_items_pretty (depth + 1) is his)
        (by cases is <;> rfl)
  | depth, .statement name prelude, h => by
      obtain ⟨hn, hp⟩ := Bool.and_eq_true_iff.1 h
      have hend : '\n' ∉ atHead name prelude ++ [';'] := by
        simp [oneLine_atHead hn hp]
      rw [Rule.pretty, hang_of_oneLine hend]
      exact writes_statement name prelude

/-- The rules of a block are their pretty texts, each starting a line. -/
theorem writes_rules_pretty : ∀ (depth : Nat) (rs : List Rule), Rule.oneLineAll rs = true →
    Writes .pretty depth (rules · rs)
      ((Rule.prettyAll rs).flatMap fun x => lineStart .pretty depth ++ hang depth x)
  | _, [], _ => by
      simp only [rules]
      exact writes_nil
  | depth, r :: rs, h => by
      obtain ⟨hr, hrs⟩ := Bool.and_eq_true_iff.1 h
      simp only [rules]
      exact (writes_rule_pretty depth r hr).line (writes_rules_pretty depth rs hrs)

/-- An item of a block is its pretty text. -/
theorem writes_item_pretty : ∀ (depth : Nat) (i : BlockItem), i.oneLine = true →
    Writes .pretty depth (item · i) (margin .pretty depth ++ hang depth i.pretty)
  | depth, .declaration d, h => by
      simp only [item]
      exact writes_declaration_pretty h
  | depth, .rule r, h => by
      simp only [item]
      exact writes_rule_pretty depth r h

theorem writes_items_pretty : ∀ (depth : Nat) (is : List BlockItem), BlockItem.oneLineAll is = true →
    Writes .pretty depth (items · is)
      ((BlockItem.prettyAll is).flatMap fun x => lineStart .pretty depth ++ hang depth x)
  | _, [], _ => by
      simp only [items]
      exact writes_nil
  | depth, i :: is, h => by
      obtain ⟨hi, his⟩ := Bool.and_eq_true_iff.1 h
      simp only [items]
      exact (writes_item_pretty depth i hi).line (writes_items_pretty depth is his)

end

end Writer

/-- **Indentation needs no depth.**  A rule of one-line texts is printed as its pretty text.  Whatever
the rule, writing it leaves the depth as it was, and in the compressed layout it comes out in any place
as it does by itself. -/
theorem Rule.print_pretty (r : Rule) :
    (r.oneLine = true → r.print .pretty = String.ofList r.pretty) ∧
      ∀ w : Writer, (w.rule r).depth = w.depth ∧
        (w.layout = .compressed → (w.rule r).out = w.out ++ r.print .compressed) := by
  refine ⟨fun h => ?_, fun w => ⟨Writer.depth_rule w r, fun hl => Writer.out_rule_compressed hl r⟩⟩
  have hw : (Writer.start .pretty).rule r =
      (Writer.start .pretty).append (margin .pretty 0 ++ Writer.hang 0 r.pretty) :=
    Writer.writes_rule_pretty 0 r h _ ⟨rfl, fun _ => rfl⟩
  rw [Rule.print, hw, Writer.hang_zero]
  exact String.empty_append

/-- Three blocks deep, with two selectors, a mark of importance and an empty block. -/
theorem Rule.print_pretty_nested :
    (Rule.group "media" "x" [.style [".a", ".b"] [⟨"c", "d", true⟩], .block "page" "" [
      .rule (.style ["e"] []), .declaration ⟨"f", "g", false⟩]]).oneLine = true ∧
    (Rule.group "media" "x" [.style [".a", ".b"] [⟨"c", "d", true⟩], .block "page" "" [
      .rule (.style ["e"] []), .declaration ⟨"f", "g", false⟩]]).print .pretty =
      "@media x \x7b\n  .a,\n  .b \x7b\n    c: d !important;\n  \x7d\n" ++
        "  @page \x7b\n    e \x7b\x7d\n    f: g;\n  \x7d\n\x7d" := by
  have h : (Rule.group "media" "x" [.style [".a", ".b"] [⟨"c", "d", true⟩], .block "page" "" [
      .rule (.style ["e"] []), .declaration ⟨"f", "g", false⟩]]).oneLine = true := by
    decide +kernel
  exact ⟨h, ((Rule.print_pretty _).1 h).trans (by decide +kernel)⟩

end CssPrune
