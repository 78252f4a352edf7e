import CssPrune.Proofs.Output
import CssPrune.Proofs.Readings

/-!
# Filtering the output again

The output of a filter is put together from pieces: rules as they are printed, and texts that were given
up.  Each piece but the last one is read as what it is, whatever follows, if its rule is settled or its
text ends with a mark of its own (`Taken.yields`); the last text has nothing behind it
(`Taken.comes`).  So the pieces are read one by one (`Pieces.comes`).

`Filter.apply_again`: a filter over the output of a filter keeps the same candidates for the same
document, and its output is the same.
-/

namespace CssPrune

open Component (Spells blanks)
open Grammar

/-! ### What a statement begins and ends with -/

/-- The statement is ended by a semicolon, or by a bracket that closes its block. -/
def Ending.isClosed : Ending → Bool
  | .block _ _ closer => closer.isSome
  | .semicolon => true
  | .missing => false

/-- Only white space begins with a blank. -/
theorem Token.not_isSpace_of_begins {c : Char} {t : Token} (h : Begins c t) (ht : t.isBlank = false) :
    isSpace c = false := by
  cases t with
  | space s => cases ht
  | semicolon => rw [show c = ';' from h]; rfl
  | closeCurly => rw [show c = '\x7d' from h]; rfl
  | atKeyword n => rw [show c = '@' from h]; rfl
  | _ => exact h

namespace Statement

variable {s : Statement}

/-- The lexemes of a statement by itself are those of its components. -/
theorem Taken.scan_text (h : s.Taken) :
    Lexeme.scan s.text = Component.lexemesOf s.components := by
  rw [← h.ofText_text, Component.ofText, Component.lexemesOf_gather]

/-- A statement begins with a character that is no blank. -/
theorem Taken.exists_cons (h : s.Taken) : ∃ c, s.text.head? = some c ∧ Token.isSpace c = false := by
  obtain ⟨pos, hpos⟩ := h.statements 0 [] fun _ => rfl
  obtain ⟨whole, b, rest, hst, hc⟩ := h
  obtain ⟨c, cs, hcs, hskip⟩ := hc.skips
  cases hcomp : s.components with
  | nil =>
      rw [List.append_nil, hcomp, statements_nil] at hpos
      cases hpos
  | cons d ds =>
      rw [hcomp] at hcs
      obtain rfl := (List.cons.inj hcs).1
      have hf := hst.faithful.left
      rw [hcomp] at hf
      obtain ⟨e, u, hu, hb⟩ := hf.begins
      refine ⟨e, by rw [text, hcomp, hu]; rfl, Token.not_isSpace_of_begins hb ?_⟩
      have : (d.isBlank || _ || _) = false := hskip
      rw [Bool.or_eq_false_iff, Bool.or_eq_false_iff] at this
      exact this.1.1

/-- The components of a statement that is closed fit outside of brackets. -/
theorem Taken.fitAll_of_isClosed (h : s.Taken) (he : s.ending.isClosed = true) :
    Component.fitAll none s.components = true := by
  obtain ⟨text, b, rest, hst, hc⟩ := h
  have hg := hst.gathered.of_append
  cases hend : s.ending with
  | missing => rw [hend] at he; cases he
  | semicolon =>
      rw [components, hend] at hg ⊢
      exact hg.none.fitAll_of_leaf
  | block x body y =>
      rw [hend] at he
      obtain ⟨z, hz⟩ := Option.isSome_iff_exists.1 he
      have hcomp : s.components = s.head ++ [.block x body y] := by rw [components, hend]; rfl
      rw [hcomp] at hg ⊢
      obtain ⟨-, hy⟩ := hg.none.last_block
      exact hy.resolve_left (by rw [hz]; exact Option.some_ne_none z)

/-- A statement that ends with a mark of its own comes to its components whatever follows. -/
theorem Taken.spells (h : s.Taken) (he : s.ending.isClosed = true) :
    Spells none s.text s.components := by
  have hfit := h.fitAll_of_isClosed he
  have hscan := h.scan_text
  have hne : s.ending ≠ .missing := by rintro e; rw [e] at he; cases he
  obtain ⟨xs, f, hf, hxs⟩ : ∃ xs f, Token.standsAlone f = true ∧
      Component.lexemesOf s.components = xs ++ [Lexeme.mark f] := by
    obtain ⟨text, b, rest, hst, hc⟩ := h
    exact exists_mark hst.faithful.left hc hfit hne
  have htext : s.text = Lexeme.textOf xs ++ [f] := by
    rw [text, ← Component.textOf_lexemesOf, hxs, Lexeme.textOf_append]
    rfl
  intro level us r hu
  have happend := Lexeme.scan_append hf (by rw [← htext, hscan, hxs]) r
  have hall : Lexeme.scan (s.text ++ r) = Component.lexemesOf s.components ++ Lexeme.scan r := by
    rw [htext, List.append_assoc, List.singleton_append, happend, hxs, List.append_assoc]
    rfl
  rw [hall, Component.gatherFrom_lexemesOf level us _ _ (hu ▸ hfit)]

/-- What is given up and ends with a mark of its own is given up whatever follows. -/
theorem Taken.yields (h : s.Taken) (hg : s.GivenUp) (he : s.ending.isClosed = true) :
    Yields rules reading none s.text (.ofLost s.text) := by
  intro t ht
  refine ⟨blanks t ++ s.components, (h.spells he).blanks ht h.exists_cons, ?_⟩
  refine (Reads.blanks skipsBlanks_rules t).append fun pos more => ?_
  obtain ⟨pos', hpos⟩ := h.statements pos more fun e => by rw [e] at he; cases he
  exact ⟨[_], pos', hpos, congrArg (fun a => [a]) (hg.shift pos).reading⟩

end Statement

/-! ### Pieces -/

/-- What is given up is given up when nothing follows. -/
theorem Statement.Taken.comes {t : Statement} (h : t.Taken) (hg : t.GivenUp) {s : List Char}
    (hs : s.all Token.isSpace = true) : Comes (s ++ t.text) [.ofLost t.text] := by
  intro pos
  have hhead : t.text.head?.all (fun c => !Token.isSpace c) = true := by
    obtain ⟨c, hc, hn⟩ := h.exists_cons
    rw [hc, Option.all_some, hn]
    rfl
  rw [Component.ofText_blanks hs hhead, h.ofText_text]
  obtain ⟨ss, pos', hss, hmap⟩ : ∃ ss pos', rules.statements pos (blanks s ++ t.components) =
      ss ++ rules.statements pos' t.components ∧ ss.map Statement.reading = [] :=
    Reads.blanks skipsBlanks_rules s pos t.components
  obtain ⟨pos'', hpos⟩ := h.statements pos' [] fun _ => rfl
  rw [List.append_nil, statements_nil] at hpos
  rw [hss, List.map_append, hmap, hpos]
  exact congrArg (fun a => [a]) (hg.shift pos').reading

/-- Each piece comes to its reading: the last one when nothing follows, the others whatever does. -/
inductive Pieces : List String → List Reading → Prop
  | nil : Pieces [] []
  | last {t : String} {a : Reading}
      (h : ∀ s : List Char, s.all Token.isSpace = true → Comes (s ++ t.toList) [a]) : Pieces [t] [a]
  | cons {t : String} {ts : List String} {a : Reading} {as : List Reading}
      (h : Yields rules Statement.reading none t.toList a) (hs : Pieces ts as) :
      Pieces (t :: ts) (a :: as)

/-- Pieces with blanks between them come to their readings. -/
theorem Pieces.comes {sep : String} (hsep : sep.toList.all Token.isSpace = true) {t : String}
    {ts : List String} {as : List Reading} (h : Pieces (t :: ts) as) {s : List Char}
    (hs : s.all Token.isSpace = true) :
    Comes (s ++ t.toList ++ ts.flatMap fun t => sep.toList ++ t.toList) as := by
  induction ts generalizing t as s with
  | nil =>
      rw [List.flatMap_nil]
      cases h with
      | last h => rw [List.append_nil]; exact h s hs
      | cons h hs' => cases hs'; exact .append h hs comes_nil
  | cons u ts ih =>
      cases h with
      | cons h hts =>
          rw [List.flatMap_cons]
          exact .append h hs (ih hts hsep)

/-- Pieces with a separator in front of each come to their readings. -/
theorem Pieces.comes_behind {sep : String} (hsep : sep.toList.all Token.isSpace = true)
    {ts : List String} {as : List Reading} (h : Pieces ts as) :
    Comes (ts.flatMap fun t => sep.toList ++ t.toList) as := by
  cases ts with
  | nil => cases h; exact comes_nil
  | cons t ts => exact h.comes hsep hsep

/-- Rules in front of other pieces. -/
theorem Pieces.rules_append {l : Layout} {rs : List Rule} {ts : List String} {as : List Reading}
    (hn : Rule.NormalAll .sheet rs) (hs : Rule.settledAll l .sheet rs = true) (h : Pieces ts as) :
    Pieces (rs.map (Rule.print l) ++ ts) (rs.map Reading.ofRule ++ as) := by
  induction rs with
  | nil => exact h
  | cons r rs ih =>
      rw [Rule.settledAll, Bool.and_eq_true] at hs
      refine .cons ?_ (ih hn.2 hs.2)
      exact (yields_print hn.1 hs.1).imp fun s r => Statement.reading_of_fine

/-! ### Fragments -/

/-- A text that is given up in a sheet, and no blank one. -/
def IsFragment (f : String) : Prop :=
  ∃ t : Statement, t.Taken ∧ t.GivenUp ∧ sourceOf t.text = some f

/-- A text that is reported is reported again as it is. -/
theorem toList_of_sourceOf {x : List Char} {f : String} (h : sourceOf x = some f) :
    f.toList = x ∧ sourceOf f.toList = some f := by
  obtain ⟨rfl, -⟩ := eq_of_sourceOf h
  exact ⟨String.toList_ofList, by rw [String.toList_ofList, h]⟩

/-- The statements of a sheet are taken out of it. -/
theorem Stylesheet.Consists.taken {css : String} {rs : List Rule} {ss : List Statement}
    (h : Consists css rs ss) : ∀ s ∈ ss, s.Taken := by
  obtain ⟨as, cs, hcs, rfl⟩ := h.behind
  have hst := Component.stands_ofText css.toList
  rw [hcs] at hst
  exact fun s hs => Statement.taken_of_mem hst.right (Grammar.mem_of_mem_ruleStatements hs)

/-- The fragments of a sheet are texts that were given up in it. -/
theorem isFragment_of_mem {css f : String}
    (h : f ∈ Candidate.fragments (Stylesheet.parse css).errors) : IsFragment f := by
  obtain ⟨rs, ss, hc⟩ := Stylesheet.exists_consists css
  rw [hc.fragments_eq] at h
  obtain ⟨t, ht, hf⟩ := List.mem_filterMap.1 h
  obtain ⟨s, hs, hts⟩ := List.mem_flatMap.1 ht
  obtain ⟨htaken, hg⟩ := Statement.Taken.faulty s (hc.taken s hs) t hts
  exact ⟨t, htaken, hg, hf⟩

namespace Filter

/-- Read alone, the fragment ends with a semicolon or a closing bracket of its own. -/
def endsItself (f : String) : Bool :=
  (rules.statements 0 (Component.ofText f.toList)).getLast?.any fun s => s.ending.isClosed

/-- A fragment ends itself just when its statement is closed. -/
theorem endsItself_eq {t : Statement} (h : t.Taken) {f : String} (hf : f.toList = t.text) :
    endsItself f = t.ending.isClosed := by
  obtain ⟨pos, hpos⟩ := h.statements 0 [] fun _ => rfl
  rw [List.append_nil, statements_nil] at hpos
  rw [endsItself, hf, h.ofText_text, hpos]
  rfl

end Filter

/-- What a fragment comes to. -/
def Reading.ofFragment (f : String) : Reading := .ofLost f.toList

theorem IsFragment.yields {f : String} (h : IsFragment f) (he : Filter.endsItself f = true) :
    Yields rules Statement.reading none f.toList (Reading.ofFragment f) := by
  obtain ⟨t, ht, hg, hs⟩ := h
  obtain ⟨htext, -⟩ := toList_of_sourceOf hs
  rw [Filter.endsItself_eq ht htext] at he
  rw [Reading.ofFragment, htext]
  exact ht.yields hg he

/-- Fragments that end themselves, in front of other pieces. -/
theorem Pieces.fragments_append {fs ts : List String} {as : List Reading}
    (hf : ∀ f ∈ fs, IsFragment f) (he : fs.all Filter.endsItself = true) (h : Pieces ts as) :
    Pieces (fs ++ ts) (fs.map Reading.ofFragment ++ as) := by
  induction fs with
  | nil => exact h
  | cons f fs ih =>
      rw [List.all_cons, Bool.and_eq_true] at he
      exact .cons ((hf f List.mem_cons_self).yields he.1)
        (ih (fun g hg => hf g (List.mem_cons_of_mem _ hg)) he.2)

/-- Fragments are pieces, if all but the last end themselves. -/
theorem Pieces.fragments {fs : List String} (hf : ∀ f ∈ fs, IsFragment f)
    (he : fs.dropLast.all Filter.endsItself = true) :
    Pieces fs (fs.map Reading.ofFragment) := by
  obtain rfl | ⟨gs, f, rfl⟩ := fs.eq_nil_or_concat'
  · exact .nil
  · obtain ⟨t, ht, hg, hs⟩ := hf f (List.mem_append_right _ List.mem_cons_self)
    obtain ⟨htext, -⟩ := toList_of_sourceOf hs
    have hlast : Pieces [f] [Reading.ofFragment f] := by
      refine .last fun s hs => ?_
      rw [Reading.ofFragment, htext]
      exact ht.comes hg hs
    rw [List.dropLast_concat] at he
    rw [List.map_append]
    exact hlast.fragments_append (fun g hg => hf g (List.mem_append_left _ hg)) he

/-- Pieces with a separator between them come to their readings. -/
theorem Pieces.comes_intercalate {sep : String} (hsep : sep.toList.all Token.isSpace = true)
    {ts : List String} {as : List Reading} (h : Pieces ts as) :
    Comes (sep.intercalate ts).toList as := by
  cases ts with
  | nil => cases h; exact comes_nil
  | cons t ts =>
      rw [toList_intercalate_cons]
      exact h.comes hsep (s := []) rfl

/-! ### Output is read back -/

section Output

variable {rs : List Rule} {fs : List String}

theorem rules_ofRule (rs : List Rule) : (rs.map Reading.ofRule).filterMap Reading.rule? = rs := by
  rw [List.filterMap_map]
  exact List.filterMap_some

theorem rules_ofFragment (fs : List String) :
    (fs.map Reading.ofFragment).filterMap Reading.rule? = [] := by
  rw [List.filterMap_map]
  exact List.filterMap_eq_nil_iff.2 fun f _ => rfl

theorem lost_ofRule (rs : List Rule) : (rs.map Reading.ofRule).flatMap Reading.lost = [] := by
  rw [List.flatMap_map]
  exact List.flatMap_eq_nil_iff.2 fun r _ => rfl

/-- Fragments are given up again. -/
theorem lost_ofFragment (hf : ∀ f ∈ fs, IsFragment f) :
    ((fs.map Reading.ofFragment).flatMap Reading.lost).filterMap sourceOf = fs := by
  have htexts : (fs.map Reading.ofFragment).flatMap Reading.lost = fs.map String.toList := by
    rw [List.flatMap_map, ← List.flatMap_singleton' (fs.map String.toList), List.flatMap_map]
    rfl
  rw [htexts, List.filterMap_map]
  refine (List.filterMap_congr fun f hfm => ?_).trans List.filterMap_some
  obtain ⟨t, -, -, hs⟩ := hf f hfm
  exact (toList_of_sourceOf hs).2

/-- What rules and fragments behind them come to. -/
def outputReadings (rs : List Rule) (fs : List String) : List Reading :=
  rs.map Reading.ofRule ++ fs.map Reading.ofFragment

theorem rules_outputReadings (rs : List Rule) (fs : List String) :
    (outputReadings rs fs).filterMap Reading.rule? = rs := by
  rw [outputReadings, List.filterMap_append, rules_ofRule, rules_ofFragment, List.append_nil]

theorem lost_outputReadings (rs : List Rule) (hf : ∀ f ∈ fs, IsFragment f) :
    ((outputReadings rs fs).flatMap Reading.lost).filterMap sourceOf = fs := by
  rw [outputReadings, List.flatMap_append, lost_ofRule, List.nil_append, lost_ofFragment hf]

/-- No `@charset` leads the output, if none leads the rules. -/
theorem not_isCharset_outputReadings (fs : List String)
    (hc : rs.head?.any Rule.isCharset = false) :
    (outputReadings rs fs).head?.any Reading.isCharset = false := by
  cases rs with
  | nil => cases fs <;> rfl
  | cons r rs => exact hc

/-- The rules and fragments that a text is made of are those that it is read as. -/
theorem parse_output {l : Layout} (hn : Rule.NormalAll .sheet rs) (hs : settledSheet l rs = true)
    (hf : ∀ f ∈ fs, IsFragment f) (he : fs.dropLast.all Filter.endsItself = true) :
    (Stylesheet.parse ((l.only "\n").intercalate (rs.map (Rule.print l) ++ fs))).rules = rs ∧
      Candidate.fragments
        (Stylesheet.parse ((l.only "\n").intercalate (rs.map (Rule.print l) ++ fs))).errors = fs := by
  have hsep : (l.only "\n").toList.all Token.isSpace = true := by cases l <;> rfl
  generalize l.only "\n" = sep at hsep
  have hpieces := Pieces.fragments hf he
  obtain ⟨prelude, rest, rfl, hpre, hc, hrest⟩ | ⟨hc, hall⟩ := settledSheet_cases hs
  -- the rules behind a `@charset` are read as the ones of a sheet of their own
  · have hcomes := (hpieces.rules_append hn.2 hrest).comes_behind hsep
    obtain ⟨s, hlead, hprelude⟩ := leadingCharset_atHead hn.1.2.2 hpre
      ((rest.map (Rule.print l) ++ fs).flatMap fun t => sep.toList ++ t.toList)
    have htext : (sep.intercalate
        ((.statement "charset" prelude :: rest).map (Rule.print l) ++ fs)).toList =
        atHead "charset" prelude ++ ';' ::
          (rest.map (Rule.print l) ++ fs).flatMap fun t => sep.toList ++ t.toList := by
      rw [List.map_cons, List.cons_append, toList_intercalate_cons, print_statement]
      simp
    rw [← htext] at hlead
    have hcons := Stylesheet.consists_of_charset hlead
    have has := ruleStatements_of_map (hcomes s.stop) (not_isCharset_outputReadings fs hc)
    rw [hcons.rules_of_readings has, hcons.fragments_of_readings has, hprelude]
    exact ⟨congrArg (_ :: ·) (rules_outputReadings rest fs), lost_outputReadings rest hf⟩
  · have hcomes := (hpieces.rules_append hn hall).comes_intercalate hsep
    obtain ⟨ss, hcons, has⟩ := hcomes.consists (not_isCharset_outputReadings fs hc)
    rw [hcons.rules_of_readings has, hcons.fragments_of_readings has]
    exact ⟨rules_outputReadings rs fs, lost_outputReadings rs hf⟩

end Output

/-! ### The same candidates -/

/-- Errors that come in order need not be sorted. -/
theorem Stylesheet.parse_of_sorted (css : String)
    (h : ((Progress.read css.toList (Component.ofText css.toList)).inner ++
      (Progress.read css.toList (Component.ofText css.toList)).outer).Pairwise
        fun a b => a.before b = true) :
    parse css =
      ⟨(Progress.read css.toList (Component.ofText css.toList)).rules,
        (Progress.read css.toList (Component.ofText css.toList)).inner ++
          (Progress.read css.toList (Component.ofText css.toList)).outer,
        (Progress.read css.toList (Component.ofText css.toList)).dropped⟩ := by
  rw [parse, Progress.sheet, List.mergeSort_of_pairwise h]

namespace Filter

/-- Fragments that stand in the order of the output are put out in this order. -/
theorem fragments_fragments {es ds : List SyntaxError}
    (h : Candidate.fragments ds = Candidate.closedFragments es ++ Candidate.openFragments es) :
    Candidate.closedFragments ds ++ Candidate.openFragments ds =
      Candidate.closedFragments es ++ Candidate.openFragments es := by
  simp [Candidate.closedFragments, Candidate.openFragments, h]

/-- **Filtering again changes nothing.**  When the rules that a document keeps are settled, and every
fragment but the last one in the output ends with a mark of its own, a filter over the output keeps the
same rules and fragments for this document, and puts out the same text. -/
theorem apply_again (o : Options) (css document : String)
    (hrules : settledSheet o.layout
      ((Stylesheet.parse css).rules.filter (keepsRule o document)) = true)
    (hfragments : (fragments (Stylesheet.parse css)).dropLast.all endsItself = true) :
    ∃ f g, withOptions o css = .ok f ∧ withOptions o (f.apply document) = .ok g ∧
      g.kept document = f.kept document ∧ g.apply document = f.apply document := by
  have hnormal : Rule.NormalAll .sheet
      ((Stylesheet.parse css).rules.filter (keepsRule o document)) := by
    have := normal_parse css
    rw [normalAll_iff] at this ⊢
    exact fun r hr => this r (List.mem_filter.1 hr).1
  have hfrag : ∀ f ∈ fragments (Stylesheet.parse css), IsFragment f := by
    intro f hf
    have hmem : f ∈ Candidate.fragments (Stylesheet.parse css).errors := by
      rcases List.mem_append.1 hf with hf | hf
      · exact (List.mem_filter.1 hf).1
      · exact (List.mem_filter.1 hf).1
    exact isFragment_of_mem hmem
  obtain ⟨hrs, hfs⟩ := parse_output hnormal hrules hfrag hfragments
  rw [← apply_ofSheet] at hrs hfs
  have hkept : (ofSheet Rule.print o (Stylesheet.parse
      ((ofSheet Rule.print o (Stylesheet.parse css)).apply document))).kept document =
      (ofSheet Rule.print o (Stylesheet.parse css)).kept document := by
    rw [kept_ofSheet, kept_ofSheet, hrs, List.filter_filter, fragments, fragments_fragments hfs]
    simp [fragments]
  have happly : (ofSheet Rule.print o (Stylesheet.parse
      ((ofSheet Rule.print o (Stylesheet.parse css)).apply document))).apply document =
      (ofSheet Rule.print o (Stylesheet.parse css)).apply document := by
    rw [apply, hkept]
    rfl
  exact ⟨_, _, rfl, rfl, hkept, happly⟩

/-- A block without a selector and a selector without a block, behind a rule that is kept. -/
theorem apply_again_malformed :
    settledSheet (Options.default).layout
      ((Stylesheet.parse ".a\x7bb:c\x7d\x7bd:e\x7d.x").rules.filter
        (keepsRule .default "<p class=a>")) = true ∧
    (fragments (Stylesheet.parse ".a\x7bb:c\x7d\x7bd:e\x7d.x")).dropLast.all endsItself = true ∧
    ∃ f g, withOptions .default ".a\x7bb:c\x7d\x7bd:e\x7d.x" = .ok f ∧
      withOptions .default (f.apply "<p class=a>") = .ok g ∧
      g.kept "<p class=a>" = f.kept "<p class=a>" ∧
      g.apply "<p class=a>" = f.apply "<p class=a>" := by
  have hparse := Stylesheet.parse_of_sorted ".a\x7bb:c\x7d\x7bd:e\x7d.x" (by decide +kernel)
  have hrules : settledSheet (Options.default).layout
      ((Stylesheet.parse ".a\x7bb:c\x7d\x7bd:e\x7d.x").rules.filter
        (keepsRule .default "<p class=a>")) = true := by decide +kernel
  have hfragments : (fragments (Stylesheet.parse ".a\x7bb:c\x7d\x7bd:e\x7d.x")).dropLast.all
      endsItself = true := by
    rw [hparse]
    decide +kernel
  exact ⟨hrules, hfragments, apply_again _ _ _ hrules hfragments⟩

/-- A string that the end of the text closes takes in the marks that are written behind it, once more
each time; and of two fragments that nothing ends, the second becomes the block of the first. -/
theorem apply_again_open :
    (∃ f g, withOptions .default ".a\x7bb:\"x" = .ok f ∧
      withOptions .default (f.apply "<p class=a>") = .ok g ∧
      g.apply "<p class=a>" ≠ f.apply "<p class=a>") ∧
    ∃ f g, withOptions .default "@media a\x7b.x\x7d\x7ba:b" = .ok f ∧
      withOptions .default (f.apply "<p class=a>") = .ok g ∧
      g.apply "<p class=a>" ≠ f.apply "<p class=a>" := by
  refine ⟨⟨_, _, rfl, rfl, by decide +kernel⟩, ⟨_, _, rfl, rfl, ?_⟩⟩
  have hparse := Stylesheet.parse_of_sorted "@media a\x7b.x\x7d\x7ba:b" (by decide +kernel)
  have hfirst : (ofSheet Rule.print .default
      (Stylesheet.parse "@media a\x7b.x\x7d\x7ba:b")).apply "<p class=a>" =
        "@media a\x7b\x7d.x\x7ba:b" := by
    rw [hparse]
    decide +kernel
  show (ofSheet Rule.print .default (Stylesheet.parse ((ofSheet Rule.print .default
    (Stylesheet.parse "@media a\x7b.x\x7d\x7ba:b")).apply _))).apply _ ≠ (ofSheet Rule.print .default
    (Stylesheet.parse "@media a\x7b.x\x7d\x7ba:b")).apply _
  rw [hfirst]
  decide +kernel

end Filter

end CssPrune
