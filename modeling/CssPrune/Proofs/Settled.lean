import CssPrune.Proofs.SelectorList

/-!
# Settled rules

A rule is *normal* when it is of the form in which rules are kept: its texts are squeezed, and its
kind fits its name and its place.  It is *settled* when its texts also stand on their own as the
writer puts them: each name is spelled as itself, each raw text reaches the mark behind it, no
selector passes for anything else, and no list of rules in a block begins with a `@charset`.

For each kind of rule, `yields_…` says that the text of a settled rule, put together from those of
its parts, comes to the rule.
-/

namespace CssPrune

open Component (Spells UpTo reach? leading settledSelectors selectorText keywordLeaf nameLeaf)
open Grammar

/-! ### Normal rules -/

/-- Where a rule stands: at top level, in the block of a group, or in the block of another
at-rule. -/
inductive Place where
  | sheet
  | group
  | block
deriving DecidableEq

/-- A raw text as it is kept. -/
def NormalText (s : String) : Prop := Text.normalize s.toList = s.toList

/-- Name and value are in the form in which declarations are kept. -/
structure Declaration.Normal (d : Declaration) : Prop where
  name : normalName d.name = d.name
  value : NormalValue d.value.toList

mutual

/-- The rule is in the form in which rules are kept in this place. -/
def Rule.Normal (p : Place) : Rule → Prop
  | .style selectors ds =>
    (p ≠ .block → selectors ≠ []) ∧ (∀ s ∈ selectors, NormalSelector s) ∧
      ∀ d ∈ ds, Declaration.Normal d
  | .group name prelude rs =>
    p ≠ .block ∧ name ∈ Rule.groupNames ∧ NormalText prelude ∧ Rule.NormalAll .group rs
  | .block name prelude is =>
    (p ≠ .block → name ∉ Rule.groupNames) ∧ Text.lower name = name ∧ NormalText prelude ∧
      BlockItem.NormalAll is
  | .statement name prelude =>
    (p ≠ .block → name ∈ Rule.groupNames → name = "layer") ∧ Text.lower name = name ∧
      NormalText prelude

def Rule.NormalAll (p : Place) : List Rule → Prop
  | [] => True
  | r :: rs => r.Normal p ∧ Rule.NormalAll p rs

def BlockItem.Normal : BlockItem → Prop
  | .declaration d => d.Normal
  | .rule r => r.Normal .block

def BlockItem.NormalAll : List BlockItem → Prop
  | [] => True
  | i :: is => i.Normal ∧ BlockItem.NormalAll is

end

/-! ### Settled rules -/

namespace Place

/-- The bracket that rules of this place stand in. -/
def bracket : Place → Option Bracket
  | .sheet => none
  | .group | .block => some .curly

/-- What ends a statement that is neither a declaration nor an at-rule. -/
def terminators : Place → Terminators
  | .sheet | .group => ⟨false, true⟩
  | .block => ⟨true, true⟩

/-- The first selector of a style rule is not passed over, is no at-keyword and does not look like a
declaration. -/
def leads (p : Place) (cs : List Component) : Bool :=
  match p with
  | .sheet | .group =>
    cs.head?.any (fun c => !rules.skips c) && !beginsAt cs &&
      !(Statement.looksCustom ⟨0, cs, .missing⟩)
  | .block => cs.head?.any (fun c => !items.skips c) && !beginsAt cs && !declares cs

end Place

/-- Name and value of a declaration stand on their own. -/
def Declaration.settled (l : Layout) (d : Declaration) : Bool :=
  Token.spelled d.name.toList && (reach? (some .curly) ⟨true, false⟩ ';' (l.gap ++ d.written)).isSome
    && (d.important || !importantMark.isSuffixOf d.value.toList)

/-- Name and prelude of an at-rule stand on their own in front of the mark `f`. -/
def settledPrelude (b : Option Bracket) (t : Terminators) (f : Char) (gap : List Char)
    (name prelude : String) : Bool :=
  Token.spelled name.toList && (reach? b t f (prelude.toList ++ gap)).isSome &&
    Text.normalize (prelude.toList ++ gap) = prelude.toList

mutual

/-- The texts of the rule stand on their own as this layout writes them. -/
def Rule.settled (l : Layout) (p : Place) : Rule → Bool
  | .style selectors ds =>
    (selectors = [] || p.leads (leading l selectors)) &&
      settledSelectors p.bracket p.terminators l selectors && ds.all (Declaration.settled l)
  | .group name prelude rs =>
    settledPrelude p.bracket ⟨true, true⟩ '\x7b' l.gap name prelude &&
      !rs.head?.any Rule.isCharset && Rule.settledAll l .group rs
  | .block name prelude is =>
    settledPrelude p.bracket ⟨true, true⟩ '\x7b' l.gap name prelude && BlockItem.settledAll l is
  | .statement name prelude => settledPrelude p.bracket ⟨true, true⟩ ';' [] name prelude

def Rule.settledAll (l : Layout) (p : Place) : List Rule → Bool
  | [] => true
  | r :: rs => r.settled l p && Rule.settledAll l p rs

def BlockItem.settled (l : Layout) : BlockItem → Bool
  | .declaration d => d.settled l
  | .rule r => r.settled l .block

def BlockItem.settledAll (l : Layout) : List BlockItem → Bool
  | [] => true
  | i :: is => i.settled l && BlockItem.settledAll l is

end

/-- The rules of a sheet.  A `@charset` may come first, but not twice. -/
def settledSheet (l : Layout) : List Rule → Bool
  | .statement name prelude :: rs =>
    (if name = "charset" then
      settledPrelude none ⟨true, false⟩ ';' [] name prelude && !rs.head?.any Rule.isCharset
    else settledPrelude none ⟨true, true⟩ ';' [] name prelude) && Rule.settledAll l .sheet rs
  | rs => !rs.head?.any Rule.isCharset && Rule.settledAll l .sheet rs

/-! ### Heads -/

/-- Whether a list declares is not changed by what stands behind, unless a colon comes first. -/
theorem declares_append {cs ds : List Component} (hne : cs ≠ [])
    (h : ∀ c ∈ (ds.dropWhile Component.isBlank).head?, c.token ≠ .colon) :
    declares (cs ++ ds) = declares cs := by
  cases cs with
  | nil => exact absurd rfl hne
  | cons c cs =>
      have hd : (((cs ++ ds).dropWhile Component.isBlank).head?.map Component.token =
          some .colon) ↔ ((cs.dropWhile Component.isBlank).head?.map Component.token =
          some .colon) := by
        rw [List.dropWhile_append]
        split
        · next he =>
            rw [List.isEmpty_iff.1 he]
            constructor
            · intro hm
              obtain ⟨d, hd, ht⟩ := Option.map_eq_some_iff.1 hm
              exact absurd ht (h d hd)
            · intro hm; cases hm
        · next he =>
            rw [List.head?_append_of_ne_nil _ (fun e => he (List.isEmpty_iff.2 e))]
      simp only [List.cons_append, declares, hd]

/-- What begins a list is not changed by what stands behind. -/
theorem beginsAt_append {cs : List Component} (hne : cs ≠ []) (ds : List Component) :
    beginsAt (cs ++ ds) = beginsAt cs := by
  cases cs with
  | nil => exact absurd rfl hne
  | cons c cs => rfl

/-- What stands behind the first selector of a head is not a colon. -/
def NoColon (more : List Component) : Prop := ∀ c ∈ more.head?, c.token = .comma ∨ c.token = .openCurly

/-- A head declares as its first selector does, if no colon follows. -/
theorem declares_leading {cs more : List Component} (hne : cs ≠ []) (h : NoColon more) :
    declares (cs ++ more) = declares cs := by
  refine declares_append hne fun c hc => ?_
  cases more with
  | nil => cases hc
  | cons d more =>
      have hd : d.isBlank = false := by
        rw [Component.isBlank]
        rcases h d rfl with e | e <;> rw [e] <;> rfl
      rw [List.dropWhile_cons_of_neg (by rw [hd]; exact Bool.false_ne_true)] at hc
      obtain rfl : d = c := Option.some.inj hc
      rcases h d rfl with e | e <;> rw [e] <;> exact fun e => by cases e

/-- Behind the first selector comes the comma of the next one, or the block of the rule. -/
theorem noColon_append {more : List Component} {opener : Lexeme} {body rest : List Component}
    {closer : Option Lexeme} (ho : opener.token = .openCurly)
    (h : ∀ c ∈ more.head?, c.isComma = true) :
    NoColon (more ++ .block opener body closer :: rest) := by
  intro c hc
  cases more with
  | nil => exact .inr (Option.some.inj hc ▸ ho)
  | cons d more => exact .inl (of_decide_eq_true (h c hc))

theorem ne_nil_of_any {cs : List Component} {p : Component → Bool}
    (h : cs.head?.any p = true) : cs ≠ [] := by
  rintro rfl; cases h

/-! ### Blocks -/

/-- A block in curly brackets, `s` being the blanks in front of the one that closes it. -/
def braced (x s : List Char) : List Char := '\x7b' :: (x ++ (s ++ ['\x7d']))

def bracedEnding (cs : List Component) (s : List Char) : Ending :=
  .block (Lexeme.mark '\x7b') (cs ++ Component.blanks s) (some (Lexeme.mark '\x7d'))

/-- A text in curly brackets is one block, around what it comes to under them. -/
theorem spells_braced {b : Option Bracket} {x s : List Char} {cs : List Component}
    (hs : s.all Token.isSpace = true) (h : Spells (some .curly) x cs) :
    Spells b (braced x s) [.block (Lexeme.mark '\x7b') (cs ++ Component.blanks s)
      (some (Lexeme.mark '\x7d'))] :=
  Spells.block hs h

/-- A statement that ends at blocks ends there. -/
theorem ending?_braced {t : Terminators} (ht : t.block = true) (cs : List Component)
    (s : List Char) :
    t.ending? (.block (Lexeme.mark '\x7b') (cs ++ Component.blanks s)
      (some (Lexeme.mark '\x7d'))) = some (bracedEnding cs s) := by
  rw [Terminators.ending?, ht]; rfl

/-- Blanks in front of the closing bracket come to nothing. -/
theorem Grammar.Reads.braced {α : Type} {g : Grammar} {read : Statement → α} {cs : List Component}
    {as : List α} (hg : SkipsBlanks g) (h : Reads g read cs as) (s : List Char) :
    Reads g read (cs ++ Component.blanks s) as := by
  have hblanks : Reads g read (Component.blanks s) [] := Reads.blanks hg s
  have := h.append hblanks
  rwa [List.append_nil] at this

/-! ### Style rules -/

/-- Normal selectors are found again when the segments of the head have their texts. -/
theorem selectors_of_segments {cs : List Component} {ss : List String}
    (hn : ∀ s ∈ ss, NormalSelector s)
    (h : (Component.segments cs).map Text.normalString = ss) : Component.selectors cs = ss := by
  rw [Component.selectors, h, List.filter_eq_self]
  exact fun s hs => decide_eq_true (hn s hs).ne_empty

theorem atName?_of_beginsAt {s : Statement} (h : beginsAt s.head = false) : s.atName? = none :=
  Option.not_isSome_iff_eq_none.1 (Bool.not_eq_true _ ▸ h)

/-- A head looks like a custom property just when its first selector does. -/
theorem looksCustom_leading {s : Statement} {cs more : List Component} (hs : s.head = cs ++ more)
    (hne : cs ≠ []) (hm : declares (cs ++ more) = declares cs) :
    s.looksCustom = Statement.looksCustom ⟨0, cs, .missing⟩ := by
  cases cs with
  | nil => exact absurd rfl hne
  | cons c cs => simp only [Statement.looksCustom, hs, hm]; rfl

/-- A head with selectors in front of a block without faults is a style rule. -/
theorem plainRule_fine {s : Statement} {o : Lexeme} {body : List Component} {c : Option Lexeme}
    {ss : List String} {ds : List Declaration} (hc : s.looksCustom = false)
    (he : s.ending = .block o body c) (hs : Component.selectors s.head = ss) (hne : ss ≠ [])
    (hd : readDeclarations s.bodyStart body = ds.map .ok) :
    s.plainRule = fine (.style ss ds) := by
  rw [Statement.plainRule, if_neg (by rw [hc]; exact Bool.false_ne_true), he]
  simp only
  rw [hs, if_neg hne, hd, styleRule_fine]

/-- Among the items of a block, a head and a block are a style rule even without selectors. -/
theorem plainItem_fine {s : Statement} {o : Lexeme} {body : List Component} {c : Option Lexeme}
    {ss : List String} {ds : List Declaration} (he : s.ending = .block o body c)
    (hs : Component.selectors s.head = ss)
    (hd : readDeclarations s.bodyStart body = ds.map .ok) :
    s.plainItem = fine (.rule (.style ss ds)) := by
  rw [Statement.plainItem, he]
  simp only
  rw [hs, hd, styleRule_fine]
  rfl

section Rules

variable {l : Layout} {p : Place} {sep x s : List Char} {ss : List String} {ds : List Declaration}

/-- A list of selectors and a block behind it. -/
theorem yields_selectors {α : Type} {g : Grammar} {read : Statement → α} {a : α}
    {b : Option Bracket} {t : Terminators} {body : List Component} (hg : SkipsBlanks g)
    (hsep : sep.all Token.isSpace = true) (hs : s.all Token.isSpace = true) (hne : ss ≠ [])
    (hsel : ∀ s ∈ ss, NormalSelector s) (hset : settledSelectors b t l ss = true)
    (hskip : (leading l ss).head?.any (fun c => !g.skips c) = true) (ht : t.block = true)
    (hends : ∀ more, NoColon more → g.ends (leading l ss ++ more) = t)
    (hx : Spells (some .curly) x body)
    (hr : ∀ pos more, NoColon more → Component.selectors (leading l ss ++ more) = ss →
      read ⟨pos, leading l ss ++ more, bracedEnding body s⟩ = a) :
    Yields g read b (selectorText sep ss ++ l.gap ++ braced x s) a := by
  obtain ⟨more, hreached, hmore, hseg⟩ := Component.reached_selectors hsep hne hsel hset
  have hnocolon : NoColon more := fun c hc => .inl (of_decide_eq_true (hmore c hc))
  refine Yields.of_head (t := t) (e := bracedEnding body s) hg ?_ hreached.upTo
    (spells_braced hs hx) ?_ (fun rest => ?_) hreached.goesOn (ending?_braced ht body s)
    fun pos => hr pos more hnocolon (selectors_of_segments hsel (hseg [] rfl))
  -- the text begins with a selector, not with a blank
  · obtain ⟨s₀, ss', rfl⟩ := List.exists_cons_of_ne_nil hne
    rw [List.append_assoc]
    exact Component.head?_selectorText (hsel s₀ List.mem_cons_self) sep ss' _
  · intro d hd
    rw [List.append_assoc, List.head?_append_of_ne_nil _ (ne_nil_of_any hskip)] at hd
    rw [hd] at hskip
    simpa using hskip
  · rw [List.append_assoc]
    exact hends _ (noColon_append rfl hmore)

/-- A style rule in a list of rules. -/
theorem yields_style (hp : p ≠ .block) (hsep : sep.all Token.isSpace = true)
    (hs : s.all Token.isSpace = true) (hn : (Rule.style ss ds).Normal p)
    (h : (Rule.style ss ds).settled l p = true)
    (hx : YieldsAll declarations Statement.declaration (some .curly) x (ds.map .ok)) :
    Yields rules Statement.rule p.bracket (selectorText sep ss ++ l.gap ++ braced x s)
      (fine (.style ss ds)) := by
  obtain ⟨hne, hsel, -⟩ := hn
  have hne := hne hp
  obtain ⟨body, hbody, hreads⟩ := hx
  rw [Rule.settled, Bool.and_eq_true, Bool.and_eq_true] at h
  obtain ⟨⟨hlead, hset⟩, -⟩ := h
  obtain ⟨hskip, hat, hcustom⟩ : (leading l ss).head?.any (fun c => !rules.skips c) = true ∧
      beginsAt (leading l ss) = false ∧
      Statement.looksCustom ⟨0, leading l ss, .missing⟩ = false := by
    have : p.leads (leading l ss) = true := by simpa [hne] using hlead
    cases p with
    | block => exact absurd rfl hp
    | sheet | group => simpa [Place.leads, and_assoc] using this
  have hterm : p.terminators = ⟨false, true⟩ := by
    cases p with
    | block => exact absurd rfl hp
    | sheet | group => rfl
  have hln := ne_nil_of_any hskip
  refine yields_selectors skipsBlanks_rules hsep hs hne hsel hset hskip (by rw [hterm])
    (fun more _ => ?_) hbody fun pos more hmore hss => ?_
  · show (⟨beginsAt _, true⟩ : Terminators) = _
    rw [beginsAt_append hln, hat, hterm]
  · have hplain : Statement.atName? ⟨pos, leading l ss ++ more, bracedEnding body s⟩ = none :=
      atName?_of_beginsAt (by rw [beginsAt_append hln, hat])
    have hlooks := looksCustom_leading
      (s := ⟨pos, leading l ss ++ more, bracedEnding body s⟩) rfl hln (declares_leading hln hmore)
    have hds := readDeclarations_of_reads (hreads.braced skipsBlanks_declarations s)
    rw [Statement.rule_of_plain hplain]
    exact plainRule_fine (hlooks.trans hcustom) rfl hss hne (hds _)

/-- Among the items of a block, a block without selectors begins with its bracket. -/
theorem yields_bare_item (hs : s.all Token.isSpace = true)
    (hx : YieldsAll declarations Statement.declaration (some .curly) x (ds.map .ok)) :
    Yields items Statement.item (some .curly) (l.gap ++ braced x s)
      (fine (.rule (.style [] ds))) := by
  obtain ⟨body, hbody, hreads⟩ := hx
  have hds := readDeclarations_of_reads (hreads.braced skipsBlanks_declarations s)
  refine Yields.behind l.gap_isSpace ?_
  refine Yields.of_head (x := []) (t := ⟨true, true⟩) (e := bracedEnding body s)
    skipsBlanks_items ⟨_, rfl, rfl⟩ .nil (spells_braced hs hbody)
    (fun d hd => Option.some.inj hd ▸ rfl) (fun rest => rfl) (fun _ h => by cases h)
    (ending?_braced rfl body s) fun pos => ?_
  have hplain : Statement.atName? ⟨pos, [], bracedEnding body s⟩ = none := rfl
  rw [Statement.item, hplain]
  exact plainItem_fine rfl rfl (hds _)

/-- A style rule among the items of a block. -/
theorem yields_style_item (hsep : sep.all Token.isSpace = true) (hs : s.all Token.isSpace = true)
    (hn : (Rule.style ss ds).Normal .block) (h : (Rule.style ss ds).settled l .block = true)
    (hx : YieldsAll declarations Statement.declaration (some .curly) x (ds.map .ok)) :
    Yields items Statement.item (some .curly) (selectorText sep ss ++ l.gap ++ braced x s)
      (fine (.rule (.style ss ds))) := by
  by_cases hne : ss = []
  · subst hne
    exact yields_bare_item hs hx
  obtain ⟨-, hsel, -⟩ := hn
  obtain ⟨body, hbody, hreads⟩ := hx
  rw [Rule.settled, Bool.and_eq_true, Bool.and_eq_true] at h
  obtain ⟨⟨hlead, hset⟩, -⟩ := h
  have hds := readDeclarations_of_reads (hreads.braced skipsBlanks_declarations s)
  obtain ⟨hskip, hat, hdecl⟩ : (leading l ss).head?.any (fun c => !items.skips c) = true ∧
      beginsAt (leading l ss) = false ∧ declares (leading l ss) = false := by
    have : Place.leads .block (leading l ss) = true := by simpa [hne] using hlead
    simpa [Place.leads, and_assoc] using this
  have hln := ne_nil_of_any hskip
  refine yields_selectors skipsBlanks_items hsep hs hne hsel hset hskip rfl
    (fun more hmore => ?_) hbody fun pos more _ hss => ?_
  · show (⟨true, !declares _⟩ : Terminators) = _
    rw [declares_leading hln hmore, hdecl]
    rfl
  · have hplain : Statement.atName? ⟨pos, leading l ss ++ more, bracedEnding body s⟩ = none :=
      atName?_of_beginsAt (by rw [beginsAt_append hln, hat])
    rw [Statement.item, hplain]
    exact plainItem_fine rfl hss (hds _)

end Rules

/-! ### At-rules -/

/-- Among items, an at-rule with a block is read as a block of items, whatever its name. -/
theorem Statement.item_of_block {s : Statement} {name : String} {o : Lexeme}
    {body : List Component} {c : Option Lexeme} (hn : s.atName? = some name)
    (he : s.ending = .block o body c) :
    s.item = (blockRule (Text.lower name) s.prelude (readItems s.bodyStart body)).map .rule := by
  rw [Statement.item, hn]
  simp only
  split
  · next heq => rw [he] at heq; cases heq; rfl
  · next heq => rw [he] at heq; cases heq
  · next heq => rw [he] at heq; cases heq

/-- Among items, an at-rule that ends at a semicolon is read without a fault, whatever its name. -/
theorem Statement.item_of_semicolon {s : Statement} {name : String} (hn : s.atName? = some name)
    (he : s.ending = .semicolon) : s.item = fine (.rule (.statement (Text.lower name) s.prelude)) := by
  rw [Statement.item, hn]
  simp only
  split
  · next heq => rw [he] at heq; cases heq
  · rfl
  · rfl

/-- Keyword and prelude of an at-rule as they are written. -/
def atHead (name prelude : String) : List Char :=
  '@' :: name.toList ++ if prelude = "" then [] else ' ' :: prelude.toList

/-- What keyword and prelude are read as. -/
structure AtHead (b : Option Bracket) (t : Terminators) (f : Char) (name prelude : String)
    (x : List Char) (cs : List Component) : Prop where
  upTo : UpTo b f x (keywordLeaf name.toList :: cs)
  goesOn : ∀ c ∈ keywordLeaf name.toList :: cs, t.ending? c = none
  prelude : Text.normalString (Component.textOf cs) = prelude

theorem ending?_keyword (t : Terminators) (n : List Char) : t.ending? (keywordLeaf n) = none := by
  simp [keywordLeaf, Terminators.ending?]

/-- A settled head of an at-rule is read as its keyword and its prelude. -/
theorem atHead_of_settled {b : Option Bracket} {t : Terminators} {f : Char} {gap : List Char}
    {name prelude : String} (hf : f = '\x7b' ∨ f = ';') (hgap : gap = [] ∨ gap = [' '])
    (hn : NormalText prelude) (h : settledPrelude b t f gap name prelude = true) :
    ∃ cs, AtHead b t f name prelude (atHead name prelude ++ gap) cs := by
  rw [settledPrelude, Bool.and_eq_true, Bool.and_eq_true] at h
  obtain ⟨⟨hname, hreach⟩, hnorm⟩ := h
  obtain ⟨cs, hcs⟩ := Option.isSome_iff_exists.1 hreach
  have hmark : Token.standsAlone f = true := by rcases hf with rfl | rfl <;> rfl
  have hr := Component.reached_of_reach? hmark hcs
  have hnorm := of_decide_eq_true hnorm
  by_cases he : prelude = ""
  -- nothing is written between the keyword and the gap
  · subst he
    have hends : (gap ++ [f]).head?.all Token.endsName = true := by
      rcases hgap with rfl | rfl <;> rcases hf with rfl | rfl <;> rfl
    refine ⟨cs, ?_, ?_, ?_⟩
    · have := Component.upTo_keyword hname hends hr.upTo
      rwa [atHead, if_pos rfl, List.append_nil]
    · exact List.forall_mem_cons.2 ⟨ending?_keyword t _, hr.goesOn⟩
    · rw [hr.text, Text.normalString, hnorm, String.ofList_toList]
  -- a blank parts the keyword from the prelude
  · obtain ⟨c, x, hx⟩ : ∃ c x, prelude.toList = c :: x :=
      List.exists_cons_of_ne_nil fun e => he (String.ext_iff.2 e)
    have hspace : Token.isSpace c = false := Text.not_isSpace_head hn c (by rw [hx]; rfl)
    have hu := hr.upTo.blanks (s := [' ']) rfl ⟨c, by rw [hx]; rfl, hspace⟩
    refine ⟨Component.blanks [' '] ++ cs, ?_, ?_, ?_⟩
    · have := Component.upTo_keyword (y := [' '] ++ (prelude.toList ++ gap)) hname rfl hu
      rw [atHead, if_neg he, List.append_assoc]
      exact this
    · refine List.forall_mem_cons.2 ⟨ending?_keyword t _, fun c hc => ?_⟩
      rcases List.mem_append.1 hc with hc | hc
      · exact Component.ending?_blanks t _ c hc
      · exact hr.goesOn c hc
    · rw [Component.textOf_blanks, hr.text]
      exact Component.normalString_blanks rfl hnorm

theorem atName?_keyword {s : Statement} {name : String} {cs : List Component}
    (h : s.head = keywordLeaf name.toList :: cs) : s.atName? = some name := by
  rw [Statement.atName?, h]
  exact congrArg some String.ofList_toList

/-- The prelude that is read is the one that was written. -/
theorem AtHead.prelude_eq {b : Option Bracket} {t : Terminators} {f : Char} {name prelude : String}
    {x : List Char} {cs : List Component} (h : AtHead b t f name prelude x cs) {s : Statement}
    (hs : s.head = keywordLeaf name.toList :: cs) : s.prelude = prelude := by
  rw [Statement.prelude, Statement.tail, hs]
  exact h.prelude

section AtRules

variable {l : Layout} {p : Place} {b : Option Bracket} {x s : List Char} {name prelude : String}
  {α : Type} {g : Grammar} {read : Statement → α} {a : α} {cs : List Component}

/-- An at-rule with a block, in a list that lets at-rules end at blocks. -/
theorem yields_atBlock (hg : SkipsBlanks g)
    (hskip : ∀ n, g.skips (keywordLeaf n) = false)
    (hends : ∀ n more, g.ends (keywordLeaf n :: more) = ⟨true, true⟩)
    (hp : NormalText prelude)
    (h : settledPrelude b ⟨true, true⟩ '\x7b' l.gap name prelude = true)
    (hs : s.all Token.isSpace = true) (hx : Spells (some .curly) x cs)
    (hr : ∀ st : Statement, st.atName? = some name → st.prelude = prelude →
      st.ending = bracedEnding cs s → read st = a) :
    Yields g read b (atHead name prelude ++ l.gap ++ braced x s) a := by
  obtain ⟨head, hh⟩ := atHead_of_settled (.inl rfl) l.gap_cases hp h
  exact Yields.of_head hg ⟨'@', rfl, rfl⟩ hh.upTo (spells_braced hs hx)
    (fun d hd => Option.some.inj hd ▸ hskip _) (fun more => hends _ _) hh.goesOn
    (ending?_braced rfl cs s) fun pos => hr _ (atName?_keyword rfl) (hh.prelude_eq rfl) rfl

/-- An at-rule that ends at a semicolon. -/
theorem yields_atStatement (hg : SkipsBlanks g)
    (hskip : ∀ n, g.skips (keywordLeaf n) = false)
    (hends : ∀ n more, g.ends (keywordLeaf n :: more) = ⟨true, true⟩)
    (hp : NormalText prelude)
    (h : settledPrelude b ⟨true, true⟩ ';' [] name prelude = true)
    (hr : ∀ st : Statement, st.atName? = some name → st.prelude = prelude →
      st.ending = .semicolon → read st = a) :
    Yields g read b (atHead name prelude ++ [';']) a := by
  obtain ⟨head, hh⟩ := atHead_of_settled (.inr rfl) (.inl rfl) hp h
  have hu := hh.upTo
  rw [List.append_nil] at hu
  exact Yields.of_head hg ⟨'@', rfl, rfl⟩ hu
    (Component.spells_mark rfl rfl)
    (fun d hd => Option.some.inj hd ▸ hskip _) (fun more => hends _ _) hh.goesOn rfl
    fun pos => hr _ (atName?_keyword rfl) (hh.prelude_eq rfl) rfl

/-- The text of a settled group comes to the group, if its block comes to the rules in it. -/
theorem yields_group {rs : List Rule} (hn : (Rule.group name prelude rs).Normal p)
    (h : (Rule.group name prelude rs).settled l p = true) (hs : s.all Token.isSpace = true)
    (hx : YieldsAll rules Statement.rule (some .curly) x (rs.map fine)) :
    Yields rules Statement.rule p.bracket (atHead name prelude ++ l.gap ++ braced x s)
      (fine (.group name prelude rs)) := by
  obtain ⟨-, hname, hp, -⟩ := hn
  rw [Rule.settled, Bool.and_eq_true, Bool.and_eq_true, Bool.not_eq_true'] at h
  obtain ⟨body, hbody, hreads⟩ := hx
  refine yields_atBlock skipsBlanks_rules (fun _ => rfl) (fun _ _ => rfl) hp h.1.1 hs hbody
    fun st hat hpre hend => ?_
  have hlow : Text.lower name = name := by
    have : ∀ n ∈ Rule.groupNames, Text.lower n = n := by decide +kernel
    exact this name hname
  have hrs := readRules_of_reads (hreads.braced skipsBlanks_rules s) h.1.2
  rw [Statement.rule_of_block hat hend, hlow, if_pos (List.contains_iff_mem.2 hname), hpre, hrs,
    groupRule_fine]

/-- The text of a settled at-rule comes to the rule, if its block comes to the items in it. -/
theorem yields_block {is : List BlockItem} (hpl : p ≠ .block)
    (hn : (Rule.block name prelude is).Normal p)
    (h : (Rule.block name prelude is).settled l p = true) (hs : s.all Token.isSpace = true)
    (hx : YieldsAll items Statement.item (some .curly) x (is.map fine)) :
    Yields rules Statement.rule p.bracket (atHead name prelude ++ l.gap ++ braced x s)
      (fine (.block name prelude is)) := by
  obtain ⟨hname, hlow, hp, -⟩ := hn
  rw [Rule.settled, Bool.and_eq_true] at h
  obtain ⟨body, hbody, hreads⟩ := hx
  refine yields_atBlock skipsBlanks_rules (fun _ => rfl) (fun _ _ => rfl) hp h.1 hs hbody
    fun st hat hpre hend => ?_
  have hno : ¬Rule.groupNames.contains name = true := mt List.contains_iff_mem.1 (hname hpl)
  have his := readItems_of_reads (hreads.braced skipsBlanks_items s)
  rw [Statement.rule_of_block hat hend, hlow, if_neg hno, hpre, his, blockRule_fine]

/-- The same rule as an item of a block. -/
theorem yields_block_item {is : List BlockItem} (hn : (Rule.block name prelude is).Normal .block)
    (h : (Rule.block name prelude is).settled l .block = true) (hs : s.all Token.isSpace = true)
    (hx : YieldsAll items Statement.item (some .curly) x (is.map fine)) :
    Yields items Statement.item (some .curly) (atHead name prelude ++ l.gap ++ braced x s)
      (fine (.rule (.block name prelude is))) := by
  obtain ⟨-, hlow, hp, -⟩ := hn
  rw [Rule.settled, Bool.and_eq_true] at h
  obtain ⟨body, hbody, hreads⟩ := hx
  refine yields_atBlock skipsBlanks_items (fun _ => rfl) (fun _ _ => rfl) hp h.1 hs hbody
    fun st hat hpre hend => ?_
  have his := readItems_of_reads (hreads.braced skipsBlanks_items s)
  rw [Statement.item_of_block hat hend, hlow, hpre, his, blockRule_fine]
  rfl

/-- The text of a settled at-rule without a block comes to the rule. -/
theorem yields_statement (hpl : p ≠ .block) (hn : (Rule.statement name prelude).Normal p)
    (h : (Rule.statement name prelude).settled l p = true) :
    Yields rules Statement.rule p.bracket (atHead name prelude ++ [';'])
      (fine (.statement name prelude)) := by
  obtain ⟨hname, hlow, hp⟩ := hn
  rw [Rule.settled] at h
  refine yields_atStatement skipsBlanks_rules (fun _ => rfl) (fun _ _ => rfl) hp h
    fun st hat hpre hend => ?_
  have hno : ¬(Rule.groupNames.contains name ∧ name ≠ "layer") := fun hc =>
    hc.2 (hname hpl (List.contains_iff_mem.1 hc.1))
  rw [Statement.rule_of_bare hat (.inl hend), hlow, Statement.bareAtRule, if_neg hno, hpre]
  rfl

/-- The same rule as an item of a block. -/
theorem yields_statement_item (hn : (Rule.statement name prelude).Normal .block)
    (h : (Rule.statement name prelude).settled l .block = true) :
    Yields items Statement.item (some .curly) (atHead name prelude ++ [';'])
      (fine (.rule (.statement name prelude))) := by
  obtain ⟨-, hlow, hp⟩ := hn
  rw [Rule.settled] at h
  refine yields_atStatement skipsBlanks_items (fun _ => rfl) (fun _ _ => rfl) hp h
    fun st hat hpre hend => ?_
  rw [Statement.item_of_semicolon hat hend, hlow, hpre]

end AtRules

/-! ### Declarations -/

/-- A declaration as it is written, up to its semicolon. -/
def declarationText (l : Layout) (d : Declaration) : List Char :=
  d.name.toList ++ ':' :: (l.gap ++ d.written)

/-- What is written of a normal declaration is read as that declaration. -/
theorem asDeclaration_written {l : Layout} {d : Declaration} (hn : d.Normal)
    (h : d.important = false → Declaration.importantMark.isSuffixOf d.value.toList = false)
    {s : Statement} {cs : List Component}
    (hs : s.head = nameLeaf d.name.toList :: .leaf (Lexeme.mark ':') :: cs)
    (hcs : Component.textOf cs = l.gap ++ d.written) : s.asDeclaration d.name = .ok d := by
  have hskip : s.tail.dropWhile Component.isBlank = .leaf (Lexeme.mark ':') :: cs := by
    rw [Statement.tail, hs]; rfl
  have hsplit := Declaration.splitImportant_written
    (Text.all_isBlank_of_all_isSpace l.gap_isSpace) hn.value h
  rw [Statement.asDeclaration, hskip]
  refine (if_pos rfl).trans ?_
  rw [hcs, Declaration.ofText, hsplit]
  simp only [hn.name, String.ofList_toList]

/-- A declaration, in a list where nothing but a semicolon ends it. -/
theorem yields_declaration {α : Type} {g : Grammar} {read : Statement → α} {a : α} {l : Layout}
    {d : Declaration} (hg : SkipsBlanks g) (hskip : ∀ n, g.skips (nameLeaf n) = false)
    (hends : ∀ n more, g.ends (nameLeaf n :: .leaf (Lexeme.mark ':') :: more) = ⟨true, false⟩)
    (hn : d.Normal) (h : d.settled l = true)
    (hr : ∀ s : Statement, (s.head.head?.map Component.token) = some (.ident d.name) →
      s.ending = .semicolon → s.asDeclaration d.name = .ok d → read s = a) :
    Yields g read (some .curly) (declarationText l d ++ [';']) a := by
  rw [Declaration.settled, Bool.and_eq_true, Bool.and_eq_true] at h
  obtain ⟨⟨hname, hreach⟩, himp⟩ := h
  obtain ⟨cs, hcs⟩ := Option.isSome_iff_exists.1 hreach
  have hv := Component.reached_of_reach? rfl hcs
  have himp : d.important = false →
      Declaration.importantMark.isSuffixOf d.value.toList = false := by
    intro e
    simpa [e] using himp
  have hcolon : Spells (some .curly) [':'] [.leaf (Lexeme.mark ':')] :=
    Component.spells_mark rfl rfl
  have hu : UpTo (some .curly) ';' (declarationText l d)
      (nameLeaf d.name.toList :: .leaf (Lexeme.mark ':') :: cs) := by
    have := ((Component.upTo_name hname rfl).append hcolon).upTo hv.upTo
    rwa [List.append_assoc] at this
  obtain ⟨c, n, hcn⟩ : ∃ c n, d.name.toList = c :: n :=
    List.exists_cons_of_ne_nil fun e => by rw [e] at hname; cases hname
  have hc : Token.isSpace c = false := Token.not_isSpace_of_isNameChar
    (List.all_eq_true.1 (Token.all_isNameChar_of_spelled hname) c (by rw [hcn]; exact .head _))
  refine Yields.of_head hg ⟨c, by rw [declarationText, hcn]; rfl, hc⟩ hu
    (Component.spells_mark rfl rfl) (fun d hd => Option.some.inj hd ▸ hskip _)
    (fun more => hends _ _) ?_ rfl fun pos => hr _ ?_ rfl
      (asDeclaration_written hn himp rfl hv.text)
  · exact List.forall_mem_cons.2 ⟨rfl, List.forall_mem_cons.2 ⟨rfl, hv.goesOn⟩⟩
  · exact congrArg (fun s => some (Token.ident s)) String.ofList_toList

/-- The text of a settled declaration comes to the declaration in the block of a style rule. -/
theorem yields_declaration_style {l : Layout} {d : Declaration} (hn : d.Normal)
    (h : d.settled l = true) :
    Yields declarations Statement.declaration (some .curly) (declarationText l d ++ [';'])
      (.ok d) := by
  refine yields_declaration skipsBlanks_declarations (fun _ => rfl) (fun _ _ => rfl) hn h
    fun s hs _ hd => ?_
  obtain ⟨c, hc, ht⟩ := Option.map_eq_some_iff.1 hs
  obtain ⟨cs, hcs⟩ := List.head?_eq_some_iff.1 hc
  simp only [Statement.declaration, hcs, ht, hd]

/-- The same declaration as an item of a block. -/
theorem yields_declaration_item {l : Layout} {d : Declaration} (hn : d.Normal)
    (h : d.settled l = true) :
    Yields items Statement.item (some .curly) (declarationText l d ++ [';'])
      (fine (.declaration d)) := by
  refine yields_declaration skipsBlanks_items (fun _ => rfl) (fun _ _ => rfl) hn h
    fun s hs he hd => ?_
  obtain ⟨c, hc, ht⟩ := Option.map_eq_some_iff.1 hs
  obtain ⟨cs, hcs⟩ := List.head?_eq_some_iff.1 hc
  have hat : s.atName? = none := by simp only [Statement.atName?, hcs, ht]
  rw [Statement.item, hat]
  simp only [Statement.plainItem, he, hs, hd]
  rfl

end CssPrune
