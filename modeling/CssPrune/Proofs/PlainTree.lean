import CssPrune.Proofs.PlainText
import CssPrune.Proofs.RoundTrip

/-!
# Trees of plain rules

A tree of rules whose texts are plain is settled in both layouts, so it is read back from its text
as it was (`parse_printAll_plain`).  What the names and texts may be made of is said character by
character: nothing here mentions how texts are read.
-/

namespace CssPrune

open Plain (isPlain plainText PlainText Lex Still)

/-! ### Plain rules -/

/-- A small letter, then small letters and hyphens. -/
def plainName : List Char → Bool
  | [] => false
  | c :: cs => c.isLower && cs.all fun d => d.isLower || d = '-'

/-- Two hyphens, then letters and hyphens. -/
def plainCustomName (n : List Char) : Bool :=
  ['-', '-'].isPrefixOf n && n.all fun c => c.isAlpha || c = '-'

/-- A plain name, and a plain value. -/
def Declaration.plain (d : Declaration) : Bool :=
  (plainName d.name.toList || plainCustomName d.name.toList) && plainText true d.value.toList

/-- Colons have no place in the selectors of a block of items. -/
def plainSelector (p : Place) (s : String) : Bool :=
  plainText false s.toList && s ≠ "" && s.toList.head? ≠ some '-' &&
    (p ≠ .block || !s.toList.contains ':')

/-- No selector but the last ends in a parenthesis. -/
def plainSelectors (p : Place) : List String → Bool
  | [] => true
  | [s] => plainSelector p s
  | s :: ss => plainSelector p s && s.toList.getLast? ≠ some ')' && plainSelectors p ss

mutual

/-- Every name and every text of the rule is plain, and it can stand in this place. -/
def Rule.plain (p : Place) : Rule → Bool
  | .style selectors ds =>
    selectors ≠ [] && plainSelectors p selectors && ds.all Declaration.plain
  | .group name prelude rs =>
    p ≠ .block && Rule.groupNames.contains name && plainText true prelude.toList &&
      Rule.plainAll .group rs
  | .block name prelude is =>
    plainName name.toList && name ≠ "charset" && (p = .block || !Rule.groupNames.contains name) &&
      plainText true prelude.toList && BlockItem.plainAll is
  | .statement name prelude =>
    plainName name.toList && name ≠ "charset" &&
      (p = .block || !Rule.groupNames.contains name || name = "layer") && plainText true prelude.toList

def Rule.plainAll (p : Place) : List Rule → Bool
  | [] => true
  | r :: rs => r.plain p && Rule.plainAll p rs

def BlockItem.plain : BlockItem → Bool
  | .declaration d => d.plain
  | .rule r => r.plain .block

def BlockItem.plainAll : List BlockItem → Bool
  | [] => true
  | i :: is => i.plain && BlockItem.plainAll is

end

/-! ### Names -/

theorem isNameStart_of_isLower {c : Char} (h : c.isLower = true) : Token.isNameStart c = true := by
  simp [Token.isNameStart, Char.isAlpha, h]

/-- Letters and hyphens belong to names and stand for themselves. -/
theorem spelled_chars {c : Char} (h : (c.isAlpha || c = '-') = true) :
    (Token.isNameChar c && c != '\x00') = true := by
  rcases (by simpa using h : c.isAlpha = true ∨ c = '-') with h | rfl
  · have hne : c ≠ '\x00' := by rintro rfl; cases h
    simp [Token.isNameChar, Token.isNameStart, h, hne]
  · rfl

theorem isAlpha_of_isLower {c : Char} (h : c.isLower = true) : c.isAlpha = true := by
  simp [Char.isAlpha, h]

/-- A plain name is read as the name that it spells. -/
theorem spelled_plainName {n : List Char} (h : plainName n = true) : Token.spelled n = true := by
  cases n with
  | nil => cases h
  | cons c n =>
      obtain ⟨hc, hn⟩ := Bool.and_eq_true_iff.1 h
      have hm : c ≠ '-' := by rintro rfl; cases hc
      have hb : c ≠ '\\' := by rintro rfl; cases hc
      rw [Token.spelled, Token.startsName_cons hm hb, isNameStart_of_isLower hc, Bool.true_and]
      refine List.all_eq_true.2 (List.forall_mem_cons.2 ⟨?_, fun d hd => ?_⟩)
      · exact spelled_chars (by rw [isAlpha_of_isLower hc]; rfl)
      · rcases (by simpa using List.all_eq_true.1 hn d hd : d.isLower = true ∨ d = '-') with hl | rfl
        · exact spelled_chars (by rw [isAlpha_of_isLower hl]; rfl)
        · rfl

/-- The plain name of a custom property is its own spelling. -/
theorem spelled_plainCustomName {n : List Char} (h : plainCustomName n = true) :
    Token.spelled n = true := by
  obtain ⟨hp, hn⟩ := Bool.and_eq_true_iff.1 h
  obtain ⟨m, rfl⟩ := List.isPrefixOf_iff_prefix.1 hp
  rw [Token.spelled]
  have : Token.startsName (['-', '-'] ++ m) = true := rfl
  rw [this, Bool.true_and]
  exact List.all_eq_true.2 fun c hc => spelled_chars (List.all_eq_true.1 hn c hc)

/-- A plain name has no capital letter. -/
theorem lower_plainName {s : String} (h : plainName s.toList = true) : Text.lower s = s := by
  have hid : s.toList.map Char.toLower = s.toList := by
    refine (List.map_congr_left fun c hc => ?_).trans (List.map_id _)
    refine Plain.toLower_of_isPlain ?_
    cases hs : s.toList with
    | nil => rw [hs] at hc; cases hc
    | cons d n =>
        rw [hs] at h hc
        obtain ⟨hd, hn⟩ := Bool.and_eq_true_iff.1 h
        rcases List.mem_cons.1 hc with rfl | hc
        · simp [isPlain, hd]
        · rcases (by simpa using List.all_eq_true.1 hn c hc : c.isLower = true ∨ c = '-') with hl | rfl
          · simp [isPlain, hl]
          · rfl
  rw [Text.lower, hid, String.ofList_toList]

/-- A plain name of either kind is kept as it is. -/
theorem normalName_plain {s : String}
    (h : (plainName s.toList || plainCustomName s.toList) = true) :
    Declaration.normalName s = s := by
  rw [Declaration.normalName]
  split
  · rfl
  · next hc =>
      rcases (by simpa using h : plainName s.toList = true ∨ plainCustomName s.toList = true) with
        hn | hn
      · exact lower_plainName hn
      · exact absurd (Bool.and_eq_true_iff.1 hn).1 hc

/-! ### Components of plain texts -/

/-- A still component ends no statement. -/
theorem ending?_of_still {t : Terminators} {c : Component} (h : Still c) : t.ending? c = none := by
  cases h with
  | @leaf x hl ho hc => simp [Terminators.ending?, hl.tame.1]
  | @block o y body hl ho hy ht hb =>
      have : o.token ≠ .openCurly := fun e => by rw [e] at ho; cases ho
      simp [Terminators.ending?, this]

/-- A quiet text reaches whatever mark stands behind it, by still components. -/
theorem reach?_of_quiet {commas : Bool} {x : List Char} {f : Char} (h : Plain.Quiet commas x)
    (hf : Token.standsAlone f = true) (b : Option Bracket) (t : Terminators) :
    ∃ cs, Component.reach? b t f x = some cs ∧ Component.textOf cs = x ∧
      ∀ c ∈ cs, Still c ∧ (commas = true ∨ c.isComma = false) := by
  obtain ⟨cs, hcs, htext, hall⟩ := h.front hf
  refine ⟨cs, ?_, htext, hall⟩
  rw [Component.reach?, hcs, Option.filter_some, if_pos]
  rw [Still.fitAll b cs fun c hc => (hall c hc).1, Bool.true_and]
  exact List.all_eq_true.2 fun c hc => by rw [ending?_of_still (hall c hc).1]; rfl

/-- How the first component of a selector looks. -/
structure Leading (t : Token) : Prop where
  notBlank : t.isBlank = false
  notCdo : t ≠ .cdo
  notCdc : t ≠ .cdc
  notAt : ∀ n, t ≠ .atKeyword n
  notCustom : ∀ n, t = .ident n → Declaration.isCustom n = false

theorem head?_text {c : Component} {cs : List Component} {d : Char}
    (h : c.text.head? = some d) : (Component.textOf (c :: cs)).head? = some d := by
  rw [Component.textOf, List.head?_append, h]; rfl

/-- A parenthesis opens by itself or behind the name of a function. -/
theorem paren_cases {t : Token} (h : t.opens? = some .paren) :
    (∃ n, t = .function n) ∨ t = .openParen := by
  cases t with
  | function n => exact .inl ⟨n, rfl⟩
  | openParen => exact .inr rfl
  | _ => cases h

/-- A selector that does not begin with a space or a hyphen begins with a token that is not passed
over. -/
theorem leading_of_still {c : Component} {cs : List Component} (hc : Still c)
    (hb : (Component.textOf (c :: cs)).head? ≠ some ' ')
    (hm : (Component.textOf (c :: cs)).head? ≠ some '-') : Leading c.token := by
  cases hc with
  | @leaf x hl ho hc =>
      refine ⟨?_, hl.tame.2.1, fun e => hm (head?_text (hl.head_cdc e)), hl.tame.2.2,
        fun n e => ?_⟩
      · by_contra hblank
        exact hb (head?_text (hl.head_blank (Bool.not_eq_false _ ▸ hblank)))
      · by_contra hcustom
        rw [Bool.not_eq_false] at hcustom
        obtain ⟨m, hmn⟩ := List.isPrefixOf_iff_prefix.1 hcustom
        refine hm (head?_text ?_)
        show x.text.head? = _
        rw [hl.ident_text e, ← hmn]; rfl
  | @block o y body hl ho hy ht hbody =>
      rw [Component.token]
      rcases paren_cases ho with ⟨n, e⟩ | e <;> rw [e] <;>
        exact ⟨rfl, by simp, by simp, by simp, by simp⟩

/-- A colon as a component shows in the text. -/
theorem colon_mem_of_still {c : Component} (hc : Still c) (ht : c.token = .colon) :
    ':' ∈ c.text := by
  cases hc with
  | leaf hl ho hc => exact hl.colon_mem ht
  | @block o y body hl ho hy htext hb =>
      have ht : o.token = .colon := ht
      rw [ht] at ho; cases ho

/-- The characters of a component are among those of its list. -/
theorem text_subset {c : Component} {cs : List Component} (h : c ∈ cs) :
    c.text ⊆ Component.textOf cs := by
  induction cs with
  | nil => cases h
  | cons d ds ih =>
      rw [Component.textOf]
      rcases List.mem_cons.1 h with rfl | h
      · exact List.subset_append_left _ _
      · exact fun _ ha => List.mem_append_right _ (ih h ha)

/-- Without a colon in its text, a list does not look like a declaration. -/
theorem declares_false_of_still {cs : List Component} (hs : ∀ c ∈ cs, Still c)
    (h : ':' ∉ Component.textOf cs) : Grammar.declares cs = false := by
  cases cs with
  | nil => rfl
  | cons c cs =>
      rw [Grammar.declares]
      split
      · refine decide_eq_false fun e => ?_
        obtain ⟨d, hd, ht⟩ := Option.map_eq_some_iff.1 e
        have hmem : d ∈ c :: cs := List.mem_cons_of_mem _
          ((List.dropWhile_suffix Component.isBlank).subset (List.mem_of_head? hd))
        exact h (text_subset hmem (colon_mem_of_still (hs d hmem) ht))
      · rfl

/-- A plain selector passes for nothing else. -/
theorem leads_of_still {p : Place} {cs : List Component} (hs : ∀ c ∈ cs, Still c)
    (hne : Component.textOf cs ≠ []) (hb : (Component.textOf cs).head? ≠ some ' ')
    (hm : (Component.textOf cs).head? ≠ some '-')
    (hcolon : p = .block → ':' ∉ Component.textOf cs) : p.leads cs = true := by
  cases cs with
  | nil => exact absurd rfl hne
  | cons c cs =>
      obtain ⟨hblank, hcdo, hcdc, hat, hcustom⟩ := leading_of_still (hs c List.mem_cons_self) hb hm
      have hbegins : Grammar.beginsAt (c :: cs) = false := by
        rw [Grammar.beginsAt, Statement.atName?]
        simp only
        rfl
      have hlooks : Statement.looksCustom ⟨0, c :: cs, .missing⟩ = false := by
        simp only [Statement.looksCustom, List.head?_cons, Option.map_some]
        split
        · next n heq => rw [hcustom n (Option.some.inj heq)]; rfl
        · rfl
      -- whether it looks like a declaration matters only in a block
      cases p with
      | block =>
          have hdecl := declares_false_of_still hs (hcolon rfl)
          have hskip : Grammar.items.skips c = false := by
            have hsemi : c.token ≠ .semicolon := by
              rcases hs c List.mem_cons_self with ⟨hl, _, _⟩ | ⟨_, ho, _, _, _⟩
              · exact hl.tame.1
              · rw [Component.token]
                rcases paren_cases ho with ⟨n, e⟩ | e <;> rw [e] <;> intro hs <;> cases hs
            simp [Grammar.items, Grammar.separates, Component.isBlank, hblank, hsemi]
          simp [Place.leads, hskip, hbegins, hdecl]
      | sheet | group =>
          have hskip : Grammar.rules.skips c = false := by
            simp [Grammar.rules, Component.isBlank, hblank, hcdo, hcdc]
          simp [Place.leads, hskip, hbegins, hlooks]

/-! ### Plain rules are normal and settled -/

/-- A plain text is quiet in front of the blank of the pretty layout, too. -/
theorem quiet_gap {commas : Bool} {x : List Char} (h : PlainText commas x) (l : Layout) :
    Plain.Quiet commas (x ++ l.gap) :=
  h.toQuiet.append (by cases l <;> rfl) (by cases l <;> rfl)

/-- What a plain selector is made of. -/
structure PlainSelector (p : Place) (s : String) : Prop where
  text : PlainText false s.toList
  ne_empty : s ≠ ""
  head : s.toList.head? ≠ some '-'
  colon : p = .block → ':' ∉ s.toList

/-- The check of a selector, condition by condition. -/
theorem plainSelector_iff {p : Place} {s : String} :
    plainSelector p s = true ↔ PlainSelector p s := by
  simp only [plainSelector, Bool.and_eq_true, Plain.plainText_iff, decide_eq_true_eq,
    Bool.or_eq_true, Bool.not_eq_true', List.contains_eq_mem, decide_eq_false_iff_not]
  constructor
  · rintro ⟨⟨⟨h₁, h₂⟩, h₃⟩, h₄⟩
    exact ⟨h₁, h₂, h₃, fun hp => h₄.resolve_left fun hn => hn hp⟩
  · rintro ⟨h₁, h₂, h₃, h₄⟩
    refine ⟨⟨⟨h₁, h₂⟩, h₃⟩, ?_⟩
    by_cases hp : p = .block
    · exact .inr (h₄ hp)
    · exact .inl hp

namespace PlainSelector

variable {p : Place} {s : String}

theorem normal (h : PlainSelector p s) : NormalSelector s where
  ne_empty := h.ne_empty
  normal := by
    have := h.text.normalize (.inl rfl)
    rwa [List.append_nil] at this

/-- The components of a plain selector can lead a rule. -/
theorem leads (h : PlainSelector p s) (l : Layout) {cs : List Component}
    (hs : ∀ c ∈ cs, Still c)
    (ht : Component.textOf cs = s.toList ∨ Component.textOf cs = s.toList ++ l.gap) :
    p.leads cs = true := by
  obtain ⟨c, x, hx⟩ : ∃ c x, s.toList = c :: x :=
    List.exists_cons_of_ne_nil fun e => h.ne_empty (String.ext_iff.2 e)
  have hhead : (Component.textOf cs).head? = some c := by
    rcases ht with ht | ht <;> rw [ht, hx] <;> rfl
  have hspace : c ≠ ' ' := by
    rintro rfl
    have := Text.not_isSpace_head h.normal.normal ' ' (by rw [hx]; rfl)
    cases this
  have hhyphen : c ≠ '-' := by
    rintro rfl
    exact h.head (by rw [hx]; rfl)
  refine leads_of_still hs (fun e => by rw [e] at hhead; cases hhead)
    (by rw [hhead]; exact fun e => hspace (Option.some.inj e))
    (by rw [hhead]; exact fun e => hhyphen (Option.some.inj e)) fun hp hm => h.colon hp ?_
  rcases ht with ht | ht
  · rwa [ht] at hm
  · rw [ht] at hm
    rcases List.mem_append.1 hm with hm | hm
    · exact hm
    · rcases l.gap_cases with hg | hg <;> rw [hg] at hm <;> simp at hm

end PlainSelector

/-- The last component of a text that does not end in a parenthesis is a leaf. -/
theorem isLeaf_last {cs : List Component} (hs : ∀ c ∈ cs, Still c)
    (h : (Component.textOf cs).getLast? ≠ some ')') :
    cs.getLast?.all Component.isLeaf = true := by
  cases hl : cs.getLast? with
  | none => rfl
  | some c =>
      obtain ⟨ds, rfl⟩ := List.getLast?_eq_some_iff.1 hl
      cases hs c (by simp) with
      | leaf => rfl
      | @block o y body _ _ _ hy _ =>
          refine absurd ?_ h
          rw [Component.textOf_append, Component.textOf, Component.textOf, Component.text,
            Option.elim_some, hy]
          simp

/-- Plain selectors settle, and the first of them can lead a rule. -/
theorem settledSelectors_plain {l : Layout} {p : Place} {b : Option Bracket} {t : Terminators}
    {ss : List String} (h : plainSelectors p ss = true) :
    (∀ s ∈ ss, PlainSelector p s) ∧ Component.settledSelectors b t l ss = true ∧
      (ss = [] ∨ p.leads (Component.leading l ss) = true) := by
  induction ss with
  | nil => exact ⟨fun _ h => (List.not_mem_nil h).elim, rfl, .inl rfl⟩
  | cons s ss ih =>
      cases ss with
      | nil =>
          -- the last selector stands in front of the block, with the gap behind it
          have hs := plainSelector_iff.1 h
          obtain ⟨cs, hcs, htext, hall⟩ := reach?_of_quiet (f := '\x7b') (quiet_gap hs.text l) rfl b t
          have hnorm := hs.text.normalize (l.gap_cases)
          refine ⟨List.forall_mem_singleton.2 hs, ?_, .inr ?_⟩
          · rw [Component.settledSelectors, hcs, hnorm, Option.any_some]
            simpa using fun c hc => (hall c hc).2
          · rw [Component.leading, Component.front?_of_reach? hcs]
            exact hs.leads l (fun c hc => (hall c hc).1) (.inr htext)
      | cons s' ss =>
          -- any other one stands in front of a comma, which a parenthesis at its end would take in
          obtain ⟨hfirst, hrest⟩ := Bool.and_eq_true_iff.1 h
          obtain ⟨hsel, hlast⟩ := Bool.and_eq_true_iff.1 hfirst
          have hs := plainSelector_iff.1 hsel
          obtain ⟨hall', hset, -⟩ := ih hrest
          obtain ⟨cs, hcs, htext, hall⟩ := reach?_of_quiet hs.text.toQuiet (f := ',') rfl b t
          refine ⟨List.forall_mem_cons.2 ⟨hs, hall'⟩, ?_, .inr ?_⟩
          · refine Bool.and_eq_true_iff.2 ⟨?_, hset⟩
            have hl := isLeaf_last (fun c hc => (hall c hc).1)
              (by rw [htext]; exact of_decide_eq_true hlast)
            rw [hcs, Option.any_some, hl, Bool.and_true]
            simpa using fun c hc => (hall c hc).2
          · show p.leads ((Component.front? ',' s.toList).getD []) = true
            rw [Component.front?_of_reach? hcs]
            exact hs.leads l (fun c hc => (hall c hc).1) (.inl htext)

/-- A quiet text may have the blank of the pretty layout in front. -/
theorem quiet_gap_append {commas : Bool} {x : List Char} (h : Plain.Quiet commas x) (l : Layout) :
    Plain.Quiet commas (l.gap ++ x) := by
  rcases l.gap_cases with hg | hg
  · rw [hg]; exact h
  · rw [hg]
    exact ⟨Bool.and_eq_true_iff.2 ⟨rfl, h.plain⟩, h.noUrl, by
      rw [Plain.balanced_word (u := [' ']) rfl]; exact h.balanced⟩

/-- A plain declaration is normal, and settled in both layouts. -/
theorem Declaration.normal_settled_of_plain {d : Declaration} (h : d.plain = true) (l : Layout) :
    d.Normal ∧ d.settled l = true := by
  obtain ⟨hname, hvalue⟩ := Bool.and_eq_true_iff.1 h
  have hv := Plain.plainText_iff.1 hvalue
  refine ⟨⟨normalName_plain hname, ?_, hv.trimmed⟩, ?_⟩
  · have := hv.normalize (.inl rfl)
    rwa [List.append_nil] at this
  · have hspelled : Token.spelled d.name.toList = true := by
      rcases Bool.or_eq_true_iff.1 hname with hn | hn
      · exact spelled_plainName hn
      · exact spelled_plainCustomName hn
    have hwritten : Plain.Quiet true d.written :=
      hv.toQuiet.append (by split <;> rfl) (by split <;> rfl)
    obtain ⟨cs, hcs, -⟩ := reach?_of_quiet (f := ';') (quiet_gap_append hwritten l) rfl
      (some .curly) ⟨true, false⟩
    -- without an exclamation mark there is no flag
    have hmark : importantMark.isSuffixOf d.value.toList = false := by
      by_contra hs
      rw [Bool.not_eq_false, List.isSuffixOf_iff_suffix] at hs
      exact hv.noMark (hs.subset (.head _))
    rw [Declaration.settled, hspelled, hcs, hmark]
    simp

/-- The name and the plain prelude of an at-rule are normal and settled. -/
theorem settledPrelude_plain {name prelude : String} (hn : Token.spelled name.toList = true)
    (hp : plainText true prelude.toList = true) (b : Option Bracket) (t : Terminators) {f : Char}
    (hf : Token.standsAlone f = true) {gap : List Char} (hg : gap = [] ∨ gap = [' ']) :
    NormalText prelude ∧ settledPrelude b t f gap name prelude = true := by
  have hp := Plain.plainText_iff.1 hp
  have hquiet : Plain.Quiet true (prelude.toList ++ gap) :=
    hp.toQuiet.append (by rcases hg with rfl | rfl <;> rfl) (by rcases hg with rfl | rfl <;> rfl)
  obtain ⟨cs, hcs, -⟩ := reach?_of_quiet hquiet hf b t
  refine ⟨?_, ?_⟩
  · have := hp.normalize (.inl rfl)
    rwa [List.append_nil] at this
  · rw [settledPrelude, hn, hcs, hp.normalize hg]
    simp

theorem spelled_groupName {name : String} (h : name ∈ Rule.groupNames) :
    Token.spelled name.toList = true := by
  revert h; revert name; decide +kernel

/-- No plain rule is a `@charset`. -/
theorem not_isCharset_of_plain {p : Place} {r : Rule} (h : r.plain p = true) :
    r.isCharset = false := by
  cases r with
  | style selectors ds => rfl
  | group name prelude rs =>
      simp only [Rule.plain, Bool.and_eq_true, decide_eq_true_eq, List.contains_iff_mem] at h
      refine decide_eq_false ?_
      rintro rfl
      exact absurd h.1.1.2 (by decide +kernel)
  | block name prelude is =>
      simp only [Rule.plain, Bool.and_eq_true, decide_eq_true_eq] at h
      exact decide_eq_false h.1.1.1.2
  | statement name prelude =>
      simp only [Rule.plain, Bool.and_eq_true, decide_eq_true_eq] at h
      exact decide_eq_false h.1.1.2

theorem head?_not_isCharset {p : Place} {rs : List Rule} (h : Rule.plainAll p rs = true) :
    rs.head?.any Rule.isCharset = false := by
  cases rs with
  | nil => rfl
  | cons r rs => exact not_isCharset_of_plain (Bool.and_eq_true_iff.1 h).1

mutual

/-- A plain rule is normal, and settled in both layouts, along the tree. -/
theorem Rule.normal_settled_of_plain (l : Layout) : ∀ (p : Place) (r : Rule), r.plain p = true →
    r.Normal p ∧ r.settled l p = true
  | p, .style selectors ds, h => by
      simp only [Rule.plain, Bool.and_eq_true, decide_eq_true_eq] at h
      obtain ⟨⟨hne, hsel⟩, hds⟩ := h
      have hds := fun d hd => Declaration.normal_settled_of_plain (List.all_eq_true.1 hds d hd) l
      obtain ⟨hall, hset, hlead⟩ := settledSelectors_plain (l := l) (b := p.bracket)
        (t := p.terminators) hsel
      refine ⟨⟨fun _ => hne, fun s hs => (hall s hs).normal, fun d hd => (hds d hd).1⟩, ?_⟩
      rw [Rule.settled, hset, hlead.resolve_left hne, List.all_eq_true.2 fun d hd => (hds d hd).2]
      simp
  | p, .group name prelude rs, h => by
      simp only [Rule.plain, Bool.and_eq_true, decide_eq_true_eq, List.contains_iff_mem] at h
      obtain ⟨⟨⟨hp, hname⟩, hpre⟩, hrs⟩ := h
      obtain ⟨hn, hs⟩ := Rule.normal_settled_of_plainAll l .group rs hrs
      obtain ⟨hpn, hps⟩ := settledPrelude_plain (spelled_groupName hname) hpre p.bracket
        ⟨true, true⟩ (f := '\x7b') rfl (l.gap_cases)
      refine ⟨⟨hp, hname, hpn, hn⟩, ?_⟩
      rw [Rule.settled, hps, hs, head?_not_isCharset hrs]
      rfl
  | p, .block name prelude is, h => by
      simp only [Rule.plain, Bool.and_eq_true, Bool.or_eq_true, Bool.not_eq_true',
        decide_eq_true_eq, List.contains_eq_mem, decide_eq_false_iff_not] at h
      obtain ⟨⟨⟨⟨hname, -⟩, hgroup⟩, hpre⟩, his⟩ := h
      obtain ⟨hn, hs⟩ := BlockItem.normal_settled_of_plainAll l is his
      obtain ⟨hpn, hps⟩ := settledPrelude_plain (spelled_plainName hname) hpre p.bracket
        ⟨true, true⟩ (f := '\x7b') rfl (l.gap_cases)
      refine ⟨⟨fun hp => hgroup.resolve_left hp, lower_plainName hname, hpn, hn⟩, ?_⟩
      rw [Rule.settled, hps, hs]
      rfl
  | p, .statement name prelude, h => by
      simp only [Rule.plain, Bool.and_eq_true, Bool.or_eq_true, Bool.not_eq_true',
        decide_eq_true_eq, List.contains_eq_mem, decide_eq_false_iff_not] at h
      obtain ⟨⟨⟨hname, -⟩, hgroup⟩, hpre⟩ := h
      obtain ⟨hpn, hps⟩ := settledPrelude_plain (spelled_plainName hname) hpre p.bracket
        ⟨true, true⟩ (f := ';') rfl (.inl rfl)
      refine ⟨⟨fun hp hm => ?_, lower_plainName hname, hpn⟩, hps⟩
      rcases hgroup with (hg | hg) | hg
      · exact absurd hg hp
      · exact absurd hm hg
      · exact hg

theorem Rule.normal_settled_of_plainAll (l : Layout) : ∀ (p : Place) (rs : List Rule),
    Rule.plainAll p rs = true → Rule.NormalAll p rs ∧ Rule.settledAll l p rs = true
  | _, [], _ => ⟨trivial, rfl⟩
  | p, r :: rs, h => by
      obtain ⟨hr, hrs⟩ := Bool.and_eq_true_iff.1 h
      obtain ⟨hn, hs⟩ := Rule.normal_settled_of_plain l p r hr
      obtain ⟨hns, hss⟩ := Rule.normal_settled_of_plainAll l p rs hrs
      exact ⟨⟨hn, hns⟩, Bool.and_eq_true_iff.2 ⟨hs, hss⟩⟩

theorem BlockItem.normal_settled_of_plain (l : Layout) : ∀ i : BlockItem, i.plain = true →
    i.Normal ∧ i.settled l = true
  | .declaration _, h => Declaration.normal_settled_of_plain h l
  | .rule r, h => Rule.normal_settled_of_plain l .block r h

theorem BlockItem.normal_settled_of_plainAll (l : Layout) : ∀ is : List BlockItem,
    BlockItem.plainAll is = true → BlockItem.NormalAll is ∧ BlockItem.settledAll l is = true
  | [], _ => ⟨trivial, rfl⟩
  | i :: is, h => by
      obtain ⟨hi, his⟩ := Bool.and_eq_true_iff.1 h
      obtain ⟨hn, hs⟩ := BlockItem.normal_settled_of_plain l i hi
      obtain ⟨hns, hss⟩ := BlockItem.normal_settled_of_plainAll l is his
      exact ⟨⟨hn, hns⟩, Bool.and_eq_true_iff.2 ⟨hs, hss⟩⟩

end

/-- Without a `@charset` in front, a sheet is settled if its rules are. -/
theorem settledSheet_of_settledAll {l : Layout} {rs : List Rule}
    (hc : rs.head?.any Rule.isCharset = false) (h : Rule.settledAll l .sheet rs = true) :
    settledSheet l rs = true := by
  cases rs with
  | nil => rfl
  | cons r rs =>
      cases r with
      | statement name prelude =>
          obtain ⟨hr, hrs⟩ := Bool.and_eq_true_iff.1 h
          rw [settledSheet, if_neg (of_decide_eq_false hc), hrs, Bool.and_true]
          exact hr
      | _ => rw [settledSheet, hc, h] <;> first | rfl | (intro _ _ _ h; cases h)

/-- A list of plain rules is read back from its text in either layout, and nothing in that text is
at fault. -/
theorem parse_printAll_plain {l : Layout} {rs : List Rule} (h : Rule.plainAll .sheet rs = true) :
    Stylesheet.parse (Rule.printAll l rs) = ⟨rs, [], []⟩ := by
  obtain ⟨hn, hs⟩ := Rule.normal_settled_of_plainAll l .sheet rs h
  exact parse_printAll hn (settledSheet_of_settledAll (head?_not_isCharset h) hs)

/-- A group around a style rule and a block, with a custom property whose value is empty. -/
theorem parse_printAll_plain_media :
    Rule.plainAll .sheet [.group "media" "screen" [
      .style [".a > p:hover", "p:not(.b, .c)"] [⟨"color", "rgb(0, 0, 0)", true⟩],
      .block "font-face" "" [.declaration ⟨"--x", "", false⟩, .rule (.style [".d"] [])]]] = true ∧
    Stylesheet.parse (Rule.printAll .pretty [.group "media" "screen" [
      .style [".a > p:hover", "p:not(.b, .c)"] [⟨"color", "rgb(0, 0, 0)", true⟩],
      .block "font-face" "" [.declaration ⟨"--x", "", false⟩, .rule (.style [".d"] [])]]]) =
        ⟨[.group "media" "screen" [
          .style [".a > p:hover", "p:not(.b, .c)"] [⟨"color", "rgb(0, 0, 0)", true⟩],
          .block "font-face" "" [.declaration ⟨"--x", "", false⟩, .rule (.style [".d"] [])]]],
          [], []⟩ := by
  have h : Rule.plainAll .sheet [.group "media" "screen" [
      .style [".a > p:hover", "p:not(.b, .c)"] [⟨"color", "rgb(0, 0, 0)", true⟩],
      .block "font-face" "" [.declaration ⟨"--x", "", false⟩, .rule (.style [".d"] [])]]] = true := by
    decide +kernel
  exact ⟨h, parse_printAll_plain h⟩

end CssPrune
