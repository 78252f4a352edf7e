import CssPrune.Sheet
import CssPrune.Proofs.Gathering

/-!
# Reading statement after statement

`Reads` says what a list of components comes to under a grammar, whatever stands behind it, and
`Yields` says it of a text, whatever blanks stand in front of it.  Both go together piece by piece:
`Reads.append`, `YieldsAll.cons`.

* `Yields.of_head`: a head that reaches the mark behind it, and the block or semicolon that begins
  with that mark, are one statement.
* `readRules_of_reads`, `readItems_of_reads`, `readDeclarations_of_reads`: what the three readers
  make of such components.
-/

namespace CssPrune

open Component (Spells UpTo)

/-! ### Cutting -/

/-- A list is cut at the first component that ends the statement: nothing in front of it does. -/
theorem Terminators.cut_append {t : Terminators} {head rest : List Component} {c : Component}
    {e : Ending} (hh : ∀ d ∈ head, t.ending? d = none) (hc : t.ending? c = some e) :
    t.cut (head ++ c :: rest) = (head, e, rest) := by
  induction head with
  | nil => rw [List.nil_append, cut, hc]
  | cons d ds ih =>
      rw [List.cons_append, cut, hh d List.mem_cons_self,
        ih fun x hx => hh x (List.mem_cons_of_mem _ hx)]

namespace Grammar

variable {α : Type} {g : Grammar} {read : Statement → α} {b : Option Bracket} {f : Char}
  {x y : List Char} {cs ds : List Component} {as bs : List α}

theorem statements_nil (pos : Nat) : g.statements pos [] = [] := by rw [statements]

theorem statements_skip {c : Component} (h : g.skips c = true) (pos : Nat) (cs : List Component) :
    g.statements pos (c :: cs) = g.statements (pos + c.width) cs := by
  rw [statements, if_pos h]

/-- What the grammar does not skip is cut off as a statement, and reading goes on with the rest. -/
theorem statements_cut {c : Component} {head rest : List Component} {e : Ending}
    (pos : Nat) (hs : g.skips c = false) (hc : (g.ends (c :: cs)).cut (c :: cs) = (head, e, rest)) :
    ∃ pos', g.statements pos (c :: cs) = ⟨pos, head, e⟩ :: g.statements pos' rest := by
  refine ⟨Statement.stop ⟨pos, head, e⟩, ?_⟩
  rw [statements, if_neg (by rw [hs]; exact Bool.false_ne_true), hc]

/-! ### Components that come to something -/

/-- Whatever stands behind the components, they come to this, statement by statement. -/
def Reads (g : Grammar) (read : Statement → α) (cs : List Component) (as : List α) : Prop :=
  ∀ pos more, ∃ ss pos', g.statements pos (cs ++ more) = ss ++ g.statements pos' more ∧
    ss.map read = as

theorem Reads.nil : Reads g read [] [] := fun pos _ => ⟨[], pos, rfl, rfl⟩

/-- One list behind another comes to what the two come to, one behind the other. -/
theorem Reads.append (hc : Reads g read cs as) (hd : Reads g read ds bs) :
    Reads g read (cs ++ ds) (as ++ bs) := by
  intro pos more
  obtain ⟨ss, pos₁, h₁, e₁⟩ := hc pos (ds ++ more)
  obtain ⟨ts, pos₂, h₂, e₂⟩ := hd pos₁ more
  refine ⟨ss ++ ts, pos₂, ?_, ?_⟩
  · rw [List.append_assoc, h₁, h₂, List.append_assoc]
  · rw [List.map_append, e₁, e₂]

/-- Blanks come to nothing. -/
def SkipsBlanks (g : Grammar) : Prop := ∀ c : Component, c.isBlank = true → g.skips c = true

theorem Reads.blanks (hg : SkipsBlanks g) (s : List Char) : Reads g read (Component.blanks s) [] := by
  intro pos more
  rw [Component.blanks]
  split
  · exact ⟨[], pos, rfl, rfl⟩
  · exact ⟨[], _, statements_skip (hg _ rfl) _ _, rfl⟩

/-- A head without terminators and a terminator behind it are one statement. -/
theorem Reads.one {t : Terminators} {head : List Component} {c : Component} {e : Ending} {a : α}
    (hs : ∀ d ∈ (head ++ [c]).head?, g.skips d = false)
    (ht : ∀ more, g.ends (head ++ c :: more) = t) (hh : ∀ d ∈ head, t.ending? d = none)
    (hc : t.ending? c = some e) (hr : ∀ pos, read ⟨pos, head, e⟩ = a) :
    Reads g read (head ++ [c]) [a] := by
  intro pos more
  rw [List.append_assoc, List.singleton_append]
  have hcut : (g.ends (head ++ c :: more)).cut (head ++ c :: more) = (head, e, more) := by
    rw [ht]; exact Terminators.cut_append hh hc
  have hlist : ∃ d ds, head ++ c :: more = d :: ds ∧ g.skips d = false := by
    cases head with
    | nil => exact ⟨c, more, rfl, hs c rfl⟩
    | cons d head => exact ⟨d, head ++ c :: more, rfl, hs d rfl⟩
  obtain ⟨d, ds, hd, hskip⟩ := hlist
  rw [hd] at hcut ⊢
  obtain ⟨pos', h⟩ := statements_cut pos hskip hcut
  exact ⟨[_], pos', h, congrArg (fun z => [z]) (hr pos)⟩

/-! ### Texts that come to something -/

/-- The text comes to one thing, whatever blanks stand in front of it. -/
def Yields (g : Grammar) (read : Statement → α) (b : Option Bracket) (x : List Char) (a : α) :
    Prop :=
  ∀ s : List Char, s.all Token.isSpace = true → ∃ cs, Spells b (s ++ x) cs ∧ Reads g read cs [a]

/-- The text comes to a list of things: under its bracket, its components do. -/
def YieldsAll (g : Grammar) (read : Statement → α) (b : Option Bracket) (x : List Char)
    (as : List α) : Prop :=
  ∃ cs, Spells b x cs ∧ Reads g read cs as

theorem YieldsAll.nil : YieldsAll g read b [] [] := ⟨[], .nil, .nil⟩

/-- One thing more in front of a list, with blanks in front of it or without. -/
theorem YieldsAll.cons {s : List Char} {a : α} (hs : s.all Token.isSpace = true)
    (hx : Yields g read b x a) (hy : YieldsAll g read b y as) :
    YieldsAll g read b (s ++ x ++ y) (a :: as) := by
  obtain ⟨cs, hc, rc⟩ := hx s hs
  obtain ⟨ds, hd, rd⟩ := hy
  exact ⟨cs ++ ds, hc.append hd, rc.append rd⟩

/-- Blanks in front of a text change nothing. -/
theorem Yields.behind {s : List Char} {a : α} (hs : s.all Token.isSpace = true)
    (h : Yields g read b x a) : Yields g read b (s ++ x) a := by
  intro t ht
  rw [← List.append_assoc]
  exact h (t ++ s) (by rw [List.all_append, ht, hs]; rfl)

/-- A head in front of a mark, and the block or semicolon that begins with this mark. -/
theorem Yields.of_head {t : Terminators} {head : List Component} {c : Component} {e : Ending}
    {a : α} (hg : SkipsBlanks g) (hx : ∃ d, (x ++ [f]).head? = some d ∧ Token.isSpace d = false)
    (hu : UpTo b f x head) (hy : Spells b (f :: y) [c])
    (hs : ∀ d ∈ (head ++ [c]).head?, g.skips d = false)
    (ht : ∀ more, g.ends (head ++ c :: more) = t) (hh : ∀ d ∈ head, t.ending? d = none)
    (hc : t.ending? c = some e) (hr : ∀ pos, read ⟨pos, head, e⟩ = a) :
    Yields g read b (x ++ f :: y) a := by
  intro s hspace
  have hfirst : ∃ d, (x ++ f :: y).head? = some d ∧ Token.isSpace d = false := by
    cases x <;> exact hx
  exact ⟨Component.blanks s ++ (head ++ [c]), (hu.append hy).blanks hspace hfirst,
    (Reads.blanks hg s).append (.one hs ht hh hc hr)⟩

end Grammar

open Grammar

/-! ### The three readers -/

/-- A list of rules skips blanks between its statements. -/
theorem skipsBlanks_rules : SkipsBlanks rules := by
  intro c h
  show (c.isBlank || _ || _) = true
  rw [h]; rfl

theorem skipsBlanks_items : SkipsBlanks items := by
  intro c h
  show (c.isBlank || _) = true
  rw [h]; rfl

theorem skipsBlanks_declarations : SkipsBlanks declarations := skipsBlanks_items

/-- What is read without a fault. -/
def fine {α : Type} (a : α) : Outcome α := .plain (.ok a)

/-- The statements that are cut off the components are what these come to, at any position. -/
theorem statements_of_reads {α : Type} {g : Grammar} {read : Statement → α} {cs : List Component}
    {as : List α} (h : Reads g read cs as) (pos : Nat) : (g.statements pos cs).map read = as := by
  obtain ⟨ss, pos', hs, e⟩ := h pos []
  rw [List.append_nil, statements_nil, List.append_nil] at hs
  rw [hs, e]

/-- The reader of declarations makes of the components what they come to. -/
theorem readDeclarations_of_reads {cs : List Component} {ds : List (Except Fault Declaration)}
    (h : Reads declarations Statement.declaration cs ds) (pos : Nat) :
    readDeclarations pos cs = ds :=
  statements_of_reads h pos

/-- The reader of the items of a block makes of the components what they come to. -/
theorem readItems_of_reads {cs : List Component} {is : List (Outcome BlockItem)}
    (h : Reads items Statement.item cs is) (pos : Nat) : readItems pos cs = is := by
  rw [readItems_eq]; exact statements_of_reads h pos

/-- A statement with an at-name begins with the at-keyword of that name. -/
theorem Statement.exists_of_atName? {s : Statement} {name : String} (h : s.atName? = some name) :
    ∃ c cs, s.head = c :: cs ∧ c.token = .atKeyword name := by
  rw [atName?] at h
  split at h
  · next c cs hs =>
      split at h
      · next n hc => cases h; exact ⟨c, cs, hs, hc⟩
      · cases h
  · cases h

/-- An at-rule with a block is a group or it is not, by its name. -/
theorem Statement.rule_of_block {s : Statement} {name : String} {o : Lexeme}
    {body : List Component} {c : Option Lexeme} (hn : s.atName? = some name)
    (he : s.ending = .block o body c) :
    s.rule =
      if Rule.groupNames.contains (Text.lower name) then
        groupRule (Text.lower name) s.prelude (readRules s.bodyStart body)
      else blockRule (Text.lower name) s.prelude (readItems s.bodyStart body) := by
  rw [Statement.rule, hn]
  simp only
  split
  · next heq => rw [he] at heq; cases heq; rfl
  · next heq => rw [he] at heq; cases heq
  · next heq => rw [he] at heq; cases heq

/-- An at-rule without a block is read by its name in lower case. -/
theorem Statement.rule_of_bare {s : Statement} {name : String} (hn : s.atName? = some name)
    (he : s.ending = .semicolon ∨ s.ending = .missing) :
    s.rule = s.bareAtRule (Text.lower name) := by
  rw [Statement.rule, hn]
  simp only
  split
  · next heq => rcases he with he | he <;> rw [he] at heq <;> cases heq
  · rfl
  · rfl

theorem Statement.rule_of_plain {s : Statement} (hn : s.atName? = none) : s.rule = s.plainRule := by
  rw [Statement.rule, hn]

/-- The name of an at-rule. -/
def Rule.atName? : Rule → Option String
  | .style .. => none
  | .group name .. | .block name .. | .statement name _ => some name

/-- A style rule has no at-name. -/
theorem Statement.atName?_plainRule {s : Statement} {r : Rule} (h : s.plainRule.result = .ok r) :
    r.atName? = none := by
  unfold plainRule at h
  split at h
  · cases h
  split at h
  · simp only at h
    split at h
    · cases h
    · cases h; rfl
  · cases h
  · cases h

/-- An at-rule without a block keeps the name that it is read under. -/
theorem Statement.atName?_bareAtRule {s : Statement} {name : String} {r : Rule}
    (h : (s.bareAtRule name).result = .ok r) : r.atName? = some name := by
  unfold bareAtRule at h
  split at h
  · cases h
  · cases h; rfl

/-- A rule has the name of the at-keyword it was read from. -/
theorem Statement.atName?_rule {s : Statement} {r : Rule} (h : s.rule.result = .ok r) :
    r.atName? = s.atName?.map Text.lower := by
  rw [Statement.rule] at h
  split at h
  · next hn => rw [atName?_plainRule h, hn]; rfl
  next name hn =>
  rw [hn]
  split at h
  · split at h
    · cases h; rfl
    · cases h; rfl
  · exact atName?_bareAtRule h
  · exact atName?_bareAtRule h

def Rule.isCharset (r : Rule) : Bool := r.atName?.any fun name => name = "charset"

/-- A statement that is read without a fault is a `@charset` just when its rule is one. -/
theorem Statement.isCharset_rule {s : Statement} {r : Rule} (h : s.rule = fine r) :
    s.isCharset = r.isCharset := by
  have := atName?_rule (s := s) (r := r) (by rw [h]; rfl)
  rw [isCharset, Rule.isCharset, this]
  cases s.atName? <;> rfl

/-- What is kept of a list of rules: all but a `@charset` that leads it. -/
def Rule.lessCharset : List Rule → List Rule
  | [] => []
  | r :: rs => if r.isCharset then rs else r :: rs

/-- A list that no `@charset` leads is kept whole. -/
theorem Rule.lessCharset_eq {rs : List Rule} (h : rs.head?.any isCharset = false) :
    lessCharset rs = rs := by
  cases rs with
  | nil => rfl
  | cons r rs => exact if_neg (Bool.eq_false_iff.1 h)

/-- A list of rules is read without the `@charset` that leads it. -/
theorem readRules_lessCharset {cs : List Component} {rs : List Rule}
    (h : Reads rules Statement.rule cs (rs.map fine)) (pos : Nat) :
    readRules pos cs = (Rule.lessCharset rs).map fine := by
  have hs := statements_of_reads h pos
  rw [readRules_eq, ruleStatements]
  cases rs with
  | nil => rw [List.map_eq_nil_iff.1 hs]; rfl
  | cons r rs =>
      obtain ⟨s, ss, hl, hr, hrs⟩ := List.map_eq_cons_iff.1 hs
      rw [hl]
      simp only
      rw [Statement.isCharset_rule hr, Rule.lessCharset]
      split
      · exact hrs
      · rw [List.map_cons, List.map_cons, hr, hrs]

/-- The reader of rules makes of the components what they come to, if no `@charset` leads them. -/
theorem readRules_of_reads {cs : List Component} {rs : List Rule}
    (h : Reads rules Statement.rule cs (rs.map fine)) (hc : rs.head?.any Rule.isCharset = false)
    (pos : Nat) : readRules pos cs = rs.map fine := by
  rw [readRules_lessCharset h, Rule.lessCharset_eq hc]

/-! ### Blocks without faults -/

namespace Outcome

variable {α : Type}

theorem values_fine (as : List α) : values (as.map fine) = as := by
  induction as with
  | nil => rfl
  | cons a as ih => exact congrArg (a :: ·) ih

theorem faults_fine (as : List α) : faults (as.map fine) = [] := by
  induction as with
  | nil => rfl
  | cons a as ih => exact ih

theorem allInner_fine (as : List α) : allInner (as.map fine) = [] := by
  induction as with
  | nil => rfl
  | cons a as ih => exact ih

theorem allDropped_fine (as : List α) : allDropped (as.map fine) = [] := by
  induction as with
  | nil => rfl
  | cons a as ih => exact ih

end Outcome

open Outcome

/-- A style rule whose declarations have no fault has none. -/
theorem styleRule_fine (selectors : List String) (ds : List Declaration) :
    styleRule selectors (ds.map .ok) = fine (.style selectors ds) := by
  have : (ds.map (.ok : Declaration → Except Fault Declaration)).map Outcome.plain = ds.map fine :=
    List.map_map
  simp only [styleRule, this, values_fine, faults_fine]
  rfl

/-- An at-rule with a block of items without faults has none. -/
theorem blockRule_fine (name prelude : String) (is : List BlockItem) :
    blockRule name prelude (is.map fine) = fine (.block name prelude is) := by
  simp only [blockRule, values_fine, faults_fine, allDropped_fine]
  rfl

theorem groupRule_fine (name prelude : String) (rs : List Rule) :
    groupRule name prelude (rs.map fine) = fine (.group name prelude rs) := by
  simp only [groupRule, values_fine, faults_fine, allDropped_fine, allInner_fine]
  rfl

end CssPrune
