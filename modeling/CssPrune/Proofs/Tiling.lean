import CssPrune.Sheet
import CssPrune.Proofs.Gathering

/-!
# Statements are pieces of the text

The lexemes of a text are read from their own texts (`Lexeme.faithful_of_mem_scan`), so a semicolon is
one character and an at-keyword begins with an at-sign.  A list of components is therefore put together
from its statements and what is skipped between them (`Grammar.exists_cuts`): each statement stands in
the text at the offsets that it has (`Component.Placed.statement`, `Component.Placed.slice`), and the
next one starts no earlier than it stops (`Grammar.pairwise_statements`).
-/

namespace CssPrune

/-! ### Lexemes and their texts -/

/-- What some tokens begin with. -/
def Token.Begins (c : Char) : Token → Prop
  | .semicolon => c = ';'
  | .closeCurly => c = '\x7d'
  | .atKeyword _ => c = '@'
  | .space _ => True
  | _ => Token.isSpace c = false

/-- What a number begins with is no blank. -/
theorem Token.begins_readNumeric {c : Char} (h : isSpace c = false) (cs : List Char) :
    Begins c (readNumeric cs).1 := by
  simp only [readNumeric]
  split
  · exact h
  · split <;> exact h

/-- What a name, a function or an address begins with is no blank. -/
theorem Token.begins_readNamed {c : Char} (h : isSpace c = false) (cs : List Char) :
    Begins c (readNamed cs).1 := by
  have hurl : ∀ arg u, Begins c (urlToken arg u).1 := by
    intro arg u
    obtain ⟨value, k, rest⟩ := u
    cases k <;> exact h
  by_cases hp : (readName cs).2.head? = some '('
  · obtain ⟨rest, hr⟩ := List.head?_eq_some_iff.1 hp
    rw [readNamed_paren hr, readUrlToken_eq]
    split
    · split
      · exact h
      · exact hurl _ _
    · exact h
  · rw [readNamed_ident hp]
    exact h

/-- A mark is read from its own character: a semicolon, or a curly bracket that closes. -/
theorem Token.begins_readMark {c : Char} (h : isSpace c = false) (cs : List Char) :
    Begins c (readMark c cs).1 := by
  unfold readMark
  split <;> first | exact h | rfl

/-- Every token that is read begins with what `Begins` asks for. -/
theorem Token.begins_read (c : Char) (cs : List Char) : Begins c (read c cs).1 := by
  by_cases hs : isSpace c = true
  · rw [read, if_pos hs]
    trivial
  rw [Bool.not_eq_true] at hs
  unfold read
  split
  · trivial
  split
  · simp only [stringToken]
    split <;> exact hs
  split
  · exact begins_readNumeric hs _
  split
  · exact hs
  split
  · exact begins_readNamed hs _
  split
  · simp only [readHash]
    split
    · exact hs
    · split <;> exact hs
  split
  · next h =>
    simp only [readAt]
    split
    · exact h
    · exact hs
  split
  · exact hs
  · exact begins_readMark hs cs

namespace Lexeme

/-- The lexeme is the first token of its own text with some text behind it. -/
def Faithful (x : Lexeme) : Prop :=
  ∃ c u r, x.text = c :: u ∧ Token.read c (u ++ r) = (x.token, r)

/-- Every lexeme of a text is read from its own text. -/
theorem faithful_of_mem_scan (cs : List Char) : ∀ x ∈ scan cs, x.Faithful := by
  generalize hxs : scan cs = xs
  induction xs generalizing cs with
  | nil => simp
  | cons x xs ih =>
      obtain ⟨c, u, htext, -, hread, hscan⟩ := scan_eq_cons hxs
      intro y hy
      rcases List.mem_cons.1 hy with rfl | hy
      · exact ⟨c, u, textOf xs, htext, hread⟩
      · exact ih _ hscan y hy

variable {x : Lexeme}

/-- The text of such a lexeme is not empty, and begins as its token does. -/
theorem Faithful.begins (h : x.Faithful) : ∃ c u, x.text = c :: u ∧ Token.Begins c x.token := by
  obtain ⟨c, u, r, htext, hread⟩ := h
  refine ⟨c, u, htext, ?_⟩
  have := Token.begins_read c (u ++ r)
  rwa [hread] at this

/-- A lexeme with the token of a mark is this mark, if nothing else begins like it. -/
theorem Faithful.eq_mark {f : Char} (h : x.Faithful) (hf : Token.standsAlone f = true)
    (hx : x.token = (mark f).token) (hb : ∀ c, Token.Begins c (mark f).token → c = f) :
    x = mark f := by
  obtain ⟨c, u, r, htext, hread⟩ := h
  have hbegins := Token.begins_read c (u ++ r)
  rw [hread, hx] at hbegins
  obtain rfl := hb c hbegins
  rw [Token.read_mark hf] at hread
  have hu : u = [] := List.self_eq_append_left.1 (congrArg Prod.snd hread).symm
  subst hu
  obtain ⟨t, text⟩ := x
  rw [show text = [c] from htext, show t = (mark c).token from hx]
  rfl

end Lexeme

namespace Component

/-- Every lexeme of the components is read from its text. -/
def Faithful (cs : List Component) : Prop := ∀ x ∈ lexemesOf cs, x.Faithful

/-- Every lexeme in the components of a text is read from its text. -/
theorem faithful_ofText (cs : List Char) : Faithful (ofText cs) := by
  intro x hx
  rw [ofText, lexemesOf_gather] at hx
  exact Lexeme.faithful_of_mem_scan cs x hx

section Faithful

variable {cs ds : List Component} {c : Component}

theorem Faithful.left (h : Faithful (cs ++ ds)) : Faithful cs := by
  intro x hx
  exact h x (by rw [lexemesOf_append]; exact List.mem_append_left _ hx)

theorem Faithful.right (h : Faithful (cs ++ ds)) : Faithful ds := by
  intro x hx
  exact h x (by rw [lexemesOf_append]; exact List.mem_append_right _ hx)

theorem Faithful.tail (h : Faithful (c :: cs)) : Faithful cs :=
  fun x hx => h x (List.mem_append_right _ hx)

/-- What stands in the brackets of a block is read from its text as well. -/
theorem Faithful.body {x : Lexeme} {y : Option Lexeme}
    (h : Faithful (.block x cs y :: ds)) : Faithful cs := by
  intro z hz
  refine h z (List.mem_append_left _ (List.mem_cons_of_mem _ (List.mem_append_left _ hz)))

/-- The lexeme of a leaf, or the bracket that opens a block. -/
def first : Component → Lexeme
  | .leaf x => x
  | .block x _ _ => x

theorem token_first (c : Component) : c.first.token = c.token := by
  cases c <;> rfl

theorem Faithful.first (h : Faithful (c :: cs)) : c.first.Faithful := by
  refine h c.first (List.mem_append_left _ ?_)
  cases c with
  | leaf x => exact List.mem_singleton_self x
  | block x body y => exact List.mem_cons_self

/-- A text begins with the text of its first lexeme. -/
theorem text_first (c : Component) : ∃ u, c.text = c.first.text ++ u := by
  cases c with
  | leaf x => exact ⟨[], (List.append_nil _).symm⟩
  | block x body y => exact ⟨_, rfl⟩

/-- The text of the components begins as the token of the first one does. -/
theorem Faithful.begins (h : Faithful (c :: cs)) :
    ∃ d u, textOf (c :: cs) = d :: u ∧ Token.Begins d c.token := by
  obtain ⟨d, u, hd, hb⟩ := h.first.begins
  obtain ⟨v, hv⟩ := text_first c
  refine ⟨d, u ++ v ++ textOf cs, ?_, ?_⟩
  · rw [textOf, hv, hd]; simp
  · rwa [token_first] at hb

end Faithful

end Component

open Component (Faithful textOf widthOf)

/-! ### Statements as components -/

/-- The block, or the semicolon, that a statement ends with. -/
def Ending.components : Ending → List Component
  | .block opener body closer => [.block opener body closer]
  | .semicolon => [.leaf (Lexeme.mark ';')]
  | .missing => []

theorem Ending.textOf_components (e : Ending) : textOf e.components = e.text := by
  cases e <;> simp [components, text, textOf, Component.text, Lexeme.mark]

/-- The component that a statement ends with is all of the ending. -/
theorem Terminators.ending?_eq {t : Terminators} {c : Component} {cs : List Component} {e : Ending}
    (hf : Faithful (c :: cs)) (h : t.ending? c = some e) : e.components = [c] := by
  cases c with
  | leaf x =>
      simp only [ending?] at h
      split at h
      · next ht =>
          cases h
          rw [Bool.and_eq_true, decide_eq_true_eq] at ht
          have hx : x.Faithful := hf.first
          rw [hx.eq_mark (f := ';') rfl ht.2 fun c hc => hc]
          rfl
      · cases h
  | block x body y =>
      simp only [ending?] at h
      split at h
      · cases h; rfl
      · cases h

/-- What a cut gives: a head in which nothing ends the statement, and what ends it, if not the list
itself does. -/
theorem Terminators.cut_spec (t : Terminators) (cs : List Component) :
    (∀ d ∈ (t.cut cs).1, t.ending? d = none) ∧
      ((t.cut cs = (cs, .missing, [])) ∨
        ∃ c, t.ending? c = some (t.cut cs).2.1 ∧ cs = (t.cut cs).1 ++ c :: (t.cut cs).2.2) := by
  induction cs with
  | nil => exact ⟨List.forall_mem_nil _, .inl rfl⟩
  | cons c cs ih =>
      rw [cut]
      split
      · next e he => exact ⟨List.forall_mem_nil _, .inr ⟨c, he, rfl⟩⟩
      · next hn =>
          refine ⟨fun d hd => ?_, ?_⟩
          · rcases List.mem_cons.1 hd with rfl | hd
            · exact hn
            · exact ih.1 d hd
          · rcases ih.2 with h | ⟨d, hd, hcs⟩
            · rw [h]; exact .inl rfl
            · exact .inr ⟨d, hd, congrArg (c :: ·) hcs⟩

/-- No component is an ending that is missing. -/
theorem Terminators.ending?_ne_missing {t : Terminators} {c : Component} :
    t.ending? c ≠ some .missing := by
  intro h
  cases c with
  | leaf x => simp only [ending?] at h; split at h <;> cases h
  | block x body y => simp only [ending?] at h; split at h <;> cases h

/-- Cutting loses nothing. -/
theorem Terminators.cut_eq (t : Terminators) {cs : List Component} (hf : Faithful cs) :
    (t.cut cs).1 ++ ((t.cut cs).2.1.components ++ (t.cut cs).2.2) = cs := by
  rcases (t.cut_spec cs).2 with h | ⟨c, hc, hcs⟩
  · rw [h]
    exact List.append_nil cs
  · have hfc : Faithful (c :: (t.cut cs).2.2) := by
      rw [hcs] at hf
      exact hf.right
    rw [ending?_eq hfc hc]
    exact hcs.symm

namespace Statement

def components (s : Statement) : List Component := s.head ++ s.ending.components

def text (s : Statement) : List Char := textOf s.components

theorem stop_eq (s : Statement) : s.stop = s.start + s.text.length := by
  rw [stop, headStop, text, components, Component.textOf_append, List.length_append,
    Ending.textOf_components, Component.widthOf_eq, Ending.width_eq, Nat.add_assoc]

theorem start_le_stop (s : Statement) : s.start ≤ s.stop := by
  rw [stop_eq]
  exact Nat.le_add_right _ _

end Statement

namespace Grammar

variable {g : Grammar} {pos : Nat} {cs : List Component} {s : Statement}

/-- The list begins with the statement, which is cut off by itself, and `rest` is behind it. -/
structure Cuts (g : Grammar) (s : Statement) (rest : List Component) : Prop where
  cut : (g.ends (s.components ++ rest)).cut (s.components ++ rest) = (s.head, s.ending, rest)
  skips : ∃ c ds, s.components ++ rest = c :: ds ∧ g.skips c = false

/-- A statement of a list, and what stands in front of it and behind it. -/
theorem exists_cuts (hf : Faithful cs) (hs : s ∈ g.statements pos cs) :
    ∃ as rest, cs = as ++ (s.components ++ rest) ∧ s.start = pos + widthOf as ∧
      g.Cuts s rest := by
  fun_induction statements g pos cs with
  | case1 => cases hs
  | case2 pos c cs _ ih =>
      obtain ⟨as, rest, rfl, hstart, hcut⟩ := ih hf.tail hs
      refine ⟨c :: as, rest, rfl, ?_, hcut⟩
      rw [hstart, Component.widthOf, Nat.add_assoc]
  | case3 pos c cs hc r t ih =>
      have heq := (g.ends (c :: cs)).cut_eq hf
      rcases List.mem_cons.1 hs with rfl | hs
      · refine ⟨[], r.2.2, ?_, rfl, ?_, c, cs, ?_, Bool.eq_false_iff.2 hc⟩
        · rw [List.nil_append, Statement.components, List.append_assoc]
          exact heq.symm
        · rw [Statement.components, List.append_assoc]
          show (g.ends ((_ : List Component) ++ _)).cut _ = _
          rw [heq]
        · rw [Statement.components, List.append_assoc]
          exact heq
      · have hrest : Faithful r.2.2 := by
          rw [← heq] at hf
          exact hf.right.right
        obtain ⟨as, rest, hr, hstart, hcut⟩ := ih hrest hs
        refine ⟨t.components ++ as, rest, ?_, ?_, hcut⟩
        · rw [List.append_assoc, ← hr, Statement.components, List.append_assoc]
          exact heq.symm
        · rw [hstart, Statement.stop_eq, Component.widthOf_eq, Component.widthOf_eq,
            Component.textOf_append, List.length_append, Nat.add_assoc]
          rfl

/-- A statement starts no earlier than the list that it is cut off. -/
theorem le_start (hs : s ∈ g.statements pos cs) : pos ≤ s.start := by
  fun_induction statements g pos cs with
  | case1 => cases hs
  | case2 pos c cs _ ih => exact (Nat.le_add_right _ _).trans (ih hs)
  | case3 pos c cs _ r t ih =>
      rcases List.mem_cons.1 hs with rfl | hs
      · exact Nat.le_refl _
      · exact (Statement.start_le_stop t).trans (ih hs)

/-- A statement stops no later than the list that it is cut off. -/
theorem stop_le (hf : Faithful cs) (hs : s ∈ g.statements pos cs) : s.stop ≤ pos + widthOf cs := by
  obtain ⟨as, rest, rfl, hstart, -⟩ := exists_cuts hf hs
  rw [Statement.stop_eq, hstart, Statement.text, Component.widthOf_eq, Component.widthOf_eq,
    Component.textOf_append, Component.textOf_append, List.length_append, List.length_append]
  omega

/-- Statements follow each other. -/
theorem pairwise_statements (g : Grammar) (pos : Nat) (cs : List Component) :
    (g.statements pos cs).Pairwise fun s t => s.stop ≤ t.start := by
  fun_induction statements g pos cs with
  | case1 => exact .nil
  | case2 pos c cs _ ih => exact ih
  | case3 pos c cs _ r s ih => exact .cons (fun t ht => le_start ht) ih

/-- The statements that become rules are statements of the list, in its order. -/
theorem ruleStatements_sublist (pos : Nat) (cs : List Component) :
    (ruleStatements pos cs).Sublist (rules.statements pos cs) := by
  unfold ruleStatements
  split
  · next heq =>
      rw [heq]
      split
      · exact List.sublist_cons_self _ _
      · exact List.Sublist.refl _
  · exact List.nil_sublist _

/-- Of two statements that become rules, the later starts where the earlier stops, or behind. -/
theorem pairwise_ruleStatements (pos : Nat) (cs : List Component) :
    (ruleStatements pos cs).Pairwise fun s t => s.stop ≤ t.start :=
  (pairwise_statements rules pos cs).sublist (ruleStatements_sublist pos cs)

end Grammar

/-! ### Places in the text -/

namespace Component

/-- The components are read from the text, where they start at the offset `pos`. -/
structure Placed (text : List Char) (pos : Nat) (cs : List Component) : Prop where
  faithful : Faithful cs
  at_pos : ∃ a b, text = a ++ (textOf cs ++ b) ∧ a.length = pos

variable {text : List Char} {pos : Nat} {cs : List Component} {s : Statement}

theorem placed_ofText (text : List Char) : Placed text 0 (ofText text) :=
  ⟨faithful_ofText text, [], [], by rw [textOf_ofText]; simp⟩

/-- Components between others start behind those in front of them. -/
theorem Placed.infix {as bs : List Component} (h : Placed text pos (as ++ (cs ++ bs))) :
    Placed text (pos + widthOf as) cs := by
  obtain ⟨a, b, htext, hlen⟩ := h.at_pos
  refine ⟨h.faithful.right.left, a ++ textOf as, textOf bs ++ b, ?_, ?_⟩
  · rw [htext, textOf_append, textOf_append]; simp
  · rw [List.length_append, hlen, widthOf_eq]

/-- A statement that is cut off placed components is placed at its own offset. -/
theorem Placed.statement {g : Grammar} (h : Placed text pos cs) (hs : s ∈ g.statements pos cs) :
    Placed text s.start s.components := by
  obtain ⟨as, rest, rfl, hstart, -⟩ := Grammar.exists_cuts h.faithful hs
  rw [hstart]
  exact h.infix

/-- The block that a statement ends with stands at the offset that it has. -/
theorem Placed.body {opener : Lexeme} {body : List Component} {closer : Option Lexeme}
    (h : Placed text s.start s.components) (he : s.ending = .block opener body closer) :
    Placed text s.bodyStart body := by
  rw [Statement.components, he] at h
  obtain ⟨a, b, htext, hlen⟩ := h.at_pos
  refine ⟨h.faithful.right.body, a ++ (textOf s.head ++ opener.text),
    closer.elim [] Lexeme.text ++ b, ?_, ?_⟩
  · rw [htext, textOf_append]
    simp [Ending.components, textOf, Component.text]
  · rw [Statement.bodyStart, he, Statement.headStop, widthOf_eq, List.length_append,
      List.length_append, hlen]
    exact (Nat.add_assoc _ _ _).symm

/-- The piece of the text between the offsets of a statement is the text of the statement. -/
theorem Placed.slice (h : Placed text s.start s.components) :
    slice text s.start s.stop = s.text := by
  obtain ⟨a, b, htext, hlen⟩ := h.at_pos
  rw [Statement.stop_eq, CssPrune.slice, Nat.add_sub_cancel_left, htext, ← hlen, List.drop_left]
  exact List.take_left

end Component

end CssPrune
