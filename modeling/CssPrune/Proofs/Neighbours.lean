import CssPrune.Proofs.Errors
import CssPrune.Proofs.Pieces
import CssPrune.Proofs.Words

/-!
# Declarations and what stands between them

The block of a style rule is a list of entries with semicolons between: assignments of words to a
property, and junk that begins no declaration.  Each entry is one statement of the block
(`Entry.statements`), so nothing of it gets into the next one: assignments are read as declarations and
junk is reported with its text (`Stylesheet.parse_entries`).
-/

namespace CssPrune

open Component (Spells UpTo nameLeaf Placed Faithful)
open Grammar
open Plain (Still isTame)

/-! ### Entries -/

/-- Letters, digits and the marks that a word of a value can have. -/
def isValueChar (c : Char) : Bool := c.isAlphanum || "#%.".toList.contains c

/-- Letters, digits, the space and the marks that junk can have besides colons. -/
def isJunkChar (c : Char) : Bool := c.isAlphanum || " *.#>,".toList.contains c

/-- Marks that begin no declaration. -/
def isJunkMark (c : Char) : Bool := "*.#>,".toList.contains c

/-- A property and the words that are its value. -/
structure Assignment where
  name : List Char
  words : List (List Char)
  isName : plainName name = true
  words_ne_nil : words ≠ []
  isValue : ∀ w ∈ words, w ≠ [] ∧ w.all isValueChar = true

/-- A text that begins no declaration, because it has no colon or begins with a mark. -/
structure Junk where
  text : List Char
  isJunk : text.all (fun c => isJunkChar c || c = ':') = true
  start : ∃ c, text.head? = some c ∧ (c ≠ ' ' ∧ ':' ∉ text ∨ isJunkMark c = true)

/-- What stands between two semicolons: an assignment or junk. -/
inductive Entry where
  | assignment (a : Assignment)
  | junk (j : Junk)

namespace Assignment

variable (a : Assignment)

/-- The words with one space between each two. -/
def value : List Char := [' '].intercalate a.words

/-- The declaration that the assignment is. -/
def declaration : Declaration := ⟨String.ofList a.name, String.ofList a.value, false⟩

end Assignment

namespace Entry

/-- The entry as it is written. -/
def text : Entry → List Char
  | .assignment a => a.name ++ ':' :: a.value
  | .junk j => j.text

/-- The declaration of an entry, if it is an assignment. -/
def declaration? : Entry → Option Declaration
  | .assignment a => some a.declaration
  | .junk _ => none

/-- The text of an entry that is junk. -/
def junk? : Entry → Option (List Char)
  | .assignment _ => none
  | .junk j => some j.text

/-- The entries with semicolons between. -/
def blockText (es : List Entry) : List Char := [';'].intercalate (es.map text)

/-- A style rule with the entries in its block. -/
def sheet (es : List Entry) : String :=
  String.ofList ('.' :: 'a' :: '\x7b' :: (blockText es ++ ['\x7d']))

end Entry

/-! ### The characters of an entry -/

/-- Letters, digits and all marks that entries have in them. -/
def isEntryChar (c : Char) : Bool := c.isAlphanum || "*.#>, %:-".toList.contains c

theorem isEntryChar_of {s : List Char} (hs : s.all isEntryChar = true) {c : Char}
    (h : (c.isAlphanum || s.contains c) = true) : isEntryChar c = true := by
  rcases Bool.or_eq_true_iff.1 h with h | h
  · rw [isEntryChar, h]; rfl
  · exact List.all_eq_true.1 hs c (List.elem_iff.1 h)

theorem isTame_of_isEntryChar {c : Char} (h : isEntryChar c = true) : isTame c = true := by
  rcases Bool.or_eq_true_iff.1 h with h | h
  · simp only [Char.isAlphanum, Char.isAlpha, Bool.or_eq_true] at h
    rcases h with (h | h) | h <;> simp [isTame, Plain.isPlain, h]
  · have hall : "*.#>, %:-".toList.all isTame = true := by decide
    exact List.all_eq_true.1 hall c (List.elem_iff.1 h)

theorem all_isTame {x : List Char} (hx : x.all isEntryChar = true) : x.all isTame = true :=
  List.all_eq_true.2 fun c hc => isTame_of_isEntryChar (List.all_eq_true.1 hx c hc)

/-- No entry has a character of another kind. -/
theorem not_mem_of_isEntryChar {c : Char} {x : List Char} (hx : x.all isEntryChar = true)
    (hc : isEntryChar c = false) : c ∉ x := by
  intro hm
  rw [List.all_eq_true.1 hx c hm] at hc
  cases hc

/-- No letter is lowered to a parenthesis. -/
theorem eq_paren_of_toLower {c : Char} (h : c.toLower = '(') : c = '(' := by
  by_cases hu : c.isUpper = true
  · have halpha := Char.isAlpha_toLower_eq_isAlpha c
    have hc : c.isAlpha = true := by rw [Char.isAlpha, hu]; rfl
    rw [h, hc] at halpha
    cases halpha
  · rwa [Char.toLower_eq_of_not_isUpper hu] at h

/-- The components of an entry's text in front of a mark. -/
theorem exists_still {x : List Char} (hx : x.all isEntryChar = true) {f : Char}
    (hf : Token.standsAlone f = true) (b : Option Bracket) :
    ∃ cs, UpTo b f x cs ∧ Component.textOf cs = x ∧ ∀ c ∈ cs, Still c := by
  have hurl : Plain.holdsUrl (x.map Char.toLower) = false := by
    refine Plain.holdsUrl_append (x := []) rfl fun hm => ?_
    obtain ⟨c, hc, he⟩ := List.mem_map.1 hm
    exact not_mem_of_isEntryChar hx rfl (eq_paren_of_toLower he ▸ hc)
  have hbal : Plain.balanced true 0 x = true :=
    Plain.balanced_of_not_mem (not_mem_of_isEntryChar hx rfl) (not_mem_of_isEntryChar hx rfl) 0
  obtain ⟨cs, hfront, htext, hall⟩ := Plain.front_of_tame (all_isTame hx) hurl hbal hf
  have hstill : ∀ c ∈ cs, Still c := fun c hc => (hall c hc).1
  exact ⟨cs, Component.upTo_of_front? hf hfront (Still.fitAll b cs hstill), htext, hstill⟩

namespace Assignment

variable (a : Assignment)

theorem name_all : a.name.all isEntryChar = true := by
  obtain ⟨c, cs, hn⟩ : ∃ c cs, a.name = c :: cs := by
    refine List.exists_cons_of_ne_nil fun e => ?_
    have := a.isName
    rw [e] at this
    cases this
  have hname := a.isName
  have hlower : ∀ d : Char, d.isLower = true → isEntryChar d = true := fun d hd => by
    simp [isEntryChar, Char.isAlphanum, Char.isAlpha, hd]
  rw [hn, plainName, Bool.and_eq_true, List.all_eq_true] at hname
  rw [hn, List.all_eq_true]
  refine List.forall_mem_cons.2 ⟨hlower c hname.1, fun d hd => ?_⟩
  rcases Bool.or_eq_true_iff.1 (hname.2 d hd) with h | h
  · exact hlower d h
  · rw [of_decide_eq_true h]
    rfl

/-- A value has one word or more. -/
theorem exists_words : ∃ w ws, a.value = w ++ ws.flatMap (' ' :: ·) ∧
    ∀ v ∈ w :: ws, v ≠ [] ∧ v.all isValueChar = true := by
  obtain ⟨w, ws, h⟩ := List.exists_cons_of_ne_nil a.words_ne_nil
  exact ⟨w, ws, by rw [value, h, Text.intercalate_cons], h ▸ a.isValue⟩

theorem value_all : a.value.all isEntryChar = true := by
  obtain ⟨w, ws, hv, hall⟩ := a.exists_words
  have hword : ∀ v ∈ w :: ws, v.all isEntryChar = true := fun v hm =>
    List.all_eq_true.2 fun c hc =>
      isEntryChar_of (by decide) (List.all_eq_true.1 (hall v hm).2 c hc)
  rw [hv, List.all_append, hword w List.mem_cons_self, Bool.true_and, List.all_flatMap,
    List.all_eq_true]
  exact fun v hm => hword v (List.mem_cons_of_mem _ hm)

/-- A word in front of a text keeps its single spaces. -/
theorem spaced_word {w : List Char} (hne : w ≠ []) (hw : w.all isValueChar = true) (blank : Bool)
    (x : List Char) : Plain.spaced blank (w ++ x) = Plain.spaced false x := by
  induction w generalizing blank with
  | nil => exact absurd rfl hne
  | cons c w ih =>
      rw [List.all_cons, Bool.and_eq_true] at hw
      have hc : c ≠ ' ' := by rintro rfl; cases hw.1
      rw [List.cons_append, Plain.spaced, if_neg hc]
      by_cases hn : w = []
      · rw [hn]; rfl
      · exact ih hn hw.2 false

/-- A value is spaced singly. -/
theorem spaced_value : Plain.spaced true a.value = true := by
  obtain ⟨w, ws, hv, hall⟩ := a.exists_words
  obtain ⟨hw, hws⟩ := List.forall_mem_cons.1 hall
  rw [hv, spaced_word hw.1 hw.2]
  clear hv hall hw
  induction ws with
  | nil => rfl
  | cons v vs ih =>
      obtain ⟨hv, hvs⟩ := List.forall_mem_cons.1 hws
      rw [List.flatMap_cons, List.cons_append, Plain.spaced, if_pos rfl, spaced_word hv.1 hv.2, ih hvs]
      rfl

/-- The declaration of an assignment is normal. -/
theorem normal : a.declaration.Normal where
  name := normalName_plain (by rw [declaration, String.toList_ofList, a.isName]; rfl)
  value := by
    have hnormal := Plain.normalize_of_spaced (all_isTame a.value_all) a.spaced_value (.inl rfl)
    rw [List.append_nil] at hnormal
    rw [declaration, String.toList_ofList]
    exact ⟨hnormal, Plain.trimmed_of_spaced (all_isTame a.value_all) a.spaced_value⟩

end Assignment

theorem Junk.text_all (j : Junk) : j.text.all isEntryChar = true := by
  refine List.all_eq_true.2 fun c hc => ?_
  rcases Bool.or_eq_true_iff.1 (List.all_eq_true.1 j.isJunk c hc) with h | h
  · exact isEntryChar_of (by decide) h
  · rw [of_decide_eq_true h]
    rfl

/-! ### Entries as statements -/

/-- The components of an entry. -/
structure Entry.Heads (e : Entry) (cs : List Component) : Prop where
  text : Component.textOf cs = e.text
  still : ∀ c ∈ cs, Still c
  begins : ∀ a, e = .assignment a → ∃ vs, cs = nameLeaf a.name :: .leaf (Lexeme.mark ':') :: vs

namespace Entry

variable {e : Entry} {es : List Entry} {cs : List Component} {s : Statement}

/-- An entry in front of a mark that stands alone comes to the components of an entry. -/
theorem exists_heads (e : Entry) {f : Char} (hf : Token.standsAlone f = true) (b : Option Bracket) :
    ∃ cs, UpTo b f e.text cs ∧ e.Heads cs := by
  cases e with
  | assignment a =>
      obtain ⟨vs, hv, htext, hstill⟩ := exists_still a.value_all hf b
      have hcolon : Spells b [':'] [.leaf (Lexeme.mark ':')] := Component.spells_mark rfl rfl
      have hname := Component.upTo_name (b := b) (f := ':') (spelled_plainName a.isName) rfl
      refine ⟨nameLeaf a.name :: .leaf (Lexeme.mark ':') :: vs, ?_, ?_, ?_, ?_⟩
      · have := (hname.append hcolon).upTo hv
        rwa [List.append_assoc] at this
      · rw [Component.textOf, Component.textOf, htext]
        rfl
      · have hchars : a.name.all Token.isNameChar = true := by
          have := (Bool.and_eq_true_iff.1 (spelled_plainName a.isName)).2
          exact List.all_eq_true.2 fun c hc =>
            (Bool.and_eq_true_iff.1 (List.all_eq_true.1 this c hc)).1
        exact List.forall_mem_cons.2 ⟨.leaf (.ident hchars) rfl rfl,
          List.forall_mem_cons.2 ⟨.leaf .colon rfl rfl, hstill⟩⟩
      · intro a' h
        cases h
        exact ⟨vs, rfl⟩
  | junk j =>
      obtain ⟨cs, hcs, htext, hstill⟩ := exists_still j.text_all hf b
      exact ⟨cs, hcs, htext, hstill, fun _ h => by cases h⟩

/-- A statement with the components of an assignment is read as its declaration. -/
theorem declaration_of_assignment {a : Assignment} (h : (Entry.assignment a).Heads s.head) :
    s.declaration = .ok a.declaration := by
  obtain ⟨vs, hs⟩ := h.begins a rfl
  have hvs : Component.textOf vs = a.value := by
    have htext := h.text
    rw [hs, Component.textOf, Component.textOf] at htext
    exact (List.cons.inj (List.append_cancel_left htext)).2
  have hmark : Declaration.importantMark.isSuffixOf a.value = false := by
    by_contra hm
    rw [Bool.not_eq_false, List.isSuffixOf_iff_suffix] at hm
    exact not_mem_of_isEntryChar a.value_all (c := '!') rfl (hm.subset (.head _))
  have hhead : s.head = nameLeaf a.declaration.name.toList :: .leaf (Lexeme.mark ':') :: vs := by
    rw [hs, Assignment.declaration, String.toList_ofList]
  have hvalue : Component.textOf vs = Layout.compressed.gap ++ a.declaration.written := by
    simp [hvs, Assignment.declaration, Declaration.written, Layout.gap, Layout.only]
  have hread := asDeclaration_written a.normal
    (fun _ => by rw [Assignment.declaration, String.toList_ofList]; exact hmark) hhead hvalue
  rw [Statement.declaration, hs]
  exact hread

/-- Where junk begins with a name, it has no colon. -/
theorem colon_not_mem {j : Junk} {c : Component} {name : String}
    (h : (Entry.junk j).Heads (c :: cs)) (hf : Faithful (c :: cs)) (ht : c.token = .ident name) :
    ':' ∉ j.text := by
  obtain ⟨d, hd, ⟨-, hcolon⟩ | hmark⟩ := j.start
  · exact hcolon
  exfalso
  have htext : Component.textOf (c :: cs) = j.text := h.text
  cases h.still c List.mem_cons_self with
  | @leaf x hl _ _ =>
      -- a name begins with a character of a name, which the mark is not
      obtain ⟨d', u, hx, -⟩ := (hf x (by simp [Component.lexemesOf, Component.lexemes])).begins
      have hchars : x.text.all Token.isNameChar = true := hl.ident_chars ht
      have hhead : (Component.textOf (.leaf x :: cs)).head? = some d' := by
        rw [Component.textOf, Component.text, hx]; rfl
      rw [htext, hd] at hhead
      obtain rfl := Option.some.inj hhead
      rw [hx, List.all_cons, Bool.and_eq_true] at hchars
      have hall : "*.#>,".toList.all (fun c => !Token.isNameChar c) = true := by decide
      have := List.all_eq_true.1 hall d (List.elem_iff.1 hmark)
      rw [hchars.1] at this
      cases this
  | @block o y body _ ho _ _ _ =>
      have ht : o.token = .ident name := ht
      rw [ht] at ho
      cases ho

theorem text_all (e : Entry) : e.text.all isEntryChar = true := by
  cases e with
  | assignment a =>
      rw [text, List.all_append, List.all_cons, a.name_all, a.value_all]
      rfl
  | junk j => exact j.text_all

/-- An entry begins with a character that is neither a blank nor a hyphen. -/
theorem exists_head (e : Entry) : ∃ c, e.text.head? = some c ∧ c ≠ ' ' ∧ c ≠ '-' := by
  cases e with
  | assignment a =>
      have hname := a.isName
      cases hn : a.name with
      | nil => rw [hn] at hname; cases hname
      | cons c n =>
          rw [hn, plainName, Bool.and_eq_true] at hname
          refine ⟨c, by rw [text, hn]; rfl, ?_, ?_⟩
          · rintro rfl; cases hname.1
          · rintro rfl; cases hname.1
  | junk j =>
      obtain ⟨c, hc, hstart⟩ := j.start
      refine ⟨c, hc, ?_, ?_⟩
      · rintro rfl
        rcases hstart with ⟨hne, -⟩ | hmark
        · exact hne rfl
        · cases hmark
      · rintro rfl
        cases List.all_eq_true.1 j.isJunk _ (List.mem_of_head? hc)

/-- The first component of an entry looks like that of a selector. -/
theorem Heads.leading (h : e.Heads cs) : ∃ c ds, cs = c :: ds ∧ Leading c.token := by
  obtain ⟨d, hd, hspace, hhyphen⟩ := e.exists_head
  cases cs with
  | nil =>
      rw [← h.text] at hd
      cases hd
  | cons c ds =>
      refine ⟨c, ds, rfl, leading_of_still (h.still c List.mem_cons_self)
        (show (Component.textOf (c :: ds)).head? ≠ some ' ' from ?_) ?_⟩
      · rw [h.text, hd]
        exact fun e => hspace (Option.some.inj e)
      · rw [h.text, hd]
        exact fun e => hhyphen (Option.some.inj e)

/-- An entry is not passed over between declarations. -/
theorem Heads.not_skips (h : e.Heads cs) : ∃ c ds, cs = c :: ds ∧ declarations.skips c = false := by
  obtain ⟨c, ds, rfl, hlead⟩ := h.leading
  have hnone := ending?_of_still (t := ⟨true, true⟩) (h.still c List.mem_cons_self)
  have hsemi : c.token ≠ .semicolon := by
    intro ht
    cases h.still c List.mem_cons_self with
    | leaf hl _ _ => exact hl.tame.1 ht
    | @block o y body _ ho _ _ _ =>
        have ht : o.token = .semicolon := ht
        rw [ht] at ho
        cases ho
  refine ⟨c, ds, rfl, ?_⟩
  have hblank : c.isBlank = false := hlead.notBlank
  simp [declarations, separates, hblank, hsemi]

/-- A statement with the components of junk is given up. -/
theorem declaration_of_junk {j : Junk} (h : (Entry.junk j).Heads s.head) (hf : Faithful s.head) :
    ∃ cause place, s.declaration = .error (s.fault cause place) := by
  obtain ⟨c, cs, hs, hlead⟩ := h.leading
  rw [hs] at h hf
  rw [Statement.declaration, hs]
  simp only
  split
  · next name ht =>
      rw [Statement.asDeclaration]
      split
      · exact ⟨_, _, rfl⟩
      · next d value hd =>
          have hmem : d ∈ c :: cs := by
            have : d ∈ s.tail := (List.dropWhile_suffix _).subset (by rw [hd]; exact .head _)
            rw [Statement.tail, hs] at this
            exact List.mem_cons_of_mem _ this
          have hne : d.token ≠ .colon := by
            intro he
            have := text_subset hmem (colon_mem_of_still (h.still d hmem) he)
            rw [h.text] at this
            exact colon_not_mem h hf ht this
          rw [if_neg hne]
          exact ⟨_, _, rfl⟩
  · next name ht => exact absurd ht (hlead.notAt name)
  · exact ⟨_, _, rfl⟩

/-- Each entry is one statement of the block. -/
theorem statements (es : List Entry) :
    ∃ cs, UpTo (some .curly) '\x7d' (blockText es) cs ∧
      ∀ pos, List.Forall₂ (fun e s => e.Heads s.head) es (declarations.statements pos cs) := by
  have cut_all : ∀ {t : Terminators} {cs : List Component}, (∀ c ∈ cs, t.ending? c = none) →
      t.cut cs = (cs, .missing, []) := by
    intro t cs h
    induction cs with
    | nil => rfl
    | cons c cs ih =>
        rw [Terminators.cut, h c List.mem_cons_self, ih fun d hd => h d (List.mem_cons_of_mem _ hd)]
  induction es with
  | nil => exact ⟨[], .nil, fun pos => by rw [statements_nil]; exact .nil⟩
  | cons e es ih =>
      cases es with
      | nil =>
          obtain ⟨cs, hcs, hheads⟩ := e.exists_heads (f := '\x7d') rfl (some .curly)
          obtain ⟨c, ds, rfl, hskip⟩ := hheads.not_skips
          refine ⟨c :: ds, by simpa [blockText] using hcs, fun pos => ?_⟩
          obtain ⟨pos', hst⟩ := statements_cut pos hskip
            (cut_all fun d hd => ending?_of_still (hheads.still d hd))
          rw [hst, statements_nil]
          exact .cons hheads .nil
      | cons e' es =>
          obtain ⟨cs, hcs, hheads⟩ := e.exists_heads (f := ';') rfl (some .curly)
          obtain ⟨c, ds, rfl, hskip⟩ := hheads.not_skips
          obtain ⟨rest, hrest, hall⟩ := ih
          have hsemi : Spells (some .curly) [';'] [.leaf (Lexeme.mark ';')] :=
            Component.spells_mark rfl rfl
          refine ⟨c :: ds ++ [.leaf (Lexeme.mark ';')] ++ rest, ?_, fun pos => ?_⟩
          · rw [blockText, List.map_cons, List.map_cons, List.intercalate_cons_cons]
            exact (hcs.append hsemi).upTo hrest
          · have hcut : (declarations.ends (c :: (ds ++ .leaf (Lexeme.mark ';') :: rest))).cut
                (c :: ds ++ .leaf (Lexeme.mark ';') :: rest) = (c :: ds, .semicolon, rest) :=
              Terminators.cut_append (fun d hd => ending?_of_still (hheads.still d hd)) rfl
            obtain ⟨pos', hst⟩ := statements_cut pos hskip hcut
            rw [List.append_assoc, List.cons_append, List.singleton_append, hst]
            exact .cons hheads (hall pos')

/-! ### What the entries come to -/

/-- The source begins with the text. -/
def Reports (x : List Char) (e : SyntaxError) : Prop :=
  e.ruleIndex = 0 ∧ ∃ tail, e.source = some (String.ofList (x ++ tail))

/-- An entry has some visible text. -/
theorem not_allBlank (e : Entry) (tail : List Char) : Text.allBlank (e.text ++ tail) = false := by
  obtain ⟨c, hc, hspace, -⟩ := e.exists_head
  obtain ⟨x, hx⟩ := List.head?_eq_some_iff.1 hc
  have hall := e.text_all
  rw [hx] at hall ⊢
  rw [List.all_cons, Bool.and_eq_true] at hall
  have hblank := Plain.not_isBlank_of_isTame (isTame_of_isEntryChar hall.1) hspace
  simp [Text.allBlank, hblank]

/-- Statements that are the entries, in a text where they stand: assignments give their declarations,
junk gives faults. -/
theorem outcomes {text : List Char} {ss : List Statement}
    (h : List.Forall₂ (fun e s => e.Heads s.head) es ss)
    (hp : ∀ s ∈ ss, Placed text s.start s.components) :
    Outcome.values ((ss.map Statement.declaration).map Outcome.plain) = es.filterMap declaration? ∧
      List.Forall₂ Reports (es.filterMap junk?)
        ((Outcome.faults ((ss.map Statement.declaration).map Outcome.plain)).map
          (Fault.report text 0)) := by
  induction h with
  | nil => exact ⟨rfl, .nil⟩
  | @cons e s es ss he _ ih =>
      obtain ⟨hvalues, hfaults⟩ := ih fun t ht => hp t (List.mem_cons_of_mem _ ht)
      have hs := hp s List.mem_cons_self
      have hf : Faithful s.head := hs.faithful.left
      cases e with
      | assignment a =>
          have hd := declaration_of_assignment he
          simp only [List.map_cons, hd]
          exact ⟨congrArg (a.declaration :: ·) hvalues, hfaults⟩
      | junk j =>
          obtain ⟨cause, place, hd⟩ := declaration_of_junk he hf
          simp only [List.map_cons, hd]
          have htext : s.text = j.text ++ Component.textOf s.ending.components := by
            rw [Statement.text, Statement.components, Component.textOf_append, he.text]
            rfl
          refine ⟨hvalues, .cons ⟨rfl, Component.textOf s.ending.components, ?_⟩ hfaults⟩
          have hblank := (Entry.junk j).not_allBlank (Component.textOf s.ending.components)
          show (if Text.allBlank (slice text s.start s.stop) then none
            else some (String.ofList (slice text s.start s.stop))) = _
          rw [hs.slice, htext]
          exact if_neg (Bool.eq_false_iff.1 hblank)

/-! ### The rule around the entries -/

/-- The selector of the rule, as components. -/
def head : List Component := [.leaf ⟨.delim '.', ['.']⟩, nameLeaf ['a']]

/-- The only statement of the sheet. -/
def ruleStatement (cs : List Component) : Statement :=
  ⟨0, head, .block (Lexeme.mark '\x7b') cs (some (Lexeme.mark '\x7d'))⟩

/-- The sheet is one statement, whose block has the components of the entries. -/
theorem consists_sheet (h : UpTo (some .curly) '\x7d' (blockText es) cs) :
    Stylesheet.Consists (sheet es) [] [ruleStatement cs] := by
  have hhead : UpTo none '\x7b' ['.', 'a'] head :=
    UpTo.leaf (u := []) (fun r => Token.read_point (Token.startsDigit_append_mark rfl rfl r)) rfl
      (Component.upTo_name rfl rfl)
  have htext : Component.ofText (sheet es).toList = (ruleStatement cs).components := by
    rw [sheet, String.toList_ofList]
    exact Component.ofText_of_spells (hhead.append h.block)
  have hlead : leadingCharset (Component.ofText (sheet es).toList) = none := by
    rw [htext]
    rfl
  have hone : ruleStatements 0 (Component.ofText (sheet es).toList) = [ruleStatement cs] := by
    have hcut : (rules.ends (ruleStatement cs).components).cut (ruleStatement cs).components =
        (head, (ruleStatement cs).ending, []) := rfl
    obtain ⟨pos', hst⟩ := statements_cut (g := rules) (c := .leaf ⟨.delim '.', ['.']⟩) 0 rfl hcut
    have hst : rules.statements 0 (ruleStatement cs).components =
        ruleStatement cs :: rules.statements pos' [] := hst
    rw [htext, ruleStatements, hst, statements_nil]
    rfl
  rw [← hone]
  exact Stylesheet.consists_of_none hlead

/-- This statement is read as a style rule with the declarations in its block. -/
theorem rule_ruleStatement (cs : List Component) :
    (ruleStatement cs).rule =
      styleRule [".a"] (readDeclarations (ruleStatement cs).bodyStart cs) := by
  have hsel : Component.selectors head = [".a"] := by decide
  have hlooks : (ruleStatement cs).looksCustom = false := rfl
  rw [Statement.rule_of_plain rfl, Statement.plainRule, if_neg (Bool.eq_false_iff.1 hlooks)]
  show (if Component.selectors head = [] then _ else styleRule (Component.selectors head) _) = _
  rw [hsel]
  rfl

end Entry

/-- **Junk does not get into its neighbours.**  The sheet has one style rule, whose declarations are the
assignments in their order, and no error; each piece of junk is reported in its order, with a source that
begins with it. -/
theorem Stylesheet.parse_entries (es : List Entry) :
    (parse (Entry.sheet es)).rules = [.style [".a"] (es.filterMap Entry.declaration?)] ∧
      (parse (Entry.sheet es)).errors = [] ∧
      List.Forall₂ Entry.Reports (es.filterMap Entry.junk?) (parse (Entry.sheet es)).dropped := by
  obtain ⟨cs, hcs, hst⟩ := Entry.statements es
  have hc := Entry.consists_sheet hcs
  have hending : (Entry.ruleStatement cs).ending =
      .block (Lexeme.mark '\x7b') cs (some (Lexeme.mark '\x7d')) := rfl
  have hplaced := (hc.placed _ List.mem_cons_self).body hending
  obtain ⟨hvalues, hfaults⟩ := Entry.outcomes (hst _) fun t ht => hplaced.statement ht
  have hparse : parse (Entry.sheet es) = Progress.sheet ((Progress.start []).step
      (Entry.sheet es).toList (Entry.ruleStatement cs).rule) := by
    rw [parse, hc.read]
    rfl
  rw [hparse, Entry.rule_ruleStatement]
  refine ⟨?_, ?_, hfaults⟩
  · rw [← hvalues]; rfl
  · exact List.mergeSort_nil

example : Entry.sheet [.junk ⟨"*zoom: 1".toList, by decide, '*', rfl, .inr (by decide)⟩,
    .assignment ⟨"color".toList, ["red".toList], by decide, by decide, by decide⟩,
    .junk ⟨"1 px".toList, by decide, '1', rfl, .inl (by decide)⟩] =
    ".a\x7b*zoom: 1;color:red;1 px\x7d" := by
  decide +kernel

end CssPrune
