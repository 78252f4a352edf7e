import CssPrune.Proofs.Search
import Mathlib

/-!
# Documents

A document is put together from nodes: texts, and start tags whose attributes have quoted values.  The
search for an attribute knows nothing of them, so a text or a value of another attribute can take a
quote for the beginning of a value.

`attribute_found`: an attribute is found unless such a quote is open where the attribute stands and
occurs again from there on.  Otherwise a value runs over the name of the attribute
(`exists_value_over`), and its words can be missed (`not_attribute_found`).  No quote is left open in a
document whose texts and values are calm (`tokens_found_of_calm`).
-/

namespace CssPrune.Markup

open Text (isBlank isQuote trimStart)

/-! ### Nodes -/

/-- A name of letters, and a value in quotes that do not occur in it. -/
structure Attribute where
  name : List Char
  quote : Char
  value : List Char
  ne_nil : name ≠ []
  isAlpha : name.all Char.isAlpha = true
  isQuote : Text.isQuote quote = true
  closed : quote ∉ value

/-- The name of a tag. -/
structure TagName where
  text : List Char
  isBare : text.all Markup.isBare = true

/-- A text without tags, or a start tag with attributes. -/
inductive Node where
  | text (content : List Char) (noTag : '<' ∉ content)
  | tag (name : TagName) (attributes : List Attribute)

/-- An attribute as it is written: its name, an equals sign and its value in quotes. -/
def Attribute.source (a : Attribute) : List Char :=
  a.name ++ '=' :: a.quote :: (a.value ++ [a.quote])

/-- Attributes, a space in front of each. -/
def attributesSource (as : List Attribute) : List Char := as.flatMap fun a => ' ' :: a.source

/-- A node as it is written. -/
def Node.source : Node → List Char
  | .text content _ => content
  | .tag name as => '<' :: (name.text ++ attributesSource as ++ ['>'])

/-- The nodes one behind the other. -/
def document (nodes : List Node) : String := String.ofList (nodes.flatMap Node.source)

/-- The name of the attribute, letter case aside. -/
def Attribute.IsNamed (a : Attribute) (name : String) : Prop :=
  a.name.map Char.toLower = name.toList

instance (a : Attribute) (name : String) : Decidable (a.IsNamed name) :=
  inferInstanceAs (Decidable (_ = _))

/-! ### The place of an attribute -/

section Place

variable (before after : List Node) (n : TagName) (as bs : List Attribute) (a : Attribute)

/-- The text in front of an attribute: the nodes before its tag, the name of the tag and the
attributes before it. -/
def front : List Char :=
  before.flatMap Node.source ++ '<' :: (n.text ++ attributesSource as) ++ [' ']

/-- The text from an attribute on. -/
def behind : List Char := a.source ++ (attributesSource bs ++ '>' :: after.flatMap Node.source)

theorem toList_document : (document (before ++ .tag n (as ++ a :: bs) :: after)).toList =
    front before n as ++ behind after bs a := by
  simp [document, front, behind, attributesSource, Node.source]

end Place

/-- The text does not end in a blank or an equals sign. -/
def Firm (x : List Char) : Prop := ∀ c ∈ x.getLast?, isBlank c = false ∧ c ≠ '='

theorem Firm.suffix {x y : List Char} (h : Firm y) (hne : y ≠ []) (hy : y <:+ x) : Firm x := by
  obtain ⟨u, rfl⟩ := hy
  intro c hc
  exact h c (by rwa [List.getLast?_append_of_ne_nil _ hne] at hc)

/-- A single space behind firm text can lead to an attribute. -/
theorem Firm.leads {x : List Char} (h : Firm x) : Leads (x ++ [' ']) where
  last c hc := by
    rw [List.getLast?_concat] at hc
    exact (Option.mem_some.1 hc).symm
  sign v hv hblank := by
    obtain hv | ⟨u, hu, s, rfl⟩ := List.suffix_concat_iff.1 hv
    · cases hv
    · cases u with
      | nil => cases hu
      | cons sign u =>
          rw [List.cons_append] at hu
          obtain ⟨rfl, rfl⟩ := List.cons.inj hu
          have hall := List.dropWhile_eq_nil_iff.1 hblank
          -- the sign and the blanks behind it end the text
          have hne : '=' :: u ≠ [] := List.cons_ne_nil _ _
          have hlast : ('=' :: u).getLast hne ∈ (s ++ '=' :: u).getLast? := by
            rw [List.getLast?_append_of_ne_nil _ hne, List.getLast?_eq_getLast_of_ne_nil hne]
            rfl
          obtain ⟨hink, hsign⟩ := h _ hlast
          obtain heq | hu := List.mem_cons.1 (List.getLast_mem hne)
          · exact hsign heq
          · rw [hall _ (List.mem_append_left _ hu)] at hink
            cases hink

/-- A text of characters that bare values can have is firm. -/
theorem firm_of_isBare {x : List Char} (h : ∀ c ∈ x, c = '<' ∨ isBare c = true) : Firm x := by
  intro c hc
  obtain rfl | hbare := h c (List.mem_of_getLast? hc)
  · decide
  · rw [isBare, Bool.and_eq_true, Bool.not_eq_true', Bool.not_eq_true'] at hbare
    refine ⟨hbare.1, ?_⟩
    rintro rfl
    cases hbare.2

namespace Attribute

variable (a : Attribute)

theorem quote_ne_sign : a.quote ≠ '=' := by
  intro heq
  have := a.isQuote
  rw [heq] at this
  cases this

/-- A text that ends with an attribute is firm. -/
theorem firm (x : List Char) : Firm (x ++ ' ' :: a.source) := by
  intro c hc
  have hlast : (x ++ ' ' :: a.source).getLast? = some a.quote := by
    simp [source, List.getLast?_append, List.getLast?_cons]
  rw [hlast] at hc
  cases hc
  exact ⟨Text.not_isBlank_of_isQuote a.isQuote, a.quote_ne_sign⟩

/-- An attribute begins with neither a blank nor an equals sign. -/
theorem solid (x : List Char) : Solid (a.source ++ x) where
  ne_nil := by simp [source]
  head c hc := by
    obtain ⟨d, n, hname⟩ := List.exists_cons_of_ne_nil a.ne_nil
    rw [source, hname] at hc
    cases hc
    have hd : c.isAlpha = true :=
      List.all_eq_true.1 a.isAlpha c (hname ▸ List.mem_cons_self)
    refine ⟨Text.not_isBlank_of_isAlpha hd, ?_⟩
    rintro rfl
    cases hd

end Attribute

/-- Firm text stays so with attributes behind it. -/
theorem firm_attributes {x : List Char} (h : Firm x) (as : List Attribute) :
    Firm (x ++ attributesSource as) := by
  induction as generalizing x with
  | nil => rwa [attributesSource, List.flatMap_nil, List.append_nil]
  | cons a as ih =>
      have := ih (a.firm x)
      rwa [List.append_assoc] at this

/-- Whatever nodes and attributes stand in front of an attribute, the space there leads to it. -/
theorem leads_front (before : List Node) (n : TagName) (as : List Attribute) :
    Leads (front before n as) := by
  have htag : Firm ('<' :: n.text) := firm_of_isBare fun c hc =>
    (List.mem_cons.1 hc).imp_right fun h => List.all_eq_true.1 n.isBare c h
  refine Firm.leads ((firm_attributes htag as).suffix ?_ (List.suffix_append _ _))
  exact List.cons_ne_nil _ _

/-! ### The search in a document -/

/-- The value of an attribute is found where no quote is open that closes only behind. -/
theorem mem_values {before after : List Node} {n : TagName} {as bs : List Attribute} {a : Attribute}
    {name : String} (hn : Spelled name.toList) (ha : a.IsNamed name)
    (hq : (unclosed name.toList false (front before n as)).Disjoint (behind after bs a)) :
    a.value ∈ values name.toList false
      (document (before ++ .tag n (as ++ a :: bs) :: after)).toList := by
  have hne : name.toList ≠ [] := by
    rw [← ha]
    exact fun h => a.ne_nil (List.map_eq_nil_iff.1 h)
  have hfront : front before n as ≠ [] := by simp [front]
  have hbehind : Solid (behind after bs a) := a.solid _
  rw [toList_document, values_append hn hbehind (leads_front before n as)
    (fun h => absurd h hfront) (fun _ h h' => hq h h'), behind, Attribute.source,
    List.append_assoc, List.cons_append, List.cons_append, List.append_assoc,
    List.singleton_append, values_quoted ha hne a.isQuote a.closed]
  exact List.mem_append_right _ List.mem_cons_self

/-- No quote stands in the name of an attribute, nor up to its equals sign. -/
theorem Attribute.isPrefix_takeWhile (a : Attribute) {q : Char} (hq : Text.isQuote q = true)
    (x : List Char) : a.name ++ ['='] <+: (a.source ++ x).takeWhile (· ≠ q) := by
  have hname : ∀ c ∈ a.name ++ ['='], decide (c ≠ q) = true := by
    intro c hc
    refine decide_eq_true ?_
    rintro rfl
    obtain hc | hc := List.mem_append.1 hc
    · have hletter := List.all_eq_true.1 a.isAlpha c hc
      rw [Text.isQuote, Bool.or_eq_true, decide_eq_true_eq, decide_eq_true_eq] at hq
      obtain rfl | rfl := hq <;> cases hletter
    · rw [List.mem_singleton.1 hc] at hq
      cases hq
  have hsplit : a.source ++ x = (a.name ++ ['=']) ++ (a.quote :: (a.value ++ [a.quote]) ++ x) := by
    simp [source]
  rw [hsplit, List.takeWhile_append_of_pos hname]
  exact List.prefix_append _ _

/-- Where such a quote is open, a value runs over the name of the attribute. -/
theorem exists_value_over {before after : List Node} {n : TagName} {as bs : List Attribute}
    {a : Attribute} {name : String} (hn : Spelled name.toList)
    (hq : ¬(unclosed name.toList false (front before n as)).Disjoint (behind after bs a)) :
    ∃ v ∈ values name.toList false
      (document (before ++ .tag n (as ++ a :: bs) :: after)).toList,
        ' ' :: (a.name ++ ['=']) <:+: v := by
  have hbehind : Solid (behind after bs a) := a.solid _
  have hopen : ∃ q ∈ unclosed name.toList false (front before n as), q ∈ behind after bs a := by
    simpa [List.Disjoint] using hq
  obtain ⟨q, u, hquote, hu, hmem⟩ := values_over hn hbehind (leads_front before n as) hopen
  obtain ⟨w, hw⟩ := a.isPrefix_takeWhile hquote
    (attributesSource bs ++ '>' :: after.flatMap Node.source)
  obtain ⟨u, rfl⟩ := List.getLast?_eq_some_iff.1 hu
  rw [toList_document]
  refine ⟨_, hmem, u, w, ?_⟩
  rw [behind, ← hw]
  simp

theorem spelled_class : Spelled "class".toList := by
  simp [Spelled, isBlank]

theorem spelled_id : Spelled "id".toList := by
  simp [Spelled, isBlank]

/-- **Main theorem.** No word of an attribute is missed unless a quote is open in front of the
attribute and occurs again from there on. -/
theorem attribute_found (before after : List Node) (n : TagName) (as bs : List Attribute)
    (a : Attribute) :
    (a.IsNamed "class" →
      (unclosed "class".toList false (front before n as)).Disjoint (behind after bs a) →
      ∀ w ∈ Text.words a.value,
        String.ofList w ∈ classes (document (before ++ .tag n (as ++ a :: bs) :: after))) ∧
    (a.IsNamed "id" →
      (unclosed "id".toList false (front before n as)).Disjoint (behind after bs a) →
      ∀ w ∈ Text.words a.value,
        String.ofList w ∈ ids (document (before ++ .tag n (as ++ a :: bs) :: after))) := by
  constructor
  · intro ha hq w hw
    exact mem_tokens.2 ⟨a.value, mem_values spelled_class ha hq, w, hw, rfl⟩
  · intro ha hq w hw
    exact mem_tokens.2 ⟨a.value, mem_values spelled_id ha hq, w, hw, rfl⟩

/-- The attribute `class="a"`. -/
def classA : Attribute := ⟨"class".toList, '"', ['a'], by decide, by decide, rfl, by decide⟩

/-- The attribute `id="b"`. -/
def idB : Attribute := ⟨"id".toList, '"', ['b'], by decide, by decide, rfl, by decide⟩

/-- The attribute `title="id="`. -/
def titleId : Attribute := ⟨"title".toList, '"', "id=".toList, by decide, by decide, rfl, by decide⟩

/-- In `class='<p title="id=" class="a" id="b">` a quote is left open, but it does not occur again. -/
theorem attribute_found_beside :
    (unclosed "class".toList false
      (front [.text "class='".toList (by decide)] ⟨['p'], rfl⟩ [titleId])).Disjoint
        (behind [] [idB] classA) ∧
    (unclosed "id".toList false
      (front [.text "class='".toList (by decide)] ⟨['p'], rfl⟩ [titleId, classA])).Disjoint
        (behind [] [] idB) ∧
    "a" ∈ classes (document
      [.text "class='".toList (by decide), .tag ⟨['p'], rfl⟩ [titleId, classA, idB]]) ∧
    "b" ∈ ids (document
      [.text "class='".toList (by decide), .tag ⟨['p'], rfl⟩ [titleId, classA, idB]]) := by
  have hopen : unclosed "class".toList false
      (front [.text "class='".toList (by decide)] ⟨['p'], rfl⟩ [titleId]) = ['\''] := by
    decide +kernel
  have hclosed : unclosed "id".toList false
      (front [.text "class='".toList (by decide)] ⟨['p'], rfl⟩ [titleId, classA]) = [] := by
    decide +kernel
  have hclass : (unclosed "class".toList false
      (front [.text "class='".toList (by decide)] ⟨['p'], rfl⟩ [titleId])).Disjoint
        (behind [] [idB] classA) := by
    rw [hopen, List.singleton_disjoint]
    decide
  have hid : (unclosed "id".toList false
      (front [.text "class='".toList (by decide)] ⟨['p'], rfl⟩ [titleId, classA])).Disjoint
        (behind [] [] idB) := by
    rw [hclosed]
    exact List.disjoint_nil_left _
  exact ⟨hclass, hid,
    (attribute_found _ _ _ [titleId] [idB] classA).1 (by decide) hclass ['a'] (by decide),
    (attribute_found _ _ _ [titleId, classA] [] idB).2 (by decide) hid ['b'] (by decide)⟩

/-- In `class="<p class="a">` the value that is found ends at the quote of the attribute. -/
theorem not_attribute_found :
    ¬∀ (nodes : List Node) (n : TagName) (as : List Attribute) (a : Attribute),
      .tag n as ∈ nodes → a ∈ as → a.IsNamed "class" →
      ∀ w ∈ Text.words a.value, String.ofList w ∈ classes (document nodes) := by
  intro h
  have hfound := h [.text "class=\"".toList (by decide), .tag ⟨['p'], rfl⟩ [classA]] _ _ classA
    (List.mem_cons_of_mem _ List.mem_cons_self) List.mem_cons_self (by decide) ['a'] (by decide)
  revert hfound
  decide +kernel

/-! ### Calm documents -/

/-- No equals sign has a quote behind it, nor the end of the text; blanks may stand between. -/
def Calm (x : List Char) : Prop :=
  ∀ v, '=' :: v <:+ x → ∃ c ∈ (trimStart v).head?, isQuote c = false

/-- No value could be taken to begin in the text, or in a value of the tag. -/
def Node.Calm : Node → Prop
  | .text content _ => Markup.Calm content
  | .tag _ as => ∀ a ∈ as, Markup.Calm a.value

/-- Each quote behind an equals sign occurs again. -/
def Closes (x : List Char) : Prop :=
  ∀ v q rest, '=' :: v <:+ x → trimStart v = q :: rest → isQuote q = true → q ∈ rest

theorem Closes.suffix {x y : List Char} (h : Closes y) (hx : x <:+ y) : Closes x :=
  fun v q rest hv => h v q rest (hv.trans hx)

theorem calm_of_not_mem {x : List Char} (h : '=' ∉ x) : Calm x :=
  fun _ hv => absurd (hv.subset List.mem_cons_self) h

/-- Calm text in front opens no quote. -/
theorem Calm.append {x y : List Char} (hx : Calm x) (hy : Closes y) : Closes (x ++ y) := by
  intro v q rest hv hrest hq
  obtain ⟨t, ht⟩ := hv
  obtain ⟨u, hu, hsign⟩ | ⟨u, -, hu⟩ := List.append_eq_append_iff.1 ht
  · cases u with
    | nil => exact hy v q rest ⟨[], hsign⟩ hrest hq
    | cons sign u =>
        -- the sign stands in the calm text, and so does what follows it
        obtain ⟨rfl, rfl⟩ := List.cons.inj hsign
        obtain ⟨c, hc, hcalm⟩ := hx u ⟨t, hu.symm⟩
        obtain ⟨w, hw⟩ := List.head?_eq_some_iff.1 hc
        have hcut : trimStart (u ++ y) = c :: (w ++ y) := by
          rw [trimStart, List.dropWhile_append, ← trimStart, hw]
          rfl
        cases hcut.symm.trans hrest
        cases hcalm.symm.trans hq
  · exact hy v q rest ⟨u, hu.symm⟩ hrest hq

theorem Closes.cons {c : Char} {x : List Char} (hc : c ≠ '=') (h : Closes x) : Closes (c :: x) :=
  (calm_of_not_mem fun h => hc (List.mem_singleton.1 h).symm).append h

/-- An attribute with a calm value closes the quote that it opens. -/
theorem Attribute.closes {a : Attribute} (ha : Calm a.value) {x : List Char} (hx : Closes x) :
    Closes (a.source ++ x) := by
  have hletters : '=' ∉ a.name := fun h => by
    cases List.all_eq_true.1 a.isAlpha _ h
  have hvalue : Closes (a.quote :: (a.value ++ a.quote :: x)) :=
    .cons a.quote_ne_sign (ha.append (.cons a.quote_ne_sign hx))
  have hsign : Closes ('=' :: a.quote :: (a.value ++ a.quote :: x)) := by
    intro v q rest hv hrest hq
    obtain heq | hv := List.suffix_cons_iff.1 hv
    · cases heq
      have hself : trimStart (a.quote :: (a.value ++ a.quote :: x)) =
          a.quote :: (a.value ++ a.quote :: x) :=
        Text.trimStart_of fun c hc => by
          cases hc
          exact Text.not_isBlank_of_isQuote a.isQuote
      cases hself.symm.trans hrest
      exact List.mem_append_right _ List.mem_cons_self
    · exact hvalue v q rest hv hrest hq
  have := (calm_of_not_mem hletters).append hsign
  simpa [source] using this

/-- Any number of attributes with calm values close the quotes that they open. -/
theorem closes_attributes {as : List Attribute} (has : ∀ a ∈ as, Calm a.value) {x : List Char}
    (hx : Closes x) : Closes (attributesSource as ++ x) := by
  induction as with
  | nil => exact hx
  | cons a as ih =>
      have := Attribute.closes (has a List.mem_cons_self)
        (ih fun b hb => has b (List.mem_cons_of_mem _ hb))
      rw [attributesSource, List.flatMap_cons, ← attributesSource, List.append_assoc]
      exact .cons (by decide) this

/-- The beginning of a tag opens no quote. -/
theorem TagName.closes (n : TagName) {x : List Char} (hx : Closes x) :
    Closes ('<' :: (n.text ++ x)) := by
  have hbare : '=' ∉ n.text := fun h => by
    have := List.all_eq_true.1 n.isBare _ h
    revert this
    decide
  exact .cons (by decide) ((calm_of_not_mem hbare).append hx)

/-- A calm node leaves no quote open. -/
theorem Node.closes {n : Node} (hn : n.Calm) {x : List Char} (hx : Closes x) :
    Closes (n.source ++ x) := by
  cases n with
  | text content _ => exact Markup.Calm.append hn hx
  | tag name as =>
      have := name.closes (closes_attributes hn (Closes.cons (c := '>') (by decide) hx))
      simpa [source] using this

theorem closes_nil : Closes [] := fun _ _ _ hv => by cases List.suffix_nil.1 hv

/-- Nothing is open in front of an attribute, if what stands there is calm. -/
theorem closes_front {before : List Node} (hbefore : ∀ n ∈ before, n.Calm) (n : TagName)
    {as : List Attribute} (has : ∀ a ∈ as, Calm a.value) : Closes (front before n as) := by
  have htag : Closes ('<' :: (n.text ++ (attributesSource as ++ [' ']))) :=
    n.closes (closes_attributes has (.cons (by decide) closes_nil))
  rw [front, List.append_assoc, List.cons_append, List.append_assoc]
  induction before with
  | nil => exact htag
  | cons m before ih =>
      rw [List.flatMap_cons, List.append_assoc]
      exact m.closes (hbefore m List.mem_cons_self)
        (ih fun k hk => hbefore k (List.mem_cons_of_mem _ hk))

/-- A quote that opens a value and occurs again closes it. -/
theorem quoteAt?_eq_none {name x : List Char} (h : Closes x) (hnone : attribute? name x = none) :
    quoteAt? name x = none := by
  rw [Option.eq_none_iff_forall_not_mem]
  intro q hq
  obtain ⟨hquote, rest, hplace⟩ := exists_quoteAt? hq
  obtain ⟨w, hw, heq⟩ := exists_sign hplace
  exact not_mem_of_attribute?_eq_none hquote hplace hnone (h w q rest hw heq.symm hquote)

/-- In text whose quotes close, none is left open. -/
theorem unclosed_eq_nil {name x : List Char} (h : Closes x) (inWord : Bool) :
    unclosed name inWord x = [] := by
  fun_induction unclosed name inWord x with
  | case1 => rfl
  | case2 w c cs r hr ih =>
      cases w with
      | true => cases hr
      | false => exact ih (h.suffix (attribute?_suffix hr))
  | case3 w c cs hr ih =>
      rw [ih (h.suffix (List.suffix_cons _ _)), List.append_nil]
      cases w with
      | true => rfl
      | false => rw [if_neg Bool.false_ne_true, quoteAt?_eq_none h hr]; rfl

/-- Nothing is missed in a document with calm texts and calm values. -/
theorem tokens_found_of_calm {nodes : List Node} (h : ∀ n ∈ nodes, n.Calm) {n : TagName}
    {as : List Attribute} {a : Attribute} (hn : .tag n as ∈ nodes) (ha : a ∈ as) {name : String}
    (hname : Spelled name.toList) (hnamed : a.IsNamed name) :
    ∀ w ∈ Text.words a.value, String.ofList w ∈ tokens name (document nodes) := by
  intro w hw
  obtain ⟨before, after, rfl⟩ := List.append_of_mem hn
  obtain ⟨as, bs, rfl⟩ := List.append_of_mem ha
  have hattributes : ∀ b ∈ as ++ a :: bs, Calm b.value := h _ hn
  have hclosed : unclosed name.toList false (front before n as) = [] :=
    unclosed_eq_nil (closes_front (fun m hm => h m (List.mem_append_left _ hm)) n
      fun b hb => hattributes b (List.mem_append_left _ hb)) false
  refine mem_tokens.2 ⟨a.value, mem_values hname hnamed ?_, w, hw, rfl⟩
  rw [hclosed]
  exact List.disjoint_nil_left _

end CssPrune.Markup
