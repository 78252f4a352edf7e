import CssPrune.Proofs.Search

/-!
# Documents without stray attributes

A document in which an attribute stands where it is meant to and nowhere else (`Scattered`): attributes
in any spelling and quoting (`Occurrence`), and text in between in which the name of the attribute stands
in front of no equals sign (`Free`).

The search goes over such text to the attribute behind it (`values_free`) and over this attribute
(`values_source`), so that it finds the values of the attributes and no others (`Scattered.values_eq`).
`mem_tokens_of_scattered` says so of the classes and the ids of a document.
-/

namespace CssPrune.Markup

open Text (isBlank isWord trimStart)

variable {name z : List Char}

/-! ### Attributes as they are written -/

/-- How a value is written. -/
inductive Quoting where
  | double | single | bare
  deriving DecidableEq

namespace Quoting

/-- The value as it is written, in quotes or bare. -/
def write : Quoting → List Char → List Char
  | .double, v => '"' :: (v ++ ['"'])
  | .single, v => '\'' :: (v ++ ['\''])
  | .bare, v => v

/-- The values that can be written so. -/
def Admits : Quoting → List Char → Prop
  | .double, v => '"' ∉ v
  | .single, v => '\'' ∉ v
  | .bare, v => v ≠ [] ∧ v.all isBare = true

instance : (quoting : Quoting) → (v : List Char) → Decidable (quoting.Admits v)
  | .double, v => inferInstanceAs (Decidable ('"' ∉ v))
  | .single, v => inferInstanceAs (Decidable ('\'' ∉ v))
  | .bare, v => inferInstanceAs (Decidable (v ≠ [] ∧ v.all isBare = true))

/-- What may stand behind a value: behind a bare one, nothing that would go on with it. -/
def Ends (quoting : Quoting) (rest : List Char) : Prop :=
  quoting = .bare → rest.head?.any isBare = false

end Quoting

/-- An attribute of this name, in any letter case, with blanks around the equals sign or none. -/
structure Occurrence (name : List Char) where
  spelling : List Char
  before : List Char
  after : List Char
  quoting : Quoting
  value : List Char
  lower : spelling.map Char.toLower = name
  blank_before : before.all isBlank = true
  blank_after : after.all isBlank = true
  admitted : quoting.Admits value

/-- The attribute as it is written. -/
def Occurrence.source (a : Occurrence name) : List Char :=
  a.spelling ++ (a.before ++ '=' :: (a.after ++ a.quoting.write a.value))

/-! ### Text without attributes -/

/-- The text begins with the name, in any letter case and an s long or not, blanks and an equals sign. -/
def Named (name cs : List Char) : Prop :=
  ∃ n blanks rest, cs = n ++ (blanks ++ '=' :: rest) ∧
    List.Forall₂ (fun letter c => isLetter letter c = true) name n ∧ blanks.all isBlank = true

/-- No word goes on behind the text. -/
def endsOutside (cs : List Char) : Bool := cs.getLast?.all fun c => !isWord c

/-- No attribute begins in the text: the name in front of an equals sign is the end of a longer word. -/
def Free (name t : List Char) : Prop :=
  ∀ front rest, t = front ++ rest → endsOutside front = true → ¬Named name rest

/-- A name that is found is a spelling of the name. -/
theorem exists_of_afterName? {cs rest : List Char} (h : afterName? name cs = some rest) :
    ∃ n, cs = n ++ rest ∧ List.Forall₂ (fun letter c => isLetter letter c = true) name n := by
  induction name generalizing cs with
  | nil => cases h; exact ⟨[], rfl, .nil⟩
  | cons letter name ih =>
      cases cs with
      | nil => cases h
      | cons c cs =>
          rw [afterName?] at h
          split at h
          · next hc =>
              obtain ⟨n, rfl, hn⟩ := ih h
              exact ⟨c :: n, rfl, .cons hc hn⟩
          · cases h

/-- Every spelling of the name is found. -/
theorem afterName?_of_forall₂ {n : List Char}
    (h : List.Forall₂ (fun letter c => isLetter letter c = true) name n) (rest : List Char) :
    afterName? name (n ++ rest) = some rest := by
  induction h with
  | nil => rfl
  | cons hc _ ih => rw [List.cons_append, afterName?, if_pos hc, ih]

theorem behindSign?_blanks {blanks : List Char} (h : blanks.all isBlank = true) (rest : List Char) :
    behindSign? (trimStart (blanks ++ '=' :: rest)) = some (trimStart rest) := by
  rw [Text.trimStart_blanks h]
  rfl

/-- No attribute is found just where the text does not begin with one. -/
theorem place?_eq_none_iff {cs : List Char} : place? name cs = none ↔ ¬Named name cs := by
  rw [← not_iff_not, not_not, ← ne_eq, Option.ne_none_iff_exists']
  constructor
  · rintro ⟨v, hv⟩
    obtain ⟨rest, hrest, hsign⟩ := Option.bind_eq_some_iff.1 hv
    obtain ⟨n, rfl, hn⟩ := exists_of_afterName? hrest
    obtain ⟨rest', heq, -⟩ := behindSign?_eq_some hsign
    refine ⟨n, rest.takeWhile isBlank, rest', ?_, hn, List.all_takeWhile⟩
    rw [← heq, trimStart, List.takeWhile_append_dropWhile]
  · rintro ⟨n, blanks, rest, rfl, hn, hblanks⟩
    exact ⟨trimStart rest, by
      rw [place?, afterName?_of_forall₂ hn, Option.bind_some, behindSign?_blanks hblanks]⟩

/-- Text is free just when the search finds no attribute outside of its words. -/
theorem free_iff {t : List Char} : Free name t ↔
    ∀ i ≤ t.length, endsOutside (t.take i) = true → place? name (t.drop i) = none := by
  constructor
  · intro h i _ hi
    exact place?_eq_none_iff.2 (h _ _ (List.take_append_drop i t).symm hi)
  · rintro h front rest rfl hfront
    refine place?_eq_none_iff.1 ?_
    have := h front.length (by simp)
    rw [List.take_left, List.drop_left] at this
    exact this hfront

instance (name t : List Char) : Decidable (Free name t) := decidable_of_iff _ free_iff.symm

/-! ### Over text without attributes -/

/-- What passes for a small letter belongs to a word. -/
theorem isWord_of_isLetter {letter c : Char} (hl : letter.isLower = true)
    (h : isLetter letter c = true) : isWord c = true := by
  rw [isLetter, Bool.or_eq_true, decide_eq_true_eq, Bool.and_eq_true, decide_eq_true_eq,
    decide_eq_true_eq] at h
  obtain rfl | ⟨-, rfl⟩ := h
  · rw [Char.isLower_toLower_eq_isAlpha] at hl
    have hc : c.toNat < 0x80 := by
      rw [Text.isAlpha_iff, Text.isUpper_iff, Text.isLower_iff] at hl
      omega
    rw [Text.isWord_ascii hc, Char.isAlphanum, hl]
    rfl
  · decide +kernel

/-- Where a word ends, no letter of the name comes last. -/
theorem not_isLetter_of_endsOutside (hn : name.all Char.isLower = true) {y : List Char}
    (hy : endsOutside y = true) : ∀ letter ∈ name, ∀ c ∈ y.getLast?, isLetter letter c = false := by
  intro letter hl c hc
  rw [endsOutside, hc, Option.all_some, Bool.not_eq_true'] at hy
  rw [← Bool.not_eq_true]
  intro h
  rw [isWord_of_isLetter (List.all_eq_true.1 hn letter hl) h] at hy
  cases hy

/-- No attribute begins in front of the text behind, wherever one begins there. -/
theorem place?_append_none (hn : name.all Char.isLower = true) {y : List Char} (hne : y ≠ [])
    (hz : z = [] ∨ Solid z ∧ endsOutside y = true) (h : ¬Named name y) :
    place? name (y ++ z) = none := by
  have hy : place? name y = none := place?_eq_none_iff.2 h
  obtain rfl | ⟨hz, hend⟩ := hz
  · rwa [List.append_nil]
  · rw [place?_append (not_isLetter_of_endsOutside hn hend) hne hz, hy]
    rfl

theorem endsOutside_right {x y : List Char} (hy : y ≠ []) (h : endsOutside (x ++ y) = true) :
    endsOutside y = true := by
  rwa [endsOutside, List.getLast?_append_of_ne_nil _ hy] at h

/-- The search goes over a text in which no attribute begins, `front` being the part of it that it has
gone over. -/
theorem values_free (hn : name.all Char.isLower = true) {t : List Char} : ∀ front : List Char,
    Free name (front ++ t) → (z = [] ∨ Solid z ∧ endsOutside (front ++ t) = true) →
      values name (!endsOutside front) (t ++ z) = values name false z := by
  induction t with
  | nil =>
      intro front _ hz
      obtain rfl | ⟨-, hend⟩ := hz
      · rw [List.append_nil, values, values]
      · rw [List.append_nil] at hend
        rw [hend]
        rfl
  | cons c t ih =>
      intro front hfree hz
      have hnone : (if !endsOutside front then none else attribute? name (c :: (t ++ z))) = none := by
        cases hfront : endsOutside front with
        | false => rfl
        | true =>
            have hne : c :: t ≠ [] := List.cons_ne_nil c t
            have hplace : place? name (c :: t ++ z) = none :=
              place?_append_none hn hne (hz.imp_right (And.imp_right (endsOutside_right hne)))
                (hfree front (c :: t) rfl hfront)
            rw [List.cons_append] at hplace
            rw [attribute?_eq, hplace]
            rfl
      have hword : isWord c = !endsOutside (front ++ [c]) := by
        rw [endsOutside, List.getLast?_concat, Option.all_some, Bool.not_not]
      rw [List.cons_append, values_skip hnone, hword]
      rw [List.append_cons front c t] at hfree hz
      exact ih _ hfree hz

/-! ### Over an attribute -/

/-- A bare value is read up to its end. -/
theorem value?_bare {v rest : List Char} (hne : v ≠ []) (hbare : v.all isBare = true)
    (hrest : rest.head?.any isBare = false) : value? (v ++ rest) = some (v, rest) := by
  have hsplit : rest.takeWhile isBare = [] ∧ rest.dropWhile isBare = rest := by
    cases rest with
    | nil => exact ⟨rfl, rfl⟩
    | cons d rest =>
        have hd : ¬isBare d = true := Bool.eq_false_iff.1 hrest
        exact ⟨List.takeWhile_cons_of_neg hd, List.dropWhile_cons_of_neg hd⟩
  have hall : ∀ c ∈ v, isBare c = true := List.all_eq_true.1 hbare
  have htake : (v ++ rest).takeWhile isBare = v := by
    rw [List.takeWhile_append_of_pos hall, hsplit.1, List.append_nil]
  have hdrop : (v ++ rest).dropWhile isBare = rest := by
    rw [List.dropWhile_append_of_pos hall, hsplit.2]
  obtain ⟨c, v, rfl⟩ := List.exists_cons_of_ne_nil hne
  have hc : isBare c = true := hall c List.mem_cons_self
  have hquote : ¬(c = '"' || c = '\'') = true := by
    intro hq
    rw [isBare, isDelimiter, hq] at hc
    simp at hc
  rw [List.cons_append] at htake hdrop
  rw [List.cons_append, value?, if_neg hquote, if_pos hc, htake, hdrop]

/-- A value is read as it was written. -/
theorem value?_write {quoting : Quoting} {v rest : List Char} (hv : quoting.Admits v)
    (hrest : quoting.Ends rest) : value? (quoting.write v ++ rest) = some (v, rest) := by
  cases quoting with
  | double =>
      rw [Quoting.write, List.cons_append, List.append_assoc]
      exact value?_quoted rfl hv rest
  | single =>
      rw [Quoting.write, List.cons_append, List.append_assoc]
      exact value?_quoted rfl hv rest
  | bare => exact value?_bare hv.1 hv.2 (hrest rfl)

/-- No value begins with a blank as it is written. -/
theorem Quoting.head_write {quoting : Quoting} {v : List Char} (hv : quoting.Admits v)
    (rest : List Char) : ∀ c ∈ (quoting.write v ++ rest).head?, isBlank c = false := by
  intro c hc
  cases quoting with
  | double => cases hc; rfl
  | single => cases hc; rfl
  | bare =>
      obtain ⟨hne, hbare⟩ := hv
      obtain ⟨d, v, rfl⟩ := List.exists_cons_of_ne_nil hne
      obtain rfl : d = c := Option.some.inj hc
      have hd := List.all_eq_true.1 hbare d List.mem_cons_self
      rw [isBare, Bool.and_eq_true, Bool.not_eq_true'] at hd
      exact hd.1

/-- **An attribute is read as it was written**, whatever its spelling. -/
theorem attribute?_source (a : Occurrence name) {rest : List Char} (hrest : a.quoting.Ends rest) :
    attribute? name (a.source ++ rest) = some (a.value, rest) := by
  have hsource : a.source ++ rest =
      a.spelling ++ (a.before ++ '=' :: (a.after ++ (a.quoting.write a.value ++ rest))) := by
    simp [Occurrence.source]
  have hvalue : trimStart (a.after ++ (a.quoting.write a.value ++ rest)) =
      a.quoting.write a.value ++ rest := by
    rw [Text.trimStart_blanks a.blank_after]
    exact Text.trimStart_of (Quoting.head_write a.admitted rest)
  rw [attribute?_eq, hsource, place?, afterName?_of_lower a.lower, Option.bind_some,
    behindSign?_blanks a.blank_before, hvalue]
  exact value?_write a.admitted hrest

/-- An attribute begins with a letter of its name. -/
theorem Occurrence.exists_cons (hne : name ≠ []) (a : Occurrence name) :
    ∃ c cs, a.source = c :: cs ∧ c.toLower ∈ name := by
  have hspelling : a.spelling ≠ [] := by
    intro h
    have hlower := a.lower
    rw [h] at hlower
    exact hne hlower.symm
  obtain ⟨c, n, hn⟩ := List.exists_cons_of_ne_nil hspelling
  refine ⟨c, _, by rw [Occurrence.source, hn, List.cons_append], ?_⟩
  rw [← a.lower, hn]
  exact List.mem_cons_self

/-- The search takes the value of the attribute that stands here and goes on behind it. -/
theorem values_source (hne : name ≠ []) (a : Occurrence name) {rest : List Char}
    (hrest : a.quoting.Ends rest) :
    values name false (a.source ++ rest) = a.value :: values name false rest := by
  have hfound := attribute?_source a hrest
  obtain ⟨c, cs, hc, -⟩ := a.exists_cons hne
  rw [hc, List.cons_append] at hfound ⊢
  have hstart : (if false then none else attribute? name (c :: (cs ++ rest))) = some (a.value, rest) :=
    hfound
  exact values_found hstart

/-- An attribute begins with a letter. -/
theorem Occurrence.solid (hne : name ≠ []) (hn : name.all Char.isLower = true) (a : Occurrence name)
    (rest : List Char) : Solid (a.source ++ rest) := by
  obtain ⟨c, cs, hc, hmem⟩ := a.exists_cons hne
  have halpha : c.isAlpha = true := by
    rw [← Char.isLower_toLower_eq_isAlpha]
    exact List.all_eq_true.1 hn _ hmem
  rw [hc]
  refine ⟨List.cons_ne_nil _ _, fun d hd => ?_⟩
  cases hd
  refine ⟨Text.not_isBlank_of_isAlpha halpha, ?_⟩
  rintro rfl
  cases halpha

/-! ### Documents -/

/-- A text with attributes of this name at some places and nowhere else, and their values in order. -/
inductive Scattered (name : List Char) : List Char → List (List Char) → Prop where
  | last {t : List Char} (free : Free name t) : Scattered name t []
  | piece {t rest : List Char} {vs : List (List Char)} (a : Occurrence name) (free : Free name t)
      (outside : endsOutside t = true) (ends : a.quoting.Ends rest) (h : Scattered name rest vs) :
      Scattered name (t ++ (a.source ++ rest)) (a.value :: vs)

/-- The search finds the attributes that the document is made of, and no others. -/
theorem Scattered.values_eq (hne : name ≠ []) (hn : name.all Char.isLower = true) {cs : List Char}
    {vs : List (List Char)} (h : Scattered name cs vs) : values name false cs = vs := by
  induction h with
  | @last t free =>
      have hover := values_free hn (z := []) [] free (.inl rfl)
      rw [List.append_nil] at hover
      exact hover.trans (by rw [values])
  | @piece t rest vs a free outside ends _ ih =>
      have hover := values_free hn [] free (.inr ⟨a.solid hne hn rest, outside⟩)
      exact hover.trans (by rw [values_source hne a ends, ih])

/-- **Main theorem.**  In a document without stray attributes, the classes are the words in the values
of the attributes `class`, and the ids are those of the attributes `id`. -/
theorem mem_tokens_of_scattered (document : String) :
    (∀ vs, Scattered "class".toList document.toList vs → ∀ x : String,
      x ∈ classes document ↔ ∃ v ∈ vs, ∃ w ∈ Text.words v, String.ofList w = x) ∧
    (∀ vs, Scattered "id".toList document.toList vs → ∀ x : String,
      x ∈ ids document ↔ ∃ v ∈ vs, ∃ w ∈ Text.words v, String.ofList w = x) := by
  constructor
  · intro vs h x
    rw [classes, mem_tokens, h.values_eq (by decide) (by decide)]
  · intro vs h x
    rw [ids, mem_tokens, h.values_eq (by decide) (by decide)]

/-- The attribute `CLASS = "a b"`. -/
def upperClass : Occurrence "class".toList where
  spelling := "CLASS".toList
  before := [' ']
  after := [' ']
  quoting := .double
  value := "a b".toList
  lower := by decide +kernel
  blank_before := rfl
  blank_after := rfl
  admitted := by decide +kernel

/-- The attribute `Id=x`. -/
def bareId : Occurrence "id".toList where
  spelling := "Id".toList
  before := []
  after := []
  quoting := .bare
  value := ['x']
  lower := by decide +kernel
  blank_before := rfl
  blank_after := rfl
  admitted := by decide +kernel

/-- Two spellings, a quoted value and a bare one, and a name that stands alone. -/
theorem mem_tokens_of_scattered_mixed :
    Scattered "class".toList "<p CLASS = \"a b\"><i Id=x>class".toList ["a b".toList] ∧
      Scattered "id".toList "<p CLASS = \"a b\"><i Id=x>class".toList [['x']] ∧
      "b" ∈ classes "<p CLASS = \"a b\"><i Id=x>class" ∧
      "x" ∉ classes "<p CLASS = \"a b\"><i Id=x>class" ∧
      "x" ∈ ids "<p CLASS = \"a b\"><i Id=x>class" := by
  have hclass : Scattered "class".toList
      ("<p ".toList ++ (upperClass.source ++ "><i Id=x>class".toList)) ["a b".toList] :=
    .piece upperClass (by decide +kernel) (by decide +kernel) nofun (.last (by decide +kernel))
  have hid : Scattered "id".toList
      ("<p CLASS = \"a b\"><i ".toList ++ (bareId.source ++ ">class".toList)) [['x']] :=
    .piece bareId (by decide +kernel) (by decide +kernel) (fun _ => by decide +kernel)
      (.last (by decide +kernel))
  obtain ⟨classes_iff, ids_iff⟩ := mem_tokens_of_scattered "<p CLASS = \"a b\"><i Id=x>class"
  refine ⟨hclass, hid, (classes_iff _ hclass "b").2 (by decide +kernel), ?_,
    (ids_iff _ hid "x").2 (by decide +kernel)⟩
  rw [classes_iff _ hclass]
  decide +kernel

end CssPrune.Markup
