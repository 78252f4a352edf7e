import CssPrune.Markup
import CssPrune.Proofs.NormalText
import Mathlib

/-!
# Searching in front of an attribute

The search for an attribute goes over the text in front of a place as if nothing followed, unless a
value that is opened in it is closed behind the place only (`values_append`); `unclosed` collects the
quotes that open such values, and a value that one of them opens runs over the place (`values_over`).
At the place itself an attribute with a quoted value is found (`values_quoted`), and the words of a
value that is found are tokens (`mem_tokens`).
-/

namespace CssPrune.Markup

open Text (isBlank isQuote trimStart)

variable {name y z : List Char}

/-! ### Where a value should stand -/

/-- The text behind an equals sign and blanks. -/
def behindSign? : List Char → Option (List Char)
  | '=' :: rest => some (trimStart rest)
  | _ => none

/-- The text behind the name, an equals sign and blanks. -/
def place? (name cs : List Char) : Option (List Char) :=
  (afterName? name cs).bind fun rest => behindSign? (trimStart rest)

/-- An attribute is a value in its place. -/
theorem attribute?_eq (name cs : List Char) : attribute? name cs = (place? name cs).bind value? := by
  rw [attribute?, place?]
  cases afterName? name cs with
  | none => rfl
  | some rest =>
      simp only [Option.bind_some]
      split
      · next heq => rw [heq]; rfl
      · next h =>
          rw [behindSign?]
          · rfl
          · exact h

/-- The quote that opens a value here. -/
def quoteAt? (name cs : List Char) : Option Char :=
  ((place? name cs).bind List.head?).filter isQuote

/-- The quotes that the search of a text leaves open: each of them opens a value and does not occur
behind it. -/
def unclosed (name : List Char) (inWord : Bool) : List Char → List Char
  | [] => []
  | c :: cs =>
    match _h : if inWord then none else attribute? name (c :: cs) with
    | some r => unclosed name false r.2
    | none =>
      (if inWord then none else quoteAt? name (c :: cs)).toList ++ unclosed name (Text.isWord c) cs
termination_by cs => cs.length
decreasing_by
  · split at _h
    · cases _h
    · exact attribute?_shorter _h
  · simp

/-! ### Text in front of an attribute -/

/-- An attribute may follow the text: a space is at its end, and no equals sign in front of the blanks
at its end. -/
structure Leads (y : List Char) : Prop where
  last : ∀ c ∈ y.getLast?, c = ' '
  sign : ∀ v, '=' :: v <:+ y → trimStart v ≠ []

/-- An end of such a text is one, too. -/
theorem Leads.suffix {x : List Char} (h : Leads y) (hx : x <:+ y) : Leads x where
  last c hc := by
    obtain ⟨u, rfl⟩ := hx
    refine h.last c ?_
    cases x with
    | nil => cases hc
    | cons d x => rwa [List.getLast?_append_of_ne_nil _ (List.cons_ne_nil _ _)]
  sign v hv := h.sign v (hv.trans hx)

theorem Leads.isBlank_last (h : Leads y) : ∀ c ∈ y.getLast?, isBlank c = true := by
  intro c hc
  rw [h.last c hc]
  rfl

/-- The text begins with a character that can stand neither in a gap nor at its end. -/
structure Solid (z : List Char) : Prop where
  ne_nil : z ≠ []
  head : ∀ c ∈ z.head?, isBlank c = false ∧ c ≠ '='

/-- The letters of a name are no blanks. -/
def Spelled (name : List Char) : Prop := ∀ c ∈ name, isBlank c = false

theorem not_isLetter_of_isBlank {letter c : Char} (hl : isBlank letter = false)
    (hc : isBlank c = true) : isLetter letter c = false := by
  have hup : ¬c.isUpper = true := fun h => by
    rw [Text.not_isBlank_of_isAlpha (Text.isAlpha_iff.2 (.inl h))] at hc
    cases hc
  rw [isLetter, Char.toLower_eq_of_not_isUpper hup, Bool.or_eq_false_iff]
  constructor
  · exact decide_eq_false fun h => by rw [h, hl] at hc; cases hc
  · rw [Bool.and_eq_false_iff]
    exact .inr (decide_eq_false fun h => by subst h; revert hc; decide)

/-- A name is found in front of whatever follows. -/
theorem afterName?_append {rest : List Char} (h : afterName? name y = some rest) (z : List Char) :
    afterName? name (y ++ z) = some (rest ++ z) := by
  induction name generalizing y with
  | nil => cases h; rfl
  | cons letter name ih =>
      cases y with
      | nil => cases h
      | cons c y =>
          rw [afterName?] at h
          rw [List.cons_append, afterName?]
          split at h
          · next hc => rw [if_pos hc]; exact ih h
          · cases h

theorem Leads.not_isLetter (hn : Spelled name) (hy : Leads y) :
    ∀ letter ∈ name, ∀ c ∈ y.getLast?, isLetter letter c = false :=
  fun letter hl c hc => not_isLetter_of_isBlank (hn letter hl) (hy.isBlank_last c hc)

/-- A name that does not stand at the head of a text does not reach over the end, either, when no letter
of the name stands there. -/
theorem afterName?_append_none (hne : y ≠ [])
    (hlast : ∀ letter ∈ name, ∀ c ∈ y.getLast?, isLetter letter c = false)
    (h : afterName? name y = none) (z : List Char) : afterName? name (y ++ z) = none := by
  induction name generalizing y with
  | nil => cases h
  | cons letter name ih =>
      obtain ⟨c, y, rfl⟩ := List.exists_cons_of_ne_nil hne
      rw [afterName?] at h
      rw [List.cons_append, afterName?]
      split at h
      · next hc =>
          rw [if_pos hc]
          have hy : y ≠ [] := by
            rintro rfl
            rw [hlast letter List.mem_cons_self c rfl] at hc
            cases hc
          refine ih hy (fun l hl d hd => hlast l (List.mem_cons_of_mem _ hl) d ?_) h
          rwa [List.getLast?_cons_of_ne_nil hy]
      · next hc => rw [if_neg hc]

/-- A solid text ends the blanks in front of it. -/
theorem trimStart_append (hz : Solid z) (x : List Char) :
    trimStart (x ++ z) = trimStart x ++ z := by
  have hself : trimStart z = z := Text.trimStart_of fun c hc => (hz.head c hc).1
  rw [trimStart] at hself ⊢
  rw [List.dropWhile_append, hself]
  split
  · next h => rw [trimStart, List.isEmpty_iff.1 h, List.nil_append]
  · rfl

/-- The place of a value does not reach into a solid text. -/
theorem behindSign?_append (hz : Solid z) (x : List Char) :
    behindSign? (x ++ z) = (behindSign? x).map (· ++ z) := by
  cases x with
  | nil =>
      obtain ⟨c, z, rfl⟩ := List.exists_cons_of_ne_nil hz.ne_nil
      have hc : c ≠ '=' := (hz.head c rfl).2
      rw [List.nil_append, behindSign?]
      · rfl
      · rintro rest heq
        exact hc (List.cons.inj heq).1
  | cons c x =>
      by_cases hc : c = '='
      · subst hc
        exact congrArg some (trimStart_append hz x)
      · rw [List.cons_append, behindSign?, behindSign?]
        · rfl
        · rintro rest heq
          exact hc (List.cons.inj heq).1
        · rintro rest heq
          exact hc (List.cons.inj heq).1

/-- What stands at the head of the text in front is the same when an attribute follows. -/
theorem place?_append (hlast : ∀ letter ∈ name, ∀ c ∈ y.getLast?, isLetter letter c = false)
    (hne : y ≠ []) (hz : Solid z) : place? name (y ++ z) = (place? name y).map (· ++ z) := by
  rw [place?, place?]
  cases h : afterName? name y with
  | none => rw [afterName?_append_none hne hlast h]; rfl
  | some rest =>
      rw [afterName?_append h, Option.bind_some, Option.bind_some, trimStart_append hz,
        behindSign?_append hz]

/-- Behind the sign, blanks are skipped. -/
theorem behindSign?_eq_some {x v : List Char} (h : behindSign? x = some v) :
    ∃ rest, x = '=' :: rest ∧ v = trimStart rest := by
  unfold behindSign? at h
  split at h
  · next rest => cases h; exact ⟨rest, rfl, rfl⟩
  · cases h

/-- The place of a value is behind an equals sign and blanks. -/
theorem exists_sign {v : List Char} (h : place? name y = some v) :
    ∃ rest, '=' :: rest <:+ y ∧ v = trimStart rest := by
  obtain ⟨rest, hrest, hsign⟩ := Option.bind_eq_some_iff.1 h
  obtain ⟨rest', heq, hv⟩ := behindSign?_eq_some hsign
  exact ⟨rest', heq ▸ (List.dropWhile_suffix _).trans (afterName?_suffix hrest), hv⟩

theorem place?_suffix {v : List Char} (h : place? name y = some v) : v <:+ y := by
  obtain ⟨rest, hrest, rfl⟩ := exists_sign h
  exact (List.dropWhile_suffix _).trans ((List.suffix_cons _ _).trans hrest)

theorem attribute?_suffix {r : List Char × List Char} (h : attribute? name y = some r) :
    r.2 <:+ y := by
  rw [attribute?_eq] at h
  obtain ⟨v, hv, hr⟩ := Option.bind_eq_some_iff.1 h
  exact (value?_suffix hr).trans (place?_suffix hv)

/-! ### Values in front -/

/-- A run without the quote goes up to the quote. -/
theorem takeWhile_ne_quote {q : Char} {a : List Char} (h : q ∉ a) (rest : List Char) :
    (a ++ q :: rest).takeWhile (· ≠ q) = a := by
  have ha : ∀ c ∈ a, decide (c ≠ q) = true := fun c hc =>
    decide_eq_true fun heq => h (heq ▸ hc)
  rw [List.takeWhile_append_of_pos ha, List.takeWhile_cons_of_neg (by simp), List.append_nil]

/-- A value goes up to its quote. -/
theorem quoted?_of_not_mem {q : Char} {a : List Char} (h : q ∉ a) (rest : List Char) :
    quoted? q (a ++ q :: rest) = some (a, rest) := by
  have ha : ∀ c ∈ a, decide (c ≠ q) = true := fun c hc =>
    decide_eq_true fun heq => h (heq ▸ hc)
  rw [quoted?, List.dropWhile_append_of_pos ha, List.dropWhile_cons_of_neg (by simp),
    takeWhile_ne_quote h]

theorem value?_quoted {q : Char} {v : List Char} (hq : isQuote q = true) (hv : q ∉ v)
    (rest : List Char) : value? (q :: (v ++ q :: rest)) = some (v, rest) := by
  have hopens : (q = '"' || q = '\'') = true := hq
  rw [value?, if_pos hopens, quoted?_of_not_mem hv]

theorem quoted?_eq_none {q : Char} {cs : List Char} (h : q ∉ cs) : quoted? q cs = none := by
  have hdrop : cs.dropWhile (· ≠ q) = [] :=
    List.dropWhile_eq_nil_iff.2 fun c hc => decide_eq_true fun heq => h (heq ▸ hc)
  rw [quoted?, hdrop]

/-- A value without quotes ends in front of a blank. -/
theorem bare_append {v : List Char} (hne : v ≠ []) (hlast : ∀ c ∈ v.getLast?, isBlank c = true)
    (z : List Char) : (v ++ z).takeWhile isBare = v.takeWhile isBare ∧
      (v ++ z).dropWhile isBare = v.dropWhile isBare ++ z := by
  have hdrop : v.dropWhile isBare ≠ [] := by
    intro h
    have hbare := List.dropWhile_eq_nil_iff.1 h _ (List.getLast_mem hne)
    rw [isBare, hlast _ (List.getLast?_eq_getLast_of_ne_nil hne)] at hbare
    cases hbare
  constructor
  · rw [List.takeWhile_append, if_neg fun hlen => hdrop ?_]
    exact List.dropWhile_eq_nil_iff.2
      (List.takeWhile_eq_self_iff.1 (List.takeWhile_prefix _ |>.eq_of_length hlen))
  · rw [List.dropWhile_append, if_neg (by rwa [List.isEmpty_iff])]

/-- A value in front of a place does not depend on what follows, unless its quote is open there. -/
theorem value?_append {v : List Char} (hne : v ≠ []) (hlast : ∀ c ∈ v.getLast?, isBlank c = true)
    (hq : ∀ q ∈ v.head?.filter isQuote, value? v = none → q ∉ z) :
    value? (v ++ z) = (value? v).map fun r => (r.1, r.2 ++ z) := by
  obtain ⟨c, cs, rfl⟩ := List.exists_cons_of_ne_nil hne
  rw [List.cons_append]
  by_cases hc : (c = '"' || c = '\'') = true
  · by_cases hmem : c ∈ cs
    -- the closing quote stands in front
    · obtain ⟨a, rest, rfl, ha⟩ := List.eq_append_cons_of_mem hmem
      rw [value?_quoted hc ha, List.append_assoc, List.cons_append, value?_quoted hc ha]
      rfl
    · rw [value?, value?, if_pos hc, if_pos hc]
      have hz : c ∉ z := by
        refine hq c (Option.mem_filter_iff.2 ⟨rfl, hc⟩) ?_
        rw [value?, if_pos hc, quoted?_eq_none hmem]
      rw [quoted?_eq_none hmem, quoted?_eq_none (by simp [hmem, hz])]
      rfl
  · rw [value?, value?, if_neg hc, if_neg hc]
    split
    · obtain ⟨htake, hdrop⟩ := bare_append hne hlast z
      rw [List.cons_append] at htake hdrop
      rw [htake, hdrop]
      rfl
    · rfl

/-- Reading an attribute does not depend on text behind it. -/
theorem attribute?_append (hn : Spelled name) (hy : Leads y) (hne : y ≠ []) (hz : Solid z)
    (hq : ∀ q ∈ quoteAt? name y, attribute? name y = none → q ∉ z) :
    attribute? name (y ++ z) = (attribute? name y).map fun r => (r.1, r.2 ++ z) := by
  rw [attribute?_eq] at hq ⊢
  rw [attribute?_eq, place?_append (hy.not_isLetter hn) hne hz]
  rw [quoteAt?] at hq
  cases h : place? name y with
  | none => rfl
  | some v =>
      rw [h] at hq
      -- the value is expected in front of the end
      have hv : v ≠ [] := by
        obtain ⟨rest, hrest, rfl⟩ := exists_sign h
        exact hy.sign rest hrest
      exact value?_append hv (hy.suffix (place?_suffix h)).isBlank_last hq

/-- A quote that opens a value stands in the place of the value. -/
theorem exists_quoteAt? {q : Char} (h : q ∈ quoteAt? name y) :
    isQuote q = true ∧ ∃ cs, place? name y = some (q :: cs) := by
  obtain ⟨hq, hquote⟩ := Option.mem_filter_iff.1 h
  obtain ⟨v, hv, hhead⟩ := Option.bind_eq_some_iff.1 hq
  obtain ⟨cs, rfl⟩ := List.head?_eq_some_iff.1 hhead
  exact ⟨hquote, cs, hv⟩

/-- A quote that does not occur again is left open. -/
theorem not_mem_of_attribute?_eq_none {q : Char} {cs : List Char} (hq : isQuote q = true)
    (hplace : place? name y = some (q :: cs)) (hnone : attribute? name y = none) : q ∉ cs := by
  intro hmem
  obtain ⟨v, rest, rfl, hv⟩ := List.eq_append_cons_of_mem hmem
  rw [attribute?_eq, hplace, Option.bind_some, value?_quoted hq hv] at hnone
  cases hnone

/-- A value that is left open in front goes on to its quote. -/
theorem attribute?_over (hn : Spelled name) (hy : Leads y) (hne : y ≠ []) (hz : Solid z) {q : Char}
    (hq : q ∈ quoteAt? name y) (hnone : attribute? name y = none) (hmem : q ∈ z) :
    ∃ u rest, u.getLast? = some ' ' ∧
      attribute? name (y ++ z) = some (u ++ z.takeWhile (· ≠ q), rest) := by
  obtain ⟨hquote, u, hplace⟩ := exists_quoteAt? hq
  have hu := not_mem_of_attribute?_eq_none hquote hplace hnone
  obtain ⟨v, rest, rfl, hv⟩ := List.eq_append_cons_of_mem hmem
  refine ⟨u, rest, ?_, ?_⟩
  · have hlast := (hy.suffix (place?_suffix hplace)).last
    obtain rfl | ⟨u, c, rfl⟩ := u.eq_nil_or_concat'
    · rw [hlast q rfl] at hquote
      cases hquote
    · rw [List.getLast?_concat, hlast c (by rw [← List.cons_append, List.getLast?_concat]; rfl)]
  · rw [attribute?_eq, place?_append (hy.not_isLetter hn) hne hz, hplace, Option.map_some, Option.bind_some,
      takeWhile_ne_quote hv, List.cons_append, ← List.append_assoc, value?_quoted hquote]
    simp [hu, hv]

/-! ### The search in front -/

/-- The search goes on behind an attribute. -/
theorem values_found {inWord : Bool} {c : Char} {cs : List Char} {r : List Char × List Char}
    (h : (if inWord then none else attribute? name (c :: cs)) = some r) :
    values name inWord (c :: cs) = r.1 :: values name false r.2 := by
  rw [values]
  split
  · next heq => cases h.symm.trans heq; rfl
  · next heq => cases h.symm.trans heq

/-- Where there is no attribute, the search goes on behind one character. -/
theorem values_skip {inWord : Bool} {c : Char} {cs : List Char}
    (h : (if inWord then none else attribute? name (c :: cs)) = none) :
    values name inWord (c :: cs) = values name (Text.isWord c) cs := by
  rw [values]
  split
  · next heq => cases h.symm.trans heq
  · rfl

/-- An attribute that is found in front of the place is found there whatever follows. -/
theorem values_front {c : Char} {cs : List Char} (hn : Spelled name) (hz : Solid z)
    (hy : Leads (c :: cs)) {inWord : Bool} {r : List Char × List Char}
    (hr : (if inWord then none else attribute? name (c :: cs)) = some r) :
    values name inWord (c :: cs ++ z) = r.1 :: values name false (r.2 ++ z) := by
  obtain ⟨hword, hr⟩ := Option.ite_none_left_eq_some.1 hr
  have hfound : attribute? name (c :: cs ++ z) = some (r.1, r.2 ++ z) := by
    rw [attribute?_append hn hy (List.cons_ne_nil _ _) hz, hr]
    · rfl
    · intro q _ hnone
      rw [hnone] at hr
      cases hr
  rw [List.cons_append] at hfound ⊢
  rw [values_found (by rw [if_neg hword, hfound])]

/-- Where none is found in front of the place, none is found when no quote that is open there
follows. -/
theorem values_front_skip {c : Char} {cs : List Char} (hn : Spelled name) (hz : Solid z)
    (hy : Leads (c :: cs)) {inWord : Bool}
    (hr : (if inWord then none else attribute? name (c :: cs)) = none)
    (hq : ∀ q ∈ if inWord then none else quoteAt? name (c :: cs), q ∉ z) :
    values name inWord (c :: cs ++ z) = values name (Text.isWord c) (cs ++ z) := by
  rw [List.cons_append]
  refine values_skip ?_
  cases inWord with
  | true => rfl
  | false =>
      have hnone : attribute? name (c :: cs) = none := hr
      rw [if_neg Bool.false_ne_true, ← List.cons_append,
        attribute?_append hn hy (List.cons_ne_nil _ _) hz fun q hqm _ => hq q hqm, hnone]
      rfl

/-- Behind an attribute, what is left in front of the place still leads to it. -/
theorem Leads.rest (hy : Leads y) {inWord : Bool} {r : List Char × List Char}
    (hr : (if inWord then none else attribute? name y) = some r) : Leads r.2 :=
  hy.suffix (attribute?_suffix (Option.ite_none_left_eq_some.1 hr).2)

theorem Leads.isWord_last {c : Char} {cs : List Char} (h : Leads (c :: cs)) (hcs : cs = []) :
    Text.isWord c = false := by
  subst hcs
  rw [h.last c rfl]
  decide

/-- The search goes over the text in front as if nothing followed, unless a quote that is left open
there occurs again. -/
theorem values_append (hn : Spelled name) (hz : Solid z) {inWord : Bool} (hy : Leads y)
    (hw : y = [] → inWord = false) (hq : ∀ q ∈ unclosed name inWord y, q ∉ z) :
    values name inWord (y ++ z) = values name inWord y ++ values name false z := by
  fun_induction unclosed name inWord y with
  | case1 w => rw [hw rfl, List.nil_append, values, List.nil_append]
  | case2 w c cs r hr ih =>
      rw [values_front hn hz hy hr, values_found hr, ih (hy.rest hr) (fun _ => rfl) hq,
        List.cons_append]
  | case3 w c cs hr ih =>
      have hcs : Leads cs := hy.suffix (List.suffix_cons _ _)
      have hhere : ∀ q ∈ if w then none else quoteAt? name (c :: cs), q ∉ z := fun q hqm =>
        hq q (List.mem_append_left _ (Option.mem_toList.2 hqm))
      rw [values_front_skip hn hz hy hr hhere, values_skip hr]
      exact ih hcs hy.isWord_last fun q hqm => hq q (List.mem_append_right _ hqm)

/-- A quote that is left open in front and occurs again ends a value there: this value runs over the
space at the end of the text in front. -/
theorem values_over (hn : Spelled name) (hz : Solid z) {inWord : Bool} (hy : Leads y)
    (hq : ∃ q ∈ unclosed name inWord y, q ∈ z) :
    ∃ q u, isQuote q = true ∧ u.getLast? = some ' ' ∧
      u ++ z.takeWhile (· ≠ q) ∈ values name inWord (y ++ z) := by
  fun_induction unclosed name inWord y with
  | case1 w =>
      obtain ⟨q, hqm, -⟩ := hq
      cases hqm
  | case2 w c cs r hr ih =>
      obtain ⟨q, u, hquote, hu, hmem⟩ := ih (hy.rest hr) hq
      rw [values_front hn hz hy hr]
      exact ⟨q, u, hquote, hu, List.mem_cons_of_mem _ hmem⟩
  | case3 w c cs hr ih =>
      by_cases hhere : ∀ q ∈ if w then none else quoteAt? name (c :: cs), q ∉ z
      · have hrest : ∃ q ∈ unclosed name (Text.isWord c) cs, q ∈ z := by
          obtain ⟨q, hqm, hz⟩ := hq
          refine ⟨q, (List.mem_append.1 hqm).resolve_left fun h => ?_, hz⟩
          exact hhere q (Option.mem_toList.1 h) hz
        rw [values_front_skip hn hz hy hr hhere]
        exact ih (hy.suffix (List.suffix_cons _ _)) hrest
      -- the value that is opened here
      · push Not at hhere
        obtain ⟨q, hqm, hmem⟩ := hhere
        cases w with
        | true => cases hqm
        | false =>
            obtain ⟨u, rest, hu, hover⟩ :=
              attribute?_over hn hy (List.cons_ne_nil _ _) hz hqm hr hmem
            refine ⟨q, u, (exists_quoteAt? hqm).1, hu, ?_⟩
            have hstart : (if false then none else attribute? name (c :: (cs ++ z))) =
                some (u ++ z.takeWhile (· ≠ q), rest) := hover
            rw [List.cons_append, values_found hstart]
            exact List.mem_cons_self

/-! ### The attribute -/

/-- A name is found in any letter case. -/
theorem afterName?_of_lower {n : List Char} (h : n.map Char.toLower = name) (x : List Char) :
    afterName? name (n ++ x) = some x := by
  subst h
  induction n with
  | nil => rfl
  | cons c n ih =>
      rw [List.map_cons, List.cons_append, afterName?, if_pos (by simp [isLetter])]
      exact ih

/-- An attribute with a value in quotes is found at its place. -/
theorem attribute?_quoted {n v : List Char} {q : Char} (h : n.map Char.toLower = name)
    (hq : isQuote q = true) (hv : q ∉ v) (rest : List Char) :
    attribute? name (n ++ '=' :: q :: (v ++ q :: rest)) = some (v, rest) := by
  have hplace : place? name (n ++ '=' :: q :: (v ++ q :: rest)) = some (q :: (v ++ q :: rest)) := by
    have hsign : trimStart ('=' :: q :: (v ++ q :: rest)) = '=' :: q :: (v ++ q :: rest) := rfl
    have hvalue : trimStart (q :: (v ++ q :: rest)) = q :: (v ++ q :: rest) :=
      Text.trimStart_of fun c hc => by cases hc; exact Text.not_isBlank_of_isQuote hq
    rw [place?, afterName?_of_lower h, Option.bind_some, hsign, behindSign?, hvalue]
  rw [attribute?_eq, hplace, Option.bind_some, value?_quoted hq hv]

/-- The attribute that stands here is found, and the search goes on behind it. -/
theorem values_quoted {n v : List Char} {q : Char} (h : n.map Char.toLower = name) (hne : name ≠ [])
    (hq : isQuote q = true) (hv : q ∉ v) (rest : List Char) :
    values name false (n ++ '=' :: q :: (v ++ q :: rest)) = v :: values name false rest := by
  have hfound := attribute?_quoted h hq hv rest
  obtain ⟨c, n, rfl⟩ : ∃ c m, n = c :: m := by
    refine List.exists_cons_of_ne_nil ?_
    rintro rfl
    exact hne h.symm
  have hstart : (if false then none else attribute? name (c :: n ++ '=' :: q :: (v ++ q :: rest))) =
      some (v, rest) := hfound
  exact values_found hstart

/-! ### Words -/

theorem mem_foldl_insertWords {x : String} {vs : List (List Char)} {s : NameSet} :
    x ∈ vs.foldl NameSet.insertWords s ↔
      (∃ v ∈ vs, ∃ w ∈ Text.words v, String.ofList w = x) ∨ x ∈ s := by
  induction vs generalizing s with
  | nil => simp
  | cons v vs ih =>
      rw [List.foldl_cons, ih, NameSet.insertWords, NameSet.mem_insertAll, List.mem_map]
      simp only [List.mem_cons, exists_eq_or_imp]
      rw [← or_assoc, or_comm (a := ∃ w ∈ Text.words v, String.ofList w = x)]

/-- A token is a word of one of the values. -/
theorem mem_tokens {x name document : String} : x ∈ tokens name document ↔
    ∃ v ∈ values name.toList false document.toList, ∃ w ∈ Text.words v, String.ofList w = x := by
  have hempty : x ∉ (∅ : NameSet) := List.not_mem_nil
  rw [tokens, mem_foldl_insertWords]
  exact or_iff_left hempty

end CssPrune.Markup
