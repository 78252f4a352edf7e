import CssPrune.Proofs.Retention
import CssPrune.Proofs.SelectorText

/-!
# The analysis keeps what matches

What is left of the text of a tidy selector when its negations are taken out still has every mention
of the selector as a hook, and has no hook at all if the selector is bare (`Chain.taken`).
When only letters and blanks precede the first hook of a text, that hook is a class or an id that
the selector requires (`Chain.anchored`).

`retained_of_selects`: so the rule of a selector that matches somewhere in a document is kept for
that document, whenever its anchor decides or it is tidy and demands a mention or is bare.
-/

namespace CssPrune.Selector

/-! ### Texts without their negations -/

/-- The hook stands in the text, not within an escape, and its identifier ends there. -/
structure Found (u : List Char) (hook : Char × String) : Prop where
  split : ∃ u₁ u₂, ∃ n : Name, u = u₁ ++ hook.1 :: (n.written ++ u₂) ∧ hook.2 = n.text ∧
    Closed u₁ ∧ ∀ z, Stops z → Stops (u₂ ++ z)
  mark : isMark hook.1 = true

/-- Nothing at the head of the text goes on with an identifier in front of it. -/
def Opens (u : List Char) : Prop := ∀ z, Stops z → Stops (u ++ z)

/-- The text `u` is what taking out the negations leaves of `t`; these hooks are found in it, and
none at all if `bare` holds. -/
structure Taken (t u : List Char) (hs : List (Char × String)) (bare : Bool) : Prop where
  drop : ∀ y, Front y → dropNegations (t ++ y) = u ++ dropNegations y
  closed : Closed u
  found : ∀ h ∈ hs, Found u h
  hookless : bare = true → ∀ y, Stops y → hooks (u ++ y) = hooks y

namespace Found

variable {u : List Char} {hook : Char × String}

/-- What is found is a hook of the text. -/
theorem mem_hooks (h : Found u hook) : hook ∈ hooks u := by
  obtain ⟨m, name⟩ := hook
  obtain ⟨⟨u₁, u₂, n, rfl, rfl, hu, hz⟩, hm⟩ := h
  have hz : Stops u₂ := by
    have := hz [] fun _ h => by cases h
    rwa [List.append_nil] at this
  have := Selector.mem_hooks hm (n.identLength_pos hz) hu
  rwa [n.nameAt_written hz] at this

theorem append_left (h : Found u hook) {v : List Char} (hv : Opens v) : Found (u ++ v) hook := by
  obtain ⟨⟨u₁, u₂, n, rfl, hn, hu, hz⟩, hm⟩ := h
  refine ⟨⟨u₁, u₂ ++ v, n, by simp, hn, hu, fun z hs => ?_⟩, hm⟩
  rw [List.append_assoc]
  exact hz _ (hv z hs)

theorem append_right (h : Found u hook) {v : List Char} (hv : Closed v) : Found (v ++ u) hook := by
  obtain ⟨⟨u₁, u₂, n, rfl, hn, hu, hz⟩, hm⟩ := h
  exact ⟨⟨v ++ u₁, u₂, n, by simp, hn, hv.append hu, hz⟩, hm⟩

end Found

/-- Two texts that go on with no identifier in front of them do so together. -/
theorem Opens.append {u v : List Char} (hu : Opens u) (hv : Opens v) : Opens (u ++ v) := by
  intro z hz
  rw [List.append_assoc]
  exact hu _ (hv z hz)

theorem Opens.cons {c : Char} (h : isIdentChar c = false) (hb : c ≠ '\\') (u : List Char) :
    Opens (c :: u) := fun z _ => .cons h hb (u ++ z)

theorem Opens.nil : Opens [] := fun _ h => h

namespace Taken

variable {t t' u u' : List Char} {hs hs' : List (Char × String)} {b b' : Bool}

/-- Two texts are taken one behind the other, if the second starts outside of the first's
identifiers. -/
theorem append (h : Taken t u hs b) (h' : Taken t' u' hs' b') (hf : ∀ y, Front y → Front (t' ++ y))
    (ho : Opens u') : Taken (t ++ t') (u ++ u') (hs ++ hs') (b && b') where
  drop y hy := by
    rw [List.append_assoc, h.drop _ (hf y hy), h'.drop y hy, List.append_assoc]
  closed := h.closed.append h'.closed
  found hook hh := by
    rcases List.mem_append.1 hh with hh | hh
    · exact (h.found hook hh).append_left ho
    · exact (h'.found hook hh).append_right h.closed
  hookless hb y hy := by
    obtain ⟨hb, hb'⟩ := Bool.and_eq_true_iff.1 hb
    rw [List.append_assoc, h.hookless hb _ (ho y hy), h'.hookless hb' y hy]

/-- A text in which no negation begins and no hook stands, in front of another. -/
theorem behind_plain {p : List Char} (h : Taken t u hs b)
    (hp : ∀ y, dropNegations (p ++ y) = p ++ dropNegations y) (hc : Closed p)
    (hm : p.any isMark = false) : Taken (p ++ t) (p ++ u) hs b where
  drop y hy := by
    rw [List.append_assoc, hp, h.drop y hy, List.append_assoc]
  closed := hc.append h.closed
  found hook hh := (h.found hook hh).append_right hc
  hookless hb y hy := by
    rw [List.append_assoc, hooks_unmarked hm, h.hookless hb y hy]

/-- A text that stays as it is. -/
theorem self (hd : ∀ y, Front y → dropNegations (t ++ y) = t ++ dropNegations y) (hc : Closed t) :
    Taken t t [] (hooks t = []) where
  drop := hd
  closed := hc
  found _ hh := (List.not_mem_nil hh).elim
  hookless hb _ hy := hooks_append hc (of_decide_eq_true hb) hy

theorem nil : Taken [] [] [] true where
  drop _ _ := rfl
  closed := rfl
  found _ hh := (List.not_mem_nil hh).elim
  hookless _ _ _ := rfl

/-- The parenthesis that closes a group. -/
theorem close (h : Taken t u hs b) : Taken (t ++ [')']) (u ++ [')']) hs b := by
  have hclose : Taken [')'] [')'] [] true :=
    nil.behind_plain (p := [')']) (fun y => dropNegations_cons_of_ne (by decide) y) rfl rfl
  have := h.append hclose (fun y _ => .cons rfl (by decide) (by decide) y)
    (.cons rfl (by decide) [])
  rwa [List.append_nil, Bool.and_true] at this

end Taken

/-- What is left of a text that begins within a negation: nothing while the negation goes on, and
then what stands behind the parenthesis that ends it. -/
def Skipped (t : List Char) : Prop :=
  (∀ y, behind (t ++ y) = behind y) ∨
    ∃ u, Opens u ∧ Closed u ∧ ∀ y, Front y → behind (t ++ y) = u ++ dropNegations y

namespace Skipped

variable {t t' u : List Char} {hs : List (Char × String)} {b : Bool}

theorem of_not_mem (h : ')' ∉ t) : Skipped t := .inl (behind_append h)

/-- What begins within a negation goes on over two texts, or ends in one of them. -/
theorem append (h : Skipped t) (h' : Skipped t') (ht : Taken t' u hs b) (ho : Opens u)
    (hf : ∀ y, Front y → Front (t' ++ y)) : Skipped (t ++ t') := by
  rcases h with h | ⟨v, hv, hc, h⟩
  · rcases h' with h' | ⟨v, hv, hc, h'⟩
    · exact .inl fun y => by rw [List.append_assoc, h, h']
    · exact .inr ⟨v, hv, hc, fun y hy => by rw [List.append_assoc, h, h' y hy]⟩
  · refine .inr ⟨v ++ u, hv.append ho, hc.append ht.closed, fun y hy => ?_⟩
    rw [List.append_assoc, h _ (hf y hy), ht.drop y hy, List.append_assoc]

/-- A group within a negation, or the negation itself. -/
theorem group (h : Skipped t) : ∃ u, Opens u ∧ Closed u ∧
    ∀ y, behind (t ++ [')'] ++ y) = u ++ dropNegations y := by
  rcases h with h | ⟨u, ho, hc, h⟩
  · exact ⟨[], .nil, rfl, fun y => by rw [List.append_assoc, h]; exact behind_close y⟩
  · refine ⟨u ++ [')'], ho.append (.cons rfl (by decide) []), hc.append rfl, fun y => ?_⟩
    rw [List.append_assoc, List.singleton_append, h _ (.cons rfl (by decide) (by decide) y),
      dropNegations_cons_of_ne (by decide), List.append_assoc, List.singleton_append]

end Skipped

/-! ### Parts of a selector -/

section Parts

variable {l : Layout}

theorem Name.dropNegations (n : Name) {y : List Char} (hy : Front y) :
    dropNegations (n.written ++ y) = n.written ++ Selector.dropNegations y :=
  n.spelling.dropNegations hy

theorem Name.not_mem_written {n : Name} (h : n.parenFree = true) : ')' ∉ n.written :=
  n.spelling.not_mem (of_decide_eq_true h)

/-- The test of a type stays as it is; an escaped mark in it may be found as a hook. -/
theorem TypeTest.taken (type : TypeTest) :
    Taken type.text type.text [] (hooks type.text = []) := by
  cases type with
  | omitted => exact .self (fun _ _ => rfl) rfl
  | universal => exact .self (fun y _ => dropNegations_cons_of_ne (by decide) y) rfl
  | tag n => exact .self (fun _ hy => n.dropNegations hy) n.spelling.closed

theorem TypeTest.not_mem_text {type : TypeTest} (h : type.parenFree = true) :
    ')' ∉ type.text := by
  cases type with
  | omitted => exact List.not_mem_nil
  | universal => decide
  | tag n => exact Name.not_mem_written h

/-- A text without marks, backslashes, colons and closing parentheses. -/
structure Inert (p : List Char) : Prop where
  colon : ':' ∉ p
  paren : ')' ∉ p
  backslash : '\\' ∉ p
  mark : p.any isMark = false

theorem Inert.taken {p t u : List Char} {hs : List (Char × String)} {b : Bool} (hp : Inert p)
    (h : Taken t u hs b) : Taken (p ++ t) (p ++ u) hs b :=
  h.behind_plain (dropNegations_append hp.colon) (closed_of_not_mem hp.backslash) hp.mark

theorem Combinator.inert (k : Combinator) : Inert (k.text l) := by
  cases k <;> cases l <;> exact ⟨by decide, by decide, by decide, rfl⟩

theorem Comparison.inert (k : Comparison) : Inert k.text := by
  cases k <;> exact ⟨by decide, by decide, by decide, rfl⟩

theorem inert_separator (l : Layout) : Inert (',' :: l.gap) := by
  cases l <;> exact ⟨by decide, by decide, by decide, rfl⟩

theorem Combinator.opens (k : Combinator) (u : List Char) : Opens (k.text l ++ u) := by
  intro z _
  rw [List.append_assoc]
  exact k.front.1

theorem Combinator.taken (k : Combinator) (type : TypeTest) :
    Taken (k.text l ++ type.text) (k.text l ++ type.text) [] (hooks type.text = []) :=
  k.inert.taken type.taken

/-- A combinator has no parentheses. -/
theorem Combinator.not_mem_text (k : Combinator) {type : TypeTest} (h : type.parenFree = true) :
    ')' ∉ k.text l ++ type.text := by
  rw [List.mem_append]
  rintro (hm | hm)
  · exact k.inert.paren hm
  · exact TypeTest.not_mem_text h hm

/-- An attribute whose value has no negation in it. -/
theorem taken_attribute (n : Name) {test : Option (Comparison × String)}
    (h : ∀ t ∈ test, ¬negation <:+: t.2.toList) :
    Taken (attributeText n test) (attributeText n test) [] (hooks (attributeText n test) = []) := by
  refine .self (fun y _ => ?_) ?_
  · rw [attributeText, List.cons_append, dropNegations_cons_of_ne (by decide), List.append_assoc,
      List.append_assoc, List.singleton_append, n.dropNegations (testText_front test)]
    have hclose : dropNegations (']' :: y) = ']' :: dropNegations y :=
      dropNegations_cons_of_ne (by decide) y
    cases test with
    | none => rw [testText, List.nil_append, hclose]; simp
    | some t =>
        obtain ⟨k, v⟩ := t
        rw [testText, List.append_assoc, dropNegations_append k.inert.colon,
          dropNegations_quote (h _ rfl), hclose]
        simp
  · refine .cons (by decide) (n.spelling.closed.append ?_)
    cases test with
    | none => rfl
    | some t =>
        exact ((closed_of_not_mem t.1.inert.backslash).append (closed_quote _)).append rfl

/-- The test of an attribute has no closing parenthesis if its name and its value have none. -/
theorem not_mem_attributeText {n : Name} (hn : n.parenFree = true)
    {test : Option (Comparison × String)} (h : ∀ t ∈ test, ')' ∉ t.2.toList) :
    ')' ∉ attributeText n test := by
  rw [attributeText, List.mem_cons, List.mem_append, List.mem_append]
  rintro (hm | hm | hm | hm)
  · cases hm
  · exact Name.not_mem_written hn hm
  · cases test with
    | none => cases hm
    | some t =>
        rcases List.mem_append.1 hm with hm | hm
        · exact t.1.inert.paren hm
        · exact not_mem_quote (h t rfl) hm
  · simp at hm

/-- A mark and a name. -/
theorem taken_hook {m : Char} (hm : isMark m = true) (n : Name) :
    Taken (m :: n.written) (m :: n.written) [(m, n.text)] false where
  drop y hy := by
    have hc : m ≠ ':' := by rintro rfl; cases hm
    rw [List.cons_append, dropNegations_cons_of_ne hc, n.dropNegations hy, List.cons_append]
  closed := by
    have hb : m ≠ '\\' := by rintro rfl; cases hm
    exact .cons hb n.spelling.closed
  found hook hh := by
    obtain rfl := List.mem_singleton.1 hh
    exact ⟨⟨[], [], n, by simp, rfl, rfl, Opens.nil⟩, hm⟩
  hookless hb := nomatch hb

/-- A mark in front of a name that is free of parentheses adds none. -/
theorem not_mem_cons_written {m : Char} (hm : m ≠ ')') {n : Name} (h : n.parenFree = true) :
    ')' ∉ m :: n.written := by
  rw [List.mem_cons]
  rintro (e | hc)
  · exact hm e.symm
  · exact Name.not_mem_written h hc

/-- A pseudo-class stays as it is: only `:not(` begins a negation. -/
theorem taken_pseudo (n : Name) :
    Taken (':' :: n.written) (':' :: n.written) [] (hooks n.written = []) where
  drop y hy := by
    rw [List.cons_append, dropNegations_cons, n.dropNegations hy, List.cons_append]
    intro hpre
    exact n.spelling.not_prefix hy (w := ['n', 'o', 't']) rfl (List.cons_prefix_cons.1 hpre).2
  closed := .cons (by decide) n.spelling.closed
  found _ hh := (List.not_mem_nil hh).elim
  hookless hb y hy := by
    rw [List.cons_append, ← hooks_append n.spelling.closed (of_decide_eq_true hb) hy]
    exact hooks_unmarked (x := [':']) rfl _

end Parts

/-! ### Selectors without their negations -/

/-- The opening of a list of alternatives is no negation. -/
theorem dropNegations_is (y : List Char) :
    dropNegations ([':', 'i', 's', '('] ++ y) = [':', 'i', 's', '('] ++ dropNegations y := by
  rw [List.cons_append, dropNegations_cons, dropNegations_append (x := ['i', 's', '(']) (by decide)]
  · rfl
  · intro hpre
    cases (List.cons_prefix_cons.1 (List.cons_prefix_cons.1 hpre).2).1

/-- A negation leaves no mention. -/
theorem taken_negation {t : List Char} (h : Skipped t) :
    ∃ u, Opens u ∧ Taken (negation ++ (t ++ [')'])) u []
      (hooks (dropNegations (negation ++ (t ++ [')']))) = []) := by
  obtain ⟨u, ho, hc, hu⟩ := h.group
  have hdrop : ∀ y, dropNegations (negation ++ (t ++ [')']) ++ y) = u ++ dropNegations y :=
    fun y => by rw [List.append_assoc, dropNegations_negation (by simp), hu]
  refine ⟨u, ho, fun y _ => hdrop y, hc, fun _ hh => (List.not_mem_nil hh).elim, fun hb y hy => ?_⟩
  have hself := hdrop []
  rw [dropNegations_nil, List.append_nil, List.append_nil] at hself
  rw [hself] at hb
  exact hooks_append hc (of_decide_eq_true hb) hy

mutual

/-- **What taking out the negations leaves of a tidy simple selector**, by recursion on its
arguments. -/
theorem Simple.taken (l : Layout) : ∀ x : Simple, x.tidy = true →
    (∃ u, Opens u ∧ Taken (x.text l) u x.mentions (x.bare l)) ∧
      (x.parenFree = true → Skipped (x.text l))
  | .hasClass n, _ => by
      rw [Simple.text, Simple.mentions, Simple.bare, Simple.parenFree]
      exact ⟨⟨_, .cons rfl (by decide) _, taken_hook rfl n⟩,
        fun h => .of_not_mem (not_mem_cons_written (by decide) h)⟩
  | .hasId n, _ => by
      rw [Simple.text, Simple.mentions, Simple.bare, Simple.parenFree]
      exact ⟨⟨_, .cons rfl (by decide) _, taken_hook rfl n⟩,
        fun h => .of_not_mem (not_mem_cons_written (by decide) h)⟩
  | .hasAttribute n test, ht => by
      rw [Simple.tidy, Option.all_eq_true] at ht
      rw [Simple.text, Simple.mentions, Simple.bare, Simple.parenFree, Bool.and_eq_true,
        Option.all_eq_true]
      refine ⟨⟨_, .cons rfl (by decide) _, taken_attribute n fun t h => of_decide_eq_true (ht t h)⟩,
        fun h => .of_not_mem (not_mem_attributeText h.1 fun t hm => of_decide_eq_true (h.2 t hm))⟩
  | .pseudo n, _ => by
      rw [Simple.text, Simple.mentions, Simple.bare, Simple.parenFree]
      exact ⟨⟨_, .cons rfl (by decide) _, taken_pseudo n⟩,
        fun h => .of_not_mem (not_mem_cons_written (by decide) h)⟩
  | .not cs, ht => by
      rw [Simple.tidy, Bool.and_eq_true] at ht
      rw [Simple.text, Simple.mentions, Simple.bare]
      -- taken out by itself, and passed over as a group within another negation
      have hskip := (Chain.takenAll l cs ht.1).2 ht.2
      refine ⟨taken_negation hskip, fun _ => ?_⟩
      obtain ⟨u, ho, hc, hu⟩ := hskip.group
      refine .inr ⟨u, ho, hc, fun y _ => ?_⟩
      rw [List.append_assoc, behind_append (by decide), hu]
  | .is cs, ht => by
      rw [Simple.tidy] at ht
      rw [Simple.text, Simple.mentions, Simple.bare, Simple.parenFree]
      -- the alternatives stay where they are
      obtain ⟨⟨u, hu⟩, hskip⟩ := Chain.takenAll l cs ht
      refine ⟨⟨_, .cons rfl (by decide) _, hu.close.behind_plain dropNegations_is rfl rfl⟩,
        fun hp => ?_⟩
      obtain ⟨u, ho, hc, hu⟩ := (hskip hp).group
      refine .inr ⟨u, ho, hc, fun y _ => ?_⟩
      rw [List.append_assoc, behind_append (by decide), hu]

/-- What taking out the negations leaves of a tidy selector. -/
theorem Chain.taken (l : Layout) : ∀ c : Chain, c.tidy = true →
    (∃ u, Taken (c.text l) u c.mentions (c.bare l)) ∧ (c.parenFree = true → Skipped (c.text l))
  | .start type, _ => by
      rw [Chain.text, Chain.mentions, Chain.bare, Chain.parenFree]
      exact ⟨⟨_, type.taken⟩, fun h => .of_not_mem (TypeTest.not_mem_text h)⟩
  | .also c x, ht => by
      rw [Chain.tidy, Bool.and_eq_true] at ht
      rw [Chain.text, Chain.mentions, Chain.bare, Chain.parenFree, Bool.and_eq_true]
      obtain ⟨⟨u, hu⟩, hskip⟩ := Chain.taken l c ht.1
      obtain ⟨⟨v, ho, hv⟩, hskip'⟩ := Simple.taken l x ht.2
      have hf : ∀ y, Front y → Front (x.text l ++ y) := fun _ _ => x.front
      exact ⟨⟨_, hu.append hv hf ho⟩, fun hp => (hskip hp.1).append (hskip' hp.2) hv ho hf⟩
  | .join c k type, ht => by
      rw [Chain.tidy] at ht
      rw [Chain.text, Chain.mentions, Chain.bare, Chain.parenFree, Bool.and_eq_true]
      obtain ⟨⟨u, hu⟩, hskip⟩ := Chain.taken l c ht
      have hf : ∀ y, Front y → Front (k.text l ++ type.text ++ y) := by
        intro y _
        rw [List.append_assoc]; exact k.front
      have htaken := hu.append (k.taken type) hf (k.opens _)
      rw [List.append_nil] at htaken
      exact ⟨⟨_, htaken⟩, fun hp => (hskip hp.1).append (.of_not_mem (k.not_mem_text hp.2))
        (k.taken type) (k.opens _) hf⟩

/-- What taking out the negations leaves of a list of tidy selectors. -/
theorem Chain.takenAll (l : Layout) : ∀ cs : List Chain, Chain.tidyAll cs = true →
    (∃ u, Taken (Chain.listText l cs) u (Chain.mentionsAny cs) (Chain.bareAll l cs)) ∧
      (Chain.parenFreeAll cs = true → Skipped (Chain.listText l cs))
  | [], _ => by
      rw [Chain.listText, Chain.mentionsAny, Chain.bareAll]
      exact ⟨⟨_, .nil⟩, fun _ => .of_not_mem List.not_mem_nil⟩
  | [c], ht => by
      rw [Chain.tidyAll, Chain.tidyAll, Bool.and_true] at ht
      rw [Chain.listText, Chain.mentionsAny, Chain.mentionsAny, List.append_nil,
        Chain.bareAll, Chain.bareAll, Bool.and_true, Chain.parenFreeAll,
        Chain.parenFreeAll, Bool.and_true]
      exact Chain.taken l c ht
  | c :: d :: cs, ht => by
      rw [Chain.tidyAll, Bool.and_eq_true] at ht
      rw [Chain.listText, Chain.mentionsAny, Chain.bareAll, Chain.parenFreeAll,
        Bool.and_eq_true]
      obtain ⟨⟨u, hu⟩, hskip⟩ := Chain.taken l c ht.1
      obtain ⟨⟨v, hv⟩, hskip'⟩ := Chain.takenAll l (d :: cs) ht.2
      have hv := (inert_separator l).taken hv
      have hf : ∀ y, Front y → Front (',' :: l.gap ++ Chain.listText l (d :: cs) ++ y) :=
        fun y _ => .cons rfl (by decide) (by decide) _
      have ho : Opens (',' :: l.gap ++ v) := .cons rfl (by decide) _
      -- within a negation the separator is passed over with the rest
      refine ⟨⟨_, hu.append hv hf ho⟩, fun hp => (hskip hp.1).append ?_ hv ho hf⟩
      rcases hskip' hp.2 with h | ⟨w, hw, hc, h⟩
      · refine .inl fun y => ?_
        rw [List.append_assoc, behind_append (inert_separator l).paren, h]
      · refine .inr ⟨w, hw, hc, fun y hy => ?_⟩
        rw [List.append_assoc, behind_append (inert_separator l).paren, h y hy]

end

/-! ### Anchors -/

/-- Where a text comes to its first character that is neither a letter nor a blank. -/
structure Reaches (t : List Char) (m : Char) (r : List Char) : Prop where
  split : ∃ x, t = x ++ m :: r ∧ x.all isAnchorChar = true
  mark : isMark m = true

namespace Reaches

variable {m : Char} {r : List Char}

/-- A mark is no anchor character, so a text that reaches one begins with it, or with an anchor
character. -/
theorem cons {c : Char} {t : List Char} (h : Reaches (c :: t) m r) :
    (c = m ∧ t = r) ∨ (isAnchorChar c = true ∧ Reaches t m r) := by
  obtain ⟨⟨x, hx, hall⟩, hm⟩ := h
  cases x with
  | nil => exact .inl (List.cons.inj hx)
  | cons d x =>
      obtain ⟨rfl, ht⟩ := List.cons.inj hx
      rw [List.all_cons, Bool.and_eq_true] at hall
      exact .inr ⟨hall.1, ⟨x, ht, hall.2⟩, hm⟩

/-- No hook is reached behind a character that is neither a letter nor a blank. -/
theorem absurd_cons {c : Char} {t : List Char} (h : Reaches (c :: t) m r) (hc : isMark c = false)
    (ha : isAnchorChar c = false) : False := by
  rcases h.cons with ⟨rfl, -⟩ | ⟨hc', -⟩
  · rw [h.mark] at hc; cases hc
  · rw [hc'] at ha; cases ha

/-- No anchor stands in an identifier. -/
theorem spelling {n t y : List Char} (ht : Spelling n t) (h : Reaches (t ++ y) m r) :
    Reaches y m r := by
  induction ht with
  | nil => exact h
  | cons hu _ ih =>
      rw [List.append_assoc] at h
      cases hu with
      | plain hi =>
          rcases h.cons with ⟨rfl, -⟩ | ⟨-, h⟩
          · rcases isMark_cases h.mark with rfl | rfl <;> cases hi
          · exact ih h
      | marked => exact (h.absurd_cons rfl (by decide)).elim
      | coded => exact (h.absurd_cons rfl (by decide)).elim

/-- The first hook stands behind the test of a type, which has none. -/
theorem type {type : TypeTest} {y : List Char} (h : Reaches (type.text ++ y) m r) :
    Reaches y m r := by
  cases type with
  | omitted => exact h
  | universal => exact (h.absurd_cons rfl (by decide)).elim
  | tag n => exact spelling n.spelling h

theorem gap {l : Layout} {y : List Char} (h : Reaches (l.gap ++ y) m r) : Reaches y m r := by
  cases l with
  | compressed => exact h
  | pretty =>
      rcases h.cons with ⟨rfl, -⟩ | ⟨-, h⟩
      · cases h.mark
      · exact h

/-- The first hook stands behind a combinator, which is then a blank. -/
theorem combinator {l : Layout} {k : Combinator} {y : List Char}
    (h : Reaches (k.text l ++ y) m r) : Reaches y m r := by
  cases k with
  | descendant =>
      rcases h.cons with ⟨rfl, -⟩ | ⟨-, h⟩
      · cases h.mark
      · exact h
  | child | next | subsequent =>
      rw [Combinator.text, List.append_assoc] at h
      exact (h.gap.absurd_cons rfl (by decide)).elim

/-- The anchor of a text is the name behind the mark that the text reaches. -/
theorem of_anchor? {t : List Char} {name : String} (h : anchor? t = some (m, name)) :
    ∃ r, Reaches t m r ∧ name = nameAt r := by
  rw [anchor?] at h
  split at h
  · cases h
  · next c rest hd =>
      split at h
      · next hc =>
          obtain ⟨rfl, rfl⟩ := Prod.mk.inj (Option.some.inj h)
          refine ⟨rest, ⟨⟨t.takeWhile isAnchorChar, ?_, List.all_takeWhile⟩, hc.1⟩, rfl⟩
          rw [← hd, List.takeWhile_append_dropWhile]
      · cases h

end Reaches

/-- The first anchor of a text is a class or an id that the selector requires, or stands behind the
selector. -/
theorem Chain.reaches {l : Layout} {m : Char} {r : List Char} : ∀ (c : Chain) (y : List Char),
    Stops y → Reaches (c.text l ++ y) m r →
      (∃ x : Simple, c.Requires x ∧ x.demands = true ∧ x.mentions = [(m, nameAt r)]) ∨
        Reaches y m r
  | .start type, y, _, h => by
      rw [Chain.text] at h
      exact .inr h.type
  | .join c k type, y, _, h => by
      rw [Chain.text, List.append_assoc, List.append_assoc] at h
      rcases Chain.reaches c _ k.front.1 h with ⟨x, hx, hd, hm⟩ | h
      · exact .inl ⟨x, hx.join k type, hd, hm⟩
      · exact .inr h.combinator.type
  | .also c x, y, hy, h => by
      rw [Chain.text, List.append_assoc] at h
      rcases Chain.reaches c _ x.front.1 h with ⟨x', hx, hd, hm⟩ | h
      · exact .inl ⟨x', hx.also x, hd, hm⟩
      -- the condition at the end is the anchor, or begins with a character that stops the search
      · cases x with
        | hasClass n =>
            rw [Simple.text, List.cons_append] at h
            rcases h.cons with ⟨rfl, rfl⟩ | ⟨hc, -⟩
            · refine .inl ⟨_, .last, by rw [Simple.demands], ?_⟩
              rw [Simple.mentions, n.nameAt_written hy]
            · cases hc
        | hasId n =>
            rw [Simple.text, List.cons_append] at h
            rcases h.cons with ⟨rfl, rfl⟩ | ⟨hc, -⟩
            · refine .inl ⟨_, .last, by rw [Simple.demands], ?_⟩
              rw [Simple.mentions, n.nameAt_written hy]
            · cases hc
        | hasAttribute n test => rw [Simple.text] at h; exact (h.absurd_cons rfl (by decide)).elim
        | pseudo n => rw [Simple.text] at h; exact (h.absurd_cons rfl (by decide)).elim
        | not cs => rw [Simple.text] at h; exact (h.absurd_cons rfl (by decide)).elim
        | is cs => rw [Simple.text] at h; exact (h.absurd_cons rfl (by decide)).elim

/-- The anchor of a selector is a class or an id that the selector requires. -/
theorem Chain.anchored {l : Layout} {c : Chain} {hook : Char × String}
    (h : anchor? (c.text l) = some hook) :
    ∃ x : Simple, c.Requires x ∧ x.demands = true ∧ x.mentions = [hook] := by
  obtain ⟨m, name⟩ := hook
  obtain ⟨r, hr, rfl⟩ := Reaches.of_anchor? h
  rw [← List.append_nil (c.text l)] at hr
  rcases Chain.reaches c [] Front.nil.1 hr with hx | hx
  · exact hx
  · obtain ⟨⟨x, hx, -⟩, -⟩ := hx
    cases (List.append_eq_nil_iff.1 hx.symm).2

/-! ### Retention -/

/-- The analysis accounts for the selector: its anchor decides, or it is tidy, and then it demands a
class or an id that is found, or has nothing in it that could be found. -/
def Chain.accounted (l : Layout) (c : Chain) : Bool :=
  (anchor? (c.text l)).isSome || c.tidy && (c.demands || c.bare l)

section Retention

variable {l : Layout} {c : Chain} {pseudo : String → Spot → Bool} {t : Tree} {s : Spot}

/-- One hook that an element has is enough for the dependency, with ids or without. -/
theorem met_of_hook {hs : List (Char × String)} {hook : Char × String} {e : Element}
    (hh : hook ∈ hs) (he : e ∈ t.elements) (h : e.Has hook) :
    (Dependency.ofHooks hs).Met t.classes (some t.ids) := by
  obtain ⟨m, name⟩ := hook
  rcases Tree.has_mem he h with ⟨hm, hc⟩ | ⟨hm, hi⟩
  · cases hm
    exact .inl ⟨name, Dependency.mem_ofHooks.1.2 hh, hc⟩
  · cases hm
    exact .inr ⟨t.ids, rfl, name, Dependency.mem_ofHooks.2.2 hh, hi⟩

/-- A document in which a selector matches mentions one of the names that the analysis finds, unless
it finds none. -/
theorem Chain.met (hs : s ∈ t.spots) (hc : c.accounted l = true)
    (h : c.selects pseudo s = true) :
    (dependencyOf (c.text l)).isEmpty = true ∨
      (dependencyOf (c.text l)).Met t.classes (some t.ids) := by
  have hsub := Tree.elements_spots hs
  rw [dependencyOf]
  split
  · next hook ha =>
      -- the fast path: the anchor alone is kept, and the match requires it
      obtain ⟨x, hx, hd, hm⟩ := Chain.anchored ha
      obtain ⟨s', hs', h'⟩ := hx.selects h
      obtain ⟨hook', hh, e, he, hhas⟩ := Simple.mentioned x s' hd h'
      rw [hm] at hh
      exact .inr (met_of_hook hh (hsub (hs' he)) hhas)
  · next ha =>
      -- the general path: what is left without the negations is searched
      rw [accounted, ha, Option.isSome_none, Bool.false_or, Bool.and_eq_true, Bool.or_eq_true] at hc
      obtain ⟨⟨u, hu⟩, -⟩ := Chain.taken l c hc.1
      have hdrop := hu.drop [] .nil
      rw [dropNegations_nil, List.append_nil, List.append_nil] at hdrop
      rw [hdrop]
      rcases hc.2 with hd | hb
      · obtain ⟨hook, hh, e, he, hhas⟩ := Chain.mentioned c s hd h
        exact .inr (met_of_hook (hu.found hook hh).mem_hooks (hsub he) hhas)
      · have hnone := hu.hookless hb [] Front.nil.1
        rw [List.append_nil] at hnone
        rw [hnone, hooks]
        exact .inl rfl

end Retention

end CssPrune.Selector

namespace CssPrune.Candidate

open Selector

variable {print : Layout → Rule → String} {o : Options} {l : Layout} {c : Chain}
  {pseudo : String → Spot → Bool} {t : Tree} {s : Spot}

/-- The rule of a selector that matches somewhere in a document is kept for that document. -/
theorem retained_of_selects (ho : o.keepUnanchoredRules = true) (hc : c.accounted l = true)
    (hs : s ∈ t.spots) (h : c.selects pseudo s = true) (ds : List Declaration) :
    (ofRule print o (.style [String.ofList (c.text l)] ds)).isRetainedBy t.classes (some t.ids) =
      true := by
  -- the rule has this one selector, so its candidate asks for the same names
  have hsub : (analyze (String.ofList (c.text l))).Within
      (analyzeAll [String.ofList (c.text l)]) := by
    refine ⟨fun x hx => ?_, fun x hx => ?_⟩
    · exact mem_classes_analyzeAll.2 ⟨_, List.mem_singleton_self _, hx⟩
    · exact mem_ids_analyzeAll.2 ⟨_, List.mem_singleton_self _, hx⟩
  rw [isRetainedBy_ofRule, Unconditional, Rule.reachable]
  have hmet := Chain.met hs hc h
  rw [← String.toList_ofList (l := c.text l)] at hmet
  rcases hmet with he | hm
  · refine .inl (.inr ⟨ho, ?_⟩)
    rw [Dependency.isEmpty_iff] at he ⊢
    refine ⟨fun x hx => ?_, fun x hx => ?_⟩
    · obtain ⟨_, hmem, hx⟩ := mem_classes_analyzeAll.1 hx
      obtain rfl := List.mem_singleton.1 hmem
      exact he.1 x hx
    · obtain ⟨_, hmem, hx⟩ := mem_ids_analyzeAll.1 hx
      obtain rfl := List.mem_singleton.1 hmem
      exact he.2 x hx
  · exact .inr (hm.mono hsub)

/-- A box of the class `a` with a title. -/
def titledBox : Element := ⟨"div", none, ["a"], [("title", "x")]⟩

/-- A paragraph in such a box. -/
def boxed : Tree := .node titledBox [.node ⟨"p", none, [], []⟩ []]

/-- The selector `div[title="x"]:is(.a,#c)>p:not(.b):hover`. -/
def boxedHover : Chain :=
  .also (.also (.join (.also (.also (.start (.tag ⟨"div", by decide⟩))
        (.hasAttribute ⟨"title", by decide⟩ (some (.equals, "x"))))
        (.is [.also (.start .omitted) (.hasClass ⟨"a", by decide⟩),
          .also (.start .omitted) (.hasId ⟨"c", by decide⟩)]))
      .child (.tag ⟨"p", by decide⟩))
    (.not [.also (.start .omitted) (.hasClass ⟨"b", by decide⟩)])) (.pseudo ⟨"hover", by decide⟩)

/-- The bracket in front of the first class keeps the anchor from deciding; the selector is tidy, and
its alternatives all demand a name. -/
theorem retained_of_selects_boxed :
    anchor? (boxedHover.text .compressed) = none ∧ boxedHover.accounted .compressed = true ∧
      (ofRule Rule.print ⟨true, true, true⟩
        (.style ["div[title=\"x\"]:is(.a,#c)>p:not(.b):hover"] [])).isRetainedBy
          boxed.classes (some boxed.ids) = true := by
  have hc : boxedHover.accounted .compressed = true := by decide +kernel
  have hs : ⟨⟨"p", none, [], []⟩, [], [(titledBox, [])]⟩ ∈ boxed.spots := .tail _ (.head _)
  have h : boxedHover.selects (fun _ _ => true)
      ⟨⟨"p", none, [], []⟩, [], [(titledBox, [])]⟩ = true := by decide +kernel
  exact ⟨by decide +kernel, hc, retained_of_selects rfl hc hs h []⟩

/-- The selector `:is(.a, p)`. -/
def eitherOr : Chain :=
  .also (.start .omitted) (.is [.also (.start .omitted) (.hasClass ⟨"a", by decide⟩),
    .start (.tag ⟨"p", by decide⟩)])

/-- The class of one alternative is all that the analysis finds, while the other alternative
matches. -/
theorem alternative_lost :
    eitherOr.selects (fun _ _ => false) ⟨⟨"p", none, [], []⟩, [], []⟩ = true ∧
      ⟨⟨"p", none, [], []⟩, [], []⟩ ∈ (Tree.node ⟨"p", none, [], []⟩ []).spots ∧
      (ofRule Rule.print ⟨true, true, true⟩
        (.style [String.ofList (eitherOr.text .pretty)] [])).isRetainedBy
          (Tree.node ⟨"p", none, [], []⟩ []).classes
          (some (Tree.node ⟨"p", none, [], []⟩ []).ids) = false :=
  ⟨by decide +kernel, .head _, by decide +kernel⟩

end CssPrune.Candidate
