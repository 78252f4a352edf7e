import CssPrune.Proofs.Negation
import CssPrune.Proofs.PlainText

/-!
# Parentheses within a negation

A group `:not(…)` goes up to the first closing parenthesis, so of a content that has parentheses of
its own the text behind the first closing one stays (`leftover`).  In a text without backslashes whose
parentheses close, a negation is taken out without regard to what stands around it
(`dropNegations_closing`), so the content comes into the analysis only by its leftover
(`dependencyOf_negated`).  Two contents whose leftovers have no hook make no difference
(`analyze_negated`).
-/

namespace CssPrune.Selector

/-! ### Closing parentheses -/

/-- Every opening parenthesis has a closing one somewhere behind it. -/
def Closing (x : List Char) : Prop := ∀ z, '(' :: z <:+ x → ')' ∈ z

theorem Closing.of_suffix {x z : List Char} (h : Closing x) (hz : z <:+ x) : Closing z :=
  fun w hw => h w (hw.trans hz)

open Plain (balanced)

/-- Where a parenthesis is open, a balanced text closes it. -/
theorem close_mem_of_balanced {n : Nat} {x : List Char} (h : balanced true (n + 1) x = true) :
    ')' ∈ x := by
  induction x generalizing n with
  | nil => cases h
  | cons c x ih =>
      rw [balanced] at h
      split at h
      · exact List.mem_cons_of_mem _ (ih h)
      · next hc =>
          split at h
          · next hc => exact hc ▸ List.mem_cons_self
          · rw [Bool.true_or, Bool.true_or, Bool.true_and] at h
            exact List.mem_cons_of_mem _ (ih h)

/-- In a balanced text every opening parenthesis has a closing one. -/
theorem closing_of_balanced {n : Nat} {x : List Char} (h : balanced true n x = true) :
    Closing x := by
  induction x generalizing n with
  | nil => intro z hz; cases List.suffix_nil.1 hz
  | cons c x ih =>
      intro z hz
      rw [balanced] at h
      rcases List.suffix_cons_iff.1 hz with he | hz
      · cases he
        exact close_mem_of_balanced h
      · split at h
        · exact ih h z hz
        · split at h
          · exact ih (Bool.and_eq_true_iff.1 h).2 z hz
          · exact ih (Bool.and_eq_true_iff.1 h).2 z hz

/-! ### Negations on their own -/

/-- A beginning of a text with more behind it lies in the text, or the text is the beginning of it
and what follows goes on with it. -/
theorem prefix_append_cases {w x y : List Char} (h : w <+: x ++ y) :
    w <+: x ∨ ∃ d v, w = x ++ d :: v ∧ y.head? = some d := by
  rcases List.prefix_or_prefix_of_prefix h (List.prefix_append x y) with hw | ⟨v, rfl⟩
  · exact .inl hw
  · cases v with
    | nil => exact .inl ⟨[], by simp⟩
    | cons d v =>
        obtain ⟨t, rfl⟩ := (List.prefix_append_right_inj x).1 h
        exact .inr ⟨d, v, rfl, rfl⟩

/-- The characters of `:not(` behind the colon. -/
theorem not_prefix_append {c : Char} {x y : List Char} (h : ¬negation <+: c :: x)
    (hy : ∀ d ∈ y.head?, d ∉ ['n', 'o', 't', '(']) : ¬negation <+: c :: (x ++ y) := by
  intro hp
  rcases prefix_append_cases (x := c :: x) hp with hp | ⟨d, v, he, hd⟩
  · exact h hp
  · refine hy d hd ?_
    have htail : ['n', 'o', 't', '('] = x ++ d :: v := (List.cons.inj he).2
    rw [htail]
    simp

/-- A negation ends at the first closing parenthesis, and the text behind it is searched on. -/
theorem behind_of_append {u : List Char} (h : ')' ∉ u) (v : List Char) :
    behind (u ++ ')' :: v) = dropNegations v := by
  rw [behind_append h, behind_close]

/-- A text whose parentheses close keeps its negations to itself. -/
theorem dropNegations_closing {x y : List Char} (hx : Closing x)
    (hy : ∀ d ∈ y.head?, d ∉ ['n', 'o', 't', '(']) :
    dropNegations (x ++ y) = dropNegations x ++ dropNegations y := by
  obtain ⟨n, hn⟩ : ∃ n, x.length = n := ⟨_, rfl⟩
  induction n using Nat.strongRecOn generalizing x with
  | ind n ih =>
      by_cases hp : negation <+: x
      · obtain ⟨z, rfl⟩ := hp
        -- the group ends within the text
        obtain ⟨u, v, rfl, hu⟩ := List.eq_append_cons_of_mem (hx z ⟨[':', 'n', 'o', 't'], rfl⟩)
        have hv : v <:+ negation ++ (u ++ ')' :: v) := ⟨negation ++ u ++ [')'], by simp⟩
        have hlen : v.length < n := by
          rw [← hn]; simp; omega
        have hmem : ∀ w, ')' ∈ u ++ ')' :: w := fun w => by simp
        rw [List.append_assoc, List.append_assoc, List.cons_append, dropNegations_negation (hmem _),
          dropNegations_negation (hmem _), behind_of_append hu, behind_of_append hu,
          ih _ hlen (hx.of_suffix hv) rfl]
      · cases x with
        | nil => rw [dropNegations_nil]; rfl
        | cons c x =>
            have hlen : x.length < n := hn ▸ Nat.lt_succ_self _
            rw [List.cons_append, dropNegations_cons hp, dropNegations_cons (not_prefix_append hp hy),
              ih _ hlen (hx.of_suffix (List.suffix_cons c x)) rfl, List.cons_append]

theorem afterNegation?_suffix {x rest : List Char} (h : afterNegation? x = some rest) :
    rest <:+ x := by
  unfold afterNegation? at h
  split at h
  · have hd := List.dropWhile_suffix (l := x.drop negation.length) (· ≠ ')')
    split at h
    · cases h
    · next heq =>
        cases h
        rw [heq] at hd
        exact ((List.suffix_cons _ _).trans hd).trans (List.drop_suffix _ _)
  · cases h

theorem mem_of_mem_dropNegations {c : Char} {x : List Char} (h : c ∈ dropNegations x) : c ∈ x := by
  fun_induction dropNegations x with
  | case1 => cases h
  | case2 d x rest hr ih => exact (afterNegation?_suffix hr).subset (ih h)
  | case3 d x _ ih =>
      rcases List.mem_cons.1 h with rfl | h
      · exact List.mem_cons_self
      · exact List.mem_cons_of_mem _ (ih h)

/-! ### Identifiers without escapes -/

section Unescaped

variable {x y : List Char}

/-- An identifier ends where nothing goes on with it, whatever follows. -/
theorem identLength_append (hx : '\\' ∉ x) (hy : Stops y) :
    identLength (x ++ y) = identLength x := by
  induction x with
  | nil =>
      rw [List.nil_append, identLength_of_unitLength (unitLength_of_stops hy),
        identLength_of_unitLength unitLength_nil]
  | cons c x ih =>
      rw [List.mem_cons, not_or] at hx
      rw [List.cons_append, identLength_cons (Ne.symm hx.1), identLength_cons (Ne.symm hx.1), ih hx.2]

/-- An identifier is no longer than its text. -/
theorem identLength_le (hx : '\\' ∉ x) : identLength x ≤ x.length := by
  induction x with
  | nil => rw [identLength_of_unitLength unitLength_nil]; exact Nat.le_refl 0
  | cons c x ih =>
      rw [List.mem_cons, not_or] at hx
      rw [identLength_cons (Ne.symm hx.1)]
      split
      · exact Nat.succ_le_succ (ih hx.2)
      · exact Nat.zero_le _

theorem nameAt_append (hx : '\\' ∉ x) (hy : Stops y) : nameAt (x ++ y) = nameAt x := by
  rw [nameAt, nameAt, identLength_append hx hy, List.take_append_of_le_length (identLength_le hx)]

/-- The hooks of a text stay apart from those behind it. -/
theorem hooks_append_of_stops (hx : '\\' ∉ x) (hy : Stops y) : hooks (x ++ y) = hooks x ++ hooks y := by
  fun_induction hooks x with
  | case1 => rfl
  | case2 c x h ih =>
      rw [List.mem_cons, not_or] at hx
      have hdrop : '\\' ∉ x.drop (identLength x) := fun hm => hx.2 (List.mem_of_mem_drop hm)
      rw [List.cons_append, hooks, if_pos ⟨h.1, by rw [identLength_append hx.2 hy]; exact h.2⟩,
        identLength_append hx.2 hy, nameAt_append hx.2 hy,
        List.drop_append_of_le_length (identLength_le hx.2), ih hdrop]
      rfl
  | case3 c x h ih =>
      rw [List.mem_cons, not_or] at hx
      rw [List.cons_append, hooks, if_neg (by rwa [identLength_append hx.2 hy]), ih hx.2]

/-- An anchor stands in front of every colon. -/
theorem anchor?_append (hx : '\\' ∉ x) (z : List Char) : anchor? (x ++ ':' :: z) = anchor? x := by
  have hstop : Stops (':' :: z) := .cons rfl (by decide) z
  have hsuf := List.dropWhile_suffix (l := x) isAnchorChar
  rw [anchor?, anchor?, List.dropWhile_append]
  cases hw : x.dropWhile isAnchorChar with
  | nil => rfl
  | cons c rest =>
      rw [hw] at hsuf
      have hrest : '\\' ∉ rest := fun hm => hx (hsuf.subset (List.mem_cons_of_mem _ hm))
      have hlen := identLength_append hrest hstop
      have hname := nameAt_append hrest hstop
      show (if isMark c ∧ 0 < identLength (rest ++ ':' :: z) then some (c, nameAt (rest ++ ':' :: z))
        else none) = _
      rw [hlen, hname]

end Unescaped

/-! ### What a negation leaves -/

section Leftover

variable {a x y : List Char}

/-- The content of a negation behind its first closing parenthesis, with the parenthesis that closes
the negation; nothing if there is no other. -/
def leftover (x : List Char) : List Char := behind (x ++ [')'])

/-- Without a parenthesis of its own, a content leaves nothing. -/
theorem leftover_of_not_mem (h : ')' ∉ x) : leftover x = [] := by
  rw [leftover, behind_of_append h, dropNegations_nil]

/-- A content with parentheses ends the negation early and leaves an end of itself, less its
negations. -/
theorem behind_of_mem (h : ')' ∈ x) (hx : Closing x) :
    ∃ v, v <:+ x ∧ ∀ b, behind (x ++ ')' :: b) = dropNegations v ++ ')' :: dropNegations b := by
  obtain ⟨u, v, rfl, hu⟩ := List.eq_append_cons_of_mem h
  have hv : v <:+ u ++ ')' :: v := (List.suffix_cons _ _).trans (List.suffix_append _ _)
  refine ⟨v, hv, fun b => ?_⟩
  have hclose : ∀ d ∈ (')' :: b).head?, d ∉ ['n', 'o', 't', '('] := by
    rintro d ⟨⟩
    decide
  rw [List.append_assoc, List.cons_append, behind_of_append hu,
    dropNegations_closing (hx.of_suffix hv) hclose, dropNegations_cons_of_ne (by decide)]

/-- Such a leftover ends with the parenthesis that was meant to close the negation. -/
theorem leftover_of_mem (h : ')' ∈ x) (hx : Closing x) (hb : '\\' ∉ x) :
    ∃ r, leftover x = r ++ [')'] ∧ '\\' ∉ r := by
  obtain ⟨v, hv, hbehind⟩ := behind_of_mem h hx
  exact ⟨dropNegations v, by rw [leftover, hbehind, dropNegations_nil],
    fun hm => hb (hv.subset (mem_of_mem_dropNegations hm))⟩

/-- What a negation leaves stands in front of the rest of the text, which is searched on. -/
theorem behind_eq_leftover (hx : Closing x) (b : List Char) :
    behind (x ++ ')' :: b) = leftover x ++ dropNegations b := by
  by_cases hc : ')' ∈ x
  · obtain ⟨v, -, hbehind⟩ := behind_of_mem hc hx
    rw [leftover, hbehind, hbehind, dropNegations_nil, List.append_assoc]
    rfl
  · rw [leftover_of_not_mem hc, behind_of_append hc]
    rfl

/-- **The content of a negation comes into the analysis by its leftover**, and not even by that when
an anchor stands in front of the negation. -/
theorem dependencyOf_negated (ha : Closing a) (hb : '\\' ∉ a) (hx : Closing x) (b : List Char) :
    dependencyOf (a ++ (negation ++ (x ++ ')' :: b))) =
      match anchor? a with
      | some hook => .ofHooks [hook]
      | none => .ofHooks (hooks (dropNegations a ++ (leftover x ++ dropNegations b))) := by
  have hanchor : anchor? (a ++ (negation ++ (x ++ ')' :: b))) = anchor? a := anchor?_append hb _
  have hcolon : ∀ d ∈ (negation ++ (x ++ ')' :: b)).head?, d ∉ ['n', 'o', 't', '('] := by
    rintro d ⟨⟩
    decide
  have hmem : ')' ∈ x ++ ')' :: b := by simp
  have hscan : dropNegations (a ++ (negation ++ (x ++ ')' :: b))) =
      dropNegations a ++ (leftover x ++ dropNegations b) := by
    rw [dropNegations_closing ha hcolon, dropNegations_negation hmem, behind_eq_leftover hx]
  cases h : anchor? a with
  | some hook => simp only [dependencyOf, hanchor, h]
  | none => simp only [dependencyOf, hanchor, h, hscan]

/-! ### Leftovers without hooks -/

/-- The leftover has no hook, and no name in front of it goes on with it. -/
def Spent (x : List Char) : Prop := Stops (leftover x) ∧ hooks (leftover x) = []

/-- A content without parentheses has no leftover. -/
theorem spent_of_not_mem (h : ')' ∉ x) : Spent x := by
  rw [Spent, leftover_of_not_mem h, hooks]
  refine ⟨fun c hc => ?_, rfl⟩
  cases hc

/-- A closing parenthesis parts the hooks in front of it from those behind. -/
theorem hooks_close (r y : List Char) (hr : '\\' ∉ r) :
    hooks (r ++ ')' :: y) = hooks r ++ hooks y := by
  rw [hooks_append_of_stops hr (.cons rfl (by decide) y)]
  exact congrArg _ (hooks_unmarked (x := [')']) rfl y)

/-- A spent leftover parts the texts around it and adds nothing. -/
theorem hooks_spent (h : Spent x) (hc : ')' ∈ x) (hx : Closing x) (hb : '\\' ∉ x) {w : List Char}
    (hw : '\\' ∉ w) (z : List Char) : hooks (w ++ (leftover x ++ z)) = hooks w ++ hooks z := by
  obtain ⟨hstop, hnone⟩ := h
  obtain ⟨r, hr, hbr⟩ := leftover_of_mem hc hx hb
  rw [hr] at hstop hnone ⊢
  have hstop : Stops (r ++ [')'] ++ z) := fun c hcz => hstop c (by cases r <;> exact hcz)
  have hnone : hooks r = [] := by
    rw [hooks_close r [] hbr] at hnone
    exact (List.append_eq_nil_iff.1 hnone).1
  rw [hooks_append_of_stops hw hstop, List.append_assoc, List.singleton_append, hooks_close r z hbr,
    hnone, List.nil_append]

end Leftover

theorem toList_negated (a x b : String) :
    (a ++ ":not(" ++ x ++ ")" ++ b).toList =
      a.toList ++ (negation ++ (x.toList ++ ')' :: b.toList)) := by
  have hclose : (")" : String).toList = [')'] := rfl
  simp only [String.toList_append, List.append_assoc, hclose, List.singleton_append]
  rfl

/-- **Contents without hooks behind their first closing parenthesis make no difference**: with an
anchor in front of the negation no two contents do, with equal leftovers these two do not, and neither
with spent ones, unless only one of them parts what stands in front of the negation from a name
behind it. -/
theorem analyze_negated {a x y b : String} (ha : '\\' ∉ a.toList) (hx : '\\' ∉ x.toList)
    (hy : '\\' ∉ y.toList) (hpa : balanced true 0 a.toList = true)
    (hpx : balanced true 0 x.toList = true) (hpy : balanced true 0 y.toList = true)
    (h : (anchor? a.toList).isSome ∨ leftover x.toList = leftover y.toList ∨
      Spent x.toList ∧ Spent y.toList ∧
        ((')' ∈ x.toList ↔ ')' ∈ y.toList) ∨ Stops (dropNegations b.toList))) :
    analyze (a ++ ":not(" ++ x ++ ")" ++ b) = analyze (a ++ ":not(" ++ y ++ ")" ++ b) := by
  have hca := closing_of_balanced hpa
  have hcx := closing_of_balanced hpx
  have hcy := closing_of_balanced hpy
  rw [analyze, analyze, toList_negated, toList_negated, dependencyOf_negated hca ha hcx,
    dependencyOf_negated hca ha hcy]
  rcases h with hanchor | heq | ⟨hsx, hsy, hpart⟩
  · obtain ⟨hook, hanchor⟩ := Option.isSome_iff_exists.1 hanchor
    rw [hanchor]
  · rw [heq]
  · have hw : '\\' ∉ dropNegations a.toList := mt mem_of_mem_dropNegations ha
    suffices hooks (dropNegations a.toList ++ (leftover x.toList ++ dropNegations b.toList)) =
        hooks (dropNegations a.toList ++ (leftover y.toList ++ dropNegations b.toList)) by rw [this]
    by_cases hmx : ')' ∈ x.toList
    · rw [hooks_spent hsx hmx hcx hx hw]
      by_cases hmy : ')' ∈ y.toList
      · rw [hooks_spent hsy hmy hcy hy hw]
      · have hstop := hpart.resolve_left fun e => hmy (e.1 hmx)
        rw [leftover_of_not_mem hmy, List.nil_append, hooks_append_of_stops hw hstop]
    · by_cases hmy : ')' ∈ y.toList
      · have hstop := hpart.resolve_left fun e => hmx (e.2 hmy)
        rw [hooks_spent hsy hmy hcy hy hw, leftover_of_not_mem hmx, List.nil_append,
          hooks_append_of_stops hw hstop]
      · rw [leftover_of_not_mem hmx, leftover_of_not_mem hmy]

/-- The content `:is(.a, p) b` has no hook behind its first closing parenthesis. -/
theorem analyze_negated_function :
    analyze ("li:hover" ++ ":not(" ++ ":is(.a, p) b" ++ ")" ++ ".c") =
      analyze ("li:hover" ++ ":not(" ++ ".q" ++ ")" ++ ".c") := by
  have hleft : leftover ":is(.a, p) b".toList = [' ', 'b', ')'] := by decide +kernel
  have hspent : Spent ":is(.a, p) b".toList := by
    rw [Spent, hleft]
    exact ⟨.cons rfl (by decide) _, by decide +kernel⟩
  have hstop : Stops (dropNegations ".c".toList) := by
    rw [show dropNegations ".c".toList = ['.', 'c'] by decide +kernel]
    exact .cons rfl (by decide) _
  exact analyze_negated (by decide) (by decide) (by decide) rfl rfl rfl
    (.inr (.inr ⟨hspent, spent_of_not_mem (by decide), .inr hstop⟩))

/-- A name behind the first closing parenthesis of the content counts as if it stood outside. -/
theorem not_analyze_negated :
    ¬∀ a b x y : String,
      (∀ s ∈ [a, b, x, y], '"' ∉ s.toList ∧ '\'' ∉ s.toList ∧ '\\' ∉ s.toList ∧
        balanced true 0 s.toList = true) →
      analyze (a ++ ":not(" ++ x ++ ")" ++ b) = analyze (a ++ ":not(" ++ y ++ ")" ++ b) := by
  intro h
  have := h "" "" ":is(.a).b" "" (by decide)
  revert this
  decide +kernel

end CssPrune.Selector
