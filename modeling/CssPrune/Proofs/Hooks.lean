import CssPrune.Proofs.Identifier

/-!
# Hooks in a text

A mark with an identifier behind it is found in any text (`mem_hooks`), provided that no escape
before it is still open, for such an escape could take in the mark.  A text without hooks adds none
to what follows it (`hooks_append`).
-/

namespace CssPrune.Selector

/-! ### Open escapes -/

/-- Whether a backslash is open behind the text; `b` says whether one is open before it. -/
def escaping (b : Bool) : List Char → Bool
  | [] => b
  | c :: cs => escaping (!b && c = '\\') cs

/-- No escape is open behind the text. -/
def Closed (x : List Char) : Prop := escaping false x = false

instance (x : List Char) : Decidable (Closed x) := inferInstanceAs (Decidable (_ = _))

/-- A text is read from the state that the one before it leaves. -/
theorem escaping_append (b : Bool) (x y : List Char) :
    escaping b (x ++ y) = escaping (escaping b x) y := by
  induction x generalizing b with
  | nil => rfl
  | cons c x ih => exact ih _

theorem Closed.append {x y : List Char} (hx : Closed x) (hy : Closed y) : Closed (x ++ y) := by
  rw [Closed, escaping_append, hx]
  exact hy

theorem escaping_cons {c : Char} (h : c ≠ '\\') (b : Bool) (x : List Char) :
    escaping b (c :: x) = escaping false x := by
  rw [escaping, decide_eq_false h, Bool.and_false]

theorem Closed.cons {c : Char} {x : List Char} (h : c ≠ '\\') (hx : Closed x) : Closed (c :: x) :=
  (escaping_cons h false x).trans hx

/-- Behind a character that is no backslash nothing is open any more. -/
theorem Closed.of_append {x y : List Char} {c : Char} (h : Closed (x ++ c :: y)) (hc : c ≠ '\\') :
    Closed y := by
  rwa [Closed, escaping_append, escaping_cons hc] at h

/-- An end of a text has no open escape if no backslash stands directly in front of it. -/
theorem Closed.of_suffix {x s : List Char} {c : Char} (h : Closed x) (hs : c :: s <:+ x)
    (hc : c ≠ '\\') : Closed s := by
  obtain ⟨w, rfl⟩ := hs
  exact h.of_append hc

/-- Without a backslash there is no escape. -/
theorem closed_of_not_mem {x : List Char} (h : '\\' ∉ x) : Closed x := by
  induction x with
  | nil => rfl
  | cons c x ih =>
      rw [List.mem_cons, not_or] at h
      exact .cons (Ne.symm h.1) (ih h.2)

/-- Digits end an escape. -/
theorem escaping_digits {ds : List Char} (hd : ds.all Token.isHexDigit = true) (h : ds ≠ [])
    (b : Bool) (x : List Char) : escaping b (ds ++ x) = escaping false x := by
  have hne : '\\' ∉ ds := fun hm => by cases List.all_eq_true.1 hd _ hm
  obtain ⟨d, ds, rfl⟩ := List.exists_cons_of_ne_nil h
  rw [List.mem_cons, not_or] at hne
  rw [List.cons_append, escaping_cons (Ne.symm hne.1), escaping_append, closed_of_not_mem hne.2]

/-- What stands for a character leaves no escape open. -/
theorem CharSpelling.closed {c : Char} {u : List Char} (h : CharSpelling c u) : Closed u := by
  cases h with
  | plain hi =>
      refine .cons ?_ rfl
      rintro rfl; cases hi
  | marked => rfl
  | coded h₀ hc =>
      obtain ⟨hd, hpos, -⟩ := code_digits hc
      exact escaping_digits hd (List.ne_nil_of_length_pos hpos) true [' ']

theorem Spelling.closed {n t : List Char} (h : Spelling n t) : Closed t := by
  induction h with
  | nil => rfl
  | cons hu _ ih => exact hu.closed.append ih

/-! ### Identifiers in front of a mark -/

section Mark

variable {m : Char} {x y : List Char}

theorem isMark_cases (hm : isMark m = true) : m = '.' ∨ m = '#' := by
  simpa [isMark] using hm

theorem stops_mark (hm : isMark m = true) (y : List Char) : Stops (m :: y) := by
  rcases isMark_cases hm with rfl | rfl
  · exact .cons rfl (by decide) y
  · exact .cons rfl (by decide) y

theorem not_isHexDigit_mark (hm : isMark m = true) : Token.isHexDigit m = false := by
  rcases isMark_cases hm with rfl | rfl <;> rfl

theorem hexDigits_before (hm : isMark m = true) : hexDigits (x ++ m :: y) = hexDigits x :=
  hexDigits_stop (not_isHexDigit_mark hm) x y

theorem not_isSpace_mark (hm : isMark m = true) : Token.isSpace m = false := by
  rcases isMark_cases hm with rfl | rfl <;> rfl

/-- An escape that begins in front of a mark ends there. -/
theorem escapeLength_before (hm : isMark m = true) (hx : escaping true x = false) :
    unitLength ('\\' :: (x ++ m :: y)) ≤ x.length + 1 ∧
      Closed (('\\' :: x).drop (unitLength ('\\' :: (x ++ m :: y)))) := by
  obtain ⟨rest, hrest⟩ : hexDigits x <+: x :=
    (List.takeWhile_prefix _).trans (List.take_prefix _ _)
  have hds : (hexDigits x).all Token.isHexDigit = true := List.all_takeWhile
  rw [unitLength, isIdentChar_backslash, if_neg Bool.false_ne_true, if_pos rfl]
  simp only [hexDigits_before hm]
  generalize hexDigits x = ds at hrest hds
  subst hrest
  rw [List.append_assoc, List.drop_left]
  by_cases hpos : 0 < ds.length
  -- a code of digits, and the blank that may close it: the mark is neither
  · rw [if_pos hpos]
    rw [escaping_digits hds (List.ne_nil_of_length_pos hpos)] at hx
    have hdrop : ∀ k, ('\\' :: (ds ++ rest)).drop (1 + ds.length + k) = rest.drop k := by
      intro k
      rw [Nat.add_comm 1, Nat.add_right_comm, List.drop_succ_cons, List.drop_append,
        List.drop_eq_nil_of_le (by omega), List.nil_append, Nat.add_sub_cancel_left]
    rw [hdrop, List.length_append]
    cases rest with
    | nil =>
        rw [List.nil_append, List.head?_cons, Option.any_some, not_isSpace_mark hm]
        exact ⟨by simp; omega, rfl⟩
    | cons r rest =>
        rw [List.cons_append, List.head?_cons, Option.any_some, List.length_cons]
        split
        · next hr =>
            have hr : r ≠ '\\' := by rintro rfl; cases hr
            exact ⟨by omega, (escaping_cons hr false rest).symm.trans hx⟩
        · exact ⟨by omega, hx⟩
  -- a single character, which cannot be the mark since the text is closed
  · rw [if_neg hpos]
    split
    · obtain rfl : ds = [] := List.length_eq_zero_iff.1 (Nat.eq_zero_of_not_pos hpos)
      exact ⟨Nat.zero_le _, hx⟩
    · generalize ds ++ rest = x at hx
      cases x with
      | nil => cases hx
      | cons d x => exact ⟨by simp, hx⟩

/-- A character or an escape that begins in front of a mark ends there. -/
theorem unitLength_before (hm : isMark m = true) (hx : Closed x) :
    unitLength (x ++ m :: y) ≤ x.length ∧ Closed (x.drop (unitLength (x ++ m :: y))) := by
  cases x with
  | nil => rw [List.nil_append, unitLength_of_stops (stops_mark hm y)]; exact ⟨Nat.le_refl 0, rfl⟩
  | cons c x =>
      by_cases hc : c = '\\'
      · subst hc
        exact escapeLength_before hm hx
      · rw [List.cons_append, unitLength, if_neg hc]
        split
        · exact ⟨Nat.succ_pos _, (escaping_cons hc false x).symm.trans hx⟩
        · exact ⟨Nat.zero_le _, hx⟩

/-- An identifier that begins in front of a mark ends there. -/
theorem identLength_before (hm : isMark m = true) (hx : Closed x) :
    identLength (x ++ m :: y) ≤ x.length := by
  obtain ⟨n, hn⟩ : ∃ n, x.length = n := ⟨_, rfl⟩
  induction n using Nat.strongRecOn generalizing x with
  | ind n ih =>
      obtain ⟨hle, hclosed⟩ := unitLength_before (y := y) hm hx
      rw [identLength]
      split
      · exact Nat.zero_le _
      · next hu =>
          generalize unitLength (x ++ m :: y) = k at hle hclosed hu
          have hlen : (x.drop k).length = x.length - k := List.length_drop
          have := ih (x.drop k).length (by omega) hclosed rfl
          rw [List.drop_append_of_le_length hle]
          omega

/-- A mark with an identifier behind it is found. -/
theorem mem_hooks (hm : isMark m = true) (hy : 0 < identLength y) (hx : Closed x) :
    (m, nameAt y) ∈ hooks (x ++ m :: y) := by
  -- by the length of what is left in front of the mark: an identifier may be passed over at once
  have scan : ∀ n z, z.length = n → z <:+ x → (m, nameAt y) ∈ hooks (z ++ m :: y) := by
    intro n
    induction n using Nat.strongRecOn with
    | ind n ih =>
        intro z hz hsuf
        cases z with
        | nil =>
            rw [List.nil_append, hooks, if_pos ⟨hm, hy⟩]
            exact List.mem_cons_self
        | cons c z =>
            have hz : z.length + 1 = n := hz
            rw [List.cons_append, hooks]
            split
            · next hc =>
                -- the identifier behind the other mark ends in front of this one
                have hne : c ≠ '\\' := by rintro rfl; cases hc.1
                have hle := identLength_before (y := y) hm (hx.of_suffix hsuf hne)
                rw [List.drop_append_of_le_length hle]
                refine List.mem_cons_of_mem _ (ih _ ?_ _ rfl ?_)
                · rw [List.length_drop]; omega
                · exact (List.drop_suffix _ _).trans ((List.suffix_cons c z).trans hsuf)
            · exact ih z.length (by omega) z rfl ((List.suffix_cons c z).trans hsuf)
  exact scan _ x rfl (List.suffix_refl x)

end Mark

/-! ### Texts without hooks -/

theorem hexDigits_newline {d : Char} (h : Token.isNewline d = true) (x : List Char) :
    hexDigits (d :: x) = [] := by
  have hd : Token.isHexDigit d = false := by
    simp only [Token.isNewline, Bool.or_eq_true, decide_eq_true_eq] at h
    rcases h with (rfl | rfl) | rfl <;> rfl
  exact hexDigits_append (x := []) rfl (by decide) hd x

/-- Where no character and no escape is read, none is with more text behind it. -/
theorem unitLength_append {x y : List Char} (hx : Closed x) (h : unitLength x = 0)
    (hy : Stops y) : unitLength (x ++ y) = 0 := by
  cases x with
  | nil => exact unitLength_of_stops hy
  | cons c x =>
      rw [unitLength] at h
      rw [List.cons_append, unitLength]
      split at h
      · cases h
      · next hi =>
          rw [if_neg hi]
          split at h
          · next hc =>
              subst hc
              -- a closed text with a backslash in front goes on with a newline
              cases x with
              | nil => cases hx
              | cons d x =>
                  by_cases hn : Token.isNewline d = true
                  · simp only [List.cons_append, hexDigits_newline hn, Token.startsNewline,
                      List.head?_cons, Option.any_some, hn, List.length_nil, Nat.lt_irrefl, or_true,
                      if_true, if_false]
                  · have hend : ¬(d :: x = [] ∨ Token.startsNewline (d :: x) = true) := by
                      rintro (e | e)
                      · cases e
                      · exact hn e
                    simp only [hend, if_false] at h
                    split at h <;> omega
          · next hc => rw [if_neg hc]

/-- A text without hooks adds none to what follows it. -/
theorem hooks_append {x y : List Char} (hx : Closed x) (h : hooks x = []) (hy : Stops y) :
    hooks (x ++ y) = hooks y := by
  have scan : ∀ z, z <:+ x → hooks z = [] → hooks (z ++ y) = hooks y := by
    intro z
    induction z with
    | nil => exact fun _ _ => rfl
    | cons c z ih =>
        intro hsuf hz
        rw [hooks] at hz
        split at hz
        · cases hz
        · next hc =>
            rw [List.cons_append, hooks, if_neg, ih ((List.suffix_cons c z).trans hsuf) hz]
            rintro ⟨hm, hpos⟩
            have hne : c ≠ '\\' := by rintro rfl; cases hm
            -- a mark in `x` has no identifier behind it, and gets none from `y`
            have hu : unitLength z = 0 := by
              by_contra hu
              refine hc ⟨hm, ?_⟩
              rw [identLength, if_neg hu]
              omega
            rw [identLength_of_unitLength (unitLength_append (hx.of_suffix hsuf hne) hu hy)] at hpos
            cases hpos
  exact scan x (List.suffix_refl x) h

/-- A text without marks adds no hook. -/
theorem hooks_unmarked {x : List Char} (h : x.any isMark = false) (y : List Char) :
    hooks (x ++ y) = hooks y := by
  induction x with
  | nil => rfl
  | cons c x ih =>
      rw [List.any_cons, Bool.or_eq_false_iff] at h
      rw [List.cons_append, hooks, if_neg, ih h.2]
      rintro ⟨hm, -⟩
      rw [h.1] at hm
      cases hm

end CssPrune.Selector
