import CssPrune.Proofs.Hooks

/-!
# Taking out negations

`dropNegations` passes over a text in which no `:not(` begins, and goes on behind the first closing
parenthesis where one does (`dropNegations_negation`).  Identifiers never begin a negation
(`Spelling.dropNegations`), and a quoted text only where its value does (`dropNegations_quote`).
-/

namespace CssPrune.Selector

/-! ### Passing over a text -/

theorem dropNegations_nil : dropNegations [] = [] := by rw [dropNegations]

/-- A character with which no negation begins is kept. -/
theorem dropNegations_cons {c : Char} {x : List Char} (h : ¬negation <+: c :: x) :
    dropNegations (c :: x) = c :: dropNegations x := by
  have hnone : afterNegation? (c :: x) = none :=
    if_neg fun hp => h (List.isPrefixOf_iff_prefix.1 hp)
  rw [dropNegations]
  split
  · next rest hr => rw [hnone] at hr; cases hr
  · rfl

theorem dropNegations_cons_of_ne {c : Char} (h : c ≠ ':') (x : List Char) :
    dropNegations (c :: x) = c :: dropNegations x :=
  dropNegations_cons fun hp => h (List.cons_prefix_cons.1 hp).1.symm

/-- A text without colons is kept. -/
theorem dropNegations_append {x : List Char} (h : ':' ∉ x) (y : List Char) :
    dropNegations (x ++ y) = x ++ dropNegations y := by
  induction x with
  | nil => rfl
  | cons c x ih =>
      rw [List.mem_cons, not_or] at h
      rw [List.cons_append, dropNegations_cons_of_ne (Ne.symm h.1), ih h.2, List.cons_append]

/-! ### Groups -/

/-- What is left of a text that stands within a negation. -/
def behind (x : List Char) : List Char := dropNegations ((x.dropWhile (· ≠ ')')).drop 1)

/-- A negation goes on up to a closing parenthesis. -/
theorem behind_append {x : List Char} (h : ')' ∉ x) (y : List Char) :
    behind (x ++ y) = behind y := by
  have hx : ∀ c ∈ x, decide (c ≠ ')') = true := fun c hc =>
    decide_eq_true fun e => h (e ▸ hc)
  rw [behind, List.dropWhile_append_of_pos hx]
  rfl

theorem behind_close (y : List Char) : behind (')' :: y) = dropNegations y := rfl

/-- What opens a negation is taken out with the text up to the first closing parenthesis, if there
is one. -/
theorem dropNegations_negation {x : List Char} (h : ')' ∈ x) :
    dropNegations (negation ++ x) = behind x := by
  obtain ⟨d, rest, hd⟩ : ∃ d rest, x.dropWhile (· ≠ ')') = d :: rest := by
    refine List.exists_cons_of_ne_nil fun e => ?_
    have := List.dropWhile_eq_nil_iff.1 e ')' h
    simp at this
  have hsome : afterNegation? (negation ++ x) = some rest := by
    rw [afterNegation?, if_pos (List.isPrefixOf_iff_prefix.2 (List.prefix_append _ _)),
      List.drop_left, hd]
  rw [behind, hd, List.drop_succ_cons, List.drop_zero]
  show dropNegations (':' :: _) = _
  rw [dropNegations]
  split
  · next rest' hr =>
      obtain rfl : rest = rest' := Option.some.inj (hsome.symm.trans hr)
      rfl
  · next hr => cases hsome.symm.trans hr

/-! ### Identifiers -/

/-- Neither an identifier nor a group goes on here. -/
def Front (y : List Char) : Prop := Stops y ∧ y.head? ≠ some '('

/-- Identifiers and groups end in front of a character that they cannot hold. -/
theorem Front.cons {c : Char} (h : isIdentChar c = false) (hb : c ≠ '\\') (hp : c ≠ '(')
    (y : List Char) : Front (c :: y) :=
  ⟨.cons h hb y, fun e => hp (Option.some.inj e)⟩

theorem Front.nil : Front [] := ⟨fun _ h => (nomatch h), nofun⟩

/-- An identifier does not go on to a parenthesis. -/
theorem Spelling.not_prefix {n t y w : List Char} (h : Spelling n t) (hy : Front y)
    (hw : w.all isIdentChar = true) : ¬w ++ ['('] <+: t ++ y := by
  have hstop : ∀ {c z}, isIdentChar c = false → c ≠ '(' → ∀ w, w.all isIdentChar = true →
      ¬w ++ ['('] <+: c :: z := by
    intro c z hc hp w hw hpre
    cases w with
    | nil => exact hp (List.cons_prefix_cons.1 hpre).1.symm
    | cons d w =>
        obtain rfl := (List.cons_prefix_cons.1 hpre).1
        rw [List.all_cons, hc] at hw
        cases hw
  -- plain characters of the identifier use up `w`; a backslash is in neither
  induction h generalizing w with
  | nil =>
      cases y with
      | nil => exact fun hpre => by simpa using hpre.length_le
      | cons c y =>
          exact hstop (hy.1 c rfl).1 (fun e => hy.2 (by rw [e]; rfl)) w hw
  | @cons c n u t hu _ ih =>
      cases hu with
      | plain hi =>
          intro hpre
          cases w with
          | nil =>
              obtain rfl := (List.cons_prefix_cons.1 hpre).1
              cases hi
          | cons d w =>
              rw [List.all_cons, Bool.and_eq_true] at hw
              exact ih hw.2 (List.cons_prefix_cons.1 hpre).2
      | marked => exact hstop (z := c :: (t ++ y)) isIdentChar_backslash (by decide) w hw
      | coded => exact hstop isIdentChar_backslash (by decide) w hw

/-- An escape by code point has no mark in it. -/
theorem not_mem_escapeCode {c : Char} (h : c.toNat < 128) {d : Char}
    (hd : Token.isHexDigit d = false) (hb : d ≠ '\\') (hs : d ≠ ' ') : d ∉ escapeCode c := by
  rw [escapeCode, List.mem_cons, List.mem_append, List.mem_singleton]
  rintro (rfl | hm | rfl)
  · exact hb rfl
  · rw [List.all_eq_true.1 (code_digits h).1 d hm] at hd
    cases hd
  · exact hs rfl

/-- No negation begins in an identifier. -/
theorem Spelling.dropNegations {n t y : List Char} (h : Spelling n t) (hy : Front y) :
    dropNegations (t ++ y) = t ++ dropNegations y := by
  induction h with
  | nil => rfl
  | @cons c n u t hu ht ih =>
      rw [List.append_assoc, List.append_assoc, ← ih]
      cases hu with
      | plain hi =>
          refine dropNegations_append (x := [c]) (fun hd => ?_) _
          obtain rfl := List.mem_singleton.1 hd
          cases hi
      | marked =>
          -- an escaped colon could begin a negation, but the identifier goes on behind it
          rw [List.cons_append, List.singleton_append, dropNegations_cons_of_ne (by decide),
            dropNegations_cons]
          · rfl
          · intro hpre
            exact ht.not_prefix hy (w := ['n', 'o', 't']) rfl (List.cons_prefix_cons.1 hpre).2
      | coded h₀ hc =>
          exact dropNegations_append (not_mem_escapeCode hc rfl (by decide) (by decide)) _

/-! ### Quoted texts -/

/-- A character of a value, escaped where it has to be. -/
def quoteChar (c : Char) : List Char :=
  if isControl c then escapeCode c else if c = '"' ∨ c = '\\' then ['\\', c] else [c]

/-- A value in quotes. -/
def quote (v : List Char) : List Char := '"' :: (v.flatMap quoteChar ++ ['"'])

theorem toNat_of_isControl {c : Char} (h : isControl c = true) : c.toNat < 128 := by
  simp only [isControl, Bool.or_eq_true, decide_eq_true_eq] at h
  omega

/-- A character of a value stands for itself, or is written as an escape without colons and closing
parentheses. -/
theorem quoteChar_cases (c : Char) :
    (c ≠ '"' ∧ c ≠ '\\' ∧ quoteChar c = [c]) ∨
      (∃ u, quoteChar c = '\\' :: u ∧ ':' ∉ u ∧ ')' ∉ u ∧ Closed ('\\' :: u)) := by
  rw [quoteChar]
  split
  · next hc =>
      have hc := toNat_of_isControl hc
      obtain ⟨hd, hpos, -⟩ := code_digits hc
      refine .inr ⟨_, rfl, ?_, ?_, escaping_digits hd (List.ne_nil_of_length_pos hpos) true [' ']⟩
      · exact fun hm => not_mem_escapeCode hc (d := ':') rfl (by decide) (by decide) (.tail _ hm)
      · exact fun hm => not_mem_escapeCode hc (d := ')') rfl (by decide) (by decide) (.tail _ hm)
  · split
    · next hq =>
        refine .inr ⟨[c], rfl, ?_, ?_, rfl⟩
        · rcases hq with rfl | rfl <;> decide
        · rcases hq with rfl | rfl <;> decide
    · next hq => exact .inl ⟨fun e => hq (.inl e), fun e => hq (.inr e), rfl⟩

/-- Plain characters in a quoted text are characters of its value. -/
theorem prefix_of_prefix_quote {w v z : List Char}
    (hq : '"' ∉ w) (hb : '\\' ∉ w) (h : w <+: v.flatMap quoteChar ++ '"' :: z) : w <+: v := by
  induction w generalizing v with
  | nil => exact List.nil_prefix
  | cons d w ih =>
      rw [List.mem_cons, not_or] at hq hb
      cases v with
      | nil => exact absurd (List.cons_prefix_cons.1 h).1.symm hq.1
      | cons c v =>
          rw [List.flatMap_cons, List.append_assoc] at h
          rcases quoteChar_cases c with ⟨-, -, hc⟩ | ⟨u, hu, -⟩
          · rw [hc] at h
            obtain ⟨hdc, hrest⟩ := List.cons_prefix_cons.1 h
            exact List.cons_prefix_cons.2 ⟨hdc, ih hq.2 hb.2 hrest⟩
          · rw [hu] at h
            exact absurd (List.cons_prefix_cons.1 h).1.symm hb.1

/-- No negation begins in a quoted text that does not have one in its value. -/
theorem dropNegations_quote {v : List Char} (h : ¬negation <:+: v) (y : List Char) :
    dropNegations (quote v ++ y) = quote v ++ dropNegations y := by
  have body : ∀ z, dropNegations (v.flatMap quoteChar ++ '"' :: z) =
      v.flatMap quoteChar ++ '"' :: dropNegations z := by
    intro z
    induction v with
    | nil => exact dropNegations_cons_of_ne (by decide) z
    | cons c v ih =>
        have ih := ih fun hi => h (hi.trans (List.suffix_cons c v).isInfix)
        rw [List.flatMap_cons, List.append_assoc, List.append_assoc, ← ih]
        rcases quoteChar_cases c with ⟨-, -, hc⟩ | ⟨u, hu, hcolon, -⟩
        · rw [hc, List.singleton_append, List.singleton_append]
          -- a colon that stands for itself: the negation would be one of the value
          refine dropNegations_cons fun hpre => h ?_
          obtain ⟨hcolon, hrest⟩ := List.cons_prefix_cons.1 hpre
          have hv := prefix_of_prefix_quote (w := ['n', 'o', 't', '(']) (by decide) (by decide)
            hrest
          exact (List.cons_prefix_cons.2 ⟨hcolon, hv⟩).isInfix
        · rw [hu]
          refine dropNegations_append (fun hd => ?_) _
          rcases List.mem_cons.1 hd with hd | hd
          · cases hd
          · exact hcolon hd
  rw [quote, List.cons_append, dropNegations_cons_of_ne (by decide), List.append_assoc,
    List.singleton_append, body, List.cons_append, List.append_assoc, List.singleton_append]

/-- No escape is left open behind a value in quotes. -/
theorem closed_quote (v : List Char) : Closed (quote v) := by
  have body : Closed (v.flatMap quoteChar) := by
    induction v with
    | nil => rfl
    | cons c v ih =>
        refine Closed.append (x := quoteChar c) ?_ ih
        rcases quoteChar_cases c with ⟨-, hb, hc⟩ | ⟨u, hu, -, -, hclosed⟩
        · rw [hc]; exact .cons hb rfl
        · rw [hu]; exact hclosed
  exact .cons (by decide) (body.append rfl)

/-- Quoting adds no closing parenthesis. -/
theorem not_mem_quote {v : List Char} (h : ')' ∉ v) : ')' ∉ quote v := by
  rw [quote, List.mem_cons, List.mem_append, List.mem_flatMap]
  rintro (hc | ⟨c, hc, hm⟩ | hc)
  · cases hc
  · rcases quoteChar_cases c with ⟨-, -, he⟩ | ⟨u, hu, -, hp, -⟩
    · rw [he, List.mem_singleton] at hm
      exact h (hm ▸ hc)
    · rw [hu, List.mem_cons] at hm
      rcases hm with hm | hm
      · cases hm
      · exact hp hm
  · simp at hc

/-! ### Identifiers and parentheses -/

/-- A spelling has a closing parenthesis only if the name has one. -/
theorem Spelling.not_mem {n t : List Char} (h : Spelling n t) (hn : ')' ∉ n) : ')' ∉ t := by
  induction h with
  | nil => exact List.not_mem_nil
  | @cons c n u t hu _ ih =>
      rw [List.mem_append]
      rintro (hm | hm)
      · have hc : ')' ≠ c := by rintro rfl; exact hn List.mem_cons_self
        cases hu with
        | plain => exact hc (List.mem_singleton.1 hm)
        | marked =>
            rcases List.mem_cons.1 hm with hm | hm
            · cases hm
            · exact hc (List.mem_singleton.1 hm)
        | coded _ h => exact not_mem_escapeCode h rfl (by decide) (by decide) hm
      · exact ih (fun hc => hn (List.mem_cons_of_mem _ hc)) hm

end CssPrune.Selector
