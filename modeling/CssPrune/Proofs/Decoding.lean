import CssPrune.Proofs.Identifier
import CssPrune.Proofs.Legible

/-!
# Identifiers as names

The identifiers of a selector are the texts that a pattern matches (`Identifier`).  The pattern leaves
open how many of the digits behind a backslash belong to the escape; the search, the analysis and the
tokenizer all take as many as they can.  A text that is parted into units in any way is also parted
into units of full length (`Identifier.greedy`), and over these the three are followed one unit at a
time:

* the search takes all of a text exactly if the pattern matches it (`identifier_iff`);
* the tokenizer reads from it, to its end, the name that the analysis makes of it, but with the
  replacement character for each null character (`Greedy.readName`);
* an escape stands for the same character at any place of it (`Greedy.unescape_append`).
-/

namespace CssPrune.Selector

open Token (isHexDigit isSpace isNewline startsNewline dropSpace readEscape denull)

/-! ### The pattern -/

/-- A character of an identifier, or an escape. -/
inductive IdentUnit : List Char → Prop where
  | plain {c : Char} : isIdentChar c = true → IdentUnit [c]
  | coded {ds s : List Char} : ds.all isHexDigit = true → ds ≠ [] → ds.length ≤ 6 →
      s.all isSpace = true → s.length ≤ 1 → IdentUnit ('\\' :: (ds ++ s))
  | marked {c : Char} : isHexDigit c = false → isNewline c = false → IdentUnit ['\\', c]

/-- One unit or more. -/
inductive Identifier : List Char → Prop where
  | unit {u : List Char} : IdentUnit u → Identifier u
  | append {u t : List Char} : IdentUnit u → Identifier t → Identifier (u ++ t)

/-- The digits of an escape in front of `y`: as many as there are, up to six. -/
structure Digits (ds y : List Char) : Prop where
  run : hexDigits (ds ++ y) = ds
  ne_nil : ds ≠ []

/-- No unit or more, each as long as it can be. -/
inductive Greedy : List Char → Prop where
  | nil : Greedy []
  | plain {c : Char} {t : List Char} : isIdentChar c = true → Greedy t → Greedy (c :: t)
  | coded {ds t : List Char} : Digits ds t → Greedy t → Greedy ('\\' :: (ds ++ t))
  | spaced {ds t : List Char} {c : Char} : Digits ds (c :: t) → isSpace c = true → Greedy t →
      Greedy ('\\' :: (ds ++ c :: t))
  | marked {c : Char} {t : List Char} : isHexDigit c = false → isNewline c = false → Greedy t →
      Greedy ('\\' :: c :: t)

section Units

variable {c : Char} {cs ds t u x y : List Char}

theorem IdentUnit.ne_nil (h : IdentUnit u) : u ≠ [] := by
  cases h <;> exact List.cons_ne_nil _ _

theorem Identifier.ne_nil (h : Identifier t) : t ≠ [] := by
  cases h with
  | unit hu => exact hu.ne_nil
  | append hu _ => exact fun e => hu.ne_nil (List.append_eq_nil_iff.1 e).1

theorem not_isIdentChar_of_isSpace (h : isSpace c = true) : isIdentChar c = false ∧ c ≠ '\\' := by
  simp only [isSpace, isNewline, Bool.or_eq_true, decide_eq_true_eq] at h
  rcases h with (rfl | rfl) | (rfl | rfl) | rfl <;> exact ⟨rfl, by decide⟩

/-! ### Digits -/

theorem hexDigits_prefix (cs : List Char) : hexDigits cs <+: cs :=
  (List.takeWhile_prefix _).trans (List.take_prefix _ _)

theorem hexDigits_digits (hd : ds.all isHexDigit = true) (hl : ds.length ≤ 6) (y : List Char) :
    hexDigits (ds ++ y) = ds ++ (y.take (6 - ds.length)).takeWhile isHexDigit := by
  rw [hexDigits, List.take_append, List.take_of_length_le hl,
    List.takeWhile_append_of_pos fun d hm => List.all_eq_true.1 hd d hm]

namespace Digits

theorem all (h : Digits ds y) : ds.all isHexDigit = true := by
  rw [← h.run]
  exact List.all_takeWhile

theorem length_le (h : Digits ds y) : ds.length ≤ 6 := by
  rw [← h.run]
  exact ((List.takeWhile_prefix _).length_le).trans (List.length_take_le 6 _)

/-- The digits begin with a digit, so with no newline. -/
theorem head (h : Digits ds y) :
    (ds ++ y).head?.any isHexDigit = true ∧ startsNewline (ds ++ y) = false := by
  obtain ⟨d, ds, rfl⟩ := List.exists_cons_of_ne_nil h.ne_nil
  have hd := h.all
  rw [List.all_cons, Bool.and_eq_true] at hd
  refine ⟨hd.1, Bool.eq_false_iff.2 fun hn => ?_⟩
  have hs : isSpace d = true := Text.isSpace_of_isNewline hn
  rw [not_isHexDigit (not_isIdentChar_of_isSpace hs).1] at hd
  cases hd.1

theorem append_stop (h : Digits ds y) (hc : isHexDigit c = false) (z : List Char) :
    Digits ds (y ++ c :: z) :=
  ⟨by rw [← List.append_assoc, hexDigits_stop hc, h.run], h.ne_nil⟩

end Digits

/-! ### Units of full length -/

namespace Greedy

theorem head (h : Greedy (c :: t)) : isIdentChar c = true ∨ c = '\\' := by
  cases h with
  | plain hi => exact .inl hi
  | coded | spaced | marked => exact .inr rfl

/-- No text of full units begins with a blank. -/
theorem not_isSpace (h : Greedy t) : t.head?.any isSpace = false := by
  cases t with
  | nil => rfl
  | cons c t =>
      refine Bool.eq_false_iff.2 fun hc => ?_
      obtain ⟨hi, hb⟩ := not_isIdentChar_of_isSpace hc
      rcases h.head with h | h
      · rw [hi] at h; cases h
      · exact hb h

/-- Digits that belong to no escape stand for themselves. -/
theorem of_digits (hd : x.all isHexDigit = true) (h : Greedy (x ++ y)) : Greedy y := by
  induction x with
  | nil => exact h
  | cons c x ih =>
      rw [List.all_cons, Bool.and_eq_true] at hd
      rw [List.cons_append] at h
      generalize hz : x ++ y = z at h
      cases h with
      | plain _ h => exact ih hd.2 (hz ▸ h)
      | coded | spaced | marked => cases hd.1

/-- An escape without a blank goes on over the digits behind it, as far as six go. -/
theorem escape (hd : ds.all isHexDigit = true) (hne : ds ≠ []) (hl : ds.length ≤ 6)
    (hy : Greedy y) : Greedy ('\\' :: (ds ++ y)) := by
  have hrun := hexDigits_digits hd hl y
  -- `x` is what the escape takes of `y`; what is left of `y` has units of full length, too
  have hall : ((y.take (6 - ds.length)).takeWhile isHexDigit).all isHexDigit = true :=
    List.all_takeWhile
  obtain ⟨z, hz⟩ : (y.take (6 - ds.length)).takeWhile isHexDigit <+: y :=
    (List.takeWhile_prefix _).trans (List.take_prefix _ _)
  generalize (y.take (6 - ds.length)).takeWhile isHexDigit = x at hrun hall hz
  subst hz
  rw [← List.append_assoc] at hrun ⊢
  exact .coded ⟨hrun, List.append_ne_nil_of_left_ne_nil hne x⟩ (hy.of_digits hall)

theorem escape_space (hd : ds.all isHexDigit = true) (hne : ds ≠ []) (hl : ds.length ≤ 6)
    (hc : isSpace c = true) (hy : Greedy y) : Greedy ('\\' :: (ds ++ c :: y)) :=
  .spaced ⟨hexDigits_append hd hl (not_isHexDigit (not_isIdentChar_of_isSpace hc).1) y, hne⟩ hc hy

end Greedy

/-- A unit in front of units of full length, parted again: the unit may take more of them. -/
theorem IdentUnit.greedy_append (hu : IdentUnit u) (hy : Greedy y) : Greedy (u ++ y) := by
  cases hu with
  | plain hi => exact .plain hi hy
  | marked hx hn => exact .marked hx hn hy
  | @coded ds s hd hne hl hs hsl =>
      cases s with
      | nil => rw [List.append_nil]; exact .escape hd hne hl hy
      | cons c s =>
          obtain rfl : s = [] := List.length_eq_zero_iff.1 (by simpa using hsl)
          rw [List.cons_append, List.append_assoc, List.singleton_append]
          exact .escape_space hd hne hl (by simpa using hs) hy

/-- However an identifier is parted, it is also parted into units of full length. -/
theorem Identifier.greedy (h : Identifier t) : Greedy t := by
  -- from the right: a unit in front can only take in what stands behind it
  induction h with
  | unit hu =>
      have := hu.greedy_append .nil
      rwa [List.append_nil] at this
  | append hu _ ih => exact hu.greedy_append ih

/-! ### The longest match -/

/-- An escape by a number has its backslash, its digits and a blank that stands behind them. -/
theorem unitLength_escape (h : Digits ds y) :
    unitLength ('\\' :: (ds ++ y)) = 1 + ds.length + if y.head?.any isSpace then 1 else 0 := by
  rw [unitLength, isIdentChar_backslash, if_neg Bool.false_ne_true, if_pos rfl, h.run]
  exact (if_pos (List.length_pos_iff.2 h.ne_nil)).trans (by rw [List.drop_left])

theorem identLength_whole (hu : unitLength (u ++ t) = u.length) (hne : u ≠ [])
    (ht : identLength t = t.length) : identLength (u ++ t) = (u ++ t).length := by
  rw [identLength_unit hu hne, ht, List.length_append]

/-- The search goes on over all units. -/
theorem Greedy.identLength (h : Greedy t) : identLength t = t.length := by
  induction h with
  | nil => exact identLength_of_unitLength unitLength_nil
  | @plain c t hi _ ih =>
      exact identLength_whole ((CharSpelling.plain hi).unitLength_append t) (List.cons_ne_nil _ _) ih
  | @coded ds t hd ht ih =>
      have hunit : unitLength ('\\' :: ds ++ t) = ('\\' :: ds).length := by
        rw [List.cons_append, unitLength_escape hd, ht.not_isSpace, List.length_cons, Nat.add_comm 1]
        rfl
      exact identLength_whole hunit (List.cons_ne_nil _ _) ih
  | @spaced ds t c hd hc _ ih =>
      have hunit : unitLength ('\\' :: (ds ++ [c]) ++ t) = ('\\' :: (ds ++ [c])).length := by
        rw [List.cons_append, List.append_assoc, List.singleton_append, unitLength_escape hd,
          List.head?_cons, Option.any_some, if_pos hc, List.length_cons, List.length_append,
          List.length_singleton, Nat.add_comm 1, Nat.add_right_comm]
      have := identLength_whole hunit (List.cons_ne_nil _ _) ih
      rwa [List.cons_append, List.append_assoc] at this
  | @marked c t hx hn _ ih =>
      exact identLength_whole ((CharSpelling.marked hx hn).unitLength_append t)
        (List.cons_ne_nil _ _) ih

/-- Any other escape has two characters, and the second is no line break. -/
theorem unitLength_marked (hrun : hexDigits cs = []) (h : unitLength ('\\' :: cs) ≠ 0) :
    unitLength ('\\' :: cs) = 2 ∧
      ∃ c t, cs = c :: t ∧ isHexDigit c = false ∧ isNewline c = false := by
  rw [unitLength, isIdentChar_backslash, if_neg Bool.false_ne_true, if_pos rfl] at h ⊢
  simp only [hrun, List.length_nil, Nat.lt_irrefl, if_false] at h ⊢
  split at h
  · exact absurd rfl h
  · next hend =>
      refine ⟨if_neg hend, ?_⟩
      rw [not_or] at hend
      obtain ⟨c, t, rfl⟩ := List.exists_cons_of_ne_nil hend.1
      refine ⟨c, t, rfl, ?_, Bool.not_eq_true _ ▸ hend.2⟩
      by_contra hc
      rw [Bool.not_eq_false] at hc
      rw [hexDigits, List.take_succ_cons, List.takeWhile_cons_of_pos hc] at hrun
      cases hrun

/-- What the search takes of an escape by a number is a unit of the pattern. -/
theorem Digits.identUnit_take (h : Digits ds t) :
    IdentUnit (('\\' :: (ds ++ t)).take (unitLength ('\\' :: (ds ++ t)))) := by
  rw [unitLength_escape h, Nat.add_assoc, Nat.add_comm, List.take_succ_cons,
    List.take_length_add_append]
  have hs : (t.take (if t.head?.any isSpace then 1 else 0)).all isSpace = true := by
    cases t with
    | nil => rfl
    | cons c t =>
        split
        · next hc => simpa using hc
        · rfl
  refine .coded h.all h.ne_nil h.length_le hs ((List.length_take_le _ _).trans ?_)
  split <;> decide

/-- What the search takes at once is a unit. -/
theorem identUnit_take (h : unitLength cs ≠ 0) : IdentUnit (cs.take (unitLength cs)) := by
  cases cs with
  | nil => exact absurd unitLength_nil h
  | cons c cs =>
      by_cases hi : isIdentChar c = true
      · rw [unitLength, if_pos hi]
        exact .plain hi
      by_cases hb : c = '\\'
      · subst hb
        by_cases hrun : hexDigits cs = []
        · obtain ⟨hlen, c, t, rfl, hx, hn⟩ := unitLength_marked hrun h
          rw [hlen]
          exact .marked hx hn
        · obtain ⟨ds, t, rfl, hd⟩ : ∃ ds t, cs = ds ++ t ∧ Digits ds t := by
            obtain ⟨t, ht⟩ := hexDigits_prefix cs
            exact ⟨hexDigits cs, t, ht.symm, by rw [ht], hrun⟩
          exact hd.identUnit_take
      · rw [unitLength, if_neg hi, if_neg hb] at h
        exact absurd rfl h

/-- What the search takes is an identifier. -/
theorem identifier_take (h : identLength cs ≠ 0) : Identifier (cs.take (identLength cs)) := by
  induction cs using identLength.induct with
  | case1 cs hu => exact absurd (identLength_of_unitLength hu) h
  | case2 cs hu ih =>
      rw [identLength, if_neg hu, List.take_add]
      by_cases h₀ : identLength (cs.drop (unitLength cs)) = 0
      · rw [h₀, List.take_zero, List.append_nil]
        exact .unit (identUnit_take hu)
      · exact .append (identUnit_take hu) (ih h₀)

/-- The pattern matches a text exactly if the search takes all of it. -/
theorem identifier_iff : Identifier t ↔ t ≠ [] ∧ identLength t = t.length := by
  refine ⟨fun h => ⟨h.ne_nil, h.greedy.identLength⟩, fun ⟨hne, h⟩ => ?_⟩
  have hpos : identLength t ≠ 0 := by
    rw [h]
    exact fun e => hne (List.length_eq_zero_iff.1 e)
  have := identifier_take hpos
  rwa [h, List.take_length] at this

/-! ### Characters of escapes -/

/-- `c` is the character of an escape by the number `n`. -/
def Stands (n : Nat) (c : Char) : Prop :=
  if n = 0 ∨ (0xd800 ≤ n ∧ n ≤ 0xdfff) ∨ 0x10ffff < n then c = '\ufffd' else c.toNat = n

/-- The tokenizer reads a character that an escape by this number can stand for. -/
theorem stands_charOfCode (n : Nat) : Stands n (Token.charOfCode n) := by
  rw [Stands]
  split
  · next hn =>
      refine charOfCode_invalid (hn.imp_right fun hn => ?_)
      rw [Nat.isValidChar]
      omega
  · next hn =>
      obtain ⟨hcode, hnat⟩ := charOfCode_valid (n := n) (by omega) (by rw [Nat.isValidChar]; omega)
      rw [hcode, hnat]

namespace Digits

/-- The digits have a value, and it is the code of the character. -/
theorem stands (h : Digits ds y) : ∃ n, codeOf? ds = some n ∧ Stands n (decoded ds) := by
  refine ⟨_, codeOf?_digits h.all h.ne_nil h.length_le, ?_⟩
  rw [decoded_eq h.all h.ne_nil h.length_le, Token.charOfHex]
  exact stands_charOfCode _

/-- No escape stands for the null character. -/
theorem decoded_ne_null (h : Digits ds y) : decoded ds ≠ '\x00' := by
  rw [decoded_eq h.all h.ne_nil h.length_le, Token.charOfHex, Token.charOfCode, denull]
  split
  · decide
  · assumption

/-- The tokenizer reads an escape by a number to its end, with the blank behind it. -/
theorem readEscape (h : Digits ds y) : Token.readEscape (ds ++ y) = (decoded ds, dropSpace y) := by
  have hrun : Text.hexRun (ds ++ y) = ds := h.run
  rw [Text.readEscape_digits h.head.1, hrun, List.drop_left,
    decoded_eq h.all h.ne_nil h.length_le]

/-- One blank behind the escape belongs to it. -/
theorem unescape (h : Digits ds y) :
    unescape ('\\' :: (ds ++ y)) =
      decoded ds :: unescape (if y.head?.any isSpace then y.drop 1 else y) := by
  rw [Selector.unescape.eq_def]
  simp only [h.run, h.ne_nil, if_true, if_false, List.drop_left]

/-- The analysis reads the same character when no blank stands behind the digits. -/
theorem unescape_coded (h : Digits ds y) (hy : y.head?.any isSpace = false) :
    Selector.unescape ('\\' :: (ds ++ y)) = decoded ds :: Selector.unescape y := by
  rw [h.unescape, hy]; rfl

theorem unescape_spaced (h : Digits ds (c :: y)) (hc : isSpace c = true) :
    Selector.unescape ('\\' :: (ds ++ c :: y)) = decoded ds :: Selector.unescape y := by
  rw [h.unescape, List.head?_cons, Option.any_some, if_pos hc]; rfl

end Digits

/-! ### The name -/

theorem unescape_plain (h : isIdentChar c = true) (y : List Char) :
    unescape (c :: y) = c :: unescape y := (CharSpelling.plain h).unescape_append y

theorem unescape_marked (hx : isHexDigit c = false) (hn : isNewline c = false) (y : List Char) :
    unescape ('\\' :: c :: y) = c :: unescape y := (CharSpelling.marked hx hn).unescape_append y

theorem readName_escape {e : Char} (hn : startsNewline cs = false) (he : readEscape cs = (e, t)) :
    Token.readName ('\\' :: cs) = (e :: (Token.readName t).1, (Token.readName t).2) := by
  rw [Token.readName, if_pos rfl, if_neg (by rw [hn]; exact Bool.false_ne_true), he]

namespace Greedy

/-- No second newline follows a blank, so one is all that the tokenizer drops. -/
theorem dropSpace_cons (h : Greedy t) (hc : isSpace c = true) : dropSpace (c :: t) = t := by
  have hcr : ¬(c = '\r' ∧ t.head? = some '\n') := by
    rintro ⟨-, hn⟩
    have := h.not_isSpace
    rw [hn] at this
    cases this
  rw [dropSpace, Token.dropNewline_cons, if_neg hcr]
  rw [isSpace, Bool.or_eq_true] at hc
  split
  · rfl
  · next h => exact if_pos (hc.resolve_left h)

/-- The tokenizer reads all of an identifier, to the name that the analysis makes of it, but for null
characters. -/
theorem readName (h : Greedy t) : Token.readName t = ((unescape t).map denull, []) := by
  induction h with
  | nil => rw [Token.readName, unescape.eq_def]; rfl
  | @plain c t hi _ ih =>
      have hb : c ≠ '\\' := by rintro rfl; cases hi
      rw [Token.readName, if_neg hb, if_pos (isNameChar_of_isIdentChar hi), ih, unescape_plain hi]
      rfl
  | @coded ds t hd ht ih =>
      have he := hd.readEscape
      rw [Text.dropSpace_of_head ht.not_isSpace] at he
      have hnull : denull (decoded ds) = decoded ds := if_neg hd.decoded_ne_null
      rw [readName_escape hd.head.2 he, ih, hd.unescape_coded ht.not_isSpace, List.map_cons, hnull]
  | @spaced ds t c hd hc ht ih =>
      have he := hd.readEscape
      rw [ht.dropSpace_cons hc] at he
      have hnull : denull (decoded ds) = decoded ds := if_neg hd.decoded_ne_null
      rw [readName_escape hd.head.2 he, ih, hd.unescape_spaced hc, List.map_cons, hnull]
  | @marked c t hx hn _ ih =>
      have hnew : startsNewline (c :: t) = false := hn
      rw [readName_escape hnew (Text.readEscape_single hx t), ih, unescape_marked hx hn]
      rfl

/-- No escape stands for a null character unless it is written behind the backslash. -/
theorem null_mem (h : Greedy t) (hm : '\x00' ∈ unescape t) : '\x00' ∈ t := by
  induction h with
  | nil => rw [unescape.eq_def] at hm; cases hm
  | @plain c t hi _ ih =>
      rw [unescape_plain hi, List.mem_cons] at hm
      exact List.mem_cons.2 (hm.imp_right ih)
  | @coded ds t hd ht ih =>
      rw [hd.unescape_coded ht.not_isSpace, List.mem_cons] at hm
      have hm := ih (hm.resolve_left (Ne.symm hd.decoded_ne_null))
      exact List.mem_cons_of_mem _ (List.mem_append_right _ hm)
  | @spaced ds t c hd hc _ ih =>
      rw [hd.unescape_spaced hc, List.mem_cons] at hm
      have hm := ih (hm.resolve_left (Ne.symm hd.decoded_ne_null))
      exact List.mem_cons_of_mem _ (List.mem_append_right _ (List.mem_cons_of_mem _ hm))
  | @marked c t hx hn _ ih =>
      rw [unescape_marked hx hn, List.mem_cons] at hm
      exact List.mem_cons_of_mem _ (List.mem_cons.2 (hm.imp_right ih))

/-- A backslash behind an identifier begins an escape of its own. -/
theorem unescape_append (h : Greedy x) (y : List Char) :
    unescape (x ++ '\\' :: y) = unescape x ++ unescape ('\\' :: y) := by
  -- the backslash is neither a digit nor a blank, so it adds to no escape in front of it
  have hb : isHexDigit '\\' = false := rfl
  induction h with
  | nil => rw [List.nil_append, unescape.eq_def [], List.nil_append]
  | @plain c t hi _ ih =>
      rw [List.cons_append, unescape_plain hi, unescape_plain hi, ih, List.cons_append]
  | @coded ds t hd ht ih =>
      have hhead : (t ++ '\\' :: y).head?.any isSpace = false := by
        cases t with
        | nil => rfl
        | cons c t => exact ht.not_isSpace
      rw [List.cons_append, List.append_assoc, (hd.append_stop hb y).unescape_coded hhead, ih,
        hd.unescape_coded ht.not_isSpace, List.cons_append]
  | @spaced ds t c hd hc _ ih =>
      have hd' : Digits ds (c :: (t ++ '\\' :: y)) := hd.append_stop hb y
      rw [List.cons_append, List.append_assoc, List.cons_append, hd'.unescape_spaced hc, ih,
        hd.unescape_spaced hc, List.cons_append]
  | @marked c t hx hn _ ih =>
      rw [List.cons_append, List.cons_append, unescape_marked hx hn, unescape_marked hx hn, ih,
        List.cons_append]

/-- Without null characters the two names are the same. -/
theorem readName_eq (h : Greedy t) (h₀ : '\x00' ∉ t) : Token.readName t = (unescape t, []) := by
  have hnull : (unescape t).map denull = unescape t :=
    calc (unescape t).map denull
        = (unescape t).map id :=
          List.map_congr_left fun c hc => if_neg fun e : c = '\x00' => h₀ (h.null_mem (e ▸ hc))
      _ = unescape t := List.map_id _
  rw [h.readName, hnull]

end Greedy

/-- The tokenizer reads all of an identifier without null characters, to the name that the analysis
makes of it.  In that name an escape by digits, wherever it stands, is the character whose code the
digits are; they always are a number, and the replacement character stands for one without a
character. -/
theorem readName_identifier (h : Identifier t) (h₀ : '\x00' ∉ t) :
    Token.readName t = (unescape t, []) ∧
      ∀ x ds y, t = x ++ '\\' :: (ds ++ y) → (x = [] ∨ Identifier x) → Digits ds y →
        ∃ n c, codeOf? ds = some n ∧ Stands n c ∧
          unescape t = unescape x ++
            c :: unescape (if y.head?.any isSpace then y.drop 1 else y) := by
  refine ⟨h.greedy.readName_eq h₀, ?_⟩
  rintro x ds y rfl hx hd
  have hx : Greedy x := by
    rcases hx with rfl | hx
    · exact .nil
    · exact hx.greedy
  obtain ⟨n, hn, hs⟩ := hd.stands
  exact ⟨n, decoded ds, hn, hs, by rw [hx.unescape_append, hd.unescape]⟩

end Units

/-- Escapes of every kind: of a code with a blank and without, of a surrogate, of zero, of a number
beyond all code points, and of a character. -/
def mixed : List Char := "s\\6d \\:p\\D800x\\0 \\110000".toList

/-- An identifier with escapes of every kind. -/
theorem readName_identifier_mixed :
    Identifier mixed ∧ '\x00' ∉ mixed ∧
      Token.readName mixed = ("sm:p\ufffdx\ufffd\ufffd".toList, []) ∧
      ∃ n c, codeOf? "D800".toList = some n ∧ Stands n c ∧
        unescape mixed =
          unescape "s\\6d \\:p".toList ++ c :: unescape "x\\0 \\110000".toList := by
  have hid : Identifier mixed := identifier_iff.2 ⟨by decide, by decide +kernel⟩
  have hfront : Identifier "s\\6d \\:p".toList := identifier_iff.2 ⟨by decide, by decide +kernel⟩
  have h₀ : '\x00' ∉ mixed := by decide
  have hname : unescape mixed = "sm:p\ufffdx\ufffd\ufffd".toList := by decide +kernel
  obtain ⟨hread, hescape⟩ := readName_identifier hid h₀
  rw [hname] at hread
  exact ⟨hid, h₀, hread, hescape "s\\6d \\:p".toList "D800".toList _ rfl (.inr hfront)
    ⟨by decide, by decide⟩⟩

end CssPrune.Selector
