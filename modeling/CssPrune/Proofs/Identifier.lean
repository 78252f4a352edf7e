import CssPrune.Selector
import CssPrune.Text.Letter
import Mathlib.Algebra.Group.Nat.Defs
import Mathlib.Data.List.TakeWhile

/-!
# Identifiers in the text of a selector

`escape` writes a name as an identifier (`spelling_escape`).  Wherever the identifier is followed by
something that cannot go on with it, its length and its name are found again
(`Spelling.identLength`, `Spelling.nameAt`).
-/

namespace CssPrune.Selector

open Text (isUpper_iff isLower_iff isDigit_iff isAlpha_iff)

/-! ### Ends of identifiers -/

/-- No identifier goes on here. -/
def Stops (y : List Char) : Prop := ∀ c ∈ y.head?, isIdentChar c = false ∧ c ≠ '\\'

/-- No identifier goes on with a character that it cannot hold. -/
theorem Stops.cons {c : Char} (h : isIdentChar c = false) (hc : c ≠ '\\') (y : List Char) :
    Stops (c :: y) := by
  intro d hd
  obtain rfl := Option.some.inj hd
  exact ⟨h, hc⟩

/-- Where no identifier goes on there is no unit of one. -/
theorem unitLength_of_stops {y : List Char} (h : Stops y) : unitLength y = 0 := by
  cases y with
  | nil => rfl
  | cons c y =>
      obtain ⟨hi, hb⟩ := h c rfl
      rw [unitLength, hi, if_neg Bool.false_ne_true, if_neg hb]

theorem identLength_of_unitLength {y : List Char} (h : unitLength y = 0) : identLength y = 0 := by
  rw [identLength, if_pos h]

/-- An identifier goes on behind each of its units. -/
theorem identLength_unit {u y : List Char} (h : unitLength (u ++ y) = u.length) (hu : u ≠ []) :
    identLength (u ++ y) = u.length + identLength y := by
  have hl : u.length ≠ 0 := fun e => hu (List.length_eq_zero_iff.1 e)
  rw [identLength, h, if_neg hl, List.drop_left]

/-- Without a backslash, the units are single characters. -/
theorem identLength_cons {c : Char} (hc : c ≠ '\\') (x : List Char) :
    identLength (c :: x) = if isIdentChar c then identLength x + 1 else 0 := by
  rw [identLength, unitLength, if_neg hc]
  split
  · rw [if_neg Nat.one_ne_zero, List.drop_succ_cons, List.drop_zero, Nat.add_comm]
  · rfl

/-! ### Escapes by code point -/

/-- A hexadecimal digit is worth less than sixteen. -/
theorem hexValue_lt {d : Char} (h : Token.isHexDigit d = true) : Token.hexValue d < 16 := by
  simp only [Token.isHexDigit, Bool.or_eq_true, Bool.and_eq_true, decide_eq_true_eq] at h
  rcases h with (hd | ⟨hlo, hhi⟩) | ⟨hlo, hhi⟩
  · have hhi := (isDigit_iff.1 hd).2
    rw [Token.hexValue, if_pos hd]
    show d.toNat - 48 < 16
    omega
  · have hlo : 97 ≤ d.toNat := hlo
    have hhi : d.toNat ≤ 102 := hhi
    have hd : ¬d.isDigit = true := fun hd => by have := isDigit_iff.1 hd; omega
    rw [Token.hexValue, if_neg hd, if_pos (show 'a' ≤ d from hlo)]
    show d.toNat - 97 + 10 < 16
    omega
  · have hlo : 65 ≤ d.toNat := hlo
    have hhi : d.toNat ≤ 70 := hhi
    have hd : ¬d.isDigit = true := fun hd => by have := isDigit_iff.1 hd; omega
    have hl : ¬ 'a' ≤ d := fun hl => by have hl : 97 ≤ d.toNat := hl; omega
    rw [Token.hexValue, if_neg hd, if_neg hl]
    show d.toNat - 65 + 10 < 16
    omega

/-- Eight hexadecimal digits fit into 32 bits. -/
theorem foldlM_addDigit? {ds : List Char} (hd : ds.all Token.isHexDigit = true) {n k : Nat}
    (hn : n < 16 ^ k) (hk : k + ds.length ≤ 8) :
    ds.foldlM addDigit? n = some (ds.foldl (fun n d => 16 * n + Token.hexValue d) n) := by
  induction ds generalizing n k with
  | nil => rfl
  | cons d ds ih =>
      rw [List.all_cons, Bool.and_eq_true] at hd
      rw [List.length_cons] at hk
      have hval := hexValue_lt hd.1
      have hnext : 16 * n + Token.hexValue d < 16 ^ (k + 1) := by rw [Nat.pow_succ]; omega
      have hbound : 16 ^ (k + 1) ≤ UInt32.size :=
        calc 16 ^ (k + 1) ≤ 16 ^ 8 := Nat.pow_le_pow_right (by decide) (by omega)
          _ = UInt32.size := by decide
      have hstep : addDigit? n d = some (16 * n + Token.hexValue d) := by
        rw [addDigit?, if_pos ⟨hd.1, hnext.trans_le hbound⟩]
      rw [List.foldlM_cons, hstep, List.foldl_cons]
      exact ih hd.2 hnext (by omega)

/-- The digits of an escape always stand for a number. -/
theorem codeOf?_digits {ds : List Char} (hd : ds.all Token.isHexDigit = true) (hne : ds ≠ [])
    (hl : ds.length ≤ 6) :
    codeOf? ds = some (ds.foldl (fun n d => 16 * n + Token.hexValue d) 0) := by
  rw [codeOf?, if_neg hne, foldlM_addDigit? hd (k := 0) (by decide) (by omega)]

/-- A code point other than zero gives its character. -/
theorem charOfCode_valid {n : Nat} (h₀ : n ≠ 0) (hv : n.isValidChar) :
    Token.charOfCode n = Char.ofNat n ∧ (Char.ofNat n).toNat = n := by
  have hcode : (Char.ofNat n).toNat = n := (congrArg Char.toNat (dif_pos hv)).trans rfl
  refine ⟨if_neg fun e => h₀ ?_, hcode⟩
  rw [← hcode, e]; rfl

/-- Zero, and what is no code point, give the replacement character. -/
theorem charOfCode_invalid {n : Nat} (h : n = 0 ∨ ¬n.isValidChar) :
    Token.charOfCode n = Token.replacement := by
  rcases h with rfl | hv
  · rfl
  · have hnull : Char.ofNat n = '\x00' := dif_neg hv
    rw [Token.charOfCode, hnull]; rfl

/-- The digits of an escape stand for one character in a selector and in a name. -/
theorem decoded_eq {ds : List Char} (hd : ds.all Token.isHexDigit = true) (hne : ds ≠ [])
    (hl : ds.length ≤ 6) : decoded ds = Token.charOfHex ds := by
  rw [decoded, codeOf?_digits hd hne hl, Token.charOfHex]
  generalize ds.foldl (fun n d => 16 * n + Token.hexValue d) 0 = n
  by_cases h₀ : n = 0
  · rw [charOfCode_invalid (.inl h₀), h₀]; rfl
  rw [Option.filter_some, if_pos (decide_eq_true h₀), Option.bind_some, charOf?]
  by_cases hv : n.isValidChar
  · rw [if_pos hv, (charOfCode_valid h₀ hv).1]; rfl
  · rw [if_neg hv, charOfCode_invalid (.inr hv)]; rfl

/-! ### Spellings -/

/-- A character as an escape by its code point. -/
def escapeCode (c : Char) : List Char := '\\' :: (Nat.toDigits 16 c.toNat ++ [' '])

/-- What stands for a character in an identifier, whatever follows. -/
inductive CharSpelling (c : Char) : List Char → Prop where
  | plain : isIdentChar c = true → CharSpelling c [c]
  | marked : Token.isHexDigit c = false → Token.isNewline c = false → CharSpelling c ['\\', c]
  | coded : c ≠ '\x00' → c.toNat < 128 → CharSpelling c (escapeCode c)

/-- What stands for a name. -/
inductive Spelling : List Char → List Char → Prop where
  | nil : Spelling [] []
  | cons {c : Char} {n u t : List Char} :
      CharSpelling c u → Spelling n t → Spelling (c :: n) (u ++ t)

theorem isIdentChar_backslash : isIdentChar '\\' = false := rfl

/-- A character that goes on with an identifier in a selector goes on with a name. -/
theorem isNameChar_of_isIdentChar {c : Char} (h : isIdentChar c = true) :
    Token.isNameChar c = true := by
  simp only [isIdentChar, Char.isAlphanum, Bool.or_eq_true, decide_eq_true_eq] at h
  rw [Token.isNameChar, Token.isNameStart]
  rcases h with (((h | h) | h) | h) | h <;> simp [h]

/-- Hexadecimal digits are letters or digits. -/
theorem isAlphanum_of_isHexDigit {c : Char} (h : Token.isHexDigit c = true) :
    c.isAlphanum = true := by
  simp only [Token.isHexDigit, Bool.or_eq_true, Bool.and_eq_true, decide_eq_true_eq] at h
  refine Bool.or_eq_true_iff.2 ?_
  rcases h with (hd | ⟨hlo, hhi⟩) | ⟨hlo, hhi⟩
  · exact .inr hd
  · have hhi : c.toNat ≤ 102 := hhi
    exact .inl (isAlpha_iff.2 (.inr (isLower_iff.2 ⟨hlo, by omega⟩)))
  · have hhi : c.toNat ≤ 70 := hhi
    exact .inl (isAlpha_iff.2 (.inl (isUpper_iff.2 ⟨hlo, by omega⟩)))

/-- What ends an identifier ends the digits of an escape, too. -/
theorem not_isHexDigit {c : Char} (h : isIdentChar c = false) : Token.isHexDigit c = false := by
  by_contra hh
  have ha := isAlphanum_of_isHexDigit (Bool.not_eq_false _ ▸ hh)
  simp [isIdentChar, ha] at h

/-- A character that is no digit ends the digits. -/
theorem hexDigits_stop {c : Char} (hc : Token.isHexDigit c = false) (x y : List Char) :
    hexDigits (x ++ c :: y) = hexDigits x := by
  rw [hexDigits, hexDigits, List.take_append]
  rcases Nat.eq_zero_or_pos (6 - x.length) with h | h
  · rw [h, List.take_zero, List.append_nil]
  · obtain ⟨k, hk⟩ := Nat.exists_eq_succ_of_ne_zero (Nat.pos_iff_ne_zero.1 h)
    rw [hk, List.take_succ_cons]
    by_cases hall : ∀ d ∈ x.take 6, Token.isHexDigit d = true
    · rw [List.takeWhile_append_of_pos hall, List.takeWhile_cons_of_neg
        (by rw [hc]; exact Bool.false_ne_true), List.append_nil,
        List.takeWhile_eq_self_iff.2 hall]
    · rw [List.takeWhile_append, if_neg]
      intro hl
      have := (List.takeWhile_prefix Token.isHexDigit).eq_of_length hl
      exact hall fun d hd => List.takeWhile_eq_self_iff.1 this d hd

/-- A run of digits, six at most, ends at the first character that is none. -/
theorem hexDigits_append {x : List Char} (hd : x.all Token.isHexDigit = true)
    (hl : x.length ≤ 6) {c : Char} (hc : Token.isHexDigit c = false) (y : List Char) :
    hexDigits (x ++ c :: y) = x := by
  rw [hexDigits_stop hc, hexDigits, List.take_of_length_le hl,
    List.takeWhile_eq_self_iff.2 fun d hm => List.all_eq_true.1 hd d hm]

/-- The code of a character up to U+007F. -/
theorem code_digits {c : Char} (h : c.toNat < 128) :
    (Nat.toDigits 16 c.toNat).all Token.isHexDigit = true ∧
      0 < (Nat.toDigits 16 c.toNat).length ∧ (Nat.toDigits 16 c.toNat).length < 6 ∧
      (c ≠ '\x00' → Token.charOfHex (Nat.toDigits 16 c.toNat) = c) := by
  -- all the codes that are written
  have hall : ∀ n < 128, (Nat.toDigits 16 n).all Token.isHexDigit = true ∧
      0 < (Nat.toDigits 16 n).length ∧ (Nat.toDigits 16 n).length < 6 ∧
      (n ≠ 0 → Token.charOfHex (Nat.toDigits 16 n) = Char.ofNat n) := by decide +kernel
  obtain ⟨h₁, h₂, h₃, h₄⟩ := hall c.toNat h
  refine ⟨h₁, h₂, h₃, fun h₀ => (h₄ fun e => h₀ ?_).trans (Char.ofNat_toNat c)⟩
  rw [← Char.ofNat_toNat c, e]

namespace CharSpelling

variable {c : Char} {u : List Char}

theorem ne_nil (h : CharSpelling c u) : u ≠ [] := by
  cases h <;> exact List.cons_ne_nil _ _

/-- What stands for a character is a unit, whatever follows it. -/
theorem unitLength_append (h : CharSpelling c u) (y : List Char) :
    unitLength (u ++ y) = u.length := by
  cases h with
  | plain hi => rw [List.singleton_append, unitLength, if_pos hi]; rfl
  | marked hx hn =>
      have hds : hexDigits (c :: y) = [] :=
        hexDigits_append (x := []) rfl (by decide) hx y
      have hend : ¬(c :: y = [] ∨ Token.startsNewline (c :: y) = true) := by
        rintro (h | h)
        · cases h
        · rw [Token.startsNewline, List.head?_cons, Option.any_some, hn] at h; cases h
      rw [List.cons_append, List.singleton_append, unitLength, isIdentChar_backslash,
        if_neg Bool.false_ne_true, if_pos rfl]
      simp only [hds, List.length_nil, Nat.lt_irrefl, if_false, if_neg hend]
      rfl
  | coded h₀ hc =>
      obtain ⟨hd, hpos, hlen, -⟩ := code_digits hc
      have hds := hexDigits_append hd hlen.le (c := ' ') rfl y
      rw [escapeCode, List.cons_append, List.append_assoc, List.singleton_append, unitLength,
        isIdentChar_backslash, if_neg Bool.false_ne_true, if_pos rfl]
      simp only [hds, hpos, if_true, List.drop_left, List.head?_cons, Option.any_some,
        List.length_cons, List.length_append, List.length_nil]
      rw [if_pos (by rfl)]
      omega

/-- The character is found again, whatever follows it. -/
theorem unescape_append (h : CharSpelling c u) (y : List Char) :
    unescape (u ++ y) = c :: unescape y := by
  cases h with
  | plain hi =>
      have hc : c ≠ '\\' := by rintro rfl; cases hi
      rw [List.singleton_append, unescape.eq_def]
      simp only [hc, if_false]
  | marked hx hn =>
      have hds : hexDigits (c :: y) = [] :=
        hexDigits_append (x := []) rfl (by decide) hx y
      rw [List.cons_append, List.singleton_append, unescape.eq_def]
      simp only [hds, if_true]
  | coded h₀ hc =>
      obtain ⟨hd, hpos, hlen, hval⟩ := code_digits hc
      have hds := hexDigits_append hd hlen.le (c := ' ') rfl y
      have hne : Nat.toDigits 16 c.toNat ≠ [] := List.ne_nil_of_length_pos hpos
      have hdec := (decoded_eq hd hne hlen.le).trans (hval h₀)
      rw [escapeCode, List.cons_append, List.append_assoc, List.singleton_append,
        unescape.eq_def]
      simp only [hds, hne, if_true, if_false, hdec, List.drop_left, List.head?_cons,
        Option.any_some]
      rw [if_pos (by rfl)]
      rfl

end CharSpelling

namespace Spelling

variable {n t : List Char}

/-- An identifier that spells a name goes on with what follows it. -/
theorem identLength_append (h : Spelling n t) (y : List Char) :
    Selector.identLength (t ++ y) = t.length + Selector.identLength y := by
  induction h with
  | nil => simp
  | cons hu _ ih =>
      rw [List.append_assoc, identLength_unit (hu.unitLength_append _) hu.ne_nil, ih,
        List.length_append, Nat.add_assoc]

/-- The name is found again in front of what follows it. -/
theorem unescape_append (h : Spelling n t) (y : List Char) :
    Selector.unescape (t ++ y) = n ++ Selector.unescape y := by
  induction h with
  | nil => rfl
  | cons hu _ ih => rw [List.append_assoc, hu.unescape_append, ih, List.cons_append]

theorem identLength (h : Spelling n t) {y : List Char} (hy : Stops y) :
    identLength (t ++ y) = t.length := by
  rw [h.identLength_append, identLength_of_unitLength (unitLength_of_stops hy), Nat.add_zero]

theorem unescape (h : Spelling n t) : unescape t = n := by
  have := h.unescape_append []
  rwa [List.append_nil, Selector.unescape, List.append_nil] at this

/-- The name is read back in front of anything that the identifier does not go on with. -/
theorem nameAt (h : Spelling n t) {y : List Char} (hy : Stops y) :
    nameAt (t ++ y) = String.ofList n := by
  rw [Selector.nameAt, h.identLength hy, List.take_left, h.unescape]

theorem ne_nil (h : Spelling n t) (hn : n ≠ []) : t ≠ [] := by
  cases h with
  | nil => exact absurd rfl hn
  | cons hu _ => exact fun e => hu.ne_nil (List.append_eq_nil_iff.1 e).1

end Spelling

/-! ### Writing names -/

/-- The control characters of ASCII. -/
def isControl (c : Char) : Bool := c.toNat < 32 || c.toNat = 127

/-- A character of a name, escaped where it has to be. -/
def escapeChar (c : Char) : List Char :=
  if isIdentChar c then [c] else if isControl c then escapeCode c else ['\\', c]

/-- The first character, which can be no digit. -/
def escapeStart (c : Char) : List Char := if c.isDigit then escapeCode c else escapeChar c

/-- A name as an identifier: no digit comes first, or behind a hyphen that comes first, and a hyphen
does not stand alone. -/
def escape : List Char → List Char
  | [] => []
  | ['-'] => ['\\', '-']
  | '-' :: c :: cs => '-' :: (escapeStart c ++ cs.flatMap escapeChar)
  | c :: cs => escapeStart c ++ cs.flatMap escapeChar

/-- Every character but the null character has a spelling. -/
theorem charSpelling_escapeChar {c : Char} (h : c ≠ '\x00') : CharSpelling c (escapeChar c) := by
  rw [escapeChar]
  split
  · next hi => exact .plain hi
  · next hi =>
      split
      · next hc =>
          refine .coded h ?_
          simp only [isControl, Bool.or_eq_true, decide_eq_true_eq] at hc
          omega
      · next hc =>
          refine .marked (not_isHexDigit (Bool.not_eq_true _ ▸ hi)) ?_
          by_contra hn
          refine hc ?_
          rw [Bool.not_eq_false] at hn
          simp only [Token.isNewline, Bool.or_eq_true, decide_eq_true_eq] at hn
          rcases hn with (rfl | rfl) | rfl <;> rfl

/-- Each character has a spelling at the head of a name. -/
theorem charSpelling_escapeStart {c : Char} (h : c ≠ '\x00') : CharSpelling c (escapeStart c) := by
  rw [escapeStart]
  split
  · next hd =>
      refine .coded h ?_
      have := (isDigit_iff.1 hd).2
      omega
  · exact charSpelling_escapeChar h

/-- A name without null characters is spelled character by character. -/
theorem spelling_flatMap {n : List Char} (h : '\x00' ∉ n) : Spelling n (n.flatMap escapeChar) := by
  induction n with
  | nil => exact .nil
  | cons c n ih =>
      have hc : c ≠ '\x00' := by rintro rfl; exact h List.mem_cons_self
      exact .cons (charSpelling_escapeChar hc) (ih fun hm => h (List.mem_cons_of_mem _ hm))

/-- Escaping a name spells it. -/
theorem spelling_escape {n : List Char} (h : '\x00' ∉ n) : Spelling n (escape n) := by
  have tail : ∀ {c cs}, c :: cs <:+ n → c ≠ '\x00' ∧ '\x00' ∉ cs := fun {c cs} hs =>
    ⟨by rintro rfl; exact h (hs.subset List.mem_cons_self),
      fun hm => h (hs.subset (List.mem_cons_of_mem _ hm))⟩
  unfold escape
  split
  · exact .nil
  · exact .cons (.marked rfl rfl) .nil
  · next c cs =>
      obtain ⟨hc, hcs⟩ := tail (List.suffix_cons '-' (c :: cs))
      exact .cons (.plain rfl) (.cons (charSpelling_escapeStart hc) (spelling_flatMap hcs))
  · next c cs _ _ =>
      obtain ⟨hc, hcs⟩ := tail (List.suffix_refl (c :: cs))
      exact .cons (charSpelling_escapeStart hc) (spelling_flatMap hcs)

end CssPrune.Selector
