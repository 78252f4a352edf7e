import CssPrune.Proofs.Pieces

/-!
# The importance mark of a value that is read again

The mark is looked for in the raw text, comments and all; only then is the value squeezed.  A comment
behind the mark therefore hides it: the mark stays in the value, and is the last thing to be seen there.

`Declaration.splitImportant_again`: a value and its mark, written down, are read as the same value and
mark, unless a comment hides a mark.
-/

namespace CssPrune.Text

/-! ### The end of a normal text -/

/-- The last stretch of a raw text that gaps part from the others. -/
def lastStretch (raw : List Char) : List Char :=
  (stretches ((pieces raw).splitOnP Piece.isGap)).getLast?.getD []

/-- A mark ends a text just when it ends a part behind something that no mark has in it. -/
theorem isSuffix_append_iff {m x : List Char} (h : ∀ c ∈ x.getLast?, c ∉ m) (y : List Char) :
    m <:+ x ++ y ↔ m <:+ y := by
  refine ⟨fun hm => ?_, fun hm => List.suffix_append_of_suffix hm⟩
  obtain hy | ⟨u, rfl⟩ := List.suffix_or_suffix_of_suffix hm (List.suffix_append x y)
  · exact hy
  -- what `m` has in front of `y` is an end of `x`
  have hu : u <:+ x := by
    obtain ⟨v, hv⟩ := hm
    rw [← List.append_assoc, List.append_left_inj] at hv
    exact ⟨v, hv⟩
  obtain rfl | ⟨w, c, rfl⟩ := List.eq_nil_or_concat u
  · exact List.suffix_refl _
  obtain ⟨v, rfl⟩ := hu
  exact absurd (by simp) (h c (by simp))

/-- A mark without the separator ends a text just when it ends the last part. -/
theorem isSuffix_intercalate_iff {m : List Char} {c : Char} (hc : c ∉ m) (xs : List (List Char)) :
    m <:+ [c].intercalate xs ↔ m <:+ xs.getLast?.getD [] := by
  induction xs with
  | nil => exact Iff.rfl
  | cons x xs ih =>
      cases xs with
      | nil => simp [List.intercalate]
      | cons y xs =>
          rw [List.intercalate_cons_cons, List.getLast?_cons_cons, ← ih]
          refine isSuffix_append_iff (fun d hd => ?_) _
          simp only [List.getLast?_append, List.getLast?_singleton, Option.some_or] at hd
          exact Option.some.inj hd ▸ hc

/-- A text without a space ends the normal form when it ends the last stretch. -/
theorem isSuffix_normalize_iff {m : List Char} (hm : ' ' ∉ m) (raw : List Char) :
    m <:+ normalize raw ↔ m <:+ lastStretch raw := by
  rw [(normalize_canonical raw).2.1]
  exact isSuffix_intercalate_iff hm _

end CssPrune.Text

namespace CssPrune.Declaration

open Text

/-- A raw text that does not end in the mark is a value as a whole. -/
theorem splitImportant_of_not_isSuffix {raw : List Char}
    (h : importantMark.isSuffixOf (Text.trim raw) = false) :
    splitImportant raw = (Text.normalize (Text.trim raw), false) := by
  simp only [splitImportant, h, Bool.false_eq_true, if_false]

/-- What is written of a declaration is its value, and its mark behind a space. -/
theorem written_ofText (name : String) (raw : List Char) : (ofText name raw).written =
    (splitImportant raw).1 ++ if (splitImportant raw).2 then ' ' :: importantMark else [] := by
  rw [written, ofText, String.toList_ofList]

/-- A value that ends in what looks like a mark is read as one with the mark. -/
theorem splitImportant_marked_of_isSuffix {v : List Char} (hv : NormalValue v)
    (h : importantMark <:+ v) : (splitImportant v).2 = true := by
  simp only [splitImportant, hv.2.trim, List.isSuffixOf_iff_suffix.2 h, if_true]

/-- **A value and its mark are read again** from what is written of them, unless the mark is not set
and yet stands at the end of the last stretch of the text: gaps behind it, comments among them, hide
it. -/
theorem splitImportant_again (name : String) (raw : List Char) :
    splitImportant (ofText name raw).written = splitImportant raw ↔
      (importantMark <:+ lastStretch (Text.trim raw) → (splitImportant raw).2 = true) := by
  have hnormal := splitImportant_normal raw
  rw [written_ofText]
  cases hm : importantMark.isSuffixOf (Text.trim raw) with
  | true =>
      obtain ⟨v, hv⟩ := List.isSuffixOf_iff_suffix.1 hm
      have hsplit := splitImportant_of_trim hv.symm
      rw [hsplit] at hnormal ⊢
      exact iff_of_true (splitImportant_marked (s := []) rfl hnormal) fun _ => rfl
  | false =>
      rw [splitImportant_of_not_isSuffix hm] at hnormal ⊢
      rw [if_neg Bool.false_ne_true, List.append_nil, ← isSuffix_normalize_iff (by decide)]
      by_cases hs : importantMark <:+ Text.normalize (Text.trim raw)
      -- the value ends in a mark, which is taken off now
      · refine iff_of_false (fun h => ?_) fun h => Bool.false_ne_true (h hs)
        have := splitImportant_marked_of_isSuffix hnormal hs
        rw [h] at this
        cases this
      · refine iff_of_true (splitImportant_unmarked (s := []) rfl hnormal ?_) fun h => absurd h hs
        rwa [Bool.eq_false_iff, ne_eq, List.isSuffixOf_iff_suffix]

/-- A comment hides the mark in front of it. -/
theorem not_splitImportant_again :
    splitImportant (ofText "b" "c !important/**/".toList).written ≠
      splitImportant "c !important/**/".toList := by
  decide +kernel

end CssPrune.Declaration
