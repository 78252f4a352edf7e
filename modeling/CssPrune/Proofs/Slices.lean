import CssPrune.Proofs.Errors

/-!
# Errors report disjoint slices of the text

The statements given up in a sheet follow each other (`Stylesheet.Consists.pairwise_lost`), and each
stands in the text where it starts (`Component.Placed.standsAt`).  Offsets are counted in bytes here, as
the text is stored; characters in front of an offset are turned into bytes by `byteOffset`.

`Stylesheet.sources_disjoint`: the sources of the errors are slices of the text, one behind the other.
-/

namespace CssPrune

open Component (Placed textOf)

/-! ### Offsets in bytes -/

/-- The text stands in the sheet at this offset in bytes. -/
def StandsAt (css : String) (offset : Nat) (x : String) : Prop :=
  ∃ a b, css = a ++ x ++ b ∧ a.utf8ByteSize = offset

/-- The number of bytes in front of an offset in characters. -/
def byteOffset (text : List Char) (offset : Nat) : Nat :=
  (String.ofList (text.take offset)).utf8ByteSize

/-- The bytes in front of a later offset are those in front of the earlier one and those between. -/
theorem byteOffset_add (text : List Char) (i k : Nat) : byteOffset text (i + k) =
    byteOffset text i + (String.ofList ((text.drop i).take k)).utf8ByteSize := by
  rw [byteOffset, List.take_add, String.ofList_append, String.utf8ByteSize_append, byteOffset]

/-- A later offset has no fewer bytes in front. -/
theorem byteOffset_mono (text : List Char) {i j : Nat} (h : i ≤ j) :
    byteOffset text i ≤ byteOffset text j := by
  obtain ⟨k, rfl⟩ := Nat.exists_eq_add_of_le h
  rw [byteOffset_add]
  exact Nat.le_add_right _ _

/-! ### Statements in the text -/

section Placed

variable {css : String} {s t : Statement}

/-- The text of a placed statement stands in the sheet at the bytes in front of its start. -/
theorem Component.Placed.standsAt (h : Placed css.toList s.start s.components) :
    StandsAt css (byteOffset css.toList s.start) (String.ofList s.text) := by
  obtain ⟨a, b, htext, hlen⟩ := h.at_pos
  refine ⟨String.ofList a, String.ofList b, ?_, ?_⟩
  · rw [← String.ofList_append, ← String.ofList_append, List.append_assoc, Statement.text, ← htext,
      String.ofList_toList]
  · rw [byteOffset, htext, ← hlen, List.take_left]

/-- In bytes, too, a statement stops where its text ends. -/
theorem Component.Placed.byteOffset_stop (h : Placed css.toList s.start s.components) :
    byteOffset css.toList s.start + (String.ofList s.text).utf8ByteSize =
      byteOffset css.toList s.stop := by
  rw [← h.slice, CssPrune.slice, ← byteOffset_add, Nat.add_sub_cancel' s.start_le_stop]

end Placed

namespace Stylesheet

variable {css : String} {rs : List Rule} {ss : List Statement}

/-- Every statement that is given up is placed where it starts. -/
theorem Consists.placed_lost (h : Consists css rs ss) :
    ∀ t ∈ ss.flatMap Statement.faulty, Placed css.toList t.start t.components := by
  intro t ht
  obtain ⟨s, hs, ht⟩ := List.mem_flatMap.1 ht
  exact (Statement.placed_of_mem_faulty s (h.placed s hs) t ht).1

/-- The statements that are given up follow each other in the text. -/
theorem Consists.pairwise_lost (h : Consists css rs ss) :
    (ss.flatMap Statement.faulty).Pairwise fun t u => t.stop ≤ u.start :=
  Statement.pairwise_flatMap_faulty h.ordered h.placed fun s hs =>
    Statement.pairwise_faulty s (h.placed s hs)

/-- **Errors are in the order of the text and do not overlap.**  The sources that errors report, in the
order of the errors, are slices of the text that are not empty, and each ends at or before the start of
the next one. -/
theorem sources_disjoint (css : String) :
    ∃ slices : List (Nat × String),
      slices.map Prod.snd = (parse css).errors.filterMap SyntaxError.source ∧
      (∀ p ∈ slices, StandsAt css p.1 p.2 ∧ p.2 ≠ "") ∧
      slices.Pairwise fun p q => p.1 + p.2.utf8ByteSize ≤ q.1 := by
  obtain ⟨rs, ss, h⟩ := exists_consists css
  have hplaced := h.placed_lost
  -- a blank text is given up in silence
  refine ⟨(ss.flatMap Statement.faulty).filterMap fun t =>
    (sourceOf t.text).map fun x => (byteOffset css.toList t.start, x), ?_, ?_, ?_⟩
  · rw [List.map_filterMap]
    refine Eq.trans ?_ h.fragments_eq.symm
    refine List.filterMap_congr fun t _ => ?_
    rw [Option.map_map]
    exact Option.map_id'
  · intro p hp
    obtain ⟨t, ht, hp⟩ := List.mem_filterMap.1 hp
    obtain ⟨x, hx, rfl⟩ := Option.map_eq_some_iff.1 hp
    obtain ⟨rfl, hne⟩ := eq_of_sourceOf hx
    exact ⟨(hplaced t ht).standsAt, hne⟩
  · refine List.pairwise_filterMap.2 (h.pairwise_lost.imp_of_mem ?_)
    intro t u ht hu htu p hp q hq
    obtain ⟨x, hx, rfl⟩ := Option.map_eq_some_iff.1 hp
    obtain ⟨y, -, rfl⟩ := Option.map_eq_some_iff.1 hq
    obtain ⟨rfl, -⟩ := eq_of_sourceOf hx
    rw [(hplaced t ht).byteOffset_stop]
    exact byteOffset_mono _ htu

end Stylesheet

end CssPrune
