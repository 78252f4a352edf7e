import CssPrune.Sheet
import Mathlib.Data.List.Sort

/-!
# Faults in the order of their places

A later offset has no earlier location (`Location.ofOffset_mono`), and a later one when it lies behind
a character that ends no line (`Location.ofOffset_lt`).

Errors are sorted by the rules in front of them and their locations.  The sort keeps errors of one
place in their order (`SyntaxError.filter_mergeSort`), so it turns any arrangement that differs from a
sorted list in the order of different places only into this list (`SyntaxError.mergeSort_eq`).
-/

namespace CssPrune

/-! ### Locations -/

namespace Location

instance : LE Location := ⟨fun l m => l.line < m.line ∨ l.line = m.line ∧ l.column ≤ m.column⟩

instance : LT Location := ⟨fun l m => l.line < m.line ∨ l.line = m.line ∧ l.column < m.column⟩

theorem le_def {l m : Location} :
    l ≤ m ↔ l.line < m.line ∨ l.line = m.line ∧ l.column ≤ m.column := Iff.rfl

theorem lt_def {l m : Location} :
    l < m ↔ l.line < m.line ∨ l.line = m.line ∧ l.column < m.column := Iff.rfl

theorem le_refl (l : Location) : l ≤ l := .inr ⟨rfl, Nat.le_refl _⟩

theorem le_trans {l m k : Location} (h : l ≤ m) (h' : m ≤ k) : l ≤ k := by
  rw [le_def] at *
  omega

/-- A place in front of one that is not behind a third is in front of the third. -/
theorem lt_of_lt_of_le {l m k : Location} (h : l < m) (h' : m ≤ k) : l < k := by
  rw [le_def] at *
  rw [lt_def] at *
  omega

theorem lt_of_le_of_lt {l m k : Location} (h : l ≤ m) (h' : m < k) : l < k := by
  rw [le_def] at *
  rw [lt_def] at *
  omega

theorem le_nextLine (l : Location) : l ≤ l.nextLine := .inl (Nat.lt_succ_self _)

theorem units_pos (c : Char) : 0 < units c := by
  unfold units
  split <;> decide

theorem lt_column (l : Location) (c : Char) : l < ⟨l.line, l.column + units c⟩ :=
  .inr ⟨rfl, Nat.lt_add_of_pos_right (units_pos c)⟩

theorem le_of_lt {l m : Location} (h : l < m) : l ≤ m := by
  rw [lt_def] at h
  rw [le_def]
  omega

/-- One character is passed that is not half of a line end: a line end goes to the next line, any
other character moves the column on. -/
theorem advance_cons {c : Char} {cs : List Char} (h : ¬(c = '\r' ∧ cs.head? = some '\n'))
    (l : Location) : advance l (c :: cs) =
      if Token.isNewline c then advance l.nextLine cs
      else advance ⟨l.line, l.column + units c⟩ cs := by
  rw [advance]
  rintro ds rfl rfl
  exact h ⟨rfl, rfl⟩

/-- Passing a text does not go back. -/
theorem le_advance (l : Location) (cs : List Char) : l ≤ advance l cs := by
  fun_induction advance l cs with
  | case1 => exact le_refl _
  | case2 l cs ih => exact le_trans (le_nextLine l) ih
  | case3 l c cs _ _ ih => exact le_trans (le_nextLine l) ih
  | case4 l c cs _ _ ih => exact le_trans (le_of_lt (lt_column l c)) ih

/-- Two texts are passed one after the other, unless the second begins with a line feed that may
belong to a line end of the first. -/
theorem advance_append (l : Location) {cs ds : List Char} (h : ds.head? ≠ some '\n') :
    advance l (cs ++ ds) = advance (advance l cs) ds := by
  fun_induction advance l cs with
  | case1 => rfl
  | case2 l cs ih => exact ih
  | case3 l c cs hc hn ih =>
      have : ¬(c = '\r' ∧ (cs ++ ds).head? = some '\n') := by
        rintro ⟨rfl, hd⟩
        cases cs with
        | nil => exact h hd
        | cons d cs => cases hd; exact hc _ rfl rfl
      rw [List.cons_append, advance_cons this, if_pos hn, ih]
  | case4 l c cs hc hn ih =>
      have : ¬(c = '\r' ∧ (cs ++ ds).head? = some '\n') := by
        rintro ⟨rfl, -⟩
        exact hn rfl
      rw [List.cons_append, advance_cons this, if_neg hn, ih]

/-- A line feed behind a carriage return does not begin another line. -/
theorem advance_le_append (l : Location) (cs ds : List Char) :
    advance l cs ≤ advance l (cs ++ ds) := by
  fun_induction advance l cs with
  | case1 => exact le_advance _ _
  | case2 l cs ih => exact ih
  | case3 l c cs hc hn ih =>
      by_cases hr : c = '\r' ∧ (cs ++ ds).head? = some '\n'
      · obtain ⟨rfl, hd⟩ := hr
        cases cs with
        | nil =>
            obtain ⟨ds', rfl⟩ := List.head?_eq_some_iff.1 hd
            exact le_advance _ _
        | cons d cs => cases hd; exact absurd rfl (hc _ rfl)
      · rw [List.cons_append, advance_cons hr, if_pos hn]
        exact ih
  | case4 l c cs hc hn ih =>
      have : ¬(c = '\r' ∧ (cs ++ ds).head? = some '\n') := by
        rintro ⟨rfl, -⟩
        exact hn rfl
      rw [List.cons_append, advance_cons this, if_neg hn]
      exact ih

/-- A later offset has no earlier location. -/
theorem ofOffset_mono (text : List Char) {i j : Nat} (h : i ≤ j) :
    ofOffset text i ≤ ofOffset text j := by
  obtain ⟨k, rfl⟩ := Nat.exists_eq_add_of_le h
  rw [ofOffset, ofOffset, List.take_add]
  exact advance_le_append _ _ _

/-- Behind a character that ends no line the location is a later one. -/
theorem ofOffset_lt {text a b : List Char} {c : Char} (ht : text = a ++ c :: b)
    (hc : Token.isNewline c = false) {i j : Nat} (hi : i ≤ a.length) (hj : a.length < j) :
    ofOffset text i < ofOffset text j := by
  refine lt_of_le_of_lt (ofOffset_mono text hi) (lt_of_lt_of_le ?_ (ofOffset_mono text hj))
  have hn : c ≠ '\n' := by rintro rfl; cases hc
  subst ht
  have h₁ : (a ++ c :: b).take a.length = a := List.take_left
  have h₂ : (a ++ c :: b).take (a.length + 1) = a ++ [c] := by
    simp [List.take_append, List.take_of_length_le]
  rw [ofOffset, ofOffset, h₁, Nat.succ_eq_add_one, h₂,
    advance_append _ (by simpa using hn), advance_cons (by simp), if_neg (by simp [hc])]
  exact lt_column _ _

end Location

/-! ### Sorted errors -/

namespace SyntaxError

/-- The place that an error points at. -/
def location (e : SyntaxError) : Location := ⟨e.line, e.column⟩

/-- The errors come at the same place behind the same number of rules. -/
def samePlace (a b : SyntaxError) : Bool := a.ruleIndex = b.ruleIndex && a.location = b.location

/-- Errors are ordered by the rules in front of them, then by their locations. -/
theorem before_iff {a b : SyntaxError} : a.before b = true ↔
    a.ruleIndex < b.ruleIndex ∨ a.ruleIndex = b.ruleIndex ∧ a.location ≤ b.location := by
  simp only [before, Location.le_def, location, Bool.or_eq_true, Bool.and_eq_true,
    decide_eq_true_eq]

/-- Errors of one place have the same rules in front of them and the same location. -/
theorem samePlace_iff {a b : SyntaxError} : a.samePlace b = true ↔
    a.ruleIndex = b.ruleIndex ∧ a.location = b.location := by
  rw [samePlace, Bool.and_eq_true, decide_eq_true_eq, decide_eq_true_eq]

theorem before_trans (a b c : SyntaxError) (h : a.before b = true) (h' : b.before c = true) :
    a.before c = true := by
  simp only [before_iff, Location.le_def] at *
  omega

theorem before_total (a b : SyntaxError) : (a.before b || b.before a) = true := by
  simp only [Bool.or_eq_true, before_iff, Location.le_def]
  omega

/-- Errors that come before each other are at the same place. -/
theorem samePlace_of_before {a b : SyntaxError} (h : a.before b = true) (h' : b.before a = true) :
    a.samePlace b = true := by
  simp only [before_iff, samePlace_iff, Location.le_def, location, Location.mk.injEq] at *
  omega

/-- Errors at the same place come before each other. -/
theorem before_of_samePlace {a b c : SyntaxError} (h : a.samePlace b = true)
    (h' : a.samePlace c = true) : b.before c = true := by
  rw [samePlace_iff] at h h'
  rw [before_iff, ← h.1, ← h.2, ← h'.1, ← h'.2]
  exact .inr ⟨rfl, Location.le_refl _⟩

theorem samePlace_refl (a : SyntaxError) : a.samePlace a = true := samePlace_iff.2 ⟨rfl, rfl⟩

/-- Two lists with the same errors at every place, in the same order. -/
def Rearranged (es ds : List SyntaxError) : Prop :=
  ∀ a : SyntaxError, es.filter a.samePlace = ds.filter a.samePlace

section Rearranged

variable {es es' ds ds' : List SyntaxError}

theorem Rearranged.refl (es : List SyntaxError) : Rearranged es es := fun _ => rfl

theorem Rearranged.symm (h : Rearranged es ds) : Rearranged ds es := fun a => (h a).symm

theorem Rearranged.trans (h : Rearranged es ds) (h' : Rearranged ds ds') : Rearranged es ds' :=
  fun a => (h a).trans (h' a)

theorem Rearranged.append (h : Rearranged es ds) (h' : Rearranged es' ds') :
    Rearranged (es ++ es') (ds ++ ds') := by
  intro a
  rw [List.filter_append, List.filter_append, h a, h' a]

/-- Errors of different places change places. -/
theorem Rearranged.swap (h : ∀ e ∈ es, ∀ d ∈ ds, e.samePlace d = false) :
    Rearranged (es ++ ds) (ds ++ es) := by
  intro a
  rw [List.filter_append, List.filter_append]
  by_cases ha : es.filter a.samePlace = []
  · rw [ha, List.nil_append, List.append_nil]
  · obtain ⟨e, he⟩ := List.exists_mem_of_ne_nil _ ha
    rw [List.mem_filter, samePlace_iff] at he
    have hd : ds.filter a.samePlace = [] := by
      refine List.filter_eq_nil_iff.2 fun d hd had => ?_
      have := h e he.1 d hd
      rw [samePlace_iff] at had
      rw [Bool.eq_false_iff, ne_eq, samePlace_iff] at this
      exact this ⟨he.2.1.symm.trans had.1, he.2.2.symm.trans had.2⟩
    rw [hd, List.nil_append, List.append_nil]

/-- Sorted lists are the same when they are rearrangements of each other. -/
theorem Rearranged.eq (hr : Rearranged es ds) (he : es.Pairwise fun a b => a.before b = true)
    (hd : ds.Pairwise fun a b => a.before b = true) : es = ds := by
  induction es generalizing ds with
  | nil =>
      cases ds with
      | nil => rfl
      | cons d ds =>
          have := hr d
          rw [List.filter_cons_of_pos (samePlace_refl d)] at this
          cases this
  | cons e es ih =>
      cases ds with
      | nil =>
          have := hr e
          rw [List.filter_cons_of_pos (samePlace_refl e)] at this
          cases this
      | cons d ds =>
          -- each list has an error at the place where the other one begins
          have first : ∀ {a b : SyntaxError} {as bs : List SyntaxError},
              Rearranged (a :: as) (b :: bs) →
              (b :: bs).Pairwise (fun a b => a.before b = true) → b.before a = true := by
            intro a b as bs h hb
            have hm : a ∈ (b :: bs).filter a.samePlace := by
              rw [← h a, List.filter_cons_of_pos (samePlace_refl a)]
              exact List.mem_cons_self
            rcases List.mem_cons.1 (List.mem_filter.1 hm).1 with rfl | hm
            · exact before_of_samePlace (samePlace_refl a) (samePlace_refl a)
            · exact (List.pairwise_cons.1 hb).1 a hm
          have hplace := samePlace_of_before (first hr.symm he) (first hr hd)
          have hfirst := hr e
          rw [List.filter_cons_of_pos (samePlace_refl e), List.filter_cons_of_pos hplace] at hfirst
          obtain rfl := (List.cons.inj hfirst).1
          refine congrArg _ (ih (fun a => ?_) (List.pairwise_cons.1 he).2 (List.pairwise_cons.1 hd).2)
          have := hr a
          by_cases ha : a.samePlace e = true
          · rw [List.filter_cons_of_pos ha, List.filter_cons_of_pos ha] at this
            exact (List.cons.inj this).2
          · rwa [List.filter_cons_of_neg ha, List.filter_cons_of_neg ha] at this

end Rearranged

/-- Sorting keeps errors of one place in their order. -/
theorem filter_mergeSort (es : List SyntaxError) : Rearranged (es.mergeSort before) es := by
  intro a
  have hsub : (es.filter a.samePlace).Sublist (es.mergeSort before) := by
    refine List.sublist_mergeSort before_trans before_total ?_ List.filter_sublist
    refine List.pairwise_of_forall_mem_list fun b hb c hc => ?_
    exact before_of_samePlace (List.mem_filter.1 hb).2 (List.mem_filter.1 hc).2
  have := hsub.filter a.samePlace
  simp only [List.filter_filter, Bool.and_self] at this
  exact (this.eq_of_length ((List.mergeSort_perm es before).filter _).length_eq.symm).symm

/-- A rearrangement of a sorted list is sorted into this list. -/
theorem mergeSort_eq {es ds : List SyntaxError} (h : Rearranged es ds)
    (hd : ds.Pairwise fun a b => a.before b = true) : es.mergeSort before = ds :=
  ((filter_mergeSort es).trans h).eq (List.pairwise_mergeSort before_trans before_total es) hd

end SyntaxError

end CssPrune
