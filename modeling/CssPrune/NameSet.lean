import CssPrune.Text.Blank

/-!
# Sets of names

A set of names is the strictly increasing list of its members, so no name stands in it twice.  Names
are ordered by their code points.
-/

namespace CssPrune

/-- Names in increasing order. -/
structure NameSet where
  toList : List String
  sorted : toList.Pairwise (· < ·)
deriving DecidableEq

namespace NameSet

instance : Membership String NameSet := ⟨fun s x => x ∈ s.toList⟩

instance (x : String) (s : NameSet) : Decidable (x ∈ s) :=
  inferInstanceAs (Decidable (x ∈ s.toList))

def contains (s : NameSet) (x : String) : Bool := decide (x ∈ s)

def empty : NameSet := ⟨[], .nil⟩

instance : EmptyCollection NameSet := ⟨empty⟩

def isEmpty (s : NameSet) : Bool := s.toList.isEmpty

def size (s : NameSet) : Nat := s.toList.length

/-! ### Insertion -/

/-- Puts a name in its place, unless it is there. -/
def insertSorted (x : String) : List String → List String
  | [] => [x]
  | y :: ys => if x < y then x :: y :: ys else if x = y then y :: ys else y :: insertSorted x ys

/-- Nothing but the name is added, and no other name is lost. -/
theorem mem_insertSorted {x z : String} {ys : List String} :
    z ∈ insertSorted x ys ↔ z = x ∨ z ∈ ys := by
  induction ys with
  | nil => simp [insertSorted]
  | cons y ys ih =>
    unfold insertSorted
    split
    · simp
    · split
      · next h => subst h; simp
      · simp only [List.mem_cons, ih]; grind

/-- The order is kept, and with it that no name stands twice. -/
theorem sorted_insertSorted {x : String} {ys : List String} (h : ys.Pairwise (· < ·)) :
    (insertSorted x ys).Pairwise (· < ·) := by
  induction ys with
  | nil => simp [insertSorted]
  | cons y ys ih =>
    have hy := List.pairwise_cons.1 h
    unfold insertSorted
    split
    · next hxy =>
      refine List.pairwise_cons.2 ⟨fun z hz => ?_, h⟩
      rcases List.mem_cons.1 hz with rfl | hz
      · exact hxy
      · exact String.lt_trans hxy (hy.1 z hz)
    · split
      · exact h
      · next hxy hne =>
        refine List.pairwise_cons.2 ⟨fun z hz => ?_, ih hy.2⟩
        rcases mem_insertSorted.1 hz with rfl | hz
        · have hle : y ≤ z := String.not_lt.1 hxy
          exact Decidable.byContradiction fun hn =>
            hne (String.le_antisymm (String.not_lt.1 hn) hle)
        · exact hy.1 z hz

/-- The set with one more name. -/
def insert (s : NameSet) (x : String) : NameSet :=
  ⟨insertSorted x s.toList, sorted_insertSorted s.sorted⟩

@[simp]
theorem mem_insert {x z : String} {s : NameSet} : z ∈ s.insert x ↔ z = x ∨ z ∈ s :=
  mem_insertSorted

/-- The set with the names of a list. -/
def insertAll (s : NameSet) (xs : List String) : NameSet := xs.foldl insert s

/-- The members of a set with the names of a list. -/
@[simp]
theorem mem_insertAll {z : String} {s : NameSet} {xs : List String} :
    z ∈ s.insertAll xs ↔ z ∈ xs ∨ z ∈ s := by
  induction xs generalizing s with
  | nil => simp [insertAll]
  | cons x xs ih =>
    have : s.insertAll (x :: xs) = (s.insert x).insertAll xs := rfl
    rw [this, ih, mem_insert]; simp only [List.mem_cons]; grind

def ofList (xs : List String) : NameSet := empty.insertAll xs

def union (s t : NameSet) : NameSet := s.insertAll t.toList

@[simp]
theorem mem_union {z : String} {s t : NameSet} : z ∈ s.union t ↔ z ∈ t ∨ z ∈ s := mem_insertAll

/-- Adds the words of a text. -/
def insertWords (s : NameSet) (text : List Char) : NameSet :=
  s.insertAll ((Text.words text).map String.ofList)

end NameSet

end CssPrune
