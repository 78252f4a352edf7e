import CssPrune.NameSet

/-!
# Dependencies

The classes and ids that a selector or a list of selectors mentions.  An empty dependency says that
no class and no id was found; what that means for a rule is decided elsewhere.
-/

namespace CssPrune

/-- The names that a document is asked for. -/
structure Dependency where
  classes : NameSet
  ids : NameSet
deriving DecidableEq

namespace Dependency

def empty : Dependency := ⟨∅, ∅⟩

def addClass (d : Dependency) (name : String) : Dependency :=
  { d with classes := d.classes.insert name }

def addId (d : Dependency) (name : String) : Dependency := { d with ids := d.ids.insert name }

def union (d e : Dependency) : Dependency := ⟨d.classes.union e.classes, d.ids.union e.ids⟩

def isEmpty (d : Dependency) : Bool := d.classes.isEmpty && d.ids.isEmpty

/-- Adds a name under its mark: a point for a class, a number sign for an id.  Names under other
marks are left out. -/
def add (d : Dependency) (hook : Char × String) : Dependency :=
  if hook.1 = '.' then d.addClass hook.2
  else if hook.1 = '#' then d.addId hook.2
  else d

/-- The names of the hooks of a selector. -/
def ofHooks (hooks : List (Char × String)) : Dependency := hooks.foldl add empty

/-- The names that any of several selectors mentions. -/
def unionAll (ds : List Dependency) : Dependency := ds.foldl union empty

/-! ### Members -/

@[simp]
theorem mem_classes_union {x : String} {d e : Dependency} :
    x ∈ (d.union e).classes ↔ x ∈ e.classes ∨ x ∈ d.classes := NameSet.mem_union

@[simp]
theorem mem_ids_union {x : String} {d e : Dependency} :
    x ∈ (d.union e).ids ↔ x ∈ e.ids ∨ x ∈ d.ids := NameSet.mem_union

/-- Only a name under a point becomes a class. -/
theorem mem_classes_add {x : String} {d : Dependency} {h : Char × String} :
    x ∈ (d.add h).classes ↔ h = ('.', x) ∨ x ∈ d.classes := by
  obtain ⟨c, y⟩ := h
  unfold add
  split
  · next hc => simp only at hc; subst hc; simp [addClass, eq_comm]
  · split
    · next hc hi => simp only at hi; subst hi; simp [addId]
    · next hc hi => simp only at hc; simp [hc]

/-- Only a name under a number sign becomes an id. -/
theorem mem_ids_add {x : String} {d : Dependency} {h : Char × String} :
    x ∈ (d.add h).ids ↔ h = ('#', x) ∨ x ∈ d.ids := by
  obtain ⟨c, y⟩ := h
  unfold add
  split
  · next hc => simp only at hc; subst hc; simp [addClass]
  · split
    · next hc hi => simp only at hi; subst hi; simp [addId, eq_comm]
    · next hc hi => simp only at hi; simp [hi]

end Dependency

end CssPrune
