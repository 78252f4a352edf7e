import CssPrune.NameSet
import Mathlib.Data.List.Infix

/-!
# Elements that a selector matches

A document is a tree of elements; a `Spot` is one of them with the siblings before it and the
elements above it.  A complex selector is built from left to right out of type tests, simple
selectors and combinators, and `Chain.selects` says whether it matches at a spot, the argument
free pseudo-classes holding where they will.

A class or an id outside of all negations is a *mention*; a selector that `demands` one cannot match
in a document without one of its mentions (`Chain.mentioned`).
-/

namespace CssPrune

/-! ### Documents -/

/-- What selectors can see of an element. -/
structure Element where
  tag : String
  id : Option String
  classes : List String
  attributes : List (String × String)

namespace Element

/-- The names of an element, a class under a point and an id under a number sign. -/
def Has (e : Element) (hook : Char × String) : Prop :=
  (hook.1 = '.' ∧ hook.2 ∈ e.classes) ∨ (hook.1 = '#' ∧ e.id = some hook.2)

end Element

/-- An element with its children. -/
inductive Tree where
  | node (element : Element) (children : List Tree)

/-- An element in its place; siblings and ancestors are listed from the nearest on, each ancestor
with the siblings before it. -/
structure Spot where
  element : Element
  before : List Element
  above : List (Element × List Element)

namespace Spot

/-- The siblings before a place, from the nearest on. -/
def beside (above : List (Element × List Element)) : List Element → List Spot
  | [] => []
  | e :: es => ⟨e, es, above⟩ :: beside above es

/-- The ancestors, from the parent on. -/
def upward : List (Element × List Element) → List Spot
  | [] => []
  | (e, es) :: above => ⟨e, es, above⟩ :: upward above

/-- The elements that a match at the spot can look at. -/
def elements (s : Spot) : List Element :=
  s.element :: (s.before ++ s.above.flatMap fun a => a.1 :: a.2)

/-- A place among siblings sees these siblings and what the elements above can see. -/
theorem elements_beside {above : List (Element × List Element)} {es : List Element} {s : Spot}
    (h : s ∈ beside above es) : s.elements ⊆ es ++ above.flatMap fun a => a.1 :: a.2 := by
  induction es with
  | nil => cases h
  | cons e es ih =>
      rcases List.mem_cons.1 h with rfl | h
      · exact List.Subset.refl _
      · exact List.subset_cons_of_subset _ (ih h)

/-- A place above an element sees no more than the elements above it and their siblings. -/
theorem elements_upward {above : List (Element × List Element)} {s : Spot}
    (h : s ∈ upward above) : s.elements ⊆ above.flatMap fun a => a.1 :: a.2 := by
  induction above with
  | nil => cases h
  | cons a above ih =>
      rcases List.mem_cons.1 h with rfl | h
      · exact List.Subset.refl _
      · exact List.Subset.trans (ih h) (List.subset_append_right _ _)

end Spot

namespace Tree

/-- The element at the root. -/
def element : Tree → Element
  | .node e _ => e

mutual

/-- Every element of a tree. -/
def elements : Tree → List Element
  | .node e ts => e :: elementsAll ts

def elementsAll : List Tree → List Element
  | [] => []
  | t :: ts => t.elements ++ elementsAll ts

end

mutual

/-- The spots of a tree that stands behind and below these elements. -/
def spotsIn (before : List Element) (above : List (Element × List Element)) : Tree → List Spot
  | .node e ts => ⟨e, before, above⟩ :: spotsAll [] ((e, before) :: above) ts

def spotsAll (before : List Element) (above : List (Element × List Element)) :
    List Tree → List Spot
  | [] => []
  | t :: ts => t.spotsIn before above ++ spotsAll (t.element :: before) above ts

end

/-- The spots of a whole document. -/
def spots (t : Tree) : List Spot := t.spotsIn [] []

/-- Every class of the tree. -/
def classes (t : Tree) : NameSet := .ofList (t.elements.flatMap Element.classes)

/-- Every id of the tree. -/
def ids (t : Tree) : NameSet := .ofList (t.elements.filterMap Element.id)

theorem element_mem (t : Tree) : t.element ∈ t.elements := by
  cases t with
  | node e ts => rw [elements]; exact List.mem_cons_self

mutual

/-- What a spot of a tree can look at is part of the tree, or stands around it. -/
theorem elements_spotsIn {s : Spot} : ∀ (t : Tree) (before : List Element)
    (above : List (Element × List Element)), s ∈ t.spotsIn before above → ∀ e ∈ s.elements,
      e ∈ t.elements ∨ e ∈ before ++ above.flatMap fun a => a.1 :: a.2
  | .node d ts, before, above, h, e, he => by
      rw [spotsIn, List.mem_cons] at h
      rw [elements, List.mem_cons]
      rcases h with rfl | h
      · rcases List.mem_cons.1 he with rfl | he
        · exact .inl (.inl rfl)
        · exact .inr he
      · rcases elements_spotsAll ts [] _ h e he with he | he
        · exact .inl (.inr he)
        · rw [List.nil_append, List.flatMap_cons, List.cons_append, List.mem_cons] at he
          rcases he with rfl | he
          · exact .inl (.inl rfl)
          · exact .inr he

theorem elements_spotsAll {s : Spot} : ∀ (ts : List Tree) (before : List Element)
    (above : List (Element × List Element)), s ∈ spotsAll before above ts → ∀ e ∈ s.elements,
      e ∈ elementsAll ts ∨ e ∈ before ++ above.flatMap fun a => a.1 :: a.2
  | [], _, _, h, _, _ => by cases h
  | t :: ts, before, above, h, e, he => by
      rw [spotsAll, List.mem_append] at h
      rw [elementsAll, List.mem_append]
      rcases h with h | h
      · exact (elements_spotsIn t before above h e he).imp_left .inl
      · rcases elements_spotsAll ts _ above h e he with he | he
        · exact .inl (.inr he)
        · rw [List.cons_append, List.mem_cons] at he
          rcases he with rfl | he
          · exact .inl (.inl t.element_mem)
          · exact .inr he

end

theorem elements_spots {t : Tree} {s : Spot} (h : s ∈ t.spots) : s.elements ⊆ t.elements := by
  intro e he
  exact (elements_spotsIn t [] [] h e he).resolve_right List.not_mem_nil

/-- The tree has the names of its elements. -/
theorem has_mem {t : Tree} {e : Element} {hook : Char × String} (he : e ∈ t.elements)
    (h : e.Has hook) : (hook.1 = '.' ∧ hook.2 ∈ t.classes) ∨ (hook.1 = '#' ∧ hook.2 ∈ t.ids) := by
  rcases h with ⟨hm, hc⟩ | ⟨hm, hi⟩
  · exact .inl ⟨hm, NameSet.mem_insertAll.2 (.inl (List.mem_flatMap.2 ⟨e, he, hc⟩))⟩
  · exact .inr ⟨hm, NameSet.mem_insertAll.2 (.inl (List.mem_filterMap.2 ⟨e, he, hi⟩))⟩

end Tree

/-! ### Selectors -/

namespace Selector

/-- A name that can be written in a selector. -/
structure Name where
  text : String
  valid : text ≠ "" ∧ '\x00' ∉ text.toList

/-- The test of an element's tag. -/
inductive TypeTest where
  /-- No type is written. -/
  | omitted
  | universal
  | tag (name : Name)

/-- How two compounds of a selector stand to each other. -/
inductive Combinator where
  | descendant
  | child
  | next
  | subsequent
deriving DecidableEq

/-- How an attribute is compared with a value. -/
inductive Comparison where
  | equals
  | includes
  | dash
  | starts
  | ends
  | contains
deriving DecidableEq

mutual

/-- A condition on an element. -/
inductive Simple where
  | hasClass (name : Name)
  | hasId (name : Name)
  | hasAttribute (name : Name) (test : Option (Comparison × String))
  | pseudo (name : Name)
  | not (alternatives : List Chain)
  | is (alternatives : List Chain)

/-- A complex selector, from left to right. -/
inductive Chain where
  | start (type : TypeTest)
  /-- One more condition on the last element. -/
  | also (left : Chain) (condition : Simple)
  /-- One more element. -/
  | join (left : Chain) (combinator : Combinator) (type : TypeTest)

end

/-! ### Matching -/

/-- The element has the tag, where one is asked for. -/
def TypeTest.selects : TypeTest → Element → Bool
  | .omitted, _ | .universal, _ => true
  | .tag n, e => e.tag = n.text

/-- The value of an attribute compared with the value that is wanted. -/
def Comparison.holds (value wanted : String) : Comparison → Bool
  | .equals => value = wanted
  | .includes => wanted.toList ∈ Text.words value.toList
  | .dash => value = wanted ∨ wanted.toList ++ ['-'] <+: value.toList
  | .starts => wanted ≠ "" ∧ wanted.toList <+: value.toList
  | .ends => wanted ≠ "" ∧ wanted.toList <:+ value.toList
  | .contains => wanted ≠ "" ∧ wanted.toList <:+: value.toList

/-- Where the element to the left of a combinator stands. -/
def Combinator.reach : Combinator → Spot → List Spot
  | .descendant, s => Spot.upward s.above
  | .child, s => (Spot.upward s.above).take 1
  | .next, s => (Spot.beside s.above s.before).take 1
  | .subsequent, s => Spot.beside s.above s.before

/-- To the left of a combinator no other elements can be seen. -/
theorem elements_reach {k : Combinator} {s s' : Spot} (h : s' ∈ k.reach s) :
    s'.elements ⊆ s.elements := by
  have hup : s' ∈ Spot.upward s.above → s'.elements ⊆ s.elements := fun h =>
    List.subset_cons_of_subset _
      (List.Subset.trans (Spot.elements_upward h) (List.subset_append_right _ _))
  have hbeside : s' ∈ Spot.beside s.above s.before → s'.elements ⊆ s.elements := fun h =>
    List.subset_cons_of_subset _ (Spot.elements_beside h)
  cases k with
  | descendant => exact hup h
  | child => exact hup (List.mem_of_mem_take h)
  | next => exact hbeside (List.mem_of_mem_take h)
  | subsequent => exact hbeside h

mutual

/-- The condition holds at the spot; `pseudo` says which pseudo-classes do. -/
def Simple.selects (pseudo : String → Spot → Bool) : Simple → Spot → Bool
  | .hasClass n, s => n.text ∈ s.element.classes
  | .hasId n, s => s.element.id = some n.text
  | .hasAttribute n test, s => s.element.attributes.any fun a =>
      a.1 = n.text && test.all fun t => t.1.holds a.2 t.2
  | .pseudo n, s => pseudo n.text s
  | .not cs, s => !Chain.selectsAny pseudo cs s
  | .is cs, s => Chain.selectsAny pseudo cs s

/-- The selector matches the element at the spot. -/
def Chain.selects (pseudo : String → Spot → Bool) : Chain → Spot → Bool
  | .start type, s => type.selects s.element
  | .also c x, s => c.selects pseudo s && x.selects pseudo s
  | .join c k type, s =>
      type.selects s.element && (k.reach s).any fun s' => c.selects pseudo s'

def Chain.selectsAny (pseudo : String → Spot → Bool) : List Chain → Spot → Bool
  | [], _ => false
  | c :: cs, s => c.selects pseudo s || Chain.selectsAny pseudo cs s

end

/-! ### Mentions -/

mutual

/-- The classes and ids outside of all negations. -/
def Simple.mentions : Simple → List (Char × String)
  | .hasClass n => [('.', n.text)]
  | .hasId n => [('#', n.text)]
  | .is cs => Chain.mentionsAny cs
  | .hasAttribute .. | .pseudo _ | .not _ => []

/-- The classes and ids of the last compound, outside of all negations. -/
def Chain.mentions : Chain → List (Char × String)
  | .start _ => []
  | .also c x => c.mentions ++ x.mentions
  | .join c _ _ => c.mentions

def Chain.mentionsAny : List Chain → List (Char × String)
  | [] => []
  | c :: cs => c.mentions ++ Chain.mentionsAny cs

end

mutual

/-- Whatever matches has one of the mentions, or matched through an element that has one. -/
def Simple.demands : Simple → Bool
  | .hasClass _ | .hasId _ => true
  | .is cs => Chain.demandAll cs
  | .hasAttribute .. | .pseudo _ | .not _ => false

/-- A class or an id is asked for in the last compound. -/
def Chain.demands : Chain → Bool
  | .start _ => false
  | .also c x => c.demands || x.demands
  | .join c _ _ => c.demands

def Chain.demandAll : List Chain → Bool
  | [] => true
  | c :: cs => c.demands && Chain.demandAll cs

end

section Mentioned

variable {pseudo : String → Spot → Bool}

mutual

/-- Where a condition holds that demands a mention, an element in sight has one. -/
theorem Simple.mentioned : ∀ (x : Simple) (s : Spot), x.demands = true →
    x.selects pseudo s = true → ∃ hook ∈ x.mentions, ∃ e ∈ s.elements, e.Has hook
  | .hasClass n, s, _, h =>
      ⟨_, List.mem_singleton_self _, _, List.mem_cons_self, .inl ⟨rfl, of_decide_eq_true h⟩⟩
  | .hasId n, s, _, h =>
      ⟨_, List.mem_singleton_self _, _, List.mem_cons_self, .inr ⟨rfl, of_decide_eq_true h⟩⟩
  | .is cs, s, hd, h => by
      rw [Simple.demands] at hd
      rw [Simple.selects] at h
      rw [Simple.mentions]
      exact Chain.mentionedAny cs s hd h
  | .hasAttribute n t, _, hd, _ => by rw [Simple.demands] at hd; cases hd
  | .pseudo n, _, hd, _ => by rw [Simple.demands] at hd; cases hd
  | .not cs, _, hd, _ => by rw [Simple.demands] at hd; cases hd

/-- A match of a demanding selector rests on an element with one of its mentions. -/
theorem Chain.mentioned : ∀ (c : Chain) (s : Spot), c.demands = true →
    c.selects pseudo s = true → ∃ hook ∈ c.mentions, ∃ e ∈ s.elements, e.Has hook
  | .start type, _, hd, _ => by rw [Chain.demands] at hd; cases hd
  | .also c x, s, hd, h => by
      rw [Chain.demands, Bool.or_eq_true] at hd
      rw [Chain.selects, Bool.and_eq_true] at h
      rw [Chain.mentions]
      rcases hd with hd | hd
      · obtain ⟨hook, hh, he⟩ := Chain.mentioned c s hd h.1
        exact ⟨hook, List.mem_append_left _ hh, he⟩
      · obtain ⟨hook, hh, he⟩ := Simple.mentioned x s hd h.2
        exact ⟨hook, List.mem_append_right _ hh, he⟩
  | .join c k type, s, hd, h => by
      rw [Chain.demands] at hd
      rw [Chain.selects, Bool.and_eq_true] at h
      obtain ⟨s', hs', h'⟩ := List.any_eq_true.1 h.2
      obtain ⟨hook, hh, e, he, hhas⟩ := Chain.mentioned c s' hd h'
      rw [Chain.mentions]
      exact ⟨hook, hh, e, elements_reach hs' he, hhas⟩

/-- Alternatives that all demand a mention have one that is met by an element. -/
theorem Chain.mentionedAny : ∀ (cs : List Chain) (s : Spot), Chain.demandAll cs = true →
    Chain.selectsAny pseudo cs s = true →
      ∃ hook ∈ Chain.mentionsAny cs, ∃ e ∈ s.elements, e.Has hook
  | [], _, _, h => by rw [Chain.selectsAny] at h; cases h
  | c :: cs, s, hd, h => by
      rw [Chain.demandAll, Bool.and_eq_true] at hd
      rw [Chain.selectsAny, Bool.or_eq_true] at h
      rw [Chain.mentionsAny]
      rcases h with h | h
      · obtain ⟨hook, hh, he⟩ := Chain.mentioned c s hd.1 h
        exact ⟨hook, List.mem_append_left _ hh, he⟩
      · obtain ⟨hook, hh, he⟩ := Chain.mentionedAny cs s hd.2 h
        exact ⟨hook, List.mem_append_right _ hh, he⟩

end

/-- The condition stands in the selector outside of all groups. -/
inductive Chain.Requires (x : Simple) : Chain → Prop where
  | last {c : Chain} : Chain.Requires x (.also c x)
  | also {c : Chain} (y : Simple) : c.Requires x → Chain.Requires x (.also c y)
  | join {c : Chain} (k : Combinator) (type : TypeTest) :
      c.Requires x → Chain.Requires x (.join c k type)

/-- A match rests on every required condition. -/
theorem Chain.Requires.selects {x : Simple} {c : Chain} (h : c.Requires x) {s : Spot}
    (hs : c.selects pseudo s = true) :
    ∃ s', s'.elements ⊆ s.elements ∧ x.selects pseudo s' = true := by
  induction h generalizing s with
  | last =>
      rw [Chain.selects, Bool.and_eq_true] at hs
      exact ⟨s, List.Subset.refl _, hs.2⟩
  | also y _ ih =>
      rw [Chain.selects, Bool.and_eq_true] at hs
      exact ih hs.1
  | join k type _ ih =>
      rw [Chain.selects, Bool.and_eq_true] at hs
      obtain ⟨s', hs', h'⟩ := List.any_eq_true.1 hs.2
      obtain ⟨s'', hsub, hx⟩ := ih h'
      exact ⟨s'', List.Subset.trans hsub (elements_reach hs'), hx⟩

end Mentioned

end Selector

end CssPrune
