import CssPrune.Proofs.Stability
import CssPrune.Proofs.Words

/-!
# Behind a fragment

A fragment that ends with a semicolon or a closing bracket of its own is read as what it is whatever
follows, so the rules that are written behind it are read back (`Stylesheet.parse_behind_fragments`,
`Stylesheet.parse_classRule`).  Whether a fragment is closed is judged by its last character instead,
which need not be such a mark: a semicolon in a selector ends nothing, and what follows becomes a part
of the selector (`Stylesheet.parse_classRule_absorbed`).
-/

namespace CssPrune

/-! ### Rules of one class -/

namespace Word

variable (n p v : Word)

/-- The rule that gives the property `p` of the class `n` the value `v`. -/
def classRule : Rule := .style ["." ++ n.name] [declaration p v]

/-- The class is a plain selector. -/
theorem plain_selector : plainSelector .sheet ("." ++ n.name) = true := by
  have htext : ("." ++ n.name).toList = '.' :: n.text := by
    rw [String.toList_append, toList_name]
    rfl
  refine plainSelector_iff.2 ⟨?_, fun h => ?_, ?_, nofun⟩
  · rw [htext]
    exact n.plainText_class false
  · rw [h] at htext
    cases htext
  · rw [htext]
    exact fun h => by cases h

/-- A word for a property and one for its value make a plain declaration. -/
theorem plain_declaration : (declaration p v).plain = true := by
  rw [Declaration.plain, declaration, toList_name, toList_name, p.plainName, Bool.true_or,
    Bool.true_and]
  exact Plain.plainText_iff.2 (v.plainText true)

/-- The rule is plain, so it is read back wherever it stands. -/
theorem plain_classRule : Rule.plainAll .sheet [n.classRule p v] = true := by
  rw [Rule.plainAll, Rule.plainAll, Bool.and_true, classRule, Rule.plain, plainSelectors,
    n.plain_selector, List.all_cons, plain_declaration]
  rfl

end Word

namespace Stylesheet

/-! ### Fragments that end themselves -/

/-- **Main theorem.** Settled rules behind fragments that end themselves are read back, and so are
the fragments. -/
theorem parse_behind_fragments {sep : String} (hsep : sep.toList.all Token.isSpace = true)
    {l : Layout} {fs : List String} {rs : List Rule} (hf : ∀ f ∈ fs, IsFragment f)
    (he : fs.all Filter.endsItself = true) (hn : Rule.NormalAll .sheet rs)
    (hs : Rule.settledAll l .sheet rs = true) (hc : rs.head?.any Rule.isCharset = false) :
    (parse (sep.intercalate (fs ++ rs.map (Rule.print l)))).rules = rs ∧
      Candidate.fragments (parse (sep.intercalate (fs ++ rs.map (Rule.print l)))).errors = fs := by
  have hrules : Pieces (rs.map (Rule.print l)) (rs.map Reading.ofRule) := by
    have := Pieces.rules_append hn hs .nil
    rwa [List.append_nil, List.append_nil] at this
  have hcomes := (hrules.fragments_append hf he).comes_intercalate hsep
  have hcharset : (fs.map Reading.ofFragment ++ rs.map Reading.ofRule).head?.any
      Reading.isCharset = false := by
    cases fs with
    | nil => cases rs <;> exact hc
    | cons f fs => rfl
  obtain ⟨ss, hcons, has⟩ := hcomes.consists hcharset
  rw [hcons.rules_of_readings has, hcons.fragments_of_readings has]
  rw [List.filterMap_append, rules_ofFragment, rules_ofRule, List.flatMap_append, lost_ofRule,
    List.append_nil, lost_ofFragment hf]
  exact ⟨rfl, rfl⟩

/-- A class rule behind a fragment of a sheet that ends itself is the only rule that is read. -/
theorem parse_classRule (css f : String)
    (hf : f ∈ Candidate.fragments (parse css).errors) (he : Filter.endsItself f = true)
    (n p v : Word) :
    (parse (f ++ Rule.print .compressed (n.classRule p v))).rules = [n.classRule p v] := by
  obtain ⟨hn, hs⟩ := Rule.normal_settled_of_plainAll .compressed .sheet _ (n.plain_classRule p v)
  have hfragment : ∀ g ∈ [f], IsFragment g := fun g hg =>
    List.mem_singleton.1 hg ▸ isFragment_of_mem hf
  have hall : [f].all Filter.endsItself = true := by rw [List.all_cons, he]; rfl
  have htext : f ++ Rule.print .compressed (n.classRule p v) =
      "".intercalate ([f] ++ [n.classRule p v].map (Rule.print .compressed)) := by
    rw [← String.toList_inj, List.singleton_append, toList_intercalate_cons]
    simp
  rw [htext]
  exact (parse_behind_fragments rfl hfragment hall hn hs rfl).1

/-- A block without a selector is a fragment that ends itself. -/
theorem parse_classRule_block :
    "\x7bb:c\x7d" ∈ Candidate.fragments (parse "@media a\x7b\x7bb:c\x7d.d\x7d").errors ∧
    Filter.endsItself "\x7bb:c\x7d" = true ∧
    ∀ n p v : Word, (parse ("\x7bb:c\x7d" ++ Rule.print .compressed (n.classRule p v))).rules =
      [n.classRule p v] := by
  have hparse := parse_of_sorted "@media a\x7b\x7bb:c\x7d.d\x7d" (by decide +kernel)
  have hmem : "\x7bb:c\x7d" ∈
      Candidate.fragments (parse "@media a\x7b\x7bb:c\x7d.d\x7d").errors := by
    rw [hparse]
    decide +kernel
  have hends : Filter.endsItself "\x7bb:c\x7d" = true := by decide +kernel
  exact ⟨hmem, hends, parse_classRule _ _ hmem hends⟩

/-- The semicolon of the fragment `.x;` ends nothing, so a rule behind it becomes the rule of
`.x;.n`. -/
theorem parse_classRule_absorbed :
    ¬∀ css f : String, f ∈ Candidate.fragments (parse css).errors →
      Candidate.isClosed f.toList = true → ∀ n p v : Word,
        (parse (f ++ Rule.print .compressed (n.classRule p v))).rules.getLast? =
          some (n.classRule p v) := by
  intro h
  have hmem : ".x;" ∈ Candidate.fragments (parse ".x;").errors := by
    rw [parse_of_sorted ".x;" (by decide +kernel)]
    decide +kernel
  have hlast := h ".x;" ".x;" hmem (by decide +kernel) ⟨['n'], nofun, rfl⟩ ⟨['p'], nofun, rfl⟩
    ⟨['v'], nofun, rfl⟩
  revert hlast
  decide +kernel

end Stylesheet

end CssPrune
