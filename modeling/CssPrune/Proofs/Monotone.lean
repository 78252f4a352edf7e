import CssPrune.Proofs.Layouts

/-!
# More names keep more candidates

A document that mentions more names, and options that let more count, keep all that was kept before:
a name that is met stays met (`Dependency.Met.in_document`), a rule that is kept unconditionally stays so
(`Candidate.Unconditional.of_options`), and so a candidate that is kept has one in its place that is kept
(`Filter.keeps_ofRule`).

`Filter.positions_mono` says this of whole filters, candidate by candidate.
-/

namespace CssPrune

/-- A dependency that is met by a document is met by one with more names. -/
theorem Dependency.Met.in_document {d : Dependency} {classes classes' : NameSet}
    {ids ids' : Option NameSet} (h : d.Met classes ids) (hclasses : ∀ x ∈ classes, x ∈ classes')
    (hids : ∀ I ∈ ids, ∃ I' ∈ ids', ∀ x ∈ I, x ∈ I') : d.Met classes' ids' := by
  rcases h with ⟨x, hx, hc⟩ | ⟨I, hI, x, hx, hi⟩
  · exact .inl ⟨x, hx, hclasses x hc⟩
  · obtain ⟨I', hI', hsub⟩ := hids I hI
    exact .inr ⟨I', hI', x, hx, hsub x hi⟩

/-- A rule kept unconditionally stays so, if options keep no less of what has no anchor. -/
theorem Candidate.Unconditional.of_options {o o' : Options} {r : Rule} (h : Unconditional o r)
    (hkeep : o.keepUnanchoredRules = true → o'.keepUnanchoredRules = true) : Unconditional o' r := by
  rcases h with h | ⟨ho, h⟩
  · exact .inl h
  · exact .inr ⟨hkeep ho, h⟩

namespace Filter

/-- The places of the candidates that a document keeps, in the list of all candidates. -/
def positions (f : Filter) (document : String) : List Nat :=
  f.candidates.findIdxs (f.keeps document)

/-- What is kept at its place is kept at this place in the other list. -/
theorem findIdxs_subset {cs ds : List Candidate} {p q : Candidate → Bool}
    (h : List.Forall₂ (fun c d => p c = true → q d = true) cs ds) :
    cs.findIdxs p ⊆ ds.findIdxs q := by
  intro i hi
  obtain ⟨hc, hp⟩ := List.mem_findIdxs_iff_exists_getElem_pos.1 hi
  have hd : i < ds.length := h.length_eq ▸ hc
  exact List.mem_findIdxs_iff_exists_getElem_pos.2 ⟨hd, h.get hc hd hp⟩

section Monotone

variable {o o' : Options} {d d' : String}

/-- The ids that count, if any do. -/
theorem exists_ids (hids : o.matchIds = true → o'.matchIds = true)
    (hd : ∀ x ∈ Markup.ids d, x ∈ Markup.ids d') :
    ∀ I ∈ (if o.matchIds then some (Markup.ids d) else none),
      ∃ I' ∈ (if o'.matchIds then some (Markup.ids d') else none), ∀ x ∈ I, x ∈ I' := by
  intro I hI
  obtain ⟨ho, hI⟩ := Option.ite_none_right_eq_some.1 hI
  cases hI
  exact ⟨_, if_pos (hids ho), hd⟩

/-- The candidate of a rule is kept under more lenient options when it is kept under stricter ones. -/
theorem keeps_ofRule (print : Layout → Rule → String) {f g : Filter} {r : Rule}
    (hids : f.options.matchIds = true → g.options.matchIds = true)
    (hkeep : f.options.keepUnanchoredRules = true → g.options.keepUnanchoredRules = true)
    (hclasses : ∀ x ∈ Markup.classes d, x ∈ Markup.classes d')
    (hnames : ∀ x ∈ Markup.ids d, x ∈ Markup.ids d')
    (h : f.keeps d (.ofRule print f.options r) = true) :
    g.keeps d' (.ofRule print g.options r) = true := by
  rw [keeps, Candidate.isRetainedBy_ofRule] at h ⊢
  rcases h with h | h
  · exact .inl (h.of_options hkeep)
  · exact .inr (h.in_document hclasses (exists_ids hids hnames))

/-- **Retention is monotone.**  Take two filters over one sheet, of one layout, where the options of the
second let ids count, or keep rules without names, whenever those of the first one do; and two documents
such that the second mentions all classes and ids of the first.  The candidates have the same texts, one
by one, and where the first filter keeps one for the first document, the second keeps the one at that
place for the second document. -/
theorem positions_mono (b : Backend) (css : String) {sheet : Stylesheet}
    (hparse : b.parse css = some sheet) (hlayout : o.compress = o'.compress)
    (hids : o.matchIds = true → o'.matchIds = true)
    (hkeep : o.keepUnanchoredRules = true → o'.keepUnanchoredRules = true)
    (hclasses : ∀ x ∈ Markup.classes d, x ∈ Markup.classes d')
    (hnames : ∀ x ∈ Markup.ids d, x ∈ Markup.ids d') :
    ∃ f g, withBackend b o css = .ok f ∧ withBackend b o' css = .ok g ∧
      f.candidates.map Candidate.css = g.candidates.map Candidate.css ∧
      f.positions d ⊆ g.positions d' := by
  refine ⟨ofSheet b.print o sheet, ofSheet b.print o' sheet, withBackend_of_parse _ o hparse,
    withBackend_of_parse _ o' hparse, ?_, findIdxs_subset (List.rel_append ?_ ?_)⟩
  · have hcss : ∀ r, (Candidate.ofRule b.print o r).css = (Candidate.ofRule b.print o' r).css := by
      intro r
      rw [css_ofRule, css_ofRule, Options.layout, Options.layout, hlayout]
    simp only [ofSheet, Candidate.ofSheet, List.map_append, List.map_map]
    exact congrArg (· ++ _) (List.map_congr_left fun r _ => hcss r)
  · rw [List.forall₂_map_left_iff, List.forall₂_map_right_iff]
    exact List.forall₂_same.2 fun r _ => keeps_ofRule (f := ofSheet b.print o sheet)
      (g := ofSheet b.print o' sheet) b.print hids hkeep hclasses hnames
  -- fragments are kept always
  · rw [List.forall₂_map_left_iff, List.forall₂_map_right_iff]
    exact List.forall₂_same.2 fun s _ _ => rfl

end Monotone

/-- A filter without ids and unanchored rules beside one with both. -/
theorem positions_mono_named :
    ∃ f g, withBackend ⟨fun _ => some ⟨[.style ["p"] [], .style [".a", "q"] [],
          .group "media" "print" [.style ["#x"] []]], [⟨"", some ".y", 1, 1, 0⟩], []⟩, Rule.print⟩
        ⟨true, false, false⟩ "" = .ok f ∧
      withBackend ⟨fun _ => some ⟨[.style ["p"] [], .style [".a", "q"] [],
          .group "media" "print" [.style ["#x"] []]], [⟨"", some ".y", 1, 1, 0⟩], []⟩, Rule.print⟩
        ⟨true, true, true⟩ "" = .ok g ∧
      f.candidates.map Candidate.css = g.candidates.map Candidate.css ∧
      f.positions "<p class=a>" ⊆ g.positions "<q id=x class='b a'>" ∧
      f.positions "<p class=a>" = [1, 3] ∧ g.positions "<q id=x class='b a'>" = [0, 1, 2, 3] := by
  have hclasses : ∀ x ∈ (Markup.classes "<p class=a>").toList,
      x ∈ (Markup.classes "<q id=x class='b a'>").toList := by decide +kernel
  have hnames : ∀ x ∈ (Markup.ids "<p class=a>").toList,
      x ∈ (Markup.ids "<q id=x class='b a'>").toList := by decide +kernel
  obtain ⟨f, g, hf, hg, hcss, hpos⟩ := @positions_mono ⟨true, false, false⟩ ⟨true, true, true⟩ _ _
    ⟨fun _ => some _, Rule.print⟩ "" _ rfl rfl (fun _ => rfl) (fun _ => rfl) hclasses hnames
  refine ⟨f, g, hf, hg, hcss, hpos, ?_, ?_⟩
  · cases hf
    decide +kernel
  · cases hg
    decide +kernel

end Filter

end CssPrune
