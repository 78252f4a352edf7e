import CssPrune.Filter
import CssPrune.Proofs.Json
import Mathlib.Data.List.Nodup
import Mathlib.Data.Set.List

/-!
# Texts of options

Options are read from the JSON objects whose keys are names of fields, none twice, and whose values
are `true` or `false`; in which order the keys stand makes no difference.  No other text is read but
lists of such values, which stand for the fields in their order (`Options.parse_eq_ok_iff`).
-/

namespace CssPrune

open Json

namespace Options

/-! ### Marks between values -/

/-- A colon is read behind blanks. -/
theorem readColon_eq_ok_iff {cs rest : List Char} :
    readColon cs = .ok rest ↔ ∃ s, Blanks s ∧ cs = s ++ ':' :: rest := by
  rw [← skipSpace_eq_cons_iff rfl, readColon]
  split
  · next h => rw [h]; exact iff_of_false failBefore_ne_ok (List.cons_ne_nil _ _).symm
  · next h =>
      rw [h]
      exact ⟨fun e => congrArg _ (Except.ok.inj e), fun e => congrArg _ (List.cons.inj e).2⟩
  · next _ h => exact iff_of_false failIn_ne_ok (h _)

/-- The bracket that closes a list is read behind blanks. -/
theorem readListEnd_eq_ok_iff {cs rest : List Char} :
    readListEnd cs = .ok rest ↔ ∃ s, Blanks s ∧ cs = s ++ ']' :: rest := by
  rw [← skipSpace_eq_cons_iff rfl, readListEnd]
  split
  · next h => rw [h]; exact iff_of_false failBefore_ne_ok (List.cons_ne_nil _ _).symm
  · next h =>
      rw [h]
      exact ⟨fun e => congrArg _ (Except.ok.inj e), fun e => congrArg _ (List.cons.inj e).2⟩
  · next h =>
      rw [h]
      refine iff_of_false ?_ (by simp)
      split <;> exact failIn_ne_ok
  · next _ h _ => exact iff_of_false failIn_ne_ok (h _)

/-- The items of an object end in front of its bracket. -/
theorem nextKey_eq_none_iff {first : Bool} {cs : List Char} :
    nextKey first cs = .ok none ↔ ∃ rest, skipSpace cs = '\x7d' :: rest := by
  rw [nextKey]
  split
  · next h => rw [h]; exact iff_of_false failBefore_ne_ok (by simp)
  next c cs' h =>
  rw [h]
  split
  · next hc => exact iff_of_true rfl ⟨cs', by rw [hc]⟩
  next hc =>
  refine iff_of_false (fun e => ?_) (by simp [hc])
  split at e
  · split at e <;> cases e
  · split at e
    · split at e <;> cases e
    · cases e

/-- A key begins with a quote, behind the comma that only the first key goes without. -/
theorem nextKey_eq_some_iff {first : Bool} {cs rest : List Char} :
    nextKey first cs = .ok (some rest) ↔ ∃ s, Lead first s ∧ cs = s ++ '"' :: rest := by
  cases first with
  | true =>
      rw [lead_first rfl, nextKey]
      split
      · next h => rw [h]; exact iff_of_false failBefore_ne_ok (List.cons_ne_nil _ _).symm
      next c cs' h =>
      rw [h]
      split
      · next hc => exact iff_of_false (by simp) (by simp [hc])
      rw [if_pos rfl]
      split
      · next hc => rw [hc]; simp
      · next hc => exact iff_of_false failIn_ne_ok (by simp [hc])
  | false =>
      rw [lead_next rfl, nextKey]
      split
      · next h => rw [h]; exact iff_of_false failBefore_ne_ok (by simp)
      next c cs' h =>
      rw [h]
      split
      · next hc => exact iff_of_false (by simp) (by simp [hc])
      rw [if_neg Bool.false_ne_true]
      split
      · next hc =>
          have hnext : (∃ cs'', c :: cs' = ',' :: cs'' ∧ skipSpace cs'' = '"' :: rest) ↔
              skipSpace cs' = '"' :: rest := by
            simp [hc]
          rw [hnext]
          split
          · next h => rw [h]; exact iff_of_false failBefore_ne_ok (List.cons_ne_nil _ _).symm
          · next h => rw [h]; simp
          · next h => rw [h]; exact iff_of_false failIn_ne_ok (by simp)
          · next _ h _ => exact iff_of_false failIn_ne_ok (h _)
      · next hc => exact iff_of_false failIn_ne_ok (by simp [hc])

/-- The values of a list end in front of its bracket. -/
theorem nextElement_eq_none_iff {first : Bool} {cs : List Char} :
    nextElement first cs = .ok none ↔ ∃ rest, skipSpace cs = ']' :: rest := by
  rw [nextElement]
  split
  · next h => rw [h]; exact iff_of_false failBefore_ne_ok (by simp)
  next c cs' h =>
  rw [h]
  split
  · next hc => exact iff_of_true rfl ⟨cs', by rw [hc]⟩
  next hc =>
  refine iff_of_false (fun e => ?_) (by simp [hc])
  split at e
  · cases e
  · split at e
    · split at e <;> cases e
    · cases e

/-- An element is looked for behind such a lead. -/
theorem lead_of_nextElement {first : Bool} {cs rest : List Char}
    (h : nextElement first cs = .ok (some rest)) : ∃ s, Lead first s ∧ cs = s ++ rest := by
  rw [nextElement] at h
  split at h
  · cases h
  next c cs' heq =>
  split at h
  · cases h
  split at h
  · next hfirst =>
      obtain rfl : first = true := hfirst
      cases h
      exact (lead_first (not_isJsonSpace_of_skipSpace heq)).2 heq
  next hfirst =>
  obtain rfl : first = false := Bool.eq_false_iff.2 hfirst
  split at h
  · next hc =>
      subst hc
      split at h
      · cases h
      · cases h
      · next hne _ =>
          cases h
          obtain ⟨d, ds, hd⟩ := List.exists_cons_of_ne_nil hne
          rw [hd]
          exact (lead_next (not_isJsonSpace_of_skipSpace hd)).2 ⟨cs', heq, hd⟩
  · cases h

/-- Behind such a lead an element is found, if what stands there is not the end of the list. -/
theorem nextElement_of_lead {first : Bool} {c : Char} (hc : isJsonSpace c = false) (hend : c ≠ ']')
    {s : List Char} (hs : Lead first s) (rest : List Char) :
    nextElement first (s ++ c :: rest) = .ok (some (c :: rest)) := by
  cases first with
  | true =>
      have hskip : skipSpace (s ++ c :: rest) = c :: rest := (lead_first hc).1 ⟨s, hs, rfl⟩
      rw [nextElement, hskip]
      exact (if_neg hend).trans (if_pos rfl)
  | false =>
      obtain ⟨cs', hcomma, hskip⟩ :
          ∃ cs', skipSpace (s ++ c :: rest) = ',' :: cs' ∧ skipSpace cs' = c :: rest :=
        (lead_next hc).1 ⟨s, hs, rfl⟩
      rw [nextElement, hcomma]
      simp only [hskip]
      rw [if_neg (by decide), if_neg Bool.false_ne_true, if_pos trivial]
      split
      · next h => cases h
      · next h => exact absurd (List.cons.inj h).1 hend
      · rfl

/-! ### Lists -/

section Elements

variable {fs : List Field} {first : Bool} {cs rest : List Char} {given : List (Field × Bool)}

/-- Either the list ends, or there is a value for the next field. -/
theorem elements_of_readElements (h : readElements first cs fs = .ok (given, rest)) :
    (given = [] ∧ ∃ s, Blanks s ∧ cs = s ++ ']' :: rest) ∨
      ∃ f fs' b given', fs = f :: fs' ∧ given = (f, b) :: given' ∧
        ∃ s t u, Lead first s ∧ BoolText b t ∧ cs = s ++ t ++ u ∧
          readElements false u fs' = .ok (given', rest) := by
  have ended (h : (readListEnd cs).map ([], ·) = .ok (given, rest)) :
      given = [] ∧ ∃ s, Blanks s ∧ cs = s ++ ']' :: rest := by
    obtain ⟨_, h, e⟩ := Except.map_eq_ok_iff.1 h
    cases e
    exact ⟨rfl, readListEnd_eq_ok_iff.1 h⟩
  cases fs with
  | nil => exact .inl (ended h)
  | cons f fs =>
      rw [readElements, Except.bind_eq_ok_iff] at h
      obtain ⟨next, hnext, h⟩ := h
      cases next with
      | none => exact .inl (ended h)
      | some cs₁ =>
          simp only at h
          rw [Except.bind_eq_ok_iff] at h
          obtain ⟨⟨b, cs₂⟩, hvalue, h⟩ := h
          rw [Except.bind_eq_ok_iff] at h
          obtain ⟨⟨given', cs₃⟩, hmore, h⟩ := h
          cases h
          obtain ⟨s, hs, rfl⟩ := lead_of_nextElement hnext
          obtain ⟨_, ⟨s', t, hs', ht, rfl⟩, rfl⟩ := accepts_readBool.text hvalue
          exact .inr ⟨f, fs, b, given', rfl, rfl, s ++ s', t, cs₂, hs.append hs', ht, by simp, hmore⟩

/-- A list may end before all fields have a value. -/
theorem readElements_end {s : List Char} (hs : Blanks s) :
    readElements first (s ++ ']' :: rest) fs = .ok ([], rest) := by
  have hlist : (readListEnd (s ++ ']' :: rest)).map (([] : List (Field × Bool)), ·) =
      .ok ([], rest) :=
    Except.map_eq_ok_iff.2 ⟨rest, readListEnd_eq_ok_iff.2 ⟨s, hs, rfl⟩, rfl⟩
  cases fs with
  | nil => exact hlist
  | cons f fs =>
      have hend : skipSpace (s ++ ']' :: rest) = ']' :: rest :=
        (skipSpace_eq_cons_iff rfl).2 ⟨s, hs, rfl⟩
      rw [readElements, Except.bind_eq_ok_iff]
      exact ⟨none, nextElement_eq_none_iff.2 ⟨rest, hend⟩, hlist⟩

/-- A value is given to the first of the fields that are left. -/
theorem readElements_element {f : Field} {b : Bool} {s t u : List Char} (hs : Lead first s)
    (ht : BoolText b t) (hmore : readElements false u fs = .ok (given, rest)) :
    readElements first (s ++ t ++ u) (f :: fs) = .ok ((f, b) :: given, rest) := by
  have hnext : nextElement first (s ++ t ++ u) = .ok (some (t ++ u)) := by
    obtain ⟨c, w, rfl, hc, hend⟩ := ht.exists_cons
    rw [List.append_assoc]
    exact nextElement_of_lead hc hend hs (w ++ u)
  rw [readElements, Except.bind_eq_ok_iff]
  refine ⟨_, hnext, Except.bind_eq_ok_iff.2 ⟨_, accepts_readBool.ok (.of_text ht), ?_⟩⟩
  exact Except.bind_eq_ok_iff.2 ⟨_, hmore, rfl⟩

end Elements

/-- **Lists are read as the fields in their order**, as many as there are values. -/
theorem readElements_eq_ok_iff {fs : List Field} {first : Bool} {cs rest : List Char}
    {given : List (Field × Bool)} :
    readElements first cs fs = .ok (given, rest) ↔
      ∃ bs t, bs.length ≤ fs.length ∧ Items BoolText first bs t ∧ cs = t ++ ']' :: rest ∧
        given = fs.zip bs := by
  constructor
  · intro h
    induction fs generalizing first cs given with
    | nil =>
        rcases elements_of_readElements h with ⟨rfl, s, hs, rfl⟩ | ⟨_, _, _, _, e, _⟩
        · exact ⟨[], s, Nat.zero_le _, .nil hs, rfl, rfl⟩
        · cases e
    | cons f fs ih =>
        rcases elements_of_readElements h with
          ⟨rfl, s, hs, rfl⟩ | ⟨_, _, b, given', e, rfl, s, t, u, hs, ht, rfl, hmore⟩
        · exact ⟨[], s, Nat.zero_le _, .nil hs, rfl, rfl⟩
        obtain ⟨rfl, rfl⟩ := List.cons.inj e
        obtain ⟨bs, v, hlen, hv, rfl, rfl⟩ := ih hmore
        exact ⟨b :: bs, _, Nat.succ_le_succ hlen, .cons hs ht hv, by simp, rfl⟩
  · rintro ⟨bs, t, hlen, ht, rfl, rfl⟩
    induction ht generalizing fs with
    | nil hs =>
        rw [List.zip_nil_right]
        exact readElements_end hs
    | cons hs hb hu ih =>
        cases fs with
        | nil => exact absurd hlen (Nat.not_succ_le_zero _)
        | cons f fs =>
            rw [List.append_assoc]
            exact readElements_element hs hb (ih (Nat.le_of_succ_le_succ hlen))

/-! ### Objects -/

/-- A key stands for the field of this name, letter for letter. -/
theorem Field.ofName?_eq_some_iff {s : String} {f : Field} : ofName? s = some f ↔ s = f.name := by
  constructor
  · intro h
    rw [ofName?] at h
    have := List.find?_some h
    exact (of_decide_eq_true this).symm
  · rintro rfl
    cases f <;> decide

theorem failKey_ne_ok {α : Type} {flaw : Flaw} {cs : List Char} {a : α} :
    failKey flaw cs ≠ .ok a := by
  unfold failKey
  split <;> exact failBefore_ne_ok

section Members

variable {first : Bool} {missing : List Field} {cs rest : List Char} {given : List (Field × Bool)}

/-- Either the object ends, or there is a member for a field that is missing. -/
theorem members_of_readMembers (h : readMembers first missing cs = .ok (given, rest)) :
    (given = [] ∧ ∃ s, Blanks s ∧ cs = s ++ '\x7d' :: rest) ∨
      ∃ f b given', given = (f, b) :: given' ∧ f ∈ missing ∧
        ∃ s t u, Lead first s ∧ Member BoolText (f.name, b) t ∧ cs = s ++ t ++ u ∧
          readMembers false (missing.erase f) u = .ok (given', rest) := by
  rw [readMembers, Except.bind_eq_ok_iff] at h
  obtain ⟨next, hnext, h⟩ := h
  cases next with
  | none =>
      obtain ⟨rest', hend⟩ := nextKey_eq_none_iff.1 hnext
      cases h
      rw [hend]
      exact .inl ⟨rfl, (skipSpace_eq_cons_iff rfl).1 hend⟩
  | some cs₁ =>
      simp only at h
      rw [Except.bind_eq_ok_iff] at h
      obtain ⟨⟨name, cs₂⟩, hname, h⟩ := h
      simp only at h
      split at h
      · exact absurd h failKey_ne_ok
      next f hf =>
      split at h
      · next hmem =>
          rw [Except.bind_eq_ok_iff] at h
          obtain ⟨cs₃, hcolon, h⟩ := h
          rw [Except.bind_eq_ok_iff] at h
          obtain ⟨⟨b, cs₄⟩, hvalue, h⟩ := h
          rw [Except.bind_eq_ok_iff] at h
          obtain ⟨⟨given', cs₅⟩, hmore, h⟩ := h
          cases h
          obtain rfl := Field.ofName?_eq_some_iff.1 hf
          obtain ⟨s, hs, rfl⟩ := nextKey_eq_some_iff.1 hnext
          obtain ⟨k, hk, hkey⟩ := readString_eq_ok_iff.1 hname
          obtain ⟨s', hs', rfl⟩ := readColon_eq_ok_iff.1 hcolon
          obtain ⟨t, ht, rfl⟩ := accepts_readBool.text hvalue
          exact .inr ⟨f, b, given', rfl, hmem, s, _, cs₄, hs, ⟨k, s', t, hk, hs', ht, rfl⟩,
            by simp [hkey], hmore⟩
      · exact absurd h failKey_ne_ok

/-- An object may end before all fields have a value. -/
theorem readMembers_end {s : List Char} (hs : Blanks s) :
    readMembers first missing (s ++ '\x7d' :: rest) = .ok ([], rest) := by
  have hend : skipSpace (s ++ '\x7d' :: rest) = '\x7d' :: rest :=
    (skipSpace_eq_cons_iff rfl).2 ⟨s, hs, rfl⟩
  rw [readMembers, Except.bind_eq_ok_iff]
  exact ⟨none, nextKey_eq_none_iff.2 ⟨rest, hend⟩, by rw [hend]; rfl⟩

/-- A value is given to a field that has none so far. -/
theorem readMembers_member {f : Field} {b : Bool} {s t u : List Char} (hf : f ∈ missing)
    (hs : Lead first s) (ht : Member BoolText (f.name, b) t)
    (hmore : readMembers false (missing.erase f) u = .ok (given, rest)) :
    readMembers first missing (s ++ t ++ u) = .ok ((f, b) :: given, rest) := by
  obtain ⟨_, s', t, ⟨k, hk, rfl⟩, hs', ht, rfl⟩ := ht
  have hkey : nextKey first (s ++ ('"' :: k ++ ['"'] ++ s' ++ ':' :: t) ++ u) =
      .ok (some (k ++ '"' :: (s' ++ ':' :: (t ++ u)))) :=
    nextKey_eq_some_iff.2 ⟨s, hs, by simp⟩
  have hname : readString (k ++ '"' :: (s' ++ ':' :: (t ++ u))) =
      .ok (f.name, s' ++ ':' :: (t ++ u)) :=
    readString_eq_ok_iff.2 ⟨_, ⟨k, hk, rfl⟩, by simp⟩
  rw [readMembers, Except.bind_eq_ok_iff]
  refine ⟨_, hkey, Except.bind_eq_ok_iff.2 ⟨_, hname, ?_⟩⟩
  simp only [Field.ofName?_eq_some_iff.2 rfl, dif_pos hf]
  refine Except.bind_eq_ok_iff.2 ⟨_, readColon_eq_ok_iff.2 ⟨s', hs', rfl⟩, ?_⟩
  refine Except.bind_eq_ok_iff.2 ⟨_, accepts_readBool.ok ht, ?_⟩
  exact Except.bind_eq_ok_iff.2 ⟨_, hmore, rfl⟩

end Members

/-- A field and its value, as the member of an object. -/
def member (m : Field × Bool) : String × Bool := (m.1.name, m.2)

/-- **Objects are read as fields in any order**, none of them twice. -/
theorem readMembers_eq_ok_iff {given : List (Field × Bool)} {first : Bool} {missing : List Field}
    (hm : missing.Nodup) {cs rest : List Char} :
    readMembers first missing cs = .ok (given, rest) ↔
      ((given.map Prod.fst).Nodup ∧ given.map Prod.fst ⊆ missing) ∧
        ∃ t, Items (Member BoolText) first (given.map member) t ∧ cs = t ++ '\x7d' :: rest := by
  induction given generalizing first missing cs with
  | nil =>
      constructor
      · intro h
        rcases members_of_readMembers h with ⟨-, s, hs, rfl⟩ | ⟨_, _, _, e, _⟩
        · exact ⟨⟨.nil, List.nil_subset _⟩, s, .nil hs, rfl⟩
        · cases e
      · rintro ⟨-, t, ht, rfl⟩
        cases ht with
        | nil hs => exact readMembers_end hs
  | cons m given ih =>
      constructor
      · intro h
        rcases members_of_readMembers h with
          ⟨e, _⟩ | ⟨f, b, given', e, hmem, s, t, u, hs, ht, rfl, hmore⟩
        · cases e
        obtain ⟨rfl, rfl⟩ := List.cons.inj e
        obtain ⟨⟨hnodup, hsub⟩, v, hv, rfl⟩ := (ih (hm.erase f)).1 hmore
        -- the fields behind are others, since `f` is no longer missing
        have hf : f ∉ given.map Prod.fst := fun h => (hm.mem_erase_iff.1 (hsub h)).1 rfl
        exact ⟨⟨List.nodup_cons.2 ⟨hf, hnodup⟩,
          List.cons_subset.2 ⟨hmem, fun g hg => List.mem_of_mem_erase (hsub hg)⟩⟩,
          _, .cons hs ht hv, by simp⟩
      · rintro ⟨⟨hnodup, hsub⟩, _, ht, rfl⟩
        cases ht with
        | @cons _ _ _ s t u hs ht hu =>
            obtain ⟨hf, hnodup⟩ := List.nodup_cons.1 hnodup
            obtain ⟨hmem, hsub⟩ := List.cons_subset.1 hsub
            have hothers : given.map Prod.fst ⊆ missing.erase m.1 := fun g hg =>
              hm.mem_erase_iff.2 ⟨fun e => hf (e ▸ hg), hsub hg⟩
            rw [List.append_assoc]
            exact readMembers_member hmem hs ht
              ((ih (hm.erase m.1)).2 ⟨⟨hnodup, hothers⟩, u, hu, rfl⟩)

/-! ### Values of the fields -/

/-- The options have the values that are given by these members, and else the defaults. -/
structure Follows (o : Options) (ms : List (String × Bool)) : Prop where
  given : ∀ f b, (Field.name f, b) ∈ ms → o.get f = b
  absent : ∀ f, Field.name f ∉ ms.map Prod.fst → o.get f = default.get f

theorem Field.name_inj {f g : Field} (h : f.name = g.name) : f = g :=
  Option.some.inj ((ofName?_eq_some_iff.2 rfl).symm.trans (ofName?_eq_some_iff.2 h))

theorem ext_get {o p : Options} (h : ∀ f, o.get f = p.get f) : o = p := by
  cases o
  cases p
  exact Options.mk.injEq .. ▸ ⟨h .compress, h .matchIds, h .keepUnanchoredRules⟩

theorem get_ofGiven (given : List (Field × Bool)) (f : Field) :
    (ofGiven given).get f = (given.lookup f).getD (default.get f) := by
  cases f <;> rfl

/-- Members name their fields uniquely. -/
theorem mem_member {given : List (Field × Bool)} {f : Field} {b : Bool} :
    (f.name, b) ∈ given.map member ↔ (f, b) ∈ given := by
  rw [List.mem_map]
  constructor
  · rintro ⟨⟨g, c⟩, hmem, e⟩
    obtain ⟨hname, rfl⟩ := Prod.mk.inj e
    exact Field.name_inj hname ▸ hmem
  · exact fun h => ⟨_, h, rfl⟩

/-- The keys of the members are the names of the fields. -/
theorem keys_member (given : List (Field × Bool)) :
    (given.map member).map Prod.fst = (given.map Prod.fst).map Field.name := by
  rw [List.map_map, List.map_map]
  rfl

theorem mem_keys_member {given : List (Field × Bool)} {f : Field} :
    f.name ∈ (given.map member).map Prod.fst ↔ f ∈ given.map Prod.fst := by
  rw [keys_member, List.mem_map_of_injective fun _ _ => Field.name_inj]

/-- Members whose keys are names of fields. -/
theorem exists_member {ms : List (String × Bool)}
    (h : ∀ m ∈ ms, m.1 ∈ Field.all.map Field.name) : ∃ given, List.map member given = ms := by
  have hrange : ms ∈ Set.range (List.map member) := by
    rw [Set.range_list_map]
    intro m hm
    obtain ⟨f, -, hf⟩ := List.mem_map.1 (h m hm)
    exact ⟨(f, m.2), Prod.ext hf rfl⟩
  exact hrange

/-- The value of a field is the one that it is given, if none is given twice. -/
theorem lookup_eq_some_iff {given : List (Field × Bool)} (h : (given.map Prod.fst).Nodup)
    {f : Field} {b : Bool} : given.lookup f = some b ↔ (f, b) ∈ given := by
  rw [List.lookup_eq_some_iff]
  constructor
  · rintro ⟨l₁, l₂, rfl, -⟩
    simp
  · intro hmem
    obtain ⟨l₁, l₂, rfl⟩ := List.append_of_mem hmem
    refine ⟨l₁, l₂, rfl, fun m hm => ?_⟩
    rw [List.map_append, List.map_cons] at h
    have := List.disjoint_of_nodup_append h (List.mem_map_of_mem hm)
    simp only [bne_iff_ne, ne_eq]
    rintro rfl
    exact this List.mem_cons_self

/-- A field that is not given has none. -/
theorem lookup_eq_none_iff {given : List (Field × Bool)} {f : Field} :
    given.lookup f = none ↔ f ∉ given.map Prod.fst := by
  rw [List.lookup_eq_none_iff]
  constructor
  · intro h hf
    obtain ⟨m, hm, rfl⟩ := List.mem_map.1 hf
    exact bne_iff_ne.1 (h m hm) rfl
  · exact fun h m hm => bne_iff_ne.2 fun e => h (e ▸ List.mem_map_of_mem hm)

/-- The members of an object determine the options that follow them. -/
theorem follows_iff {o : Options} {given : List (Field × Bool)} (h : (given.map Prod.fst).Nodup) :
    o.Follows (given.map member) ↔ o = ofGiven given := by
  constructor
  · intro ho
    refine ext_get fun f => ?_
    rw [get_ofGiven]
    cases hl : given.lookup f with
    | none => exact ho.absent f (mt mem_keys_member.1 (lookup_eq_none_iff.1 hl))
    | some b => exact ho.given f b (mem_member.2 ((lookup_eq_some_iff h).1 hl))
  · rintro rfl
    refine ⟨fun f b hb => ?_, fun f hf => ?_⟩
    · rw [get_ofGiven, (lookup_eq_some_iff h).2 (mem_member.1 hb)]
      rfl
    · rw [get_ofGiven, lookup_eq_none_iff.2 (mt mem_keys_member.2 hf)]
      rfl

/-! ### A whole text -/

theorem nodup_all : Field.all.Nodup := by decide

theorem mem_all (f : Field) : f ∈ Field.all := by cases f <;> decide

/-- The fields that the values of a list stand for. -/
theorem keys_zip_isPrefix {α β : Type} : ∀ (l : List α) (bs : List β),
    (l.zip bs).map Prod.fst <+: l
  | [], _ => List.nil_prefix
  | _ :: _, [] => List.nil_prefix
  | a :: l, _ :: bs => (List.prefix_cons_inj a).2 (keys_zip_isPrefix l bs)

/-- What is read is an object or a list. -/
theorem readGiven_eq_ok_iff {cs rest : List Char} {given : List (Field × Bool)} :
    readGiven cs = .ok (given, rest) ↔
      (∃ s t, Blanks s ∧ (given.map Prod.fst).Nodup ∧
        Items (Member BoolText) true (given.map member) t ∧
        cs = s ++ '\x7b' :: t ++ '\x7d' :: rest) ∨
      ∃ s t bs, Blanks s ∧ bs.length ≤ Field.all.length ∧ given = Field.all.zip bs ∧
        Items BoolText true bs t ∧ cs = s ++ '[' :: t ++ ']' :: rest := by
  rw [readGiven]
  constructor
  · intro h
    split at h
    · cases h
    · next heq =>
        obtain ⟨bs, t, hlen, ht, rfl, rfl⟩ := readElements_eq_ok_iff.1 h
        obtain ⟨s, hs, rfl⟩ := (skipSpace_eq_cons_iff rfl).1 heq
        exact .inr ⟨s, t, bs, hs, hlen, rfl, ht, by simp⟩
    · next heq =>
        obtain ⟨⟨hnodup, -⟩, t, ht, rfl⟩ := (readMembers_eq_ok_iff nodup_all).1 h
        obtain ⟨s, hs, rfl⟩ := (skipSpace_eq_cons_iff rfl).1 heq
        exact .inl ⟨s, t, hs, hnodup, ht, by simp⟩
    · exact absurd h wrongType_ne_ok
  · rintro (⟨s, t, hs, hnodup, ht, rfl⟩ | ⟨s, t, bs, hs, hlen, rfl, ht, rfl⟩)
    · have hskip : skipSpace (s ++ '\x7b' :: t ++ '\x7d' :: rest) =
          '\x7b' :: (t ++ '\x7d' :: rest) :=
        (skipSpace_eq_cons_iff rfl).2 ⟨s, hs, by simp⟩
      rw [hskip]
      exact (readMembers_eq_ok_iff nodup_all).2 ⟨⟨hnodup, fun f _ => mem_all f⟩, t, ht, rfl⟩
    · have hskip : skipSpace (s ++ '[' :: t ++ ']' :: rest) = '[' :: (t ++ ']' :: rest) :=
        (skipSpace_eq_cons_iff rfl).2 ⟨s, hs, by simp⟩
      rw [hskip]
      exact readElements_eq_ok_iff.2 ⟨bs, t, hlen, ht, rfl, rfl⟩

/-- Options are read from one value with nothing but blanks behind it. -/
theorem read_eq_ok_iff {cs : List Char} {o : Options} :
    read cs = .ok o ↔ ∃ given rest, readGiven cs = .ok (given, rest) ∧ Blanks rest ∧
      o = ofGiven given := by
  rw [read, Except.bind_eq_ok_iff]
  constructor
  · rintro ⟨⟨given, rest⟩, hgiven, h⟩
    simp only at h
    split at h
    · next heq => exact ⟨given, rest, hgiven, skipSpace_eq_nil_iff.1 heq, (Except.ok.inj h).symm⟩
    · cases h
  · rintro ⟨given, rest, hgiven, hrest, rfl⟩
    exact ⟨_, hgiven, by simp only [skipSpace_eq_nil_iff.2 hrest]⟩

/-- **Texts of options.**  Options are read from a text just if it is a JSON object whose keys are
names of fields, none twice, and whose values are `true` or `false`, or a list of such values, no more
than there are fields.  Each field then has the value given for its name, or for its place in the list,
and the default if none is given. -/
theorem parse_eq_ok_iff (text : String) (o : Options) :
    parse text = .ok o ↔
      (∃ ms, ObjectText BoolText ms text.toList ∧ (ms.map Prod.fst).Nodup ∧
        (∀ m ∈ ms, m.1 ∈ Field.all.map Field.name) ∧ o.Follows ms) ∨
      ∃ bs, ListText BoolText bs text.toList ∧ bs.length ≤ Field.all.length ∧
        o.Follows ((Field.all.map Field.name).zip bs) := by
  have hparse : parse text = .ok o ↔ read text.toList = .ok o := by
    rw [parse]
    cases read text.toList with
    | error e => exact ⟨nofun, nofun⟩
    | ok p => exact ⟨fun h => congrArg _ (Except.ok.inj h), fun h => congrArg _ (Except.ok.inj h)⟩
  have hlist : ∀ bs : List Bool, o.Follows ((Field.all.map Field.name).zip bs) ↔
      o = ofGiven (Field.all.zip bs) := fun bs => by
    have hnodup := nodup_all.sublist (keys_zip_isPrefix Field.all bs).sublist
    rw [← follows_iff hnodup, List.zip_map_left]
    rfl
  rw [hparse, read_eq_ok_iff]
  constructor
  · rintro ⟨given, rest, hgiven, hrest, ho⟩
    rcases readGiven_eq_ok_iff.1 hgiven with
      ⟨s, t, hs, hnodup, ht, htext⟩ | ⟨s, t, bs, hs, hlen, rfl, ht, htext⟩
    · refine .inl ⟨given.map member, ⟨s, t, rest, hs, ht, hrest, htext⟩, ?_, fun m hm => ?_,
        (follows_iff hnodup).2 ho⟩
      · rwa [keys_member, List.nodup_map_iff fun _ _ => Field.name_inj]
      · obtain ⟨p, -, rfl⟩ := List.mem_map.1 hm
        exact List.mem_map_of_mem (mem_all p.1)
    · exact .inr ⟨bs, ⟨s, t, rest, hs, ht, hrest, htext⟩, hlen, (hlist bs).2 ho⟩
  · rintro (⟨ms, ⟨s, t, rest, hs, ht, hrest, htext⟩, hnodup, hknown, ho⟩ |
      ⟨bs, ⟨s, t, rest, hs, ht, hrest, htext⟩, hlen, ho⟩)
    · obtain ⟨given, rfl⟩ := exists_member hknown
      rw [keys_member, List.nodup_map_iff fun _ _ => Field.name_inj] at hnodup
      exact ⟨given, rest, readGiven_eq_ok_iff.2 (.inl ⟨s, t, hs, hnodup, ht, htext⟩), hrest,
        (follows_iff hnodup).1 ho⟩
    · exact ⟨_, rest, readGiven_eq_ok_iff.2 (.inr ⟨s, t, bs, hs, hlen, rfl, ht, htext⟩), hrest,
        (hlist bs).1 ho⟩

/-- A key may be written with escapes. -/
example : (parse " \x7b\"\\u006datchIds\" : true\x7d").toOption = some ⟨true, true, false⟩ := by
  decide +kernel

/-- The empty list is read, though it is no object. -/
theorem parse_empty_list :
    parse "[]" = .ok default ∧ ∀ ms, ¬ObjectText BoolText ms "[]".toList := by
  refine ⟨rfl, ?_⟩
  rintro ms ⟨s, t, rest, -, -, -, h⟩
  have hopen : '\x7b' ∈ "[]".toList := by
    rw [h]
    simp
  revert hopen
  decide

end Options

end CssPrune
