import CssPrune.Proofs.Alone
import CssPrune.Proofs.SelectorList

/-!
# Cutting at commas

A list of selectors is cut by the lexemes alone (`Lexeme.cutAtCommas`): at each comma that stands outside
of every bracket.  Components say the same, since a block holds all lexemes from its bracket to the one
that closes it (`Component.cutAtCommas_lexemesOf`).

`Component.selectors_gather`: the selectors of a prelude are its pieces in normal form, provided that no
comma stands directly behind a block.  In front of such a comma, the block is left out but for the bracket
that opens it (`Component.segments_eq_cropped`), so text is lost (`Component.selectors_gather_lost`).
-/

namespace CssPrune

/-- The brackets that are open behind a token, the innermost first. -/
def Token.track (bs : List Bracket) (t : Token) : List Bracket :=
  match t.opens? with
  | some b => b :: bs
  | none => if t.closes?.isSome && t.closes? = bs.head? then bs.tail else bs

namespace Lexeme

/-- The brackets that are open behind lexemes. -/
def openBrackets (bs : List Bracket) (xs : List Lexeme) : List Bracket :=
  xs.foldl (fun bs x => x.token.track bs) bs

/-- The pieces between the commas that stand outside of every bracket; the brackets `bs` are open in
front. -/
def cutAtCommas (bs : List Bracket) : List Lexeme → List (List Lexeme)
  | [] => [[]]
  | x :: xs =>
    if bs = [] ∧ x.token = .comma then [] :: cutAtCommas [] xs
    else (cutAtCommas (x.token.track bs) xs).modifyHead (x :: ·)

theorem track_of_opens? {t : Token} {b : Bracket} (h : t.opens? = some b) (bs : List Bracket) :
    t.track bs = b :: bs := by
  rw [Token.track, h]

/-- A token that closes the innermost bracket takes it away. -/
theorem track_of_closes? {t : Token} {b : Bracket} (h : t.closes? = some b) (bs : List Bracket) :
    t.track (b :: bs) = bs := by
  rw [Token.track, Token.opens?_of_closes? h, h]
  simp

/-- The brackets open behind two texts are those that the second leaves of the first's. -/
theorem openBrackets_append (bs : List Bracket) (xs ys : List Lexeme) :
    openBrackets bs (xs ++ ys) = openBrackets (openBrackets bs xs) ys :=
  List.foldl_append

theorem openBrackets_cons (bs : List Bracket) (x : Lexeme) (xs : List Lexeme) :
    openBrackets bs (x :: xs) = openBrackets (x.token.track bs) xs := rfl

theorem cutAtCommas_comma {x : Lexeme} (h : x.token = .comma) (xs : List Lexeme) :
    cutAtCommas [] (x :: xs) = [] :: cutAtCommas [] xs :=
  if_pos ⟨rfl, h⟩

theorem cutAtCommas_cons {bs : List Bracket} {x : Lexeme} (h : ¬(bs = [] ∧ x.token = .comma))
    (xs : List Lexeme) :
    cutAtCommas bs (x :: xs) = (cutAtCommas (x.token.track bs) xs).modifyHead (x :: ·) :=
  if_neg h

/-- A bracket is no comma. -/
theorem cutAtCommas_opener {x : Lexeme} {b : Bracket} (h : x.token.opens? = some b)
    (bs : List Bracket) (xs : List Lexeme) :
    cutAtCommas bs (x :: xs) = (cutAtCommas (b :: bs) xs).modifyHead (x :: ·) := by
  rw [cutAtCommas_cons, track_of_opens? h]
  rintro ⟨-, hx⟩
  rw [hx] at h
  cases h

/-- A bracket that closes belongs to the piece of the one that it closes. -/
theorem cutAtCommas_closer {x : Lexeme} {b : Bracket} (h : x.token.closes? = some b)
    (bs : List Bracket) (xs : List Lexeme) :
    cutAtCommas (b :: bs) (x :: xs) = (cutAtCommas bs xs).modifyHead (x :: ·) := by
  rw [cutAtCommas_cons, track_of_closes? h]
  rintro ⟨hbs, -⟩
  cases hbs

end Lexeme

namespace Component

open Lexeme (openBrackets cutAtCommas)
open Text (normalString)

/-! ### Components under brackets -/

/-- A leaf that fits changes no bracket. -/
theorem track_of_fits {x : Lexeme} {bs : List Bracket} (h : fits bs.head? (.leaf x) = true) :
    x.token.track bs = bs := by
  rw [fits, Bool.and_eq_true, Option.isNone_iff_eq_none, Bool.or_eq_true, bne_iff_ne] at h
  rw [Token.track, h.1]
  refine if_neg fun hc => ?_
  rw [Bool.and_eq_true, decide_eq_true_eq] at hc
  obtain hn | hne := h.2
  · rw [Option.isNone_iff_eq_none.1 hn] at hc
    cases hc.1
  · exact hne hc.2

/-- The brackets of a block that fits. -/
theorem brackets_of_fits {b : Option Bracket} {x : Lexeme} {body : List Component} {y : Option Lexeme}
    (h : fits b (.block x body y) = true) :
    ∃ c z, y = some z ∧ x.token.opens? = some c ∧ z.token.closes? = some c ∧
      fitAll (some c) body = true := by
  have hopens := h
  rw [fits, Bool.and_eq_true, Bool.and_eq_true] at hopens
  obtain ⟨c, hx⟩ := Option.isSome_iff_exists.1 hopens.1.1
  obtain ⟨hbody, z, hy, hz⟩ := fits_block h
  rw [hx] at hbody hz
  exact ⟨c, z, hy, hx, hz, hbody⟩

mutual

/-- A component that fits leaves the brackets around it open, and no others. -/
theorem openBrackets_lexemes (bs : List Bracket) :
    ∀ c : Component, c.fits bs.head? = true → openBrackets bs c.lexemes = bs
  | .leaf x, h => track_of_fits h
  | .block x body y, h => by
      obtain ⟨b, z, rfl, hx, hz, hbody⟩ := brackets_of_fits h
      have hbs : openBrackets (b :: bs) (lexemesOf body) = b :: bs :=
        openBrackets_lexemesOf (b :: bs) body hbody
      rw [lexemes, Lexeme.openBrackets_cons, Lexeme.track_of_opens? hx, Lexeme.openBrackets_append, hbs]
      exact Lexeme.track_of_closes? hz bs

theorem openBrackets_lexemesOf (bs : List Bracket) :
    ∀ cs : List Component, fitAll bs.head? cs = true → openBrackets bs (lexemesOf cs) = bs
  | [], _ => rfl
  | c :: cs, h => by
      rw [fitAll, Bool.and_eq_true] at h
      rw [lexemesOf, Lexeme.openBrackets_append, openBrackets_lexemes bs c h.1,
        openBrackets_lexemesOf bs cs h.2]

end

mutual

/-- No comma within a block is cut at. -/
theorem cutAtCommas_lexemes (bs : List Bracket) (xs : List Lexeme) :
    ∀ c : Component, c.fits bs.head? = true → (bs ≠ [] ∨ c.isComma = false) →
      cutAtCommas bs (c.lexemes ++ xs) = (cutAtCommas bs xs).modifyHead (c.lexemes ++ ·)
  | .leaf x, h, hc => by
      have hx : ¬(bs = [] ∧ x.token = .comma) := by
        rintro ⟨hbs, hx⟩
        obtain hne | hne := hc
        · exact hne hbs
        · exact of_decide_eq_false hne hx
      rw [lexemes, List.singleton_append, Lexeme.cutAtCommas_cons hx, track_of_fits h]
      rfl
  | .block x body y, h, _ => by
      obtain ⟨b, z, rfl, hx, hz, hbody⟩ := brackets_of_fits h
      have ih : cutAtCommas (b :: bs) (lexemesOf body ++ z :: xs) =
          (cutAtCommas (b :: bs) (z :: xs)).modifyHead (lexemesOf body ++ ·) :=
        cutAtCommas_lexemesOf_within (b :: bs) (z :: xs) body hbody (List.cons_ne_nil b bs)
      have hl : lexemes (.block x body (some z)) ++ xs = x :: (lexemesOf body ++ z :: xs) := by
        simp [lexemes]
      rw [hl, Lexeme.cutAtCommas_opener hx, ih, Lexeme.cutAtCommas_closer hz, List.modifyHead_modifyHead,
        List.modifyHead_modifyHead]
      congr 1
      funext p
      simp [lexemes]

/-- Inside of brackets, whole components go to the first piece. -/
theorem cutAtCommas_lexemesOf_within (bs : List Bracket) (xs : List Lexeme) :
    ∀ cs : List Component, fitAll bs.head? cs = true → bs ≠ [] →
      cutAtCommas bs (lexemesOf cs ++ xs) = (cutAtCommas bs xs).modifyHead (lexemesOf cs ++ ·)
  | [], _, _ => by
      rw [lexemesOf]
      exact (congrFun List.modifyHead_id _).symm
  | c :: cs, h, hbs => by
      rw [fitAll, Bool.and_eq_true] at h
      rw [lexemesOf, List.append_assoc, cutAtCommas_lexemes bs _ c h.1 (.inl hbs),
        cutAtCommas_lexemesOf_within bs xs cs h.2 hbs, List.modifyHead_modifyHead]
      congr 1
      funext p
      simp

end

/-- What stands within a bracket is one piece, whether it is finished or not. -/
theorem cutAtCommas_within {b : Bracket} {bs : List Bracket} {cs : List Component}
    (h : Gathered (some b) cs) : cutAtCommas (b :: bs) (lexemesOf cs) = [lexemesOf cs] := by
  generalize hb : some b = b' at h
  induction h generalizing b bs with
  | fit h =>
      subst hb
      have := cutAtCommas_lexemesOf_within (b :: bs) [] _ h (List.cons_ne_nil b bs)
      rwa [List.append_nil, cutAtCommas, List.modifyHead_cons, List.append_nil] at this
  | @unfinished b' cs body x hc hx _ ih =>
      subst hb
      obtain ⟨c, hx⟩ := Option.isSome_iff_exists.1 hx
      have hl : lexemesOf (cs ++ [.block x body none]) = lexemesOf cs ++ x :: lexemesOf body := by
        simp [lexemesOf_append, lexemesOf, lexemes]
      rw [hl, cutAtCommas_lexemesOf_within (b :: bs) _ cs hc (List.cons_ne_nil b bs),
        Lexeme.cutAtCommas_opener hx, ih hx.symm]
      rfl

/-- A component that is no comma, at the end of a text. -/
theorem cutAtCommas_last {c : Component} (h : Gathered none [c]) (hc : c.isComma = false) :
    cutAtCommas [] c.lexemes = [c.lexemes] := by
  have whole : c.fits none = true → cutAtCommas [] c.lexemes = [c.lexemes] := fun h => by
    have := cutAtCommas_lexemes [] [] c h (.inr hc)
    rwa [List.append_nil, cutAtCommas, List.modifyHead_cons, List.append_nil] at this
  generalize he : [c] = cs at h
  cases h with
  | fit h =>
      rw [← he, fitAll, Bool.and_eq_true] at h
      exact whole h.1
  | @unfinished _ cs body x _ hx hb =>
      have he : [] ++ [c] = cs ++ [.block x body none] := he
      obtain ⟨-, he⟩ := List.append_inj' he rfl
      obtain rfl : c = .block x body none := (List.cons.inj he).1
      obtain ⟨b, hx⟩ := Option.isSome_iff_exists.1 hx
      rw [hx] at hb
      have hl : lexemes (.block x body none) = x :: lexemesOf body := by simp [lexemes]
      rw [hl, Lexeme.cutAtCommas_opener hx, cutAtCommas_within hb]
      rfl

/-- The last block of gathered components opens a bracket. -/
theorem opens_of_gathered {b : Option Bracket} {cs : List Component} {x : Lexeme}
    {body : List Component} {y : Option Lexeme} (h : Gathered b (cs ++ [.block x body y])) :
    x.token.opens?.isSome = true := by
  generalize he : cs ++ [.block x body y] = es at h
  cases h with
  | fit h =>
      rw [← he, fitAll_append, fitAll, fits, Bool.and_eq_true, Bool.and_eq_true, Bool.and_eq_true,
        Bool.and_eq_true] at h
      exact h.2.1.1.1
  | unfinished _ hx _ =>
      obtain ⟨-, he⟩ := List.append_inj' he rfl
      cases he
      exact hx

/-- A comma is a leaf: no block passes for one. -/
theorem eq_leaf_of_isComma {c : Component} (h : Gathered none [c]) (hc : c.isComma = true) :
    ∃ x, c = .leaf x ∧ x.token = .comma := by
  have hc : c.token = .comma := of_decide_eq_true hc
  cases c with
  | leaf x => exact ⟨x, rfl, hc⟩
  | block x body y =>
      have h : Gathered none ([] ++ [.block x body y]) := h
      have hopens := opens_of_gathered h
      have hx : x.token = .comma := hc
      rw [hx] at hopens
      cases hopens

/-- The first of several components fits. -/
theorem gathered_cons {c : Component} {cs : List Component} (h : Gathered none (c :: cs)) :
    Gathered none [c] ∧ Gathered none cs ∧ (cs ≠ [] → c.fits none = true) := by
  have h : Gathered none ([c] ++ cs) := h
  refine ⟨h.of_append, h.right, fun hne => ?_⟩
  have hfit := h.left hne
  rw [fitAll, Bool.and_eq_true] at hfit
  exact hfit.1

/-- Lexemes are cut where their components are. -/
theorem cutAtCommas_lexemesOf {cs : List Component} (h : Gathered none cs) :
    cutAtCommas [] (lexemesOf cs) = (cs.splitOnP isComma).map lexemesOf := by
  induction cs with
  | nil => rfl
  | cons c cs ih =>
      obtain ⟨hc, hcs, hfit⟩ := gathered_cons h
      rw [List.splitOnP_cons_eq_if_modifyHead, lexemesOf]
      split
      · next hcomma =>
          obtain ⟨x, rfl, hx⟩ := eq_leaf_of_isComma hc hcomma
          rw [lexemes, List.singleton_append, Lexeme.cutAtCommas_comma hx, ih hcs]
          rfl
      · next hcomma =>
          rw [Bool.not_eq_true] at hcomma
          cases cs with
          | nil =>
              rw [lexemesOf, List.append_nil, cutAtCommas_last hc hcomma]
              simp [lexemesOf]
          | cons d cs =>
              rw [cutAtCommas_lexemes [] _ c (hfit (List.cons_ne_nil d cs)) (.inr hcomma), ih hcs]
              obtain ⟨p, ps, hp⟩ := List.exists_cons_of_ne_nil (List.splitOnP_ne_nil isComma (d :: cs))
              rw [hp]
              rfl

/-! ### Segments -/

/-- The text in front of a comma: of a block at the end no more than the bracket that opens it. -/
def cropped (cs : List Component) : List Char :=
  textOf cs.dropLast ++ cs.getLast?.elim [] opening

/-- The texts of the segments of a list, of which the last one is whole. -/
def croppedAll : List (List Component) → List (List Char)
  | [] => []
  | [cs] => [textOf cs]
  | cs :: ds :: css => cropped cs :: croppedAll (ds :: css)

theorem cropped_cons_cons (c d : Component) (cs : List Component) :
    cropped (c :: d :: cs) = c.text ++ cropped (d :: cs) := by
  rw [cropped, cropped, List.dropLast_cons_cons, List.getLast?_cons_cons, textOf, List.append_assoc]

/-- **The segments of a list are its pieces between commas, cropped.** -/
theorem segments_eq_cropped (cs : List Component) :
    segments cs = croppedAll (cs.splitOnP isComma) := by
  induction cs with
  | nil => rfl
  | cons c cs ih =>
      rw [segments, List.splitOnP_cons_eq_if_modifyHead]
      split
      -- the comma ends an empty segment
      · obtain ⟨p, ps, hp⟩ := List.exists_cons_of_ne_nil (List.splitOnP_ne_nil isComma cs)
        rw [ih, hp]
        rfl
      cases cs with
      | nil => rfl
      | cons d cs =>
          obtain ⟨p, ps, hp⟩ := List.exists_cons_of_ne_nil (List.splitOnP_ne_nil isComma cs)
          rw [List.splitOnP_cons_eq_if_modifyHead, hp] at ih ⊢
          split
          -- the segment ends in front of the next comma, and is no longer than this component
          · next hd =>
              have hd : d.isComma = true := hd
              rw [if_pos hd] at ih ⊢
              rw [ih]
              rfl
          · next hd =>
              have hd : ¬d.isComma = true := hd
              rw [if_neg hd] at ih ⊢
              rw [ih]
              cases ps with
              | nil => rfl
              | cons q ps =>
                  rw [List.modifyHead_cons, List.modifyHead_cons, croppedAll, croppedAll,
                    cropped_cons_cons]
                  rfl

/-- A piece that does not end in a block is whole. -/
theorem cropped_of_isLeaf {cs : List Component} (h : cs.getLast?.all isLeaf = true) :
    cropped cs = textOf cs := by
  obtain rfl | ⟨cs, c, rfl⟩ := cs.eq_nil_or_concat'
  · rfl
  · rw [List.getLast?_concat] at h
    rw [cropped, List.dropLast_concat, List.getLast?_concat, Option.elim_some, opening_of_isLeaf h,
      textOf_append, textOf, textOf, List.append_nil]

/-- All pieces are whole when none but the last ends in a block. -/
theorem croppedAll_eq {css : List (List Component)}
    (h : ∀ cs ∈ css.dropLast, cs.getLast?.all isLeaf = true) : croppedAll css = css.map textOf := by
  induction css with
  | nil => rfl
  | cons cs css ih =>
      cases css with
      | nil => rfl
      | cons ds css =>
          rw [List.dropLast_cons_cons] at h
          rw [croppedAll, cropped_of_isLeaf (h cs List.mem_cons_self),
            ih fun es hes => h es (List.mem_cons_of_mem _ hes), List.map_cons, List.map_cons,
            List.map_cons]

/-- Outside of brackets, the last lexeme of a segment is a leaf. -/
theorem isLeaf_last {cs : List Component} (hfit : fitAll none cs = true)
    (h : openBrackets [] (lexemesOf cs).dropLast = []) : cs.getLast?.all isLeaf = true := by
  obtain rfl | ⟨cs, c, rfl⟩ := cs.eq_nil_or_concat'
  · rfl
  rw [List.getLast?_concat]
  cases c with
  | leaf x => rfl
  | block x body y =>
      rw [fitAll_append, fitAll, Bool.and_eq_true, Bool.and_eq_true] at hfit
      obtain ⟨b, z, rfl, hx, -, hbody⟩ := brackets_of_fits hfit.2.1
      have hl : lexemesOf (cs ++ [.block x body (some z)]) =
          lexemesOf cs ++ x :: lexemesOf body ++ [z] := by
        simp [lexemesOf_append, lexemesOf, lexemes]
      -- the bracket of the block is open in front of the lexeme that closes it
      rw [hl, List.dropLast_concat, Lexeme.openBrackets_append,
        openBrackets_lexemesOf [] cs hfit.1, Lexeme.openBrackets_cons,
        Lexeme.track_of_opens? hx, openBrackets_lexemesOf [b] body hbody] at h
      cases h

/-- What stands in front of a comma fits. -/
theorem fitAll_of_mem_dropLast {cs : List Component} (h : Gathered none cs) {ds : List Component}
    (hds : ds ∈ (cs.splitOnP isComma).dropLast) : fitAll none ds = true := by
  induction cs generalizing ds with
  | nil => cases hds
  | cons c cs ih =>
      obtain ⟨-, hcs, hfit⟩ := gathered_cons h
      obtain ⟨p, ps, hp⟩ := List.exists_cons_of_ne_nil (List.splitOnP_ne_nil isComma cs)
      rw [List.splitOnP_cons_eq_if_modifyHead, hp] at hds
      rw [hp] at ih
      split at hds
      · obtain rfl | hds := List.mem_cons.1 hds
        · rfl
        · exact ih hcs hds
      rw [List.modifyHead_cons] at hds
      cases ps with
      | nil => cases hds
      | cons q ps =>
          rw [List.dropLast_cons_cons] at hds ih
          obtain rfl | hds := List.mem_cons.1 hds
          · have hne : cs ≠ [] := by
              rintro rfl
              cases hp
            rw [fitAll, hfit hne, ih hcs List.mem_cons_self, Bool.and_true]
          · exact ih hcs (List.mem_cons_of_mem _ hds)

/-- **Selector lists.**  The lexemes of a prelude are cut at each comma that stands outside of every
bracket, and the pieces that are not blank, in normal form, are the selectors, whenever no comma stands
directly behind a block: the last lexeme in front of it stands outside of every bracket, too. -/
theorem selectors_gather (xs : List Lexeme)
    (h : ∀ p ∈ (cutAtCommas [] xs).dropLast, openBrackets [] p.dropLast = []) :
    selectors (gather xs) =
      ((cutAtCommas [] xs).map fun p => normalString (Lexeme.textOf p)).filter (· ≠ "") := by
  have hg : Gathered none (gather xs) := gathered_gatherFrom xs rfl trivial
  have hcut : cutAtCommas [] xs = ((gather xs).splitOnP isComma).map lexemesOf := by
    rw [← cutAtCommas_lexemesOf hg, lexemesOf_gather]
  rw [hcut] at h ⊢
  have hleaf : ∀ cs ∈ ((gather xs).splitOnP isComma).dropLast, cs.getLast?.all isLeaf = true :=
    fun cs hcs => by
      have hmem : lexemesOf cs ∈ (((gather xs).splitOnP isComma).map lexemesOf).dropLast := by
        rw [← List.map_dropLast]
        exact List.mem_map_of_mem hcs
      exact isLeaf_last (fitAll_of_mem_dropLast hg hcs) (h _ hmem)
  rw [selectors, segments_eq_cropped, croppedAll_eq hleaf, List.map_map, List.map_map]
  congr 2
  funext cs
  simp [textOf_lexemesOf]

/-- The comma inside the function does not count, and the one behind it stands behind a blank. -/
theorem selectors_gather_function :
    selectors (gather (Lexeme.scan ".a:is(.b, .c) , ,p".toList)) = [".a:is(.b, .c)", "p"] := by
  have h : ∀ p ∈ (cutAtCommas [] (Lexeme.scan ".a:is(.b, .c) , ,p".toList)).dropLast,
      openBrackets [] p.dropLast = [] := by decide +kernel
  have pieces : ((cutAtCommas [] (Lexeme.scan ".a:is(.b, .c) , ,p".toList)).map fun p =>
      normalString (Lexeme.textOf p)).filter (· ≠ "") = [".a:is(.b, .c)", "p"] := by decide +kernel
  rw [selectors_gather _ h, pieces]

/-- In front of a comma directly behind a block, the text is lost from the block's bracket on. -/
theorem selectors_gather_lost :
    ((cutAtCommas [] (Lexeme.scan ":is(.a),.b".toList)).map fun p =>
        normalString (Lexeme.textOf p)).filter (· ≠ "") = [":is(.a)", ".b"] ∧
      selectors (gather (Lexeme.scan ":is(.a),.b".toList)) = [":is(", ".b"] := by
  decide +kernel

end Component

end CssPrune
