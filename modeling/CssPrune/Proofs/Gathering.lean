import CssPrune.Component
import CssPrune.Proofs.Lexing

/-!
# Gathering a text piece by piece

A piece of text whose brackets all close, and which closes none that was open before, comes to the
same components wherever it stands.

* `gatherFrom_lexemesOf`: the lexemes of components that fit are gathered into these components.
* `gatherFrom_behind`: components in front of a text do not change what it comes to.
* `Spells`: a text comes to these components wherever it stands inside of a bracket `b`.
* `UpTo`: a text does so in front of a mark.  `front?` finds the components of such a text.

Blocks in curly brackets are put together from what they hold by `UpTo.block` and `Spells.block`.
-/

namespace CssPrune

theorem Token.opens?_of_closes? {t : Token} {b : Bracket} (h : t.closes? = some b) :
    t.opens? = none := by
  cases t <;> first | rfl | cases h

namespace Component

/-! ### The lexemes of a tree -/

mutual

/-- The lexemes of a component, from left to right. -/
def lexemes : Component → List Lexeme
  | .leaf x => [x]
  | .block opener body closer => opener :: (lexemesOf body ++ closer.toList)

def lexemesOf : List Component → List Lexeme
  | [] => []
  | c :: cs => c.lexemes ++ lexemesOf cs

end

/-- Components one behind the other have their lexemes one behind the other. -/
theorem lexemesOf_append (cs ds : List Component) :
    lexemesOf (cs ++ ds) = lexemesOf cs ++ lexemesOf ds := by
  induction cs with
  | nil => rfl
  | cons c cs ih => rw [List.cons_append, lexemesOf, lexemesOf, ih, List.append_assoc]

/-- The lexemes read so far: of the open blocks from the outermost in, then of the innermost
level. -/
def lexemesBefore (level : List Component) : List Unclosed → List Lexeme
  | [] => lexemesOf level.reverse
  | u :: us => lexemesBefore u.before us ++ u.opener :: lexemesOf level.reverse

/-- A component that is added to a level adds its lexemes behind those read before. -/
theorem lexemesBefore_cons (c : Component) (level : List Component) (us : List Unclosed) :
    lexemesBefore (c :: level) us = lexemesBefore level us ++ c.lexemes := by
  cases us with
  | nil => simp [lexemesBefore, lexemesOf_append, lexemesOf]
  | cons u us => simp [lexemesBefore, lexemesOf_append, lexemesOf]

/-- Closing what is open neither adds nor loses lexemes. -/
theorem lexemesOf_closeAll (level : List Component) (us : List Unclosed) :
    lexemesOf (closeAll level us) = lexemesBefore level us := by
  induction us generalizing level with
  | nil => rfl
  | cons u us ih =>
      rw [closeAll, ih, lexemesBefore_cons, lexemesBefore, lexemes, Option.toList_none,
        List.append_nil]

/-- Whatever is open, gathering lexemes keeps all of them in order. -/
theorem lexemesOf_gatherFrom (level : List Component) (us : List Unclosed) (xs : List Lexeme) :
    lexemesOf (gatherFrom level us xs) = lexemesBefore level us ++ xs := by
  induction xs generalizing level us with
  | nil => rw [gatherFrom, lexemesOf_closeAll, List.append_nil]
  | cons x xs ih =>
      unfold gatherFrom
      split
      · rw [ih]; simp [lexemesBefore, lexemesOf]
      split
      · rw [ih, lexemesBefore_cons]; simp [lexemes]
      split
      · rw [ih, lexemesBefore_cons]; simp [lexemes, lexemesBefore]
      · rw [ih, lexemesBefore_cons]; simp [lexemes]

/-- **The components of lexemes have these lexemes.** -/
theorem lexemesOf_gather (xs : List Lexeme) : lexemesOf (gather xs) = xs := by
  rw [gather, lexemesOf_gatherFrom]; rfl

/-! ### Components that fit into their surroundings -/

mutual

/-- Inside of a bracket `b` the lexemes of the component come to the component: its blocks are
closed, and no leaf closes `b`. -/
def fits (b : Option Bracket) : Component → Bool
  | .leaf x => x.token.opens?.isNone && (x.token.closes?.isNone || x.token.closes? != b)
  | .block opener body closer =>
    opener.token.opens?.isSome && closer.any (fun y => y.token.closes? = opener.token.opens?) &&
      fitAll opener.token.opens? body

def fitAll (b : Option Bracket) : List Component → Bool
  | [] => true
  | c :: cs => c.fits b && fitAll b cs

end

/-- The innermost bracket that is open. -/
def enclosing (us : List Unclosed) : Option Bracket :=
  us.head?.bind fun u => u.opener.token.opens?

/-- A lexeme that fits and opens nothing becomes a leaf. -/
theorem gatherFrom_leaf {x : Lexeme} {us : List Unclosed} (level : List Component)
    (xs : List Lexeme) (h : fits (enclosing us) (.leaf x) = true) :
    gatherFrom level us (x :: xs) = gatherFrom (.leaf x :: level) us xs := by
  simp only [fits, Bool.and_eq_true, Option.isNone_iff_eq_none, Bool.or_eq_true, bne_iff_ne] at h
  have ho : ¬x.token.opens?.isSome = true := by rw [h.1]; exact Bool.false_ne_true
  cases us with
  | nil => exact if_neg ho
  | cons u us =>
      refine (if_neg ho).trans (if_neg fun e => ?_)
      rw [Bool.and_eq_true, decide_eq_true_eq] at e
      rcases h.2 with hn | hne
      · rw [hn] at e; cases e.1
      · exact hne e.2

/-- A bracket that opens begins a level of its own. -/
theorem gatherFrom_opener {x : Lexeme} (h : x.token.opens?.isSome = true) (level : List Component)
    (us : List Unclosed) (xs : List Lexeme) :
    gatherFrom level us (x :: xs) = gatherFrom [] (⟨level, x⟩ :: us) xs :=
  if_pos h

/-- The bracket that belongs to it makes a block of this level. -/
theorem gatherFrom_closer {x y : Lexeme} (hx : x.token.opens?.isSome = true)
    (h : y.token.closes? = x.token.opens?) (level before : List Component) (us : List Unclosed)
    (ys : List Lexeme) :
    gatherFrom level (⟨before, x⟩ :: us) (y :: ys) =
      gatherFrom (.block x level.reverse (some y) :: before) us ys := by
  obtain ⟨b, hb⟩ := Option.isSome_iff_exists.1 hx
  have hy : ¬y.token.opens?.isSome = true := by
    rw [Token.opens?_of_closes? (h.trans hb)]; exact Bool.false_ne_true
  exact (if_neg hy).trans (if_pos (by rw [h, hb]; simp))

mutual

/-- The lexemes of a component that fits come to the component. -/
theorem gatherFrom_lexemes (level : List Component) (us : List Unclosed) (xs : List Lexeme) :
    ∀ c : Component, c.fits (enclosing us) = true →
      gatherFrom level us (c.lexemes ++ xs) = gatherFrom (c :: level) us xs
  | .leaf x, h => gatherFrom_leaf level xs h
  | .block x body closer, h => by
      rw [fits, Bool.and_eq_true, Bool.and_eq_true, Option.any_eq_true] at h
      obtain ⟨⟨hx, y, rfl, hy⟩, hb⟩ := h
      have ih := gatherFrom_lexemesOf [] (⟨level, x⟩ :: us) (y :: xs) body hb
      have hl : lexemes (.block x body (some y)) ++ xs = x :: (lexemesOf body ++ y :: xs) := by
        simp [lexemes]
      rw [hl, gatherFrom_opener hx, ih, gatherFrom_closer hx (of_decide_eq_true hy)]
      simp

/-- Components that fit are gathered again from their lexemes. -/
theorem gatherFrom_lexemesOf (level : List Component) (us : List Unclosed) (xs : List Lexeme) :
    ∀ cs : List Component, fitAll (enclosing us) cs = true →
      gatherFrom level us (lexemesOf cs ++ xs) = gatherFrom (cs.reverse ++ level) us xs
  | [], _ => rfl
  | c :: cs, h => by
      rw [fitAll, Bool.and_eq_true] at h
      rw [lexemesOf, List.append_assoc, gatherFrom_lexemes level us _ c h.1,
        gatherFrom_lexemesOf _ us xs cs h.2]
      simp

end

/-! ### Behind other components -/

/-- The innermost level, when the components `cs` stand in front of the outermost one. -/
def levelBehind (cs level : List Component) : List Unclosed → List Component
  | [] => level ++ cs.reverse
  | _ :: _ => level

/-- The blocks that are open, when the components `cs` stand in front of the outermost one. -/
def unclosedBehind (cs : List Component) : List Unclosed → List Unclosed
  | [] => []
  | u :: us => ⟨levelBehind cs u.before us, u.opener⟩ :: unclosedBehind cs us

/-- Closing what is open leaves components in front of the text where they are. -/
theorem closeAll_behind (cs level : List Component) (us : List Unclosed) :
    closeAll (levelBehind cs level us) (unclosedBehind cs us) = cs ++ closeAll level us := by
  induction us generalizing level with
  | nil => simp [levelBehind, unclosedBehind, closeAll]
  | cons u us ih =>
      rw [unclosedBehind, closeAll, closeAll, ← ih (.block u.opener level.reverse none :: u.before)]
      cases us <;> rfl

/-- Components in front do not change how the lexemes behind them are gathered. -/
theorem gatherFrom_behind (cs level : List Component) (us : List Unclosed) (xs : List Lexeme) :
    gatherFrom (levelBehind cs level us) (unclosedBehind cs us) xs =
      cs ++ gatherFrom level us xs := by
  induction xs generalizing level us with
  | nil => exact closeAll_behind cs level us
  | cons x xs ih =>
      by_cases ho : x.token.opens?.isSome = true
      -- an opening bracket: the level waits
      · rw [gatherFrom_opener ho, gatherFrom_opener ho]
        exact ih [] (⟨level, x⟩ :: us)
      cases us with
      | nil =>
          rw [gatherFrom, if_neg ho]
          exact (if_neg ho).trans (ih (.leaf x :: level) [])
      | cons u us =>
          rw [gatherFrom, if_neg ho, unclosedBehind, gatherFrom, if_neg ho]
          simp only
          split
          -- a closing bracket: the block goes to the level in front of it
          · rw [← ih (.block u.opener level.reverse (some x) :: u.before) us]
            cases us <;> rfl
          · exact ih (.leaf x :: level) (u :: us)

/-! ### Texts that spell components -/

/-- The text comes to these components wherever it stands in a bracket `b`, whatever follows. -/
def Spells (b : Option Bracket) (x : List Char) (cs : List Component) : Prop :=
  ∀ level us r, enclosing us = b →
    gatherFrom level us (Lexeme.scan (x ++ r)) = gatherFrom (cs.reverse ++ level) us (Lexeme.scan r)

/-- The text comes to these components in front of the mark `f`. -/
def UpTo (b : Option Bracket) (f : Char) (x : List Char) (cs : List Component) : Prop :=
  ∀ level us r, enclosing us = b →
    gatherFrom level us (Lexeme.scan (x ++ f :: r)) =
      gatherFrom (cs.reverse ++ level) us (Lexeme.scan (f :: r))

/-- The components in front of the mark `f` behind a text, unless the text takes the mark in. -/
def front? (f : Char) (x : List Char) : Option (List Component) :=
  let xs := Lexeme.scan (x ++ [f])
  if xs.getLast? = some (Lexeme.mark f) then some (gather xs.dropLast) else none

section Spells

variable {b : Option Bracket} {f : Char} {x y : List Char} {cs ds : List Component}

/-- The components of a text that leaves nothing open come first, whatever follows. -/
theorem ofText_append (h : Spells none x cs) (r : List Char) :
    ofText (x ++ r) = cs ++ ofText r := by
  rw [ofText, gather, h [] [] r rfl, List.append_nil]
  exact gatherFrom_behind cs [] [] (Lexeme.scan r)

@[simp] theorem ofText_nil : ofText [] = [] := by
  rw [ofText, Lexeme.scan_nil]
  rfl

theorem ofText_of_spells (h : Spells none x cs) : ofText x = cs := by
  simpa using ofText_append h []

theorem Spells.nil : Spells b [] [] := fun _ _ _ _ => rfl

theorem Spells.append (hx : Spells b x cs) (hy : Spells b y ds) : Spells b (x ++ y) (cs ++ ds) := by
  intro level us r h
  rw [List.append_assoc, hx level us _ h, hy _ us r h, List.reverse_append, List.append_assoc]

theorem UpTo.nil : UpTo b f [] [] := fun _ _ _ _ => rfl

/-- A text in front of a mark, and the mark with what belongs to it behind. -/
theorem UpTo.append (hx : UpTo b f x cs) (hy : Spells b (f :: y) ds) :
    Spells b (x ++ f :: y) (cs ++ ds) := by
  intro level us r h
  rw [List.append_assoc, List.cons_append, hx level us _ h, ← List.cons_append, hy _ us r h,
    List.reverse_append, List.append_assoc]

/-- A text that spells components in front of one that does so up to a mark. -/
theorem Spells.upTo (hx : Spells b x cs) (hy : UpTo b f y ds) : UpTo b f (x ++ y) (cs ++ ds) := by
  intro level us r h
  rw [List.append_assoc, hx level us _ h, hy _ us r h, List.reverse_append, List.append_assoc]

/-- The components that `front?` finds are what the text comes to, if they fit. -/
theorem upTo_of_front? (hf : Token.standsAlone f = true) (h : front? f x = some cs)
    (hb : fitAll b cs = true) : UpTo b f x cs := by
  intro level us r hu
  simp only [front?] at h
  split at h
  · next hl =>
      obtain ⟨xs, hxs⟩ := List.getLast?_eq_some_iff.1 hl
      rw [hxs, List.dropLast_concat] at h
      obtain rfl : gather xs = cs := Option.some.inj h
      -- what was gathered of the text alone is gathered again at this level
      have hg := gatherFrom_lexemesOf level us (Lexeme.scan (f :: r)) (gather xs) (hu ▸ hb)
      rw [lexemesOf_gather] at hg
      rw [Lexeme.scan_append hf hxs, ← Lexeme.scan_mark hf, hg]
  · cases h

/-- A token that is read as far as its text goes, and what comes to components behind it. -/
theorem UpTo.leaf {t : Token} {c : Char} {u : List Char}
    (hr : ∀ r, Token.read c (u ++ (x ++ f :: r)) = (t, x ++ f :: r))
    (ht : fits b (.leaf ⟨t, c :: u⟩) = true) (hx : UpTo b f x cs) :
    UpTo b f (c :: u ++ x) (.leaf ⟨t, c :: u⟩ :: cs) := by
  intro level us r hu
  have hup := Token.upTo_suffix (c :: u) (x ++ f :: r)
  rw [List.cons_append] at hup
  rw [List.append_assoc, List.cons_append, Lexeme.scan_cons, hr, hup,
    gatherFrom_leaf _ _ (hu ▸ ht), hx _ us r hu]
  simp

theorem spells_mark (hf : Token.standsAlone f = true)
    (h : fits b (.leaf (Lexeme.mark f)) = true) : Spells b [f] [.leaf (Lexeme.mark f)] := by
  intro level us r hu
  rw [List.singleton_append, Lexeme.scan_mark hf, gatherFrom_leaf level _ (hu ▸ h)]
  rfl

/-- A run of blanks, as a component. -/
def blanks (s : List Char) : List Component :=
  if s = [] then [] else [.leaf ⟨.space (String.ofList s), s⟩]

/-- A whole run of blanks is one lexeme. -/
theorem scan_blanks {s : List Char} (hs : s.all Token.isSpace = true) (hne : s ≠ [])
    (hy : y.head?.all (fun c => !Token.isSpace c) = true) :
    Lexeme.scan (s ++ y) = ⟨.space (String.ofList s), s⟩ :: Lexeme.scan y := by
  cases s with
  | nil => exact absurd rfl hne
  | cons c s =>
      rw [List.all_cons, Bool.and_eq_true] at hs
      have hd : y.dropWhile Token.isSpace = y := by
        cases y with
        | nil => rfl
        | cons d y => exact List.dropWhile_cons_of_neg (by simpa using hy)
      have ht : y.takeWhile Token.isSpace = [] := by
        cases y with
        | nil => rfl
        | cons d y => exact List.takeWhile_cons_of_neg (by simpa using hy)
      have hall : ∀ a ∈ s, Token.isSpace a = true := List.all_eq_true.1 hs.2
      have hread : Token.read c (s ++ y) = (.space (String.ofList (c :: s)), y) := by
        rw [Token.read, if_pos hs.1, List.takeWhile_append_of_pos hall,
          List.dropWhile_append_of_pos hall, hd, ht, List.append_nil]
      have hup := Token.upTo_suffix (c :: s) y
      rw [List.cons_append] at hup ⊢
      rw [Lexeme.scan_cons, hread, hup]

/-- A run of blanks in front of something else is one component. -/
theorem gatherFrom_blanks {s : List Char} (hs : s.all Token.isSpace = true)
    (hy : ∃ c, y.head? = some c ∧ Token.isSpace c = false) (level : List Component)
    (us : List Unclosed) :
    gatherFrom level us (Lexeme.scan (s ++ y)) =
      gatherFrom ((blanks s).reverse ++ level) us (Lexeme.scan y) := by
  by_cases hne : s = []
  · subst hne; rfl
  obtain ⟨c, hc, hn⟩ := hy
  rw [scan_blanks hs hne (by rw [hc]; simp [hn]), blanks, if_neg hne,
    gatherFrom_leaf _ _ (by simp [fits, Token.opens?, Token.closes?])]
  rfl

/-- Blanks in front of a text are a component of their own. -/
theorem ofText_blanks {s : List Char} (hs : s.all Token.isSpace = true)
    (hy : y.head?.all (fun c => !Token.isSpace c) = true) :
    ofText (s ++ y) = blanks s ++ ofText y := by
  by_cases hne : s = []
  · subst hne; rfl
  rw [ofText, gather, scan_blanks hs hne hy, blanks, if_neg hne,
    gatherFrom_leaf _ _ (by simp [fits, Token.opens?, Token.closes?])]
  exact gatherFrom_behind [_] [] [] (Lexeme.scan y)

/-- Blanks in front of a text that does not begin with one. -/
theorem Spells.blanks {s : List Char} (hs : s.all Token.isSpace = true)
    (hx : ∃ c, x.head? = some c ∧ Token.isSpace c = false) (h : Spells b x cs) :
    Spells b (s ++ x) (blanks s ++ cs) := by
  intro level us r hu
  have hx' : ∃ c, (x ++ r).head? = some c ∧ Token.isSpace c = false := by
    cases x with
    | nil => obtain ⟨c, hc, -⟩ := hx; cases hc
    | cons d x => exact hx
  rw [List.append_assoc, gatherFrom_blanks hs hx', h _ us r hu, List.reverse_append,
    List.append_assoc]

/-- Blanks can stand in front of a text that reaches a mark. -/
theorem UpTo.blanks {s : List Char} (hs : s.all Token.isSpace = true)
    (hx : ∃ c, (x ++ [f]).head? = some c ∧ Token.isSpace c = false) (h : UpTo b f x cs) :
    UpTo b f (s ++ x) (blanks s ++ cs) := by
  intro level us r hu
  have hx' : ∃ c, (x ++ f :: r).head? = some c ∧ Token.isSpace c = false := by
    cases x <;> exact hx
  rw [List.append_assoc, gatherFrom_blanks hs hx', h _ us r hu, List.reverse_append,
    List.append_assoc]

/-- A block in curly brackets. -/
theorem UpTo.block (h : UpTo (some .curly) '\x7d' x cs) :
    Spells b ('\x7b' :: (x ++ ['\x7d']))
      [.block (Lexeme.mark '\x7b') cs (some (Lexeme.mark '\x7d'))] := by
  intro level us r _
  -- the level in front waits while the block is open, and gets it when it is closed
  have hopen : (Lexeme.mark '\x7b').token.opens?.isSome = true := rfl
  have hx := h [] (⟨level, Lexeme.mark '\x7b'⟩ :: us) r rfl
  rw [List.append_nil] at hx
  rw [List.cons_append, Lexeme.scan_mark rfl, gatherFrom_opener hopen, List.append_assoc,
    List.singleton_append, hx, Lexeme.scan_mark rfl, gatherFrom_closer hopen rfl]
  simp

/-- A block with blanks in front of the bracket that closes it. -/
theorem Spells.block {s : List Char} (hs : s.all Token.isSpace = true)
    (h : Spells (some .curly) x cs) :
    Spells b ('\x7b' :: (x ++ (s ++ ['\x7d'])))
      [.block (Lexeme.mark '\x7b') (cs ++ Component.blanks s) (some (Lexeme.mark '\x7d'))] := by
  have hs' : UpTo (some .curly) '\x7d' s (Component.blanks s) := by
    have := UpTo.blanks (x := []) (b := some .curly) (f := '\x7d') hs ⟨_, rfl, rfl⟩ .nil
    rwa [List.append_nil, List.append_nil] at this
  have := UpTo.block (b := b) (h.upTo hs')
  rwa [List.append_assoc] at this

end Spells

end Component

end CssPrune
