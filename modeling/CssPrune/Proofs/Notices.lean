import CssPrune.Proofs.Isolation

/-!
# Notices

A notice is an at-rule without a block: a name and a word in quotes.  Of a list of them, all are read
but a `@charset` that leads the list; at top level the first `@charset` is read by itself, and it is
the next statement that leads the list (`Stylesheet.parse_notices`).
-/

namespace CssPrune

open Component (Spells UpTo)
open Grammar

/-- An at-rule that is no group, with a word in quotes. -/
structure Notice where
  name : Word
  word : Word
  alone : name.name ∉ Rule.groupNames

namespace Notice

/-- The word in its quotes. -/
def quoted (n : Notice) : List Char := '"' :: (n.word.text ++ ['"'])

/-- The quotes belong to the prelude. -/
def prelude (n : Notice) : String := String.ofList n.quoted

/-- The notice as it is written. -/
def text (n : Notice) : List Char := '@' :: n.name.text ++ ' ' :: n.quoted ++ [';']

/-- The rule that the notice is read as. -/
def rule (n : Notice) : Rule := .statement n.name.name n.prelude

/-- The encoding that a sheet declares. -/
def charset (w : Word) : Notice := ⟨⟨"charset".toList, nofun, rfl⟩, w, by decide⟩

end Notice

/-- Notices, one behind the other. -/
def noticesText (ns : List Notice) : List Char := ns.flatMap Notice.text

namespace Rule

/-- What is kept at top level, where a leading `@charset` is read before the list begins. -/
def sheetLessCharset : List Rule → List Rule
  | [] => []
  | r :: rs => r :: if r.isCharset then lessCharset rs else rs

end Rule

/-! ### Quoted words -/

section Quoted

variable {b : Option Bracket} {t : Terminators}

theorem ne_of_isLower {c : Char} (hc : c.isLower = true) (d : Char) (hd : d.isLower = false) :
    c ≠ d := by
  rintro rfl
  rw [hc] at hd
  cases hd

/-- A word is squeezed to itself. -/
theorem Word.isSteady (w : Word) : w.text.all Text.isSteady = true := by
  refine List.all_eq_true.2 fun c hc => ?_
  have hne := ne_of_isLower (w.isLower hc)
  have hblank := Text.not_isBlank_of_isAlpha (isAlpha_of_isLower (w.isLower hc))
  refine Text.isSteady_iff.2 ⟨hblank, ?_, hne '/' rfl, hne '\\' rfl⟩
  simp [Text.isQuote, hne '"' rfl, hne '\'' rfl]

/-- A string of small letters ends at its quote. -/
theorem Token.readString_small {x : List Char} (h : x.all Char.isLower = true) (r : List Char) :
    readString '"' (x ++ '"' :: r) = (x, true, r) := by
  induction x with
  | nil => rw [List.nil_append, readString, if_pos rfl]
  | cons c x ih =>
      rw [List.all_cons, Bool.and_eq_true] at h
      have hne := ne_of_isLower h.1
      have hline : isNewline c = false := by
        simp [isNewline, hne '\n' rfl, hne '\r' rfl, hne '\x0c' rfl]
      rw [List.cons_append, readString, if_neg (hne '"' rfl),
        if_neg (by rw [hline]; exact Bool.false_ne_true), if_neg (hne '\\' rfl), ih h.2, denull,
        if_neg (hne '\x00' rfl)]

namespace Notice

variable (n : Notice)

/-- The string of a notice, as a component. -/
def leaf : Component := .leaf ⟨.string n.word.name, n.quoted⟩

/-- The quoted word is one component in front of a semicolon. -/
theorem front?_quoted : Component.front? ';' n.quoted = some [n.leaf] := by
  have hread : Token.read '"' (n.word.text ++ '"' :: [';']) = (.string n.word.name, [';']) := by
    show Token.stringToken (Token.readString '"' _) = _
    rw [Token.readString_small n.word.small]
    rfl
  have hup : Token.upTo (n.quoted ++ [';']) [';'] = n.quoted := Token.upTo_suffix _ _
  have hscan : Lexeme.scan (n.quoted ++ [';']) =
      [⟨.string n.word.name, n.quoted⟩, Lexeme.mark ';'] := by
    have hcons : n.quoted ++ [';'] = '"' :: (n.word.text ++ '"' :: [';']) := by
      simp [quoted]
    rw [hcons] at hup ⊢
    rw [Lexeme.scan_cons, hread, hup, Lexeme.scan_mark rfl, Lexeme.scan_nil]
  rw [Component.front?, hscan]
  rfl

theorem reach?_quoted : Component.reach? b t ';' n.quoted = some [n.leaf] := by
  rw [Component.reach?, n.front?_quoted, Option.filter_some]
  refine if_pos ?_
  simp [leaf, Component.fitAll, Component.fits, Token.opens?, Token.closes?, Terminators.ending?]

theorem normalize_quoted : Text.normalize n.quoted = n.quoted := by
  have hrest := Text.squeeze_quoted_steady (q := '"') rfl n.word.isSteady ['"'] .flush
  rw [quoted, Text.normalize, Text.squeeze_visible rfl fun e => by cases e.1]
  exact congrArg ('"' :: ·) hrest

theorem toList_prelude : n.prelude.toList = n.quoted := String.toList_ofList

theorem normalText_prelude : NormalText n.prelude := by
  rw [NormalText, n.toList_prelude, n.normalize_quoted]

/-- Name and quoted word stand on their own in front of a semicolon. -/
theorem settledPrelude_quoted : settledPrelude b t ';' [] n.name.name n.prelude = true := by
  rw [settledPrelude, n.name.toList_name, n.toList_prelude, List.append_nil, n.name.spelled,
    n.reach?_quoted, n.normalize_quoted]
  simp

/-- A notice is the head of an at-rule and a semicolon. -/
theorem text_eq : n.text = atHead n.name.name n.prelude ++ [';'] := by
  have hne : n.prelude ≠ "" := by
    rw [ne_eq, String.ext_iff, n.toList_prelude]
    exact List.cons_ne_nil _ _
  rw [atHead, if_neg hne, n.name.toList_name, n.toList_prelude]
  rfl

theorem normal (p : Place) : n.rule.Normal p := by
  refine ⟨fun _ h => absurd h n.alone, lower_plainName ?_, n.normalText_prelude⟩
  rw [n.name.toList_name, n.name.plainName]

/-- A notice is read back wherever rules are read. -/
theorem yields {p : Place} (hp : p ≠ .block) :
    Yields rules Statement.rule p.bracket n.text (fine n.rule) := by
  rw [n.text_eq]
  exact yields_statement (l := .compressed) hp (n.normal p) n.settledPrelude_quoted

end Notice

theorem yields_notices {p : Place} (hp : p ≠ .block) : ∀ ns : List Notice,
    YieldsAll rules Statement.rule p.bracket (noticesText ns) ((ns.map Notice.rule).map fine)
  | [] => .nil
  | n :: ns => .cons (s := []) rfl (n.yields hp) (yields_notices hp ns)

end Quoted

/-! ### Lists of notices -/

namespace Stylesheet

/-- A sheet of notices gives its rules, less a `@charset` behind a leading one. -/
theorem parse_noticesText : ∀ ns : List Notice,
    parse (String.ofList (noticesText ns)) = ⟨Rule.sheetLessCharset (ns.map Notice.rule), [], []⟩
  | [] => parse_of_yields .nil rfl
  | n :: ns => by
      have hall := yields_notices (p := .sheet) (by decide)
      rw [List.map_cons, Rule.sheetLessCharset]
      split
      · next h =>
          -- the first notice is read by itself, and a list begins behind it
          have hname : n.name.name = "charset" := of_decide_eq_true h
          have hset := n.settledPrelude_quoted (b := none) (t := ⟨true, false⟩)
          rw [hname] at hset
          have htext : noticesText (n :: ns) =
              atHead "charset" n.prelude ++ ';' :: noticesText ns := by
            rw [noticesText, List.flatMap_cons, n.text_eq, hname, List.append_assoc]
            rfl
          rw [htext, parse_behind_charset (hall ns) n.normalText_prelude hset, Notice.rule, hname]
      · next h => exact parse_of_yields (hall (n :: ns)) (Bool.eq_false_iff.2 h)

/-- In a group a leading `@charset` is passed over. -/
theorem parse_media_noticesText (w : Word) (ns : List Notice) :
    parse (String.ofList (mediaText w ++ braced (noticesText ns) [])) =
      ⟨[.group "media" w.name (Rule.lessCharset (ns.map Notice.rule))], [], []⟩ := by
  obtain ⟨cs, hcs, hread⟩ := yields_notices (p := .group) (by decide) ns
  have hgroup : Yields Grammar.rules Statement.rule none (mediaText w ++ braced (noticesText ns) [])
      (fine (.group "media" w.name (Rule.lessCharset (ns.map Notice.rule)))) := by
    refine Yields.of_head (t := ⟨true, true⟩) skipsBlanks_rules ⟨_, rfl, rfl⟩ (upTo_media w rfl)
      (spells_braced rfl hcs) (fun d hd => Option.some.inj hd ▸ rfl) (fun more => rfl)
      (ending?_mediaHead w _) (ending?_braced rfl cs []) fun pos => ?_
    have hbody := readRules_lessCharset (hread.braced skipsBlanks_rules [])
    rw [Statement.rule_of_block (atName?_keyword rfl) rfl, if_pos (by decide), prelude_mediaHead,
      hbody, groupRule_fine]
    rfl
  have hall := YieldsAll.cons (s := []) rfl hgroup .nil
  rw [List.nil_append, List.append_nil] at hall
  exact parse_of_yields hall rfl

/-- **Notices.**  A list of notices is read as it stands, at top level and in a group, but for a
`@charset` that leads the list in a group, or stands second behind another at top level. -/
theorem parse_notices (ns : List Notice) (w : Word) :
    parse (String.ofList (noticesText ns)) =
        ⟨Rule.sheetLessCharset (ns.map Notice.rule), [], []⟩ ∧
      parse (String.ofList (mediaText w ++ braced (noticesText ns) [])) =
        ⟨[.group "media" w.name (Rule.lessCharset (ns.map Notice.rule))], [], []⟩ :=
  ⟨parse_noticesText ns, parse_media_noticesText w ns⟩

/-- Of two `@charset` the second is lost. -/
theorem parse_notices_lost :
    ¬∀ ns : List Notice,
      parse (String.ofList (noticesText ns)) = ⟨ns.map Notice.rule, [], []⟩ := by
  intro h
  have hlen := congrArg (fun sheet => sheet.rules.length)
    (h [.charset ⟨['a'], nofun, rfl⟩, .charset ⟨['b'], nofun, rfl⟩])
  revert hlen
  decide +kernel

end Stylesheet

end CssPrune
