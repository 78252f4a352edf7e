import CssPrune.Options.Reader
import Mathlib.Data.List.TakeWhile
import Mathlib.Data.Nat.Digits.Defs

/-!
# JSON texts

How JSON writes strings, truth values, objects and lists, apart from any reader.  What stands between
the quotes of a string is a `Spelling` of it, character by character; an object or a list is the text
of its `Items` in brackets.

The readers take in just the texts that are written so: `accepts_readUnicode` and `accepts_readEscape`
for escapes, `readString_eq_ok_iff` for strings, `accepts_readBool` for truth values.
-/

namespace CssPrune

namespace Except

variable {ε α β : Type} {x : Except ε α} {b : β}

/-- Two steps succeed if the first does and the second does with what the first gives. -/
theorem bind_eq_ok_iff {f : α → Except ε β} : (x >>= f) = .ok b ↔ ∃ a, x = .ok a ∧ f a = .ok b := by
  cases x with
  | error e => exact ⟨nofun, nofun⟩
  | ok a => exact ⟨fun h => ⟨a, rfl, h⟩, fun ⟨_, rfl, h⟩ => h⟩

theorem bind_ne_ok {f : α → Except ε β} (h : ∀ a, f a ≠ .ok b) : (x >>= f) ≠ .ok b := fun e =>
  let ⟨a, _, ha⟩ := bind_eq_ok_iff.1 e
  h a ha

theorem map_eq_ok_iff {f : α → β} : x.map f = .ok b ↔ ∃ a, x = .ok a ∧ f a = b := by
  cases x with
  | error e => exact ⟨nofun, nofun⟩
  | ok a => exact ⟨fun h => ⟨a, rfl, Except.ok.inj h⟩, fun ⟨_, rfl, h⟩ => congrArg _ h⟩

end Except

namespace Json

/-! ### How JSON is written -/

/-- Blanks between two marks. -/
def Blanks (s : List Char) : Prop := ∀ c ∈ s, c = ' ' ∨ c = '\t' ∨ c = '\n' ∨ c = '\r'

/-- Four hexadecimal digits. -/
structure Hex (n : Nat) (ds : List Char) : Prop where
  length : ds.length = 4
  digits : ∀ d ∈ ds, Token.isHexDigit d = true
  value : n = Nat.ofDigits 16 (ds.reverse.map Token.hexValue)

/-- The characters that have an escape of one mark, each with that mark. -/
def shortEscapes : List (Char × Char) :=
  [('"', '"'), ('\\', '\\'), ('/', '/'), ('\x08', 'b'), ('\x0c', 'f'), ('\n', 'n'), ('\r', 'r'),
    ('\t', 't')]

/-- What stands for a character by its code.  A character beyond four digits is written as two halves,
neither of which stands for a character by itself. -/
inductive Coded : Char → List Char → Prop where
  | whole {n : Nat} {ds : List Char} :
      Hex n ds → n < 0xd800 ∨ 0xe000 ≤ n → Coded (Char.ofNat n) ds
  | halved {m n : Nat} {ds es : List Char} :
      Hex m ds → Hex n es → 0xd800 ≤ m ∧ m < 0xdc00 → 0xdc00 ≤ n ∧ n < 0xe000 →
      Coded (Char.ofNat ((m - 0xd800) * 0x400 + (n - 0xdc00) + 0x10000)) (ds ++ ['\\', 'u'] ++ es)

/-- What stands for a character behind a backslash. -/
inductive Escape : Char → List Char → Prop where
  | short {c d : Char} : (c, d) ∈ shortEscapes → Escape c [d]
  | coded {c : Char} {t : List Char} : Coded c t → Escape c ('u' :: t)

/-- What stands for a character in a string. -/
inductive CharSpelling : Char → List Char → Prop where
  | plain {c : Char} : ' ' ≤ c → c ≠ '"' → c ≠ '\\' → CharSpelling c [c]
  | escaped {c : Char} {t : List Char} : Escape c t → CharSpelling c ('\\' :: t)

/-- What stands for a string between the quotes. -/
inductive Spelling : List Char → List Char → Prop where
  | nil : Spelling [] []
  | cons {c : Char} {s t u : List Char} :
      CharSpelling c t → Spelling s u → Spelling (c :: s) (t ++ u)

/-- A string with its quotes. -/
def StringText (s : String) (t : List Char) : Prop :=
  ∃ u, Spelling s.toList u ∧ t = '"' :: u ++ ['"']

/-- The word for a truth value. -/
def BoolText (b : Bool) (t : List Char) : Prop := t = (if b then "true" else "false").toList

/-- Blanks in front of something. -/
def Led {α : Type} (p : α → List Char → Prop) (a : α) (t : List Char) : Prop :=
  ∃ s u, Blanks s ∧ p a u ∧ t = s ++ u

/-- What stands in front of an item: blanks, with a comma among them unless it is the first. -/
def Lead : Bool → List Char → Prop
  | true, s => Blanks s
  | false, s => ∃ t u, Blanks t ∧ Blanks u ∧ s = t ++ ',' :: u

/-- Items with blanks around them and commas between. -/
inductive Items {α : Type} (p : α → List Char → Prop) : Bool → List α → List Char → Prop where
  | nil {first : Bool} {s : List Char} : Blanks s → Items p first [] s
  | cons {first : Bool} {a : α} {as : List α} {s t u : List Char} :
      Lead first s → p a t → Items p false as u → Items p first (a :: as) (s ++ t ++ u)

/-- Items in brackets, with blanks around them. -/
def Bracketed {α : Type} (opener closer : Char) (p : α → List Char → Prop) (as : List α)
    (text : List Char) : Prop :=
  ∃ s t u, Blanks s ∧ Items p true as t ∧ Blanks u ∧ text = s ++ opener :: t ++ closer :: u

/-- A key and its value. -/
def Member {α : Type} (p : α → List Char → Prop) (m : String × α) (text : List Char) : Prop :=
  ∃ k s t, StringText m.1 k ∧ Blanks s ∧ Led p m.2 t ∧ text = k ++ s ++ ':' :: t

/-- An object: members in curly brackets. -/
def ObjectText {α : Type} (p : α → List Char → Prop) : List (String × α) → List Char → Prop :=
  Bracketed '\x7b' '\x7d' (Member p)

/-- A list: items in square brackets. -/
def ListText {α : Type} (p : α → List Char → Prop) : List α → List Char → Prop :=
  Bracketed '[' ']' p

/-! ### Readers -/

open Options

/-- The reader takes in the texts that stand for something, and whatever follows is left. -/
def Accepts {ε α : Type} (read : List Char → Except ε (α × List Char)) (p : α → List Char → Prop) :
    Prop :=
  ∀ cs a rest, read cs = .ok (a, rest) ↔ ∃ t, p a t ∧ cs = t ++ rest

/-- What has been read stands in front of what is left. -/
theorem Accepts.text {ε α : Type} {read : List Char → Except ε (α × List Char)}
    {p : α → List Char → Prop} (h : Accepts read p) {cs rest : List Char} {a : α}
    (hr : read cs = .ok (a, rest)) : ∃ t, p a t ∧ cs = t ++ rest :=
  (h cs a rest).1 hr

/-- A text that stands for something is read, whatever follows it. -/
theorem Accepts.ok {ε α : Type} {read : List Char → Except ε (α × List Char)}
    {p : α → List Char → Prop} (h : Accepts read p) {t rest : List Char} {a : α} (ht : p a t) :
    read (t ++ rest) = .ok (a, rest) :=
  (h _ a rest).2 ⟨t, ht, rfl⟩

theorem failBefore_ne_ok {α : Type} {flaw : Flaw} {rest : List Char} {a : α} :
    failBefore flaw rest ≠ .ok a := by
  rintro ⟨⟩

theorem failIn_ne_ok {α : Type} {flaw : Flaw} {rest : List Char} {a : α} :
    failIn flaw rest ≠ .ok a := by
  rintro ⟨⟩

/-- A word is read letter by letter, and nothing else is. -/
theorem readWord_eq_ok_iff {w cs rest : List Char} :
    readWord w cs = .ok rest ↔ cs = w ++ rest := by
  fun_induction readWord w cs with
  | case1 cs => exact ⟨fun h => by cases h; rfl, fun h => congrArg _ h⟩
  | case2 w ws => exact ⟨nofun, nofun⟩
  | case3 ws c cs ih => rw [ih, List.cons_append, List.cons_inj_right]
  | case4 w ws c cs h => exact ⟨nofun, fun e => absurd (List.cons.inj e).1.symm h⟩

theorem readMarks_eq_ok_iff {ms cs rest : List Char} :
    readMarks ms cs = .ok rest ↔ cs = ms ++ rest := by
  fun_induction readMarks ms cs with
  | case1 cs => exact ⟨fun h => by cases h; rfl, fun h => congrArg _ h⟩
  | case2 m ms => exact ⟨nofun, nofun⟩
  | case3 ms c cs ih => rw [ih, List.cons_append, List.cons_inj_right]
  | case4 m ms c cs h => exact ⟨nofun, fun e => absurd (List.cons.inj e).1.symm h⟩

/-! ### Escapes -/

/-- The code of digits is the number that they write, the last digit counting once. -/
theorem hexCode_eq (ds : List Char) :
    hexCode ds = Nat.ofDigits 16 (ds.reverse.map Token.hexValue) := by
  rw [hexCode, Nat.ofDigits_eq_foldr, List.foldr_map, List.foldr_reverse]
  exact congrArg (fun f => ds.foldl f 0) (funext fun n => funext fun d => Nat.add_comm _ _)

theorem bytes_cons (c : Char) (cs : List Char) : bytes (c :: cs) = c.utf8Size + bytes cs := by
  have h : ∀ cs, bytes cs = (cs.map Char.utf8Size).sum := fun cs => by
    rw [List.sum_eq_foldl, List.foldl_map]; rfl
  rw [h, h, List.map_cons, List.sum_cons]

/-- Each character takes a byte at least. -/
theorem length_le_bytes (cs : List Char) : cs.length ≤ bytes cs := by
  induction cs with
  | nil => exact Nat.le_refl 0
  | cons c cs ih =>
      have := Char.utf8Size_pos c
      rw [bytes_cons, List.length_cons]
      omega

/-- Hexadecimal digits take a byte each. -/
theorem bytes_of_isHexDigit {ds : List Char} (h : ∀ d ∈ ds, Token.isHexDigit d = true) :
    bytes ds = ds.length := by
  induction ds with
  | nil => rfl
  | cons d ds ih =>
      have hd : d.utf8Size = 1 := by
        have hd := h d List.mem_cons_self
        simp only [Token.isHexDigit, Bool.or_eq_true, Bool.and_eq_true, decide_eq_true_eq,
          Text.isDigit_iff] at hd
        rw [Char.utf8Size_eq_one_iff]
        show d.toNat ≤ 127
        rcases hd with (hd | ⟨-, hd⟩) | ⟨-, hd⟩
        · omega
        · exact Nat.le_trans hd (by decide)
        · exact Nat.le_trans hd (by decide)
      rw [bytes_cons, ih fun e he => h e (List.mem_cons_of_mem _ he), hd, List.length_cons,
        Nat.add_comm]

/-- Four digits are read, no more and no fewer. -/
theorem accepts_readHex : Accepts readHex Hex := by
  intro cs n rest
  rw [readHex]
  constructor
  · intro h
    split at h
    · cases h
    next hbytes =>
    split at h
    · next hall =>
        cases h
        have hall := List.all_eq_true.1 hall
        refine ⟨cs.take 4, ⟨?_, hall, hexCode_eq _⟩, (List.take_append_drop 4 cs).symm⟩
        -- a text of four bytes has four characters, unless one of them is no digit
        by_contra hlen
        have hle : cs.length ≤ 4 := by
          rw [List.length_take] at hlen; omega
        rw [List.take_of_length_le hle] at hall hlen
        rw [bytes_of_isHexDigit hall] at hbytes
        omega
    · cases h
  · rintro ⟨ds, hds, rfl⟩
    have hbytes := length_le_bytes (ds ++ rest)
    rw [List.length_append, hds.length] at hbytes
    have htake : (ds ++ rest).take 4 = ds := List.take_left' hds.length
    have hdrop : (ds ++ rest).drop 4 = rest := List.drop_left' hds.length
    rw [if_neg (by omega), htake, hdrop, if_pos (List.all_eq_true.2 hds.digits), hexCode_eq,
      ← hds.value]

theorem isTrailing_iff {n : Nat} : isTrailing n = true ↔ 0xdc00 ≤ n ∧ n < 0xe000 := by
  simp [isTrailing]

theorem isLeading_iff {n : Nat} : isLeading n = true ↔ 0xd800 ≤ n ∧ n < 0xdc00 := by
  simp [isLeading]

/-- What is read behind a `u` codes the character. -/
theorem coded_of_readUnicode {cs rest : List Char} {c : Char}
    (h : readUnicode cs = .ok (c, rest)) : ∃ t, Coded c t ∧ cs = t ++ rest := by
  rw [readUnicode, Except.bind_eq_ok_iff] at h
  obtain ⟨⟨m, cs₁⟩, hm, h⟩ := h
  obtain ⟨ds, hds, rfl⟩ := accepts_readHex.text hm
  simp only at h
  split at h
  · cases h
  next htrail =>
  rw [isTrailing_iff] at htrail
  split at h
  -- the first half of a pair
  · next hlead =>
      rw [isLeading_iff] at hlead
      rw [Except.bind_eq_ok_iff] at h
      obtain ⟨cs₂, hmarks, h⟩ := h
      rw [Except.bind_eq_ok_iff] at h
      obtain ⟨⟨n, cs₃⟩, hn, h⟩ := h
      obtain rfl := readMarks_eq_ok_iff.1 hmarks
      obtain ⟨es, hes, rfl⟩ := accepts_readHex.text hn
      simp only at h
      split at h
      · next hn =>
          obtain ⟨rfl, rfl⟩ := Prod.mk.inj (Except.ok.inj h)
          exact ⟨_, .halved hds hes hlead (isTrailing_iff.1 hn), by simp⟩
      · cases h
  · next hlead =>
      rw [isLeading_iff] at hlead
      obtain ⟨rfl, rfl⟩ := Prod.mk.inj (Except.ok.inj h)
      exact ⟨ds, .whole hds (by omega), rfl⟩

/-- What codes a character is read as it. -/
theorem readUnicode_of_coded {c : Char} {t : List Char} (h : Coded c t) (rest : List Char) :
    readUnicode (t ++ rest) = .ok (c, rest) := by
  cases h with
  | @whole n ds hds hn =>
      have htrail : ¬isTrailing n = true := by rw [isTrailing_iff]; omega
      have hlead : ¬isLeading n = true := by rw [isLeading_iff]; omega
      refine Except.bind_eq_ok_iff.2 ⟨_, accepts_readHex.ok hds, ?_⟩
      exact (if_neg htrail).trans (if_neg hlead)
  | @halved m n ds es hds hes hm hn =>
      have htrail : ¬isTrailing m = true := by rw [isTrailing_iff]; omega
      rw [List.append_assoc, List.append_assoc]
      refine Except.bind_eq_ok_iff.2 ⟨_, accepts_readHex.ok hds, ?_⟩
      refine (if_neg htrail).trans ((if_pos (isLeading_iff.2 hm)).trans ?_)
      refine Except.bind_eq_ok_iff.2 ⟨_, readMarks_eq_ok_iff.2 rfl, ?_⟩
      refine Except.bind_eq_ok_iff.2 ⟨_, accepts_readHex.ok hes, ?_⟩
      exact if_pos (isTrailing_iff.2 hn)

theorem accepts_readUnicode : Accepts readUnicode Coded :=
  fun _ _ rest => ⟨coded_of_readUnicode, fun ⟨_, h, e⟩ => e ▸ readUnicode_of_coded h rest⟩

/-- Escapes are read, and nothing else is. -/
theorem accepts_readEscape : Accepts readEscape Escape := by
  intro cs c rest
  constructor
  · intro h
    have short : ∀ {c d : Char} {cs : List Char}, (c, d) ∈ shortEscapes →
        ∃ t, Escape c t ∧ d :: cs = t ++ cs := fun h => ⟨_, .short h, rfl⟩
    unfold readEscape at h
    split at h
    · cases h
    iterate 5
      · cases h
        exact short (by decide)
    · obtain ⟨t, ht, rfl⟩ := accepts_readUnicode.text h
      exact ⟨_, .coded ht, rfl⟩
    · split at h
      · next d cs _ _ _ _ _ _ hd =>
          cases h
          simp only [Bool.or_eq_true, decide_eq_true_eq, or_assoc] at hd
          rcases hd with rfl | rfl | rfl <;> exact short (by decide)
      · cases h
  · rintro ⟨t, h, rfl⟩
    cases h with
    | short h =>
        simp only [shortEscapes, List.mem_cons, Prod.mk.injEq, List.not_mem_nil, or_false] at h
        rcases h with ⟨rfl, rfl⟩ | ⟨rfl, rfl⟩ | ⟨rfl, rfl⟩ | ⟨rfl, rfl⟩ | ⟨rfl, rfl⟩ | ⟨rfl, rfl⟩ |
          ⟨rfl, rfl⟩ | ⟨rfl, rfl⟩ <;> rfl
    | coded h => exact readUnicode_of_coded h rest

/-! ### Strings -/

/-- A spelling is no shorter than what it spells. -/
theorem Spelling.length_le {s t : List Char} (h : Spelling s t) : s.length ≤ t.length := by
  induction h with
  | nil => exact Nat.le_refl 0
  | @cons c s t u hc _ ih =>
      have : t ≠ [] := by cases hc <;> exact List.cons_ne_nil _ _
      have := List.length_pos_iff.2 this
      rw [List.length_cons, List.length_append]
      omega

/-- What is read up to a quote spells the string. -/
theorem spelling_of_readStringWithin {n : Nat} {cs s rest : List Char}
    (h : readStringWithin n cs = .ok (s, rest)) :
    ∃ t, Spelling s t ∧ cs = t ++ '"' :: rest := by
  induction n generalizing cs s with
  | zero => cases h
  | succ n ih =>
      cases cs with
      | nil => cases h
      | cons c cs =>
          rw [readStringWithin] at h
          split at h
          · next hc =>
              subst hc
              cases h
              exact ⟨[], .nil, rfl⟩
          next hquote =>
          split at h
          · next hc =>
              subst hc
              rw [Except.bind_eq_ok_iff] at h
              obtain ⟨⟨e, cs₁⟩, he, h⟩ := h
              rw [Except.bind_eq_ok_iff] at h
              obtain ⟨⟨s₁, cs₂⟩, hs, h⟩ := h
              cases h
              obtain ⟨t, ht, rfl⟩ := accepts_readEscape.text he
              obtain ⟨u, hu, rfl⟩ := ih hs
              exact ⟨_, .cons (.escaped ht) hu, by simp⟩
          next hback =>
          split at h
          · cases h
          · next hspace =>
              rw [Except.bind_eq_ok_iff] at h
              obtain ⟨⟨s₁, cs₁⟩, hs, h⟩ := h
              cases h
              obtain ⟨u, hu, rfl⟩ := ih hs
              exact ⟨_, .cons (.plain (Char.not_lt.1 hspace) hquote hback) hu, rfl⟩

/-- A spelling is read if there are steps for all characters of the string. -/
theorem readStringWithin_of_spelling {s t : List Char} (h : Spelling s t) {n : Nat}
    (hn : s.length < n) (rest : List Char) :
    readStringWithin n (t ++ '"' :: rest) = .ok (s, rest) := by
  induction h generalizing n with
  | nil =>
      cases n with
      | zero => exact absurd hn (Nat.not_lt_zero _)
      | succ n => rfl
  | @cons c s t u hc _ ih =>
      cases n with
      | zero => exact absurd hn (Nat.not_lt_zero _)
      | succ n =>
          have hrest := ih (Nat.lt_of_succ_lt_succ hn)
          cases hc with
          | plain hspace hquote hback =>
              rw [List.append_assoc, List.singleton_append, readStringWithin, if_neg hquote,
                if_neg hback, if_neg (Char.not_lt.2 hspace), hrest]
              rfl
          | escaped ht =>
              rw [List.append_assoc, List.cons_append, readStringWithin, if_neg (by decide),
                if_pos rfl, accepts_readEscape.ok ht]
              show (readStringWithin n (u ++ '"' :: rest) >>= _) = _
              rw [hrest]
              rfl

/-- A string is read behind its first quote. -/
theorem readString_eq_ok_iff {cs rest : List Char} {s : String} :
    readString cs = .ok (s, rest) ↔ ∃ t, StringText s t ∧ '"' :: cs = t ++ rest := by
  rw [readString, Except.bind_eq_ok_iff]
  constructor
  · rintro ⟨⟨s', cs'⟩, hs, h⟩
    cases h
    obtain ⟨t, ht, rfl⟩ := spelling_of_readStringWithin hs
    exact ⟨_, ⟨t, by rwa [String.toList_ofList], rfl⟩, by simp⟩
  · rintro ⟨_, ⟨t, ht, rfl⟩, h⟩
    obtain rfl : cs = t ++ '"' :: rest := by simpa using h
    refine ⟨_, readStringWithin_of_spelling ht ?_ rest,
      congrArg (fun s => Except.ok (s, rest)) String.ofList_toList⟩
    have := ht.length_le
    rw [List.length_append]
    omega

/-! ### Blanks -/

theorem isJsonSpace_iff {c : Char} :
    isJsonSpace c = true ↔ c = ' ' ∨ c = '\t' ∨ c = '\n' ∨ c = '\r' := by
  simp [isJsonSpace, or_assoc, or_left_comm]

theorem skipSpace_blanks {s x : List Char} (hs : Blanks s) : skipSpace (s ++ x) = skipSpace x :=
  List.dropWhile_append_of_pos fun c hc => isJsonSpace_iff.2 (hs c hc)

theorem exists_blanks (cs : List Char) : ∃ s, Blanks s ∧ cs = s ++ skipSpace cs :=
  ⟨cs.takeWhile isJsonSpace, fun _ hc => isJsonSpace_iff.1 (List.mem_takeWhile_imp hc),
    List.takeWhile_append_dropWhile.symm⟩

/-- Nothing is left of blanks, and of nothing else. -/
theorem skipSpace_eq_nil_iff {cs : List Char} : skipSpace cs = [] ↔ Blanks cs := by
  constructor
  · intro h
    obtain ⟨s, hs, e⟩ := exists_blanks cs
    rwa [e, h, List.append_nil]
  · intro h
    have := skipSpace_blanks (x := []) h
    rwa [List.append_nil] at this

/-- The mark `c` comes first behind blanks. -/
theorem skipSpace_eq_cons_iff {c : Char} (hc : isJsonSpace c = false) {cs rest : List Char} :
    skipSpace cs = c :: rest ↔ ∃ s, Blanks s ∧ cs = s ++ c :: rest := by
  constructor
  · intro h
    obtain ⟨s, hs, e⟩ := exists_blanks cs
    exact ⟨s, hs, by rw [h] at e; exact e⟩
  · rintro ⟨s, hs, rfl⟩
    rw [skipSpace_blanks hs]
    exact List.dropWhile_cons_of_neg (by rw [hc]; exact Bool.false_ne_true)

theorem not_isJsonSpace_of_skipSpace {cs rest : List Char} {c : Char}
    (h : skipSpace cs = c :: rest) : isJsonSpace c = false := by
  have := List.head?_dropWhile_not isJsonSpace cs
  rwa [show cs.dropWhile isJsonSpace = c :: rest from h] at this

/-- More blanks may stand in front of an item. -/
theorem Lead.append {first : Bool} {s t : List Char} (hs : Lead first s) (ht : Blanks t) :
    Lead first (s ++ t) := by
  have happend : ∀ {x y : List Char}, Blanks x → Blanks y → Blanks (x ++ y) :=
    fun hx hy c hc => (List.mem_append.1 hc).elim (hx c) (hy c)
  cases first with
  | true => exact happend hs ht
  | false =>
      obtain ⟨u, v, hu, hv, rfl⟩ := hs
      exact ⟨u, v ++ t, hu, happend hv ht, by simp⟩

theorem lead_first {c : Char} (hc : isJsonSpace c = false) {cs rest : List Char} :
    (∃ s, Lead true s ∧ cs = s ++ c :: rest) ↔ skipSpace cs = c :: rest :=
  (skipSpace_eq_cons_iff hc).symm

/-- The mark `c` comes first behind what leads to an item behind another. -/
theorem lead_next {c : Char} (hc : isJsonSpace c = false) {cs rest : List Char} :
    (∃ s, Lead false s ∧ cs = s ++ c :: rest) ↔
      ∃ cs', skipSpace cs = ',' :: cs' ∧ skipSpace cs' = c :: rest := by
  constructor
  · rintro ⟨_, ⟨t, u, ht, hu, rfl⟩, rfl⟩
    exact ⟨u ++ c :: rest, (skipSpace_eq_cons_iff rfl).2 ⟨t, ht, by simp⟩,
      (skipSpace_eq_cons_iff hc).2 ⟨u, hu, rfl⟩⟩
  · rintro ⟨cs', hcs, hcs'⟩
    obtain ⟨t, ht, rfl⟩ := (skipSpace_eq_cons_iff rfl).1 hcs
    obtain ⟨u, hu, rfl⟩ := (skipSpace_eq_cons_iff hc).1 hcs'
    exact ⟨_, ⟨t, u, ht, hu, rfl⟩, by simp⟩

/-! ### Truth values -/

/-- A value of another type is never taken for one of the type that is wanted. -/
theorem wrongType_ne_ok {α : Type} {wanted : Wanted} {cs : List Char} {a : α} :
    wrongType wanted cs ≠ .ok a := by
  unfold wrongType
  split
  case h_4 | h_5 => exact failBefore_ne_ok
  case h_8 =>
    split
    · exact Except.bind_ne_ok fun _ => failBefore_ne_ok
    · exact failIn_ne_ok
  all_goals exact Except.bind_ne_ok fun _ => failBefore_ne_ok

/-- A truth value begins with a letter, so it ends neither blanks nor a list. -/
theorem BoolText.exists_cons {b : Bool} {t : List Char} (h : BoolText b t) :
    ∃ c w, t = c :: w ∧ isJsonSpace c = false ∧ c ≠ ']' := by
  cases b
  · exact ⟨'f', "alse".toList, h, rfl, by decide⟩
  · exact ⟨'t', "rue".toList, h, rfl, by decide⟩

theorem Led.of_text {α : Type} {p : α → List Char → Prop} {a : α} {t : List Char} (h : p a t) :
    Led p a t :=
  ⟨[], t, nofun, h, rfl⟩

/-- Truth values are read with the blanks in front of them, and nothing else is. -/
theorem accepts_readBool : Accepts readBool (Led BoolText) := by
  intro cs b rest
  constructor
  · intro h
    -- the first letter tells which word it must be
    have word : ∀ {c : Char} {w cs' : List Char} {d : Bool}, isJsonSpace c = false →
        BoolText d (c :: w) → skipSpace cs = c :: cs' →
        (readWord w cs').map (fun r => (d, r)) = .ok (b, rest) →
        ∃ t, Led BoolText b t ∧ cs = t ++ rest := by
      intro c w cs' d hc hd hskip h
      obtain ⟨rest', hw, he⟩ := Except.map_eq_ok_iff.1 h
      cases he
      obtain rfl := readWord_eq_ok_iff.1 hw
      obtain ⟨s, hs, rfl⟩ := (skipSpace_eq_cons_iff hc).1 hskip
      exact ⟨_, ⟨s, _, hs, hd, rfl⟩, by simp⟩
    unfold readBool at h
    split at h
    · cases h
    · next heq => exact word rfl (by rfl) heq h
    · next heq => exact word rfl (by rfl) heq h
    · exact absurd h wrongType_ne_ok
  · rintro ⟨_, ⟨s, u, hs, hu, rfl⟩, rfl⟩
    have hskip : readBool (s ++ u ++ rest) = readBool (u ++ rest) := by
      rw [List.append_assoc, readBool, skipSpace_blanks hs]
      rfl
    rw [hskip, hu]
    cases b
    · show (readWord "alse".toList ("alse".toList ++ rest)).map (fun r => (false, r)) = _
      rw [readWord_eq_ok_iff.2 rfl]
      rfl
    · show (readWord "rue".toList ("rue".toList ++ rest)).map (fun r => (true, r)) = _
      rw [readWord_eq_ok_iff.2 rfl]
      rfl

end Json

end CssPrune
