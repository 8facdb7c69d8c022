import ExprLang.Token.Cursor

namespace ExprLang

/-- A text with a byte offset that nobody checked: it may lie inside a character or past the end. -/
structure Lexer where
  source : String
  file : String
  offset : Nat
  deriving DecidableEq, Repr, Inhabited

namespace Lexer

def start (source : String) (file : Option String) : Lexer where
  source := source
  file := file.getD Position.defaultFile
  offset := 0

def maxOffset : Nat := 18446744073709551615

/-- Moves the offset without a look at the text, unless it would pass the largest one. -/
def advance? (l : Lexer) (n : Nat) : Option Lexer :=
  if l.offset + n ≤ maxOffset then some { l with offset := l.offset + n } else none

def atEnd (l : Lexer) : Bool := Text.size l.source.toList ≤ l.offset

/-- The sound cursor at the offset, if there is one. -/
def cursor? (l : Lexer) : Option Cursor :=
  (Text.dropBytes? l.offset l.source.toList).map fun rest => ⟨l.file, l.offset, rest⟩

def remainder? (l : Lexer) : Option String := l.cursor?.map fun c => String.ofList c.rest

/-- The character that is `i` characters on from the offset; nothing where the text is shorter. -/
def lookahead? (l : Lexer) (i : Nat) : Option (Option Char) := l.cursor?.map (·.rest[i]?)

/-- The next `n` bytes as text, and the lexer behind them. -/
def take? (l : Lexer) (n : Nat) : Option (String × Lexer) := do
  let c ← l.cursor?
  let literal ← Text.takeBytes? n c.rest
  return (String.ofList literal, { l with offset := l.offset + n })

/-- The characters of one class at the offset, up to the first one that is not of the class. -/
def takeRun? (l : Lexer) (p : Char → Bool) : Option (String × Lexer) := do
  let c ← l.cursor?
  l.take? (Text.size (c.rest.takeWhile p))

/-- Takes a symbol of one character, a word, a run of digits, or one character that opens none. -/
def takeSingle? (l : Lexer) (c : Char) : Option (Kind × String × Lexer) :=
  match Kind.ofSymbol? c with
  | some kind => (l.take? 1).map (kind, ·)
  | none =>
    if c.isAlpha then (l.takeRun? Char.isAlpha).map fun r => (Kind.ofWord r.1, r)
    else if c.isDigit then (l.takeRun? Char.isDigit).map (Kind.integer, ·)
    else (l.take? c.utf8Size).map (Kind.invalid, ·)

/-- Takes the token that starts with the character `c` at the offset. -/
def takeToken? (l : Lexer) (c : Char) : Option (Kind × String × Lexer) :=
  match c with
  | '=' => do
    if (← l.lookahead? 1) = some '=' then (l.take? 2).map (Kind.equal, ·) else l.takeSingle? '='
  | '!' => do
    if (← l.lookahead? 1) = some '=' then (l.take? 2).map (Kind.notEqual, ·) else l.takeSingle? '!'
  | c => l.takeSingle? c

theorem advance?_eq_some_iff {l m : Lexer} {n : Nat} :
    l.advance? n = some m ↔ l.offset + n ≤ maxOffset ∧ m = { l with offset := l.offset + n } := by
  simp [advance?, eq_comm]

/-- There is a sound cursor exactly where the bytes before the offset are whole characters. -/
theorem cursor?_eq_some_iff {l : Lexer} {c : Cursor} :
    l.cursor? = some c ↔ c.file = l.file ∧ c.offset = l.offset ∧
      ∃ front, l.source.toList = front ++ c.rest ∧ Text.size front = l.offset := by
  simp only [cursor?, Option.map_eq_some_iff, Text.dropBytes?_eq_some_iff]
  constructor
  · rintro ⟨rest, h, rfl⟩
    exact ⟨rfl, rfl, h⟩
  · rintro ⟨hf, ho, h⟩
    exact ⟨c.rest, h, by rw [← hf, ← ho]⟩

/-- The sound cursor moves on with the offset over whole characters. -/
theorem cursor?_move {l : Lexer} {c : Cursor} (h : l.cursor? = some c) (hr : c.rest = w ++ text) :
    cursor? { l with offset := l.offset + Text.size w } =
      some ⟨l.file, l.offset + Text.size w, text⟩ := by
  obtain ⟨-, -, front, hf, hs⟩ := cursor?_eq_some_iff.mp h
  apply cursor?_eq_some_iff.mpr
  refine ⟨rfl, rfl, front ++ w, ?_, ?_⟩
  · rw [hf, hr, List.append_assoc]
  · rw [Text.size_append, hs]

theorem lookahead?_zero_eq_some {l : Lexer} (h : l.lookahead? 0 = some (some ch)) :
    ∃ c rest, l.cursor? = some c ∧ c.rest = ch :: rest := by
  obtain ⟨c, hc, hr⟩ := Option.map_eq_some_iff.mp h
  obtain ⟨rest, hr⟩ := List.head?_eq_some_iff.mp (List.head?_eq_getElem? ▸ hr)
  exact ⟨c, rest, hc, hr⟩

/-- Steps over the blanks before the next token, one byte for each of them. -/
def skipBlanks? (l : Lexer) : Option Lexer :=
  match _h : l.lookahead? 0 with
  | none => none
  | some none => some l
  | some (some c) =>
    if c.isWhitespace then skipBlanks? { l with offset := l.offset + 1 } else some l
termination_by Text.size l.source.toList - l.offset
decreasing_by
  obtain ⟨d, rest, hd, hr⟩ := lookahead?_zero_eq_some _h
  obtain ⟨-, -, front, hs, hf⟩ := cursor?_eq_some_iff.mp hd
  have hc := c.utf8Size_pos
  rw [hs, hr, Text.size_append, Text.size_cons]
  omega

/-- Reads the next token, or at the end of the text the token that stands for the end. Each step
looks at the text from the offset on, and there is none where the offset lies inside a character or
past the end. -/
def next? (l : Lexer) : Option (Token × Lexer) := do
  let l ← l.skipBlanks?
  match ← l.lookahead? 0 with
  | none => return (.eof (.ofOffset l.offset l.file), l)
  | some c =>
    let (kind, literal, m) ← l.takeToken? c
    return (⟨kind, literal, .ofOffsets l.offset m.offset l.file⟩, m)

theorem lookahead?_eq {l : Lexer} {c : Cursor} (h : l.cursor? = some c) (i : Nat) :
    l.lookahead? i = some c.rest[i]? := by
  rw [lookahead?, h, Option.map_some]

theorem skipBlanks?_of_isWhitespace {l : Lexer} (h : l.lookahead? 0 = some (some ch))
    (hc : ch.isWhitespace = true) :
    l.skipBlanks? = skipBlanks? { l with offset := l.offset + 1 } := by
  rw [skipBlanks?]
  split <;> simp_all

/-- The lexer stays where no blank stands. -/
theorem skipBlanks?_of_not {l : Lexer} (h : l.lookahead? 0 = some ch?)
    (hc : ∀ ch ∈ ch?, ¬ ch.isWhitespace = true) : l.skipBlanks? = some l := by
  rw [skipBlanks?]
  split <;> simp_all

/-- A blank is one byte long, so a character starts behind it. -/
theorem skipBlanks?_eq {l : Lexer} {c : Cursor} (h : l.cursor? = some c) :
    l.skipBlanks? = some { l with offset := c.skipBlanks.offset } := by
  obtain ⟨rest, hr⟩ : ∃ rest, c.rest = rest := ⟨_, rfl⟩
  have ho := (cursor?_eq_some_iff.mp h).2.1
  have hat := lookahead?_eq h 0
  rw [Cursor.skipBlanks, ho]
  induction rest generalizing l c with
  | nil =>
    rw [hr] at hat ⊢
    exact skipBlanks?_of_not hat nofun
  | cons ch rest ih =>
    rw [hr] at hat ⊢
    by_cases hc : ch.isWhitespace = true
    · have hm := cursor?_move h (w := [ch]) hr
      rw [show Text.size [ch] = 1 from Text.utf8Size_of_isWhitespace hc] at hm
      rw [skipBlanks?_of_isWhitespace hat hc, ih hm rfl rfl (lookahead?_eq hm 0),
        List.takeWhile_cons_of_pos hc, Text.size_cons, Text.utf8Size_of_isWhitespace hc,
        Nat.add_assoc]
    · rw [List.takeWhile_cons_of_neg hc]
      exact skipBlanks?_of_not hat fun d hd => by cases hd; exact hc

theorem cursor?_skipBlanks {l : Lexer} {c : Cursor} (h : l.cursor? = some c) :
    cursor? { l with offset := c.skipBlanks.offset } = some c.skipBlanks := by
  obtain ⟨hf, ho, -⟩ := cursor?_eq_some_iff.mp h
  rw [Cursor.skipBlanks, hf, ho]
  exact cursor?_move h List.takeWhile_append_dropWhile.symm

theorem take?_eq {l : Lexer} {c : Cursor} (h : l.cursor? = some c) (hr : c.rest = w ++ text) :
    l.take? (Text.size w) =
      some (String.ofList w, { l with offset := l.offset + Text.size w }) := by
  simp [take?, h, hr, Text.takeBytes?_size_append]

theorem takeRun?_eq {l : Lexer} {c : Cursor} (h : l.cursor? = some c) (p : Char → Bool) :
    l.takeRun? p = some (String.ofList (c.rest.takeWhile p),
      { l with offset := l.offset + Text.size (c.rest.takeWhile p) }) := by
  rw [takeRun?, h]
  exact take?_eq h (List.takeWhile_append_dropWhile).symm

theorem utf8Size_of_ofSymbol? {c : Char} (h : Kind.ofSymbol? c = some k) : c.utf8Size = 1 := by
  simp only [Kind.ofSymbol?] at h
  split at h <;> first | rfl | cases h

/-- The token that is taken is the lexeme, with the lexer behind it. -/
def behind (l : Lexer) (x : Lexeme) : Kind × String × Lexer :=
  (x.kind, String.ofList x.literal, { l with offset := l.offset + Text.size x.literal })

theorem takeSingle?_eq {l : Lexer} {c : Cursor} (h : l.cursor? = some c)
    (hr : c.rest = ch :: text) : l.takeSingle? ch = some (l.behind (.single ch text)) := by
  have hone : l.take? ch.utf8Size = some (String.ofList [ch], _) := take?_eq h (w := [ch]) hr
  have hrun := takeRun?_eq h
  rw [hr] at hrun
  rw [takeSingle?, Lexeme.single]
  cases hk : Kind.ofSymbol? ch with
  | some kind =>
    rw [utf8Size_of_ofSymbol? hk] at hone
    simp only [hone]
    rfl
  | none =>
    by_cases ha : ch.isAlpha = true
    · simp only [ha, hrun, if_true]
      rfl
    by_cases hd : ch.isDigit = true
    · simp only [ha, hd, hrun, if_true]
      rfl
    · simp only [ha, hd, hone]
      rfl

/-- The token that is taken is the longest one at the offset. -/
theorem takeToken?_eq {l : Lexer} {c : Cursor} (h : l.cursor? = some c) (hr : c.rest = ch :: text) :
    l.takeToken? ch = some (l.behind (.read ch text)) := by
  have hat := lookahead?_eq h 1
  have hs := takeSingle?_eq h hr
  rw [hr, List.getElem?_cons_succ] at hat
  simp only [takeToken?, Lexeme.read]
  split
  · cases text with
    | nil => simpa [hat] using hs
    | cons d text =>
      by_cases hd : d = '='
      · subst hd
        have htwo : l.take? 2 = some _ := take?_eq h (w := ['=', '=']) hr
        simp [hat, htwo, behind]
      · simp [hat, hd, hs]
  · cases text with
    | nil => simpa [hat] using hs
    | cons d text =>
      by_cases hd : d = '='
      · subst hd
        have htwo : l.take? 2 = some _ := take?_eq h (w := ['!', '=']) hr
        simp [hat, htwo, behind]
      · simp [hat, hd, hs]
  · next he hb =>
    rw [hs]
    split
    · exact absurd rfl he
    · exact absurd rfl hb
    · rfl

/-- The next token is found exactly where a sound cursor stands, and it is the one found there. -/
theorem next?_eq (l : Lexer) :
    l.next? = l.cursor?.map fun c => (c.next.1, { l with offset := c.next.2.offset }) := by
  cases h : l.cursor? with
  | none =>
    have hs : l.skipBlanks? = none := by
      rw [skipBlanks?]
      split <;> simp_all [lookahead?]
    rw [next?, hs]
    rfl
  | some c =>
    have hm := cursor?_skipBlanks h
    have hat := lookahead?_eq hm 0
    have hf : c.skipBlanks.file = l.file := (cursor?_eq_some_iff.mp h).1
    rw [next?, skipBlanks?_eq h, Option.map_some, Cursor.next]
    simp only [Option.bind_eq_bind, Option.bind_some, hat]
    cases hr : c.skipBlanks.rest with
    | nil =>
      simp only [hf]
      rfl
    | cons ch text =>
      simp only [List.getElem?_cons_zero, takeToken?_eq hm hr, behind, Cursor.take, hf]
      rfl

/-- Behind the token that was read a character starts again. -/
theorem cursor?_next {l : Lexer} {c : Cursor} (h : l.cursor? = some c) :
    cursor? { l with offset := c.next.2.offset } = some c.next.2 := by
  have hm := cursor?_skipBlanks h
  have hf : c.skipBlanks.file = l.file := (cursor?_eq_some_iff.mp h).1
  rw [Cursor.next]
  cases hr : c.skipBlanks.rest with
  | nil => exact hm
  | cons ch text =>
    simp only [Cursor.take, hf]
    exact cursor?_move hm (hr.trans (Lexeme.read_append ch text).symm)

theorem next?_eq_some {l m : Lexer} (h : l.next? = some (t, m)) :
    ∃ c, l.cursor? = some c ∧ c.next.1 = t ∧ m.cursor? = some c.next.2 := by
  rw [next?_eq] at h
  obtain ⟨c, hc, he⟩ := Option.map_eq_some_iff.mp h
  cases he
  exact ⟨c, hc, rfl, cursor?_next hc⟩

/-- Reads token after token up to the end of the text, which is read too and left out. -/
def collect? (l : Lexer) : Option (List Token × Lexer) :=
  match _h : l.next? with
  | none => none
  | some (t, m) =>
    if t.kind = .eof then some ([], m) else m.collect?.map fun r => (t :: r.1, r.2)
termination_by (l.cursor?.map (·.rest.length)).getD 0
decreasing_by
  obtain ⟨c, hc, rfl, hm⟩ := next?_eq_some _h
  rw [hc, hm]
  exact Cursor.length_rest_next_lt ‹_›

/-- The tokens from the offset on; the lexer then stands at the end of its text. -/
def stream? (l : Lexer) : Option (TokenStream × Lexer) :=
  l.cursor?.map fun c => (c.tokens, { l with offset := Text.size l.source.toList })

end Lexer

end ExprLang
