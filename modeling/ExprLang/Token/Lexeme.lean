import ExprLang.Token.Kind

namespace ExprLang

/-- One token's worth of text: what it is, its characters, and what follows them. -/
structure Lexeme where
  kind : Kind
  literal : List Char
  rest : List Char
  deriving DecidableEq, Repr

namespace Lexeme

/-- The longest run of characters of one class that opens a text. -/
def run (kind : List Char → Kind) (p : Char → Bool) (text : List Char) : Lexeme where
  kind := kind (text.takeWhile p)
  literal := text.takeWhile p
  rest := text.dropWhile p

/-- Reads a symbol of one character, a word, a run of digits, or one character that opens none. -/
def single (c : Char) (text : List Char) : Lexeme :=
  match Kind.ofSymbol? c with
  | some kind => ⟨kind, [c], text⟩
  | none =>
    if c.isAlpha then run (fun word => .ofWord (String.ofList word)) Char.isAlpha (c :: text)
    else if c.isDigit then run (fun _ => .integer) Char.isDigit (c :: text)
    else ⟨.invalid, [c], text⟩

/-- Reads one token at the start of the text `c :: text`, the longest that there is.
Letters and digits are those of ASCII. -/
def read (c : Char) (text : List Char) : Lexeme :=
  match c, text with
  | '=', '=' :: text => ⟨.equal, ['=', '='], text⟩
  | '!', '=' :: text => ⟨.notEqual, ['!', '='], text⟩
  | c, text => single c text

theorem single_append (c : Char) (text : List Char) :
    (single c text).literal ++ (single c text).rest = c :: text := by
  simp only [single]
  split
  · rfl
  · split
    · exact List.takeWhile_append_dropWhile
    · split
      · exact List.takeWhile_append_dropWhile
      · rfl

/-- A token's characters and what follows them make up the text. -/
theorem read_append (c : Char) (text : List Char) :
    (read c text).literal ++ (read c text).rest = c :: text := by
  simp only [read]
  split
  · rfl
  · rfl
  · exact single_append _ _

theorem single_literal_ne_nil (c : Char) (text : List Char) : (single c text).literal ≠ [] := by
  simp only [single]
  split
  · simp
  · split
    · next h => simp [run, h]
    · split
      · next h => simp [run, h]
      · simp

theorem read_literal_ne_nil (c : Char) (text : List Char) : (read c text).literal ≠ [] := by
  simp only [read]
  split
  · simp
  · simp
  · exact single_literal_ne_nil _ _

theorem length_rest_read_le (c : Char) (text : List Char) :
    (read c text).rest.length ≤ text.length := by
  have h := congrArg List.length (read_append c text)
  have hl := List.length_pos_iff.mpr (read_literal_ne_nil c text)
  simp only [List.length_append, List.length_cons] at h
  omega

theorem single_kind_ne_eof (c : Char) (text : List Char) : (single c text).kind ≠ .eof := by
  simp only [single]
  split
  · next h => exact Kind.ofSymbol?_ne_eof h
  · split
    · exact Kind.ofWord_ne_eof _
    · split <;> simp [run]

theorem read_kind_ne_eof (c : Char) (text : List Char) : (read c text).kind ≠ .eof := by
  simp only [read]
  split
  · simp
  · simp
  · exact single_kind_ne_eof _ _

end Lexeme

end ExprLang
