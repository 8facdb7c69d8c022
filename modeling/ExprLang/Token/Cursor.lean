import ExprLang.Text.Size
import ExprLang.Token.Lexeme
import ExprLang.Token.Stream

namespace ExprLang

/-- A place in a text where a character starts or the text ends: a byte offset and what follows. -/
structure Cursor where
  file : String
  offset : Nat
  rest : List Char
  deriving DecidableEq, Repr, Inhabited

namespace Cursor

def start (source : String) (file : Option String) : Cursor where
  file := file.getD Position.defaultFile
  offset := 0
  rest := source.toList

/-- Steps over the spaces, tabs, carriage returns and line feeds before the next token. -/
def skipBlanks (c : Cursor) : Cursor :=
  { c with
    offset := c.offset + Text.size (c.rest.takeWhile Char.isWhitespace)
    rest := c.rest.dropWhile Char.isWhitespace }

def take (c : Cursor) (l : Lexeme) : Token × Cursor :=
  let stop := c.offset + Text.size l.literal
  (⟨l.kind, String.ofList l.literal, .ofOffsets c.offset stop c.file⟩,
   { c with offset := stop, rest := l.rest })

/-- Reads the next token, or at the end of the text the token that stands for the end. -/
def next (c : Cursor) : Token × Cursor :=
  let c := c.skipBlanks
  match c.rest with
  | [] => (.eof (.ofOffset c.offset c.file), c)
  | ch :: rest => c.take (.read ch rest)

theorem length_rest_skipBlanks_le (c : Cursor) : c.skipBlanks.rest.length ≤ c.rest.length :=
  (List.dropWhile_sublist _).length_le

theorem length_rest_next_lt {c : Cursor} (h : c.next.1.kind ≠ .eof) :
    c.next.2.rest.length < c.rest.length := by
  have hs := c.length_rest_skipBlanks_le
  simp only [next] at h ⊢
  split at h
  · simp at h
  · next ch rest hr =>
    have hl := Lexeme.length_rest_read_le ch rest
    rw [hr] at hs
    simp only [List.length_cons] at hs
    simp only [take]
    omega

/-- The tokens from the cursor to the end of the text. -/
def tokens (c : Cursor) : TokenStream :=
  if c.next.1.kind = .eof then ⟨[], c.next.1.span.start⟩
  else c.next.2.tokens.cons c.next.1
termination_by c.rest.length
decreasing_by exact length_rest_next_lt ‹_›

theorem closed_tokens (c : Cursor) : c.tokens.Closed := by
  fun_induction tokens c with
  | case1 => exact List.forall_mem_nil _
  | case2 c h ih => exact List.forall_mem_cons.mpr ⟨h, ih⟩

end Cursor

def tokenize (source : String) (file : Option String) : TokenStream :=
  (Cursor.start source file).tokens

end ExprLang
