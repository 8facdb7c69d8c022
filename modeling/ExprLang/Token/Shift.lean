import ExprLang.Token.Cursor

namespace ExprLang

namespace Position

/-- The same place after `n` more bytes have been put in front of the text. -/
def shift (n : Nat) (p : Position) : Position := .ofOffset (p.offset + n) p.file

theorem shift_ofOffset (n offset : Nat) (file : String) :
    (ofOffset offset file).shift n = ofOffset (offset + n) file := by
  simp only [shift, ofOffset, mk.injEq, and_true]
  omega

end Position

def Span.shift (n : Nat) (s : Span) : Span := ⟨s.start.shift n, s.stop.shift n⟩

theorem Span.shift_ofOffsets (n start stop : Nat) (file : String) :
    (ofOffsets start stop file).shift n = ofOffsets (start + n) (stop + n) file := by
  simp [shift, ofOffsets, Position.shift_ofOffset]

namespace Token

def shift (n : Nat) (t : Token) : Token := { t with span := t.span.shift n }

@[simp] theorem kind_shift (n : Nat) (t : Token) : (t.shift n).kind = t.kind := rfl

@[simp] theorem literal_shift (n : Nat) (t : Token) : (t.shift n).literal = t.literal := rfl

end Token

def TokenStream.shift (n : Nat) (s : TokenStream) : TokenStream where
  ahead := s.ahead.map (.shift n)
  stop := s.stop.shift n

theorem TokenStream.get_shift (n i : Nat) (s : TokenStream) :
    (s.shift n).get i = (s.get i).shift n := by
  simp only [get, shift, List.getD_eq_getElem?_getD, List.getElem?_map]
  cases s.ahead[i]? <;> rfl

theorem TokenStream.toList_shift (n : Nat) (s : TokenStream) :
    (s.shift n).toList = s.toList.map (.shift n) := by
  rw [toList, toList, List.map_append]
  rfl

namespace Cursor

def shift (n : Nat) (c : Cursor) : Cursor := { c with offset := c.offset + n }

theorem skipBlanks_shift (n : Nat) (c : Cursor) :
    (c.shift n).skipBlanks = c.skipBlanks.shift n := by
  simp [skipBlanks, shift, Nat.add_right_comm]

theorem take_shift (n : Nat) (c : Cursor) (l : Lexeme) :
    (c.shift n).take l = ((c.take l).1.shift n, (c.take l).2.shift n) := by
  simp [take, shift, Token.shift, Span.shift_ofOffsets, Nat.add_right_comm]

/-- The next token depends on what follows the cursor, and only its span on the offset. -/
theorem next_shift (n : Nat) (c : Cursor) :
    (c.shift n).next = (c.next.1.shift n, c.next.2.shift n) := by
  simp only [next, skipBlanks_shift]
  cases h : c.skipBlanks.rest with
  | nil =>
    simp [h, shift, Token.shift, Span.shift, Token.eof, Position.shift_ofOffset]
  | cons ch rest =>
    have hs : (c.skipBlanks.shift n).rest = ch :: rest := h
    simp only [hs, take_shift]

theorem tokens_shift (n : Nat) (c : Cursor) : (c.shift n).tokens = c.tokens.shift n := by
  fun_induction tokens c with
  | case1 c h =>
    rw [tokens, next_shift, if_pos (by simpa using h)]
    rfl
  | case2 c h ih =>
    rw [tokens, next_shift, if_neg (by simpa using h), ih]
    rfl

end Cursor

end ExprLang
