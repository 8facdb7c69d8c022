import ExprLang.Token.Order
import ExprLang.Token.Shift
import ExprLang.Token.Spelling

namespace ExprLang

namespace Lexeme

def followedBy (l : Lexeme) (back : List Char) : Lexeme := { l with rest := l.rest ++ back }

/-- A token that does not go on with what follows the text is read as it was. -/
theorem read_followedBy (hc : c.isWhitespace = false)
    (h : (read c text).kind.EndsBefore ((read c text).rest ++ back)) :
    read c (text ++ back) = (read c text).followedBy back := by
  have hs := read_spelled hc text
  have ha := read_append c text
  obtain ⟨d, v, hl⟩ := hs.exists_cons
  rw [hl] at hs ha
  obtain rfl : d = c := (List.cons.inj ha).1
  have ht : v ++ (read d text).rest = text := (List.cons.inj ha).2
  have hr := read_of_spelled hs h
  rw [← List.append_assoc, ht] at hr
  rw [hr, followedBy, hl]

end Lexeme

namespace Cursor

def followedBy (c : Cursor) (back : List Char) : Cursor := { c with rest := c.rest ++ back }

theorem skipBlanks_followedBy {c : Cursor} (h : c.skipBlanks.rest ≠ []) (back : List Char) :
    (c.followedBy back).skipBlanks = c.skipBlanks.followedBy back := by
  have hd : (c.rest ++ back).dropWhile Char.isWhitespace =
      c.rest.dropWhile Char.isWhitespace ++ back := by
    rw [List.dropWhile_append, if_neg]
    exact fun he => h (List.isEmpty_iff.mp he)
  have ht : (c.rest ++ back).takeWhile Char.isWhitespace =
      c.rest.takeWhile Char.isWhitespace := by
    have hs := c.rest.takeWhile_append_dropWhile (p := Char.isWhitespace)
    rw [List.takeWhile_append, if_neg]
    intro hl
    rw [(List.takeWhile_prefix _).eq_of_length hl] at hs
    exact h (List.append_cancel_left (hs.trans (List.append_nil _).symm))
  simp only [skipBlanks, followedBy, hd, ht]

theorem skipBlanks_blanks {w : List Char} (hw : ∀ b ∈ w, b.isWhitespace = true) (file : String)
    (offset : Nat) (rest : List Char) :
    (⟨file, offset, w ++ rest⟩ : Cursor).skipBlanks =
      (⟨file, offset + Text.size w, rest⟩ : Cursor).skipBlanks := by
  simp only [skipBlanks, List.takeWhile_append_of_pos hw, List.dropWhile_append_of_pos hw,
    Text.size_append, Nat.add_assoc]

theorem isWhitespace_of_skipBlanks {c : Cursor} (h : c.skipBlanks.rest = []) :
    ∀ b ∈ c.rest, b.isWhitespace = true := by
  have hs := c.rest.takeWhile_append_dropWhile (p := Char.isWhitespace)
  rw [show c.rest.dropWhile Char.isWhitespace = [] from h, List.append_nil] at hs
  rw [← hs]
  exact List.all_eq_true.mp List.all_takeWhile

theorem skipBlanks_of_nil {c : Cursor} (h : c.skipBlanks.rest = []) (back : List Char) :
    (c.followedBy back).skipBlanks = (⟨c.file, c.extent, back⟩ : Cursor).skipBlanks := by
  exact skipBlanks_blanks (isWhitespace_of_skipBlanks h) c.file c.offset back

theorem next_followedBy {c : Cursor} (hk : c.next.1.kind ≠ .eof)
    (hb : c.next.2.rest = [] → c.next.1.kind.EndsBefore back) :
    (c.followedBy back).next = (c.next.1, c.next.2.followedBy back) := by
  simp only [next] at hk hb ⊢
  split at hk
  · exact absurd rfl hk
  · next ch rest hr =>
    simp only [hr] at hb
    have he := (Lexeme.read_endsBefore ch rest).append hb
    rw [skipBlanks_followedBy (hr ▸ List.cons_ne_nil ch rest)]
    simp only [followedBy, hr, List.cons_append,
      Lexeme.read_followedBy (not_isWhitespace_of_skipBlanks hr) he]
    rfl

theorem skipBlanks_of_kind_next {c : Cursor} (hk : c.next.1.kind = .eof) :
    c.skipBlanks.rest = [] := by
  simp only [next] at hk
  split at hk
  · next hr => exact hr
  · next ch rest _ => exact absurd hk (Lexeme.read_kind_ne_eof ch rest)

theorem isWhitespace_of_kind_next {c : Cursor} (hk : c.next.1.kind = .eof) :
    ∀ b ∈ c.rest, b.isWhitespace = true :=
  isWhitespace_of_skipBlanks (skipBlanks_of_kind_next hk)

theorem file_next (c : Cursor) : c.next.2.file = c.file := by
  simp only [next]
  split <;> rfl

theorem tokens_of_rest_nil {c : Cursor} (h : c.rest = []) : c.tokens.ahead = [] := by
  have hk : c.next.1.kind = .eof := by
    simp only [next, skipBlanks, h, List.dropWhile_nil]
    rfl
  rw [tokens, if_pos hk]

/-- The tokens of a text stay the same if the last one does not go on with what follows. -/
theorem tokens_followedBy {c : Cursor}
    (hb : ∀ t ∈ c.tokens.ahead.getLast?, t.kind.EndsBefore back) :
    (c.followedBy back).tokens =
      (⟨c.file, c.extent, back⟩ : Cursor).tokens.prepend c.tokens.ahead := by
  fun_induction tokens c with
  | case1 c hk =>
    have hs := skipBlanks_of_nil (skipBlanks_of_kind_next hk) back
    exact tokens_congr (next_congr hs)
  | case2 c hk ih =>
    rw [extent_next, file_next] at ih
    have hn : (c.followedBy back).next = (c.next.1, c.next.2.followedBy back) := by
      apply next_followedBy hk
      intro hr
      apply hb
      rw [TokenStream.cons, tokens_of_rest_nil hr]
      rfl
    have ht : ∀ t ∈ c.next.2.tokens.ahead.getLast?, t.kind.EndsBefore back := by
      intro t ht
      apply hb
      rw [TokenStream.cons, List.getLast?_cons, ht]
      rfl
    rw [tokens, hn, if_neg hk, ih ht]
    rfl

end Cursor

/-- The tokens of two texts are those of either, one after the other, if the last one of the first
text does not go on with the second. -/
theorem tokenize_append_of_endsBefore {m q : String}
    (hb : ∀ t ∈ (tokenize m file).ahead.getLast?, t.kind.EndsBefore q.toList) :
    tokenize (m ++ q) file =
      ((tokenize q file).shift (Text.size m.toList)).prepend (tokenize m file).ahead := by
  have hs : Cursor.start (m ++ q) file = (Cursor.start m file).followedBy q.toList := by
    simp [Cursor.start, Cursor.followedBy]
  have hq : (⟨(Cursor.start m file).file, (Cursor.start m file).extent, q.toList⟩ : Cursor) =
      (Cursor.start q file).shift (Text.size m.toList) := by
    simp [Cursor.start, Cursor.extent, Cursor.shift]
  rw [tokenize, hs, Cursor.tokens_followedBy hb, hq, Cursor.tokens_shift]
  rfl

/-- The tokens of two texts with blanks between them are those of either, one after the other. -/
theorem tokenize_append {m w q : String} (hw : ∀ b ∈ w.toList, b.isWhitespace = true)
    (hn : w ≠ "") (file : Option String) :
    tokenize (m ++ w ++ q) file =
      ((tokenize q file).shift (Text.size (m ++ w).toList)).prepend (tokenize m file).ahead := by
  have hs : Cursor.start (m ++ w ++ q) file =
      (Cursor.start m file).followedBy (w.toList ++ q.toList) := by
    simp [Cursor.start, Cursor.followedBy]
  have hb (k : Kind) : k.EndsBefore (w.toList ++ q.toList) := by
    obtain ⟨b, v, hv⟩ := List.exists_cons_of_ne_nil (show w.toList ≠ [] by simpa using hn)
    rw [hv]
    exact .cons (k.goesOn_of_isWhitespace (hw b (hv ▸ List.mem_cons_self))) (v ++ q.toList)
  have hq : (⟨(Cursor.start m file).file, (Cursor.start m file).extent + Text.size w.toList,
      q.toList⟩ : Cursor) = (Cursor.start q file).shift (Text.size (m ++ w).toList) := by
    simp [Cursor.start, Cursor.extent, Cursor.shift]
  have hblanks := Cursor.tokens_congr (Cursor.next_congr (Cursor.skipBlanks_blanks hw
    (Cursor.start m file).file (Cursor.start m file).extent q.toList))
  rw [tokenize, hs, Cursor.tokens_followedBy fun t _ => hb t.kind, hblanks, hq,
    Cursor.tokens_shift]
  rfl

end ExprLang
