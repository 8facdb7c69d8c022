import ExprLang.Token.Cursor

namespace ExprLang

namespace Cursor

/-- The number of bytes up to the end of the text that the cursor stands in. -/
def extent (c : Cursor) : Nat := c.offset + Text.size c.rest

theorem extent_skipBlanks (c : Cursor) : c.skipBlanks.extent = c.extent := by
  have hs := congrArg Text.size (c.rest.takeWhile_append_dropWhile (p := Char.isWhitespace))
  rw [Text.size_append] at hs
  simp only [extent, skipBlanks]
  omega

theorem extent_take {c : Cursor} (h : l.literal ++ l.rest = c.rest) :
    (c.take l).2.extent = c.extent := by
  have hs := congrArg Text.size h
  rw [Text.size_append] at hs
  simp only [extent, take]
  omega

theorem extent_next (c : Cursor) : c.next.2.extent = c.extent := by
  simp only [next]
  split
  · exact c.extent_skipBlanks
  · next ch rest hr =>
    rw [extent_take ((Lexeme.read_append ch rest).trans hr.symm), extent_skipBlanks]

theorem size_pos_of_ne_nil {text : List Char} (h : text ≠ []) : 0 < Text.size text := by
  obtain ⟨c, text, rfl⟩ := List.exists_cons_of_ne_nil h
  exact Nat.lt_of_lt_of_le c.utf8Size_pos (Nat.le_add_right _ _)

theorem offset_le_start_next {c : Cursor} (h : c.extent ≤ Position.maxOffset) :
    c.offset ≤ c.next.1.span.start.offset := by
  rw [← extent_skipBlanks] at h
  have hs : c.offset ≤ c.skipBlanks.offset := Nat.le_add_right _ _
  have ho : c.skipBlanks.offset ≤ Position.maxOffset := Nat.le_trans (Nat.le_add_right _ _) h
  simp only [next]
  split
  · rw [Token.eof, Position.offset_ofOffset_of_le ho]
    exact hs
  · rw [take, Span.ofOffsets, Position.offset_ofOffset_of_le ho]
    exact hs

theorem start_next_lt {c : Cursor} (h : c.extent ≤ Position.maxOffset)
    (hk : c.next.1.kind ≠ .eof) : c.next.1.span.start.offset < c.next.2.offset := by
  rw [← extent_skipBlanks] at h
  simp only [next] at hk ⊢
  split at hk
  · exact absurd rfl hk
  · next ch rest hr =>
    have hl := size_pos_of_ne_nil (Lexeme.read_literal_ne_nil ch rest)
    have ho : c.skipBlanks.offset ≤ Position.maxOffset :=
      Nat.le_trans (Nat.le_add_right _ _) h
    simp only [take, Span.ofOffsets, Position.offset_ofOffset_of_le ho]
    omega

theorem le_start_of_mem {c : Cursor} (h : c.extent ≤ Position.maxOffset)
    (ht : t ∈ c.tokens.ahead) : c.offset ≤ t.span.start.offset := by
  fun_induction tokens c with
  | case1 => cases ht
  | case2 c hk ih =>
    have hc := offset_le_start_next h
    have hn := start_next_lt h hk
    rw [← extent_next] at h
    cases ht with
    | head => exact hc
    | tail _ ht =>
      have hi := ih h ht
      omega

/-- No two tokens of a text whose offsets are all on record start at the same place. -/
theorem tokens_increase {c : Cursor} (h : c.extent ≤ Position.maxOffset) :
    c.tokens.ahead.Pairwise fun t u => t.span.start.offset < u.span.start.offset := by
  fun_induction tokens c with
  | case1 => exact .nil
  | case2 c hk ih =>
    have hn := start_next_lt h hk
    rw [← extent_next] at h
    apply List.Pairwise.cons
    · intro u hu
      exact Nat.lt_of_lt_of_le hn (le_start_of_mem h hu)
    · exact ih h

theorem offset_le_stop {c : Cursor} (h : c.extent ≤ Position.maxOffset) :
    c.offset ≤ c.tokens.stop.offset := by
  fun_induction tokens c with
  | case1 => exact offset_le_start_next h
  | case2 c hk ih =>
    have hc := offset_le_start_next h
    have hn := start_next_lt h hk
    rw [← extent_next] at h
    have hi : c.next.2.offset ≤ c.next.2.tokens.stop.offset := ih h
    change c.offset ≤ c.next.2.tokens.stop.offset
    omega

theorem start_lt_stop {c : Cursor} (h : c.extent ≤ Position.maxOffset)
    (ht : t ∈ c.tokens.ahead) : t.span.start.offset < c.tokens.stop.offset := by
  fun_induction tokens c with
  | case1 => cases ht
  | case2 c hk ih =>
    have hn := start_next_lt h hk
    rw [← extent_next] at h
    change t.span.start.offset < c.next.2.tokens.stop.offset
    cases ht with
    | head => exact Nat.lt_of_lt_of_le hn (offset_le_stop h)
    | tail _ ht => exact ih h ht

end Cursor

theorem extent_start_le (h : Text.size source.toList ≤ Position.maxOffset) (file : Option String) :
    (Cursor.start source file).extent ≤ Position.maxOffset := by
  rw [Cursor.extent, Cursor.start, Nat.zero_add]
  exact h

/-- The tokens of a text whose offsets are all on record start one after the other, the end of the
text last. -/
theorem start_lt_start (h : Text.size source.toList ≤ Position.maxOffset) (hij : i < j)
    (hj : j ≤ (tokenize source file).ahead.length) :
    ((tokenize source file).get i).span.start.offset <
      ((tokenize source file).get j).span.start.offset := by
  have hc := extent_start_le h file
  have hi := Nat.lt_of_lt_of_le hij hj
  rw [TokenStream.get_of_lt hi]
  rcases Nat.eq_or_lt_of_le hj with rfl | hj
  · rw [TokenStream.get_length]
    exact Cursor.start_lt_stop hc (List.getElem_mem hi)
  · rw [TokenStream.get_of_lt hj]
    exact List.pairwise_iff_getElem.mp (Cursor.tokens_increase hc) i j hi hj hij

theorem eq_of_start_eq (h : Text.size source.toList ≤ Position.maxOffset)
    (hi : i ≤ (tokenize source file).ahead.length) (hj : j ≤ (tokenize source file).ahead.length)
    (he : ((tokenize source file).get i).span.start = ((tokenize source file).get j).span.start) :
    i = j := by
  rcases Nat.lt_trichotomy i j with hij | hij | hij
  · have hlt := start_lt_start h hij hj
    rw [he] at hlt
    exact absurd hlt (Nat.lt_irrefl _)
  · exact hij
  · have hlt := start_lt_start h hij hi
    rw [he] at hlt
    exact absurd hlt (Nat.lt_irrefl _)

theorem nodup_tokenize (h : Text.size source.toList ≤ Position.maxOffset) :
    (tokenize source file).ahead.Nodup := by
  apply (Cursor.tokens_increase (extent_start_le h file)).imp
  intro t u hlt
  rintro rfl
  exact Nat.lt_irrefl _ hlt

/-- Each token of the stream but the closing one stands at one place only. -/
def TokenStream.Distinct (s : TokenStream) : Prop :=
  ∀ i j, (s.get i).kind ≠ .eof → s.get i = s.get j → i = j

theorem distinct_tokenize (h : Text.size source.toList ≤ Position.maxOffset) :
    (tokenize source file).Distinct := by
  intro i j hi he
  have hj := TokenStream.lt_of_kind_ne_eof (he ▸ hi)
  have hi := TokenStream.lt_of_kind_ne_eof hi
  apply eq_of_start_eq h (Nat.le_of_lt hi) (Nat.le_of_lt hj)
  rw [he]

end ExprLang
