import ExprLang.Token.Junction

namespace ExprLang

namespace Text

/-- The characters that may stand between two tokens. -/
def gapChars : List Char := [' ', '\t', '\r', '\n']

/-- The characters that open an operator or a delimiter. -/
def symbolChars : List Char := "=!<>+-*/()\x7b\x7d,;".toList

theorem mem_gapChars_iff {c : Char} : c ∈ gapChars ↔ c.isWhitespace = true := by
  simp only [gapChars, Char.isWhitespace, List.mem_cons, List.not_mem_nil, or_false,
    Bool.or_eq_true, decide_eq_true_eq, or_assoc]

theorem mem_symbolChars_iff {c : Char} : c ∈ symbolChars ↔ Kind.ofSymbol? c ≠ none := by
  constructor
  · intro h
    have hall : symbolChars.all (fun d => (Kind.ofSymbol? d).isSome) = true := by decide
    exact Option.isSome_iff_ne_none.mp (List.all_eq_true.mp hall c h)
  · intro h
    simp only [Kind.ofSymbol?] at h
    split at h <;> first | decide | exact absurd rfl h

end Text

namespace Kind

/-- The reserved words. -/
def reserved : List String := ["let", "fun", "true", "false", "return"]

/-- The text of a kind that has but one. -/
def text? : Kind → Option String
  | invalid | integer | identifier => none
  | eof => some ""
  | openCurly => some "\x7b"
  | closeCurly => some "\x7d"
  | openParen => some "("
  | closeParen => some ")"
  | assign => some "="
  | equal => some "=="
  | bang => some "!"
  | notEqual => some "!="
  | less => some "<"
  | greater => some ">"
  | semicolon => some ";"
  | comma => some ","
  | plus => some "+"
  | minus => some "-"
  | slash => some "/"
  | star => some "*"
  | letWord => some "let"
  | funWord => some "fun"
  | trueWord => some "true"
  | falseWord => some "false"
  | returnWord => some "return"

/-- The characters that a token of a kind can have. -/
def Fits (k : Kind) (w : List Char) : Prop :=
  match k with
  | identifier => w ≠ [] ∧ (∀ c ∈ w, c.isAlpha = true) ∧ String.ofList w ∉ reserved
  | integer => w ≠ [] ∧ ∀ c ∈ w, c.isDigit = true
  | invalid => ∃ c, w = [c] ∧ c.isAlpha = false ∧ c.isDigit = false ∧ c ∉ Text.symbolChars ∧
      c ∉ Text.gapChars
  | k => k.text? = some (String.ofList w)

theorem fits_eof_iff {w : List Char} : eof.Fits w ↔ w = [] := by
  constructor
  · intro h
    exact (String.ofList_injective (Option.some.inj h)).symm
  · rintro rfl
    rfl

theorem fits_of_text? {k : Kind} (h : k.text? = some (String.ofList w)) : k.Fits w := by
  cases k <;> first | exact h | cases h

theorem keyword?_eq_none_iff {word : String} : keyword? word = none ↔ word ∉ reserved := by
  simp only [keyword?, reserved]
  split <;> simp_all

theorem text?_of_keyword? (h : keyword? word = some k) : k.text? = some word := by
  simp only [keyword?] at h
  split at h <;> cases h <;> rfl

theorem Spelled.fits (h : Spelled k w) : k.Fits w := by
  cases h with
  | word hn hw =>
    cases hk : keyword? (String.ofList w) with
    | none =>
      rw [ofWord, hk]
      exact ⟨hn, hw, keyword?_eq_none_iff.mp hk⟩
    | some k =>
      rw [ofWord, hk]
      exact fits_of_text? (text?_of_keyword? hk)
  | number hn hw => exact ⟨hn, hw⟩
  | symbol hs =>
    simp only [ofSymbol?] at hs
    split at hs <;> cases hs <;> rfl
  | equal => rfl
  | notEqual => rfl
  | stray hs ha hd hb =>
    refine ⟨_, rfl, ha, hd, ?_, ?_⟩
    · rw [Text.mem_symbolChars_iff, hs]
      exact fun hn => hn rfl
    · rw [Text.mem_gapChars_iff, hb]
      exact Bool.false_ne_true

theorem spelled_of_text? {k : Kind} (h : k.text? = some text) (hk : k ≠ .eof) :
    k.Spelled text.toList := by
  cases k <;> cases h <;>
    first
    | exact absurd rfl hk
    | exact spelled_of_keyword? rfl
    | exact .symbol rfl
    | exact .equal
    | exact .notEqual

/-- The characters that fit a kind are those that spell a token of the kind. -/
theorem Fits.spelled {k : Kind} (h : k.Fits w) (hk : k ≠ .eof) : k.Spelled w := by
  have ht (h : k.text? = some (String.ofList w)) : k.Spelled w := by
    simpa only [String.toList_ofList] using spelled_of_text? h hk
  cases k with
  | identifier =>
    obtain ⟨hn, hw, hr⟩ := h
    have hs := Spelled.word hn hw
    rwa [ofWord, keyword?_eq_none_iff.mpr hr] at hs
  | integer => exact .number h.1 h.2
  | invalid =>
    obtain ⟨c, rfl, ha, hd, hs, hb⟩ := h
    apply Spelled.stray _ ha hd
    · rw [Bool.eq_false_iff]
      exact fun hw => hb (Text.mem_gapChars_iff.mpr hw)
    · exact Classical.not_not.mp (mt Text.mem_symbolChars_iff.mpr hs)
  | _ => exact ht h

end Kind

/-- A token with the blanks before it. -/
structure Piece where
  gap : List Char
  token : Token

namespace Piece

def chars (p : Piece) : List Char := p.gap ++ p.token.literal.toList

/-- The token covers the bytes of its characters, where the piece starts at the byte `n`. -/
def StartsAt (p : Piece) (file : String) (n : Nat) : Prop :=
  p.token.span = .ofOffsets (n + Text.size p.gap) (n + Text.size p.chars) file

end Piece

/-- The pieces `ps` make up the text `text`, which starts at the byte `offset` of the text with the
label `file`. Each token fits its kind, stands at its own bytes and is as long as it can be. -/
structure Divides (file : String) (offset : Nat) (text : List Char) (ps : List Piece) : Prop where
  lossless : ps.flatMap Piece.chars = text
  gaps : ∀ p ∈ ps, ∀ c ∈ p.gap, c ∈ Text.gapChars
  fits : ∀ p ∈ ps, p.token.kind.Fits p.token.literal.toList
  placed : ∀ front p back, ps = front ++ p :: back →
    p.StartsAt file (offset + Text.size (front.flatMap Piece.chars))
  longest : ∀ front p back, ps = front ++ p :: back →
    p.token.kind.EndsBefore (back.flatMap Piece.chars)

/-- Pieces of which the last one, and no other, stands for the end of the text. -/
structure Segments (file : String) (offset : Nat) (text : List Char) (ps : List Piece) : Prop
    extends Divides file offset text ps where
  closed : ∃ front p, ps = front ++ [p] ∧
    p.token = .eof (.ofOffset (offset + Text.size text) file) ∧ ∀ q ∈ front, q.token.kind ≠ .eof

namespace Divides

theorem nil (file : String) (offset : Nat) : Divides file offset [] [] := by
  constructor
  · rfl
  · exact List.forall_mem_nil _
  · exact List.forall_mem_nil _
  · intro front p back h
    cases List.append_ne_nil_of_right_ne_nil front (List.cons_ne_nil p back) h.symm
  · intro front p back h
    cases List.append_ne_nil_of_right_ne_nil front (List.cons_ne_nil p back) h.symm

theorem cons (h : Divides file (offset + Text.size p.chars) text ps)
    (hg : ∀ c ∈ p.gap, c ∈ Text.gapChars) (hf : p.token.kind.Fits p.token.literal.toList)
    (hp : p.StartsAt file offset) (he : p.token.kind.EndsBefore text) :
    Divides file offset (p.chars ++ text) (p :: ps) := by
  constructor
  · rw [List.flatMap_cons, h.lossless]
  · exact List.forall_mem_cons.mpr ⟨hg, h.gaps⟩
  · exact List.forall_mem_cons.mpr ⟨hf, h.fits⟩
  · intro front q back hq
    cases front with
    | nil =>
      cases hq
      exact hp
    | cons r front =>
      cases hq
      rw [List.flatMap_cons, Text.size_append, ← Nat.add_assoc]
      exact h.placed front q back rfl
  · intro front q back hq
    cases front with
    | nil =>
      cases hq
      rw [h.lossless]
      exact he
    | cons r front =>
      cases hq
      exact h.longest front q back rfl

theorem tail (h : Divides file offset text (p :: ps)) :
    Divides file (offset + Text.size p.chars) (ps.flatMap Piece.chars) ps := by
  constructor
  · rfl
  · exact (List.forall_mem_cons.mp h.gaps).2
  · exact (List.forall_mem_cons.mp h.fits).2
  · intro front q back hq
    have hp := h.placed (p :: front) q back (congrArg (p :: ·) hq)
    rwa [List.flatMap_cons, Text.size_append, ← Nat.add_assoc] at hp
  · intro front q back hq
    exact h.longest (p :: front) q back (congrArg (p :: ·) hq)

end Divides

namespace Cursor

theorem skipBlanks_of_not_isWhitespace {c : Cursor} (hr : c.rest = ch :: text)
    (hc : ch.isWhitespace = false) : c.skipBlanks = c := by
  have hn : ¬ ch.isWhitespace = true := by
    rw [hc]
    exact Bool.false_ne_true
  rw [skipBlanks, hr, List.takeWhile_cons_of_neg hn, List.dropWhile_cons_of_neg hn, ← hr]
  rfl

/-- What is read at a piece is its token, and the cursor then stands behind it. -/
theorem next_of_piece {c : Cursor} (hr : c.rest = gap ++ (w ++ text))
    (hg : ∀ b ∈ gap, b.isWhitespace = true) (hw : Kind.Spelled k w) (he : k.EndsBefore text) :
    c.next = (⟨k, String.ofList w, .ofOffsets (c.offset + Text.size gap)
      (c.offset + Text.size gap + Text.size w) c.file⟩,
      ⟨c.file, c.offset + Text.size gap + Text.size w, text⟩) := by
  obtain ⟨ch, v, rfl⟩ := hw.exists_cons
  have hs : c.skipBlanks = ⟨c.file, c.offset + Text.size gap, ch :: (v ++ text)⟩ := by
    have hb := skipBlanks_blanks hg c.file c.offset (ch :: (v ++ text))
    rw [skipBlanks_of_not_isWhitespace (c := ⟨c.file, c.offset + Text.size gap, _⟩) rfl
      hw.not_isWhitespace] at hb
    rw [← hb]
    exact congrArg (fun rest => skipBlanks ⟨c.file, c.offset, rest⟩) hr
  rw [next, hs]
  exact congrArg (take _) (Lexeme.read_of_spelled hw he)

theorem next_of_blanks {c : Cursor} (h : ∀ b ∈ c.rest, b.isWhitespace = true) :
    c.next = (.eof (.ofOffset c.extent c.file), ⟨c.file, c.extent, []⟩) := by
  have hs := skipBlanks_blanks h c.file c.offset []
  rw [List.append_nil] at hs
  rw [next, hs]
  rfl

theorem tokens_of_blanks {c : Cursor} (h : ∀ b ∈ c.rest, b.isWhitespace = true) :
    c.tokens = ⟨[], .ofOffset c.extent c.file⟩ := by
  rw [tokens, next_of_blanks h]
  rfl

end Cursor

namespace Piece

/-- The piece is the first one at the cursor, and `text` comes after it. -/
structure Opens (p : Piece) (c : Cursor) (text : List Char) : Prop where
  rest : c.rest = p.chars ++ text
  gap : ∀ b ∈ p.gap, b ∈ Text.gapChars
  fits : p.token.kind.Fits p.token.literal.toList
  start : p.StartsAt c.file c.offset
  longest : p.token.kind.EndsBefore text
  inner : p.token.kind ≠ .eof

theorem size_chars (p : Piece) :
    Text.size p.chars = Text.size p.gap + Text.size p.token.literal.toList :=
  Text.size_append _ _

theorem Opens.next_eq {p : Piece} {c : Cursor} (h : p.Opens c text) :
    c.next = (p.token, ⟨c.file, c.offset + Text.size p.chars, text⟩) := by
  have hr := h.rest
  have hg : ∀ b ∈ p.gap, b.isWhitespace = true := by
    intro b hb
    exact Text.mem_gapChars_iff.mp (h.gap b hb)
  rw [chars, List.append_assoc] at hr
  rw [Cursor.next_of_piece hr hg (h.fits.spelled h.inner) h.longest, String.ofList_toList,
    size_chars, Nat.add_assoc, ← size_chars, ← h.start]

theorem exists_opens {c : Cursor} (hk : c.next.1.kind ≠ .eof) :
    ∃ (p : Piece) (text : List Char), p.Opens c text := by
  have hw := c.rest.takeWhile_append_dropWhile (p := Char.isWhitespace)
  have hg : ∀ b ∈ c.rest.takeWhile Char.isWhitespace, b.isWhitespace = true :=
    List.all_eq_true.mp List.all_takeWhile
  cases hr : c.skipBlanks.rest with
  | nil =>
    rw [Cursor.next_of_blanks (Cursor.isWhitespace_of_skipBlanks hr)] at hk
    exact absurd rfl hk
  | cons ch rest =>
    rw [show c.rest.dropWhile Char.isWhitespace = _ from hr, ← Lexeme.read_append ch rest] at hw
    have hs := Lexeme.read_spelled (Cursor.not_isWhitespace_of_skipBlanks hr) rest
    have he := Lexeme.read_endsBefore ch rest
    have hn := Cursor.next_of_piece hw.symm hg hs he
    refine ⟨⟨c.rest.takeWhile Char.isWhitespace, c.next.1⟩, (Lexeme.read ch rest).rest, ?_⟩
    rw [hn]
    constructor
    · simp only [chars, String.toList_ofList, List.append_assoc, hw]
    · intro b hb
      exact Text.mem_gapChars_iff.mpr (hg b hb)
    · simp only [String.toList_ofList]
      exact hs.fits
    · rw [StartsAt, size_chars]
      simp only [String.toList_ofList, Nat.add_assoc]
    · exact he
    · exact Lexeme.read_kind_ne_eof ch rest

end Piece

namespace Segments

theorem last (hg : ∀ b ∈ text, b ∈ Text.gapChars) (file : String) (offset : Nat) :
    Segments file offset text [⟨text, .eof (.ofOffset (offset + Text.size text) file)⟩] := by
  have ht : (⟨text, .eof (.ofOffset (offset + Text.size text) file)⟩ : Piece).chars = text :=
    List.append_nil text
  have hd := (Divides.nil file _).cons hg (Kind.fits_eof_iff.mpr rfl)
    (by rw [Piece.StartsAt, ht]; rfl) (.nil .eof)
  rw [ht, List.append_nil] at hd
  exact ⟨hd, [], _, rfl, rfl, List.forall_mem_nil _⟩

theorem cons {c : Cursor} (hp : p.Opens c text)
    (h : Segments c.file (c.offset + Text.size p.chars) text ps) :
    Segments c.file c.offset c.rest (p :: ps) := by
  obtain ⟨front, q, rfl, hq, hn⟩ := h.closed
  rw [hp.rest]
  refine ⟨h.toDivides.cons hp.gap hp.fits hp.start hp.longest, p :: front, q, rfl, ?_,
    List.forall_mem_cons.mpr ⟨hp.inner, hn⟩⟩
  rw [hq, Text.size_append, Nat.add_assoc]

theorem opens {c : Cursor} (h : Segments c.file c.offset c.rest (p :: ps))
    (hk : p.token.kind ≠ .eof) : p.Opens c (ps.flatMap Piece.chars) where
  rest := h.lossless.symm
  gap := h.gaps p List.mem_cons_self
  fits := h.fits p List.mem_cons_self
  start := h.placed [] p ps rfl
  longest := h.longest [] p ps rfl
  inner := hk

theorem tail (h : Segments file offset text (p :: ps)) (hk : p.token.kind ≠ .eof) :
    Segments file (offset + Text.size p.chars) (ps.flatMap Piece.chars) ps := by
  have hd := h.toDivides.tail
  obtain ⟨front, q, he, hq, hn⟩ := h.closed
  cases front with
  | nil =>
    cases he
    rw [hq] at hk
    exact absurd rfl hk
  | cons r front =>
    cases he
    refine ⟨hd, front, q, rfl, ?_, (List.forall_mem_cons.mp hn).2⟩
    rw [hq, ← h.lossless, List.flatMap_cons, Text.size_append, Nat.add_assoc]

theorem ne_nil (h : Segments file offset text ps) : ps ≠ [] := by
  obtain ⟨front, q, rfl, -⟩ := h.closed
  exact List.append_ne_nil_of_right_ne_nil front (List.cons_ne_nil q [])

/-- Only blanks stand before the end of the text. -/
theorem eq_last (h : Segments file offset text (p :: ps)) (hk : p.token.kind = .eof) :
    ps = [] ∧ p.token = .eof (.ofOffset (offset + Text.size text) file) ∧ p.gap = text := by
  obtain ⟨front, q, he, hq, hn⟩ := h.closed
  cases front with
  | nil =>
    cases he
    refine ⟨rfl, hq, ?_⟩
    rw [← h.lossless, List.flatMap_singleton, Piece.chars, hq]
    exact (List.append_nil _).symm
  | cons r front =>
    cases he
    exact absurd hk (hn p List.mem_cons_self)

/-- The tokens of a text, each with the blanks before it, make up the text. -/
theorem of_tokens (c : Cursor) :
    ∃ ps, Segments c.file c.offset c.rest ps ∧ ps.map Piece.token = c.tokens.toList := by
  fun_induction Cursor.tokens c with
  | case1 c hk =>
    have hb := Cursor.isWhitespace_of_kind_next hk
    refine ⟨_, last (fun b hm => Text.mem_gapChars_iff.mpr (hb b hm)) c.file c.offset, ?_⟩
    rw [Cursor.next_of_blanks hb]
    rfl
  | case2 c hk ih =>
    obtain ⟨p, text, hp⟩ := Piece.exists_opens hk
    rw [hp.next_eq] at ih ⊢
    obtain ⟨ps, hs, ht⟩ := ih
    exact ⟨p :: ps, cons hp hs, congrArg (p.token :: ·) ht⟩

/-- However a text is cut into tokens with blanks before them, its tokens are those. -/
theorem tokens_eq {c : Cursor} (h : Segments c.file c.offset c.rest ps) :
    c.tokens.toList = ps.map Piece.token := by
  induction ps generalizing c with
  | nil => exact absurd rfl h.ne_nil
  | cons p ps ih =>
    by_cases hk : p.token.kind = .eof
    · obtain ⟨rfl, hp, hg⟩ := h.eq_last hk
      have hb : ∀ b ∈ c.rest, b.isWhitespace = true := by
        intro b hm
        rw [← hg] at hm
        exact Text.mem_gapChars_iff.mp (h.gaps p List.mem_cons_self b hm)
      rw [Cursor.tokens_of_blanks hb, List.map_singleton, hp]
      rfl
    · have ht := ih (c := ⟨c.file, c.offset + Text.size p.chars, _⟩) (h.tail hk)
      rw [Cursor.tokens, (h.opens hk).next_eq, if_neg hk, List.map_cons, ← ht]
      rfl

theorem span_of_mem (h : Segments file offset text ps) (hp : p ∈ ps) :
    ∃ a b, a ≤ b ∧ b ≤ offset + Text.size text ∧ p.token.span = .ofOffsets a b file := by
  obtain ⟨front, back, he⟩ := List.append_of_mem hp
  have hs : Text.size (front.flatMap Piece.chars) + Text.size p.chars ≤ Text.size text := by
    rw [← h.lossless, he, List.flatMap_append, List.flatMap_cons, Text.size_append,
      Text.size_append, ← Nat.add_assoc]
    exact Nat.le_add_right _ _
  have hg := p.size_chars
  exact ⟨_, _, by omega, by omega, h.placed front p back he⟩

end Segments

/-- A text is cut into tokens in one way only, and that is how it is read. -/
theorem tokenize_eq_iff_segments {source : String} {file : Option String} {ts : List Token} :
    (tokenize source file).toList = ts ↔
      ∃ ps, Segments (file.getD "shell") 0 source.toList ps ∧ ps.map Piece.token = ts := by
  constructor
  · rintro rfl
    exact Segments.of_tokens (Cursor.start source file)
  · rintro ⟨ps, hs, rfl⟩
    exact Segments.tokens_eq (c := Cursor.start source file) hs

/-- The same span `n` bytes further on, also past the largest offset. -/
def Span.moveBy (n : Nat) (s : Span) : Span :=
  ⟨⟨s.start.offset + n, s.start.file⟩, ⟨s.stop.offset + n, s.stop.file⟩⟩

theorem Span.shift_eq_moveBy (hab : a ≤ b) (hb : b + n ≤ Position.maxOffset) (file : String) :
    (ofOffsets a b file).shift n = (ofOffsets a b file).moveBy n := by
  have ha : a + n ≤ Position.maxOffset := Nat.le_trans (Nat.add_le_add_right hab n) hb
  rw [shift_ofOffsets, moveBy]
  simp only [ofOffsets, Position.ofOffset, Nat.min_eq_left ha, Nat.min_eq_left hb,
    Nat.min_eq_left (Nat.le_of_add_right_le ha), Nat.min_eq_left (Nat.le_of_add_right_le hb)]

/-- Blanks between two texts part their tokens. As long as all offsets are on record, those of the
second text just move on. -/
theorem tokenize_across_blanks {m w q : String} (hw : ∀ b ∈ w.toList, b ∈ Text.gapChars)
    (hn : w ≠ "") (file : Option String) :
    (tokenize (m ++ w ++ q) file).toList = (tokenize m file).toList.dropLast ++
        (tokenize q file).toList.map (Token.shift (Text.size (m ++ w).toList)) ∧
      (Text.size (m ++ w ++ q).toList ≤ Position.maxOffset →
        ∀ t ∈ (tokenize q file).toList, (t.shift (Text.size (m ++ w).toList)).span =
          t.span.moveBy (Text.size (m ++ w).toList)) := by
  constructor
  · have hb : ∀ b ∈ w.toList, b.isWhitespace = true := by
      intro b hb
      exact Text.mem_gapChars_iff.mp (hw b hb)
    rw [tokenize_append hb hn, TokenStream.toList_prepend, TokenStream.toList_shift,
      TokenStream.dropLast_toList]
  · intro hsize t ht
    obtain ⟨ps, hs, he⟩ := Segments.of_tokens (Cursor.start q file)
    rw [tokenize, ← he] at ht
    obtain ⟨p, hp, rfl⟩ := List.mem_map.mp ht
    obtain ⟨a, b, hab, hb, hspan⟩ := hs.span_of_mem hp
    have hb : b ≤ 0 + Text.size q.toList := hb
    rw [String.toList_append, Text.size_append] at hsize
    rw [Token.shift, hspan]
    exact Span.shift_eq_moveBy hab (by omega) _

/-- The two signs would be one token without the blanks. -/
theorem signs_stay_apart :
    (∀ b ∈ "\t ".toList, b ∈ Text.gapChars) ∧ "\t " ≠ "" ∧
      Text.size ("a=" ++ "\t " ++ "=é 1").toList ≤ Position.maxOffset ∧
      (tokenize ("a=" ++ "\t " ++ "=é 1") none).toList = (tokenize "a=" none).toList.dropLast ++
        (tokenize "=é 1" none).toList.map (Token.shift (Text.size ("a=" ++ "\t ").toList)) ∧
      ∀ t ∈ (tokenize "=é 1" none).toList, (t.shift (Text.size ("a=" ++ "\t ").toList)).span =
        t.span.moveBy (Text.size ("a=" ++ "\t ").toList) := by
  have hw : ∀ b ∈ "\t ".toList, b ∈ Text.gapChars := by simp [Text.gapChars]
  have hn : "\t " ≠ "" := by decide
  have hsize : Text.size ("a=" ++ "\t " ++ "=é 1").toList ≤ Position.maxOffset := by decide
  obtain ⟨ht, hm⟩ := tokenize_across_blanks (m := "a=") (q := "=é 1") hw hn none
  exact ⟨hw, hn, hsize, ht, hm hsize⟩

end ExprLang
