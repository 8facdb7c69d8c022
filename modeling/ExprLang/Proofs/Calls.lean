import ExprLang.Proofs.Window

namespace ExprLang

namespace Cursor

/-- What is read is taken off the text, to the byte. -/
theorem next_takes (c : Cursor) :
    ∃ w, c.rest = w ++ c.next.2.rest ∧ c.next.2.offset = c.offset + Text.size w := by
  by_cases hk : c.next.1.kind = .eof
  · rw [next_of_blanks (isWhitespace_of_kind_next hk)]
    exact ⟨c.rest, (List.append_nil _).symm, rfl⟩
  · obtain ⟨p, text, hp⟩ := Piece.exists_opens hk
    rw [hp.next_eq]
    exact ⟨p.chars, hp.rest, rfl⟩

end Cursor

namespace Lexer

/-- The offset lies inside a character. -/
def Splits (l : Lexer) : Prop :=
  ∃ front c back, l.source.toList = front ++ c :: back ∧
    Text.size front < l.offset ∧ l.offset < Text.size front + c.utf8Size

/-- Only where no character starts and the text does not end, no token can be read. -/
theorem next?_eq_none_iff {l : Lexer} :
    l.next? = none ↔ l.source.utf8ByteSize < l.offset ∨ l.Splits := by
  rw [next?_eq, Option.map_eq_none_iff, cursor?, Option.map_eq_none_iff,
    Text.dropBytes?_eq_none_iff, Text.size_toList]
  rfl

/-- The lexer `m` stands in the text of `l` between two characters or at an end of the text, and at
least `n` bytes further on. -/
structure MovesTo (l : Lexer) (n : Nat) (m : Lexer) : Prop where
  between : ∃ front back, l.source = front ++ back ∧ m = between front back l.file
  forward : l.offset + n ≤ m.offset

theorem MovesTo.trans (h : MovesTo l i m) (h' : MovesTo m j n) : MovesTo l (i + j) n := by
  obtain ⟨front, back, hs, rfl⟩ := h.between
  obtain ⟨front', back', hs', hn⟩ := h'.between
  refine ⟨⟨front', back', hs.trans hs', hn⟩, ?_⟩
  have hl := h.forward
  have hm := h'.forward
  omega

theorem exists_eq_between {l : Lexer} {c : Cursor} (h : l.cursor? = some c) :
    ∃ front back, l.source = front ++ back ∧ l = between front back l.file := by
  obtain ⟨-, -, front, hf, hs⟩ := cursor?_eq_some_iff.mp h
  have hsource : l.source = String.ofList front ++ String.ofList c.rest := by
    rw [← String.ofList_append, ← hf, String.ofList_toList]
  refine ⟨_, _, hsource, ?_⟩
  have hsize : (String.ofList front).utf8ByteSize = l.offset := by
    rw [← Text.size_toList, String.toList_ofList, hs]
  rw [Lexer.between, ← hsource, hsize]

/-- A token that is not the end of the text takes a byte at least. -/
theorem movesTo_of_next? {l m : Lexer} (h : l.next? = some (t, m)) :
    l.MovesTo (if t.kind = .eof then 0 else 1) m := by
  rw [next?_eq] at h
  obtain ⟨c, hc, he⟩ := Option.map_eq_some_iff.mp h
  cases he
  refine ⟨exists_eq_between (cursor?_next hc), ?_⟩
  have ho := (cursor?_eq_some_iff.mp hc).2.1
  obtain ⟨w, hr, hw⟩ := c.next_takes
  split
  · change l.offset ≤ c.next.2.offset
    omega
  · next hk =>
    have hlt := Cursor.length_rest_next_lt hk
    have hne : w ≠ [] := by
      rintro rfl
      rw [List.nil_append] at hr
      exact Nat.lt_irrefl _ (hr ▸ hlt)
    have hpos := Cursor.size_pos_of_ne_nil hne
    change l.offset + 1 ≤ c.next.2.offset
    omega

/-- Once the end of the text is read, it is read again and again. -/
theorem next?_of_eof {l m : Lexer} (h : l.next? = some (t, m)) (hk : t.kind = .eof) :
    m.offset = l.source.utf8ByteSize ∧ m.next? = some (t, m) := by
  rw [next?_eq] at h
  obtain ⟨c, hc, he⟩ := Option.map_eq_some_iff.mp h
  cases he
  have hm := cursor?_next hc
  obtain ⟨-, ho, front, hf, hs⟩ := cursor?_eq_some_iff.mp hc
  have hsize : c.extent = l.source.utf8ByteSize := by
    rw [Cursor.extent, ho, ← Text.size_toList, hf, Text.size_append, hs]
  have hb := Cursor.isWhitespace_of_kind_next hk
  rw [Cursor.next_of_blanks hb] at hm ⊢
  refine ⟨hsize, ?_⟩
  rw [next?_eq, hm, Option.map_some, Cursor.next_of_blanks (List.forall_mem_nil _)]
  rfl

theorem collect?_of_next? {l m : Lexer} (h : l.next? = some (t, m)) :
    l.collect? =
      if t.kind = .eof then some ([], m) else m.collect?.map fun r => (t :: r.1, r.2) := by
  rw [collect?]
  split <;> simp_all

/-- What can be asked of a lexer. -/
inductive Call where
  | nextToken
  | next
  | collect
  deriving DecidableEq, Repr

/-- What a lexer answers: a token, a token unless the text has ended, or all tokens up to there. -/
inductive Answer where
  | token (t : Token)
  | item (t? : Option Token)
  | items (ts : List Token)
  deriving DecidableEq, Repr

/-- The tokens in an answer, without the one that stands for the end of the text. -/
def Answer.tokens : Answer → List Token
  | token t => if t.kind = .eof then [] else [t]
  | item t? => t?.toList
  | items ts => ts

namespace Call

def answer? (l : Lexer) : Call → Option (Answer × Lexer)
  | nextToken => l.next?.map fun (t, m) => (.token t, m)
  | next => l.next?.map fun (t, m) => (.item (if t.kind = .eof then none else some t), m)
  | collect => l.collect?.map fun (ts, m) => (.items ts, m)

/-- What is to be answered where the tokens of `S` are still to come, and what comes after it. -/
def answer (S : TokenStream) : Call → Answer × TokenStream
  | nextToken => (.token (S.get 0), S.drop 1)
  | next => (.item S.ahead.head?, S.drop 1)
  | collect => (.items S.ahead, S.drop S.ahead.length)

def answers? (l : Lexer) : List Call → Option (List Answer × Lexer)
  | [] => some ([], l)
  | call :: calls => do
    let (answer, m) ← call.answer? l
    let (answers, n) ← answers? m calls
    return (answer :: answers, n)

def answers (S : TokenStream) : List Call → List Answer × TokenStream
  | [] => ([], S)
  | call :: calls =>
    let r := answers (call.answer S).2 calls
    ((call.answer S).1 :: r.1, r.2)

end Call

variable {S : TokenStream}

theorem Before.head? (h : Before S 0 l) :
    S.ahead.head? = if (S.get 0).kind = .eof then none else some (S.get 0) := by
  have hc : S.Closed := by
    obtain ⟨c, -, hS⟩ := h
    have hc := c.closed_tokens
    rwa [hS] at hc
  cases hs : S.ahead with
  | nil => rw [if_pos (TokenStream.kind_of_drop_eq_nil (i := 0) hs)]; rfl
  | cons t ts =>
    have hget := (TokenStream.get_of_drop_eq_cons (i := 0) hs).1
    rw [hget, if_neg (hc t (hs ▸ List.mem_cons_self))]
    rfl

/-- The next token of the stream is read, and the lexer moves on unless there is none. -/
theorem Before.read (h : Before S 0 l) :
    ∃ m, l.next? = some (S.get 0, m) ∧ Before (S.drop 1) 0 m ∧
      l.MovesTo S.ahead.head?.toList.length m := by
  obtain ⟨m, hm, hb⟩ := h.next?
  refine ⟨m, hm, hb, ?_⟩
  have hf := movesTo_of_next? hm
  rw [h.head?]
  split at hf
  · next hk => rwa [if_pos hk]
  · next hk => rwa [if_neg hk]

theorem Before.collect? (h : Before S 0 l) :
    ∃ m, l.collect? = some (S.ahead, m) ∧ Before (S.drop S.ahead.length) 0 m ∧
      l.MovesTo S.ahead.length m := by
  obtain ⟨ts, hs⟩ : ∃ ts, S.ahead = ts := ⟨_, rfl⟩
  induction ts generalizing S l with
  | nil =>
    obtain ⟨m, hm, hb, hf⟩ := h.read
    have hk := TokenStream.kind_of_drop_eq_nil (i := 0) hs
    have hdrop : S.drop 1 = S.drop 0 := by rw [TokenStream.drop, TokenStream.drop, hs]; rfl
    rw [hs] at hf ⊢
    rw [collect?_of_next? hm, if_pos hk]
    exact ⟨m, rfl, hdrop ▸ hb, hf⟩
  | cons t ts ih =>
    obtain ⟨m, hm, hb, hf⟩ := h.read
    have hrest : (S.drop 1).ahead = ts := by rw [TokenStream.ahead_drop, hs]; rfl
    obtain ⟨n, hn, hb', hf'⟩ := ih hb hrest
    have hh := h.head?
    rw [hrest] at hn hb' hf'
    rw [TokenStream.drop_drop] at hb'
    rw [hs] at hf hh ⊢
    rw [List.length_cons, Nat.add_comm]
    refine ⟨n, ?_, hb', hf.trans hf'⟩
    rw [collect?_of_next? hm]
    split at hh
    · cases hh
    · next hk =>
      cases hh
      rw [if_neg hk, hn]
      rfl

/-- The tokens from an offset on are those that are collected from there. -/
theorem collect?_eq_stream? (l : Lexer) :
    l.collect?.map Prod.fst = l.stream?.map fun r => r.1.ahead := by
  rw [stream?, Option.map_map]
  cases hc : l.cursor? with
  | none =>
    have hn : l.next? = none := by rw [next?_eq, hc]; rfl
    rw [collect?]
    split <;> simp_all
  | some c =>
    obtain ⟨m, hm, -⟩ := Before.collect? (S := c.tokens) ⟨c, hc, rfl⟩
    rw [hm]
    rfl

/-- A call is answered from the stream, and moves the lexer on over what is answered. -/
theorem Before.answer? (h : Before S 0 l) (call : Call) :
    ∃ m, call.answer? l = some ((call.answer S).1, m) ∧ Before (call.answer S).2 0 m ∧
      l.MovesTo (call.answer S).1.tokens.length m := by
  cases call with
  | nextToken =>
    obtain ⟨m, hm, hb, hf⟩ := h.read
    refine ⟨m, ?_, hb, ?_⟩
    · rw [Call.answer?, hm]
      rfl
    · rw [h.head?] at hf
      rw [Call.answer, Answer.tokens]
      split <;> simp_all
  | next =>
    obtain ⟨m, hm, hb, hf⟩ := h.read
    refine ⟨m, ?_, hb, hf⟩
    rw [Call.answer?, Call.answer, hm, h.head?]
    rfl
  | collect =>
    obtain ⟨m, hm, hb⟩ := h.collect?
    refine ⟨m, ?_, hb⟩
    rw [Call.answer?, hm]
    rfl

/-- What is answered is the start of what is still to come. -/
theorem Before.ahead_answer (h : Before S 0 l) (call : Call) :
    (call.answer S).1.tokens ++ (call.answer S).2.ahead = S.ahead := by
  have hone : S.ahead.head?.toList ++ S.ahead.drop 1 = S.ahead := by cases S.ahead <;> rfl
  cases call with
  | nextToken =>
    rw [h.head?] at hone
    rw [Call.answer, Answer.tokens, TokenStream.ahead_drop]
    split at hone
    · next hk => rwa [if_pos hk]
    · next hk => rwa [if_neg hk]
  | next => exact hone
  | collect =>
    rw [Call.answer, Answer.tokens, TokenStream.ahead_drop, List.drop_length, List.append_nil]

/-- So is a sequence of calls. -/
theorem Before.answers? (h : Before S 0 l) (calls : List Call) :
    ∃ m, Call.answers? l calls = some ((Call.answers S calls).1, m) ∧
      Before (Call.answers S calls).2 0 m ∧
      l.MovesTo ((Call.answers S calls).1.flatMap Answer.tokens).length m ∧
      (Call.answers S calls).1.flatMap Answer.tokens ++ (Call.answers S calls).2.ahead =
        S.ahead := by
  induction calls generalizing S l with
  | nil =>
    obtain ⟨c, hc, hS⟩ := h
    exact ⟨l, rfl, ⟨c, hc, hS⟩, ⟨exists_eq_between hc, Nat.le_refl _⟩, rfl⟩
  | cons call calls ih =>
    obtain ⟨m, hm, hb, hf⟩ := h.answer? call
    obtain ⟨n, hn, hb', hf', ha⟩ := ih hb
    refine ⟨n, ?_, hb', ?_, ?_⟩
    · rw [Call.answers?, hm]
      simp only [Option.bind_eq_bind, Option.bind_some, hn]
      rfl
    · rw [Call.answers, List.flatMap_cons, List.length_append]
      exact hf.trans hf'
    · rw [Call.answers, List.flatMap_cons, List.append_assoc, ha]
      exact h.ahead_answer call

/-- The lexer `l` answers the calls from the tokens of `S`, and `m` stands where the rest of them is
still to come. -/
structure Serves (S : TokenStream) (l : Lexer) (calls : List Call) (answers : List Answer)
    (m : Lexer) : Prop where
  answered : Call.answers? l calls = some (answers, m)
  expected : answers = (Call.answers S calls).1
  moves : l.MovesTo (answers.flatMap Answer.tokens).length m
  rest : ∃ rest n, m.collect? = some (rest, n) ∧ answers.flatMap Answer.tokens ++ rest = S.ahead

theorem Before.serves (h : Before S 0 l) (calls : List Call) :
    ∃ answers m, l.Serves S calls answers m := by
  obtain ⟨m, hm, hb, hf, ha⟩ := h.answers? calls
  obtain ⟨n, hn, -⟩ := hb.collect?
  exact ⟨_, m, hm, rfl, hf, _, n, hn, ha⟩

theorem before_between (front back file : String) :
    Before ((tokenize back (some file)).shift front.utf8ByteSize) 0 (.between front back file) := by
  refine ⟨_, cursor?_between front back file, ?_⟩
  have ht := Cursor.tokens_shift front.utf8ByteSize (.start back (some file))
  rw [Cursor.shift, Cursor.start] at ht
  simp only [Nat.zero_add] at ht
  exact ht

theorem before_start (source : String) (file : Option String) :
    Before (tokenize source file) 0 (.start source file) :=
  ⟨.start source file, cursor?_eq_some_iff.mpr ⟨rfl, rfl, [], rfl, rfl⟩, rfl⟩

/-- One call for each token finds the tokens of the stream, the end of the text last. -/
theorem Call.answers_replicate (S : TokenStream) :
    (answers S (List.replicate S.toList.length nextToken)).1 = S.toList.map .token := by
  obtain ⟨ahead, stop⟩ := S
  induction ahead with
  | nil => rfl
  | cons t ts ih =>
    have hlen : (TokenStream.mk (t :: ts) stop).toList.length =
        (TokenStream.mk ts stop).toList.length + 1 := rfl
    rw [hlen, List.replicate_succ, answers]
    exact congrArg (Answer.token t :: ·) ih

end Lexer

/-- As long as all offsets are on record, the tokens of a text that others come before move on. -/
theorem span_shift_tokenize {back : String} {file : Option String}
    (hn : n + Text.size back.toList ≤ Position.maxOffset) :
    ∀ t ∈ (tokenize back file).toList, (t.shift n).span = t.span.moveBy n := by
  intro t ht
  obtain ⟨ps, hs, he⟩ := Segments.of_tokens (Cursor.start back file)
  rw [tokenize, ← he] at ht
  obtain ⟨p, hp, rfl⟩ := List.mem_map.mp ht
  obtain ⟨a, b, hab, hb, hspan⟩ := hs.span_of_mem hp
  have hb : b ≤ 0 + Text.size back.toList := hb
  rw [Token.shift, hspan]
  exact Span.shift_eq_moveBy hab (by omega) _

/-- The tokens that parsing needs are there whenever it needs them. -/
theorem exists_window_of_parse (source : String) (file : Option String) :
    ∃ n w, Window.after? (.start source file) n = some w ∧
      w.Shows (tokenize source file) n (parse source file).2 := by
  obtain ⟨n, -, hv, -⟩ := (ParseState.InView.start (tokenize source file)).run .program
  obtain ⟨w, hw, ha⟩ := Window.exists_after? (Lexer.before_start source file) n
  exact ⟨n, w, hw, ha.shows hv⟩

open Lexer in
/-- A token is refused only inside a character and past the end of a text. From any other place all
calls are answered, as if the text started there, and none leads to a place that is refused. -/
theorem calls_never_refused :
    (∀ l : Lexer, l.next? = none ↔ l.source.utf8ByteSize < l.offset ∨ l.Splits) ∧
    (∀ (l m : Lexer) (t : Token), l.next? = some (t, m) →
      l.MovesTo (if t.kind = .eof then 0 else 1) m ∧
      (t.kind = .eof → m.offset = l.source.utf8ByteSize ∧ m.next? = some (t, m))) ∧
    (∀ (front back file : String) (calls : List Call),
      (∃ answers m, (between front back file).Serves
        ((tokenize back (some file)).shift front.utf8ByteSize) calls answers m) ∧
      ((front ++ back).utf8ByteSize ≤ Position.maxOffset →
        ∀ t ∈ (tokenize back (some file)).toList,
          (t.shift front.utf8ByteSize).span = t.span.moveBy front.utf8ByteSize)) ∧
    ∀ (source : String) (file : Option String),
      (∃ m, Call.answers? (.start source file)
          (List.replicate (tokenize source file).toList.length .nextToken) =
        some ((tokenize source file).toList.map .token, m)) ∧
      (∀ n, ∃ w, Window.after? (.start source file) n = some w ∧
        w.At (tokenize source file) n) ∧
      ∃ n w, Window.after? (.start source file) n = some w ∧
        w.Shows (tokenize source file) n (parse source file).2 := by
  refine ⟨fun _ => next?_eq_none_iff, ?_, ?_, ?_⟩
  · intro l m t h
    exact ⟨movesTo_of_next? h, next?_of_eof h⟩
  · intro front back file calls
    refine ⟨(before_between front back file).serves calls, ?_⟩
    intro hsize
    rw [String.utf8ByteSize_append, ← Text.size_toList back] at hsize
    exact span_shift_tokenize hsize
  · intro source file
    have hstart := before_start source file
    refine ⟨?_, Window.exists_after? hstart, exists_window_of_parse source file⟩
    obtain ⟨m, hm, -⟩ := hstart.answers?
      (List.replicate (tokenize source file).toList.length .nextToken)
    rw [Call.answers_replicate] at hm
    exact ⟨m, hm⟩

open Lexer in
/-- The offset one lies inside a character. From the offset three an integer, an operator and the
end of the text are still to come. -/
theorem calls_behind_blank :
    next? ⟨"é 1+", "shell", 1⟩ = none ∧
    (∃ m, (between "é " "1+" "shell").Serves
        ((tokenize "1+" (some "shell")).shift 3) [.next, .collect, .nextToken]
        [.item (some ⟨.integer, "1", .ofOffsets 3 4 "shell"⟩),
          .items [⟨.plus, "+", .ofOffsets 4 5 "shell"⟩], .token (.eof (.ofOffset 5 "shell"))] m) ∧
      ∀ t ∈ (tokenize "1+" (some "shell")).toList, (t.shift 3).span = t.span.moveBy 3 := by
  obtain ⟨hnone, -, hserves, -⟩ := calls_never_refused
  obtain ⟨⟨answers, m, h⟩, hmove⟩ := hserves "é " "1+" "shell" [.next, .collect, .nextToken]
  have he : answers = _ := h.expected.trans (by cbv)
  exact ⟨(hnone _).mpr (.inr ⟨[], 'é', [' ', '1', '+'], rfl, by decide, by decide⟩),
    ⟨m, he ▸ h⟩, hmove (by decide)⟩

end ExprLang
