import ExprLang.Proofs.Trace
import ExprLang.Token.Lexer

namespace ExprLang

namespace Cursor

theorem get_tokens_zero (c : Cursor) : c.tokens.get 0 = c.next.1 := by
  rw [tokens]
  split
  · next hk =>
    rw [next_of_blanks (isWhitespace_of_kind_next hk)]
    rfl
  · rfl

/-- At the end of the text the next token is the end of the text once more. -/
theorem tokens_next (c : Cursor) : c.next.2.tokens = c.tokens.drop 1 := by
  by_cases hk : c.next.1.kind = .eof
  · have hb := isWhitespace_of_kind_next hk
    rw [tokens_of_blanks hb, next_of_blanks hb, tokens_of_blanks (List.forall_mem_nil _)]
    rfl
  · rw [tokens.eq_def c, if_neg hk]
    rfl

end Cursor

namespace Lexer

variable {S : TokenStream}

/-- The lexer stands where the token `i` of `S` is the next one. -/
def Before (S : TokenStream) (i : Nat) (l : Lexer) : Prop :=
  ∃ c, l.cursor? = some c ∧ c.tokens = S.drop i

/-- The lexer between two parts of a text. -/
def between (front back file : String) : Lexer := ⟨front ++ back, file, front.utf8ByteSize⟩

theorem cursor?_between (front back file : String) :
    (between front back file).cursor? = some ⟨file, front.utf8ByteSize, back.toList⟩ := by
  apply cursor?_eq_some_iff.mpr
  exact ⟨rfl, rfl, front.toList, String.toList_append, Text.size_toList front⟩

/-- A lexer that stands at a character finds a token, and stands at a character again. -/
theorem Before.next? (h : Before S i l) :
    ∃ m, l.next? = some (S.get i, m) ∧ Before S (i + 1) m := by
  obtain ⟨c, hc, hS⟩ := h
  have ht : c.next.1 = S.get i := by
    rw [← c.get_tokens_zero, hS, TokenStream.get_drop]
    rfl
  refine ⟨{ l with offset := c.next.2.offset }, ?_, c.next.2, ?_, ?_⟩
  · rw [Lexer.next?_eq, hc, ← ht]
    rfl
  · exact cursor?_next hc
  · rw [c.tokens_next, hS, TokenStream.drop_drop]

end Lexer

/-- Two tokens of a text, and the lexer from which the one after them is read when it is needed. -/
structure Window where
  current : Token
  peek : Token
  lexer : Lexer
  deriving DecidableEq, Repr, Inhabited

namespace Window

variable {S : TokenStream}

def start? (l : Lexer) : Option Window := do
  let (current, l) ← l.next?
  let (peek, l) ← l.next?
  return ⟨current, peek, l⟩

def advance? (w : Window) : Option Window := do
  let (t, l) ← w.lexer.next?
  return ⟨w.peek, t, l⟩

/-- The window that starts at the lexer, `n` tokens further on. -/
def after? (l : Lexer) : Nat → Option Window
  | 0 => start? l
  | n + 1 => (after? l n).bind advance?

/-- The window stands at the token `i` of `S`, and the token after the two in it is not read yet. -/
structure At (S : TokenStream) (i : Nat) (w : Window) : Prop where
  current : w.current = S.get i
  peek : w.peek = S.get (i + 1)
  before : w.lexer.Before S (i + 2)

theorem At.start? (h : Lexer.Before S 0 l) : ∃ w, start? l = some w ∧ At S 0 w := by
  obtain ⟨l', hl, h'⟩ := h.next?
  obtain ⟨l'', hl', h''⟩ := h'.next?
  refine ⟨⟨S.get 0, S.get 1, l''⟩, ?_, rfl, rfl, h''⟩
  rw [Window.start?, hl]
  exact congrArg (Option.bind · _) hl'

theorem At.advance? {w : Window} (h : At S i w) : ∃ v, w.advance? = some v ∧ At S (i + 1) v := by
  obtain ⟨l, hl, hb⟩ := h.before.next?
  refine ⟨⟨w.peek, S.get (i + 2), l⟩, ?_, h.peek, rfl, hb⟩
  rw [Window.advance?, hl]
  rfl

/-- However far the window moves on, it shows the tokens of the stream. -/
theorem exists_after? (h : Lexer.Before S 0 l) (n : Nat) : ∃ w, after? l n = some w ∧ At S n w := by
  induction n with
  | zero => exact At.start? h
  | succ n ih =>
    obtain ⟨w, hw, ha⟩ := ih
    rw [after?, hw]
    exact ha.advance?

end Window

namespace ParseState

/-- What can be asked of a state, whatever its current token is. -/
inductive Operation where
  | advance
  | expect (kind : Kind)
  | synchronize
  | record (d : Diagnostic)
  | program
  | statement
  | form (kind : StmtKind)
  | expression (min : Power)
  | opening (opening : Opening)
  | binary (left : Expr) (power : Power)
  deriving DecidableEq, Repr, Inhabited

namespace Operation

/-- The state after the operation, whether it fails or not. -/
def run (p : ParseState) : Operation → ParseState
  | advance => p.advance
  | expect kind => StmtReader.after (StmtReader.expect kind) p
  | synchronize => p.synchronize
  | record d => p.record d
  | program => p.readProgram.2
  | statement => StmtReader.after StmtReader.statement p
  | form kind => StmtReader.after (StmtReader.form kind) p
  | expression min => (p.readExpr min).2
  | opening o => (p.readOpening o).2
  | binary left power => (p.readBinary left power).2

def runAll (ops : List Operation) (p : ParseState) : ParseState := ops.foldl run p

end Operation

open StmtReader

variable {S : TokenStream} {p q : ParseState}

namespace InView

theorem finish (h : InView S i p) (n : Nat) : InView S i (p.finish n) := by
  refine ⟨h.tokens, ?_⟩
  have hj : (p.finish n).journal.toList = p.journal.toList ++ [.finished n _ _] := Array.toList_push
  rw [hj, Event.atLevel_append, h.lexed]
  exact List.append_nil _

end InView

/-- An operation takes steps; one that reads to the end also writes the closing event. -/
theorem Operation.steps (o : Operation) (p : ParseState) :
    ∃ q, Steps (fun _ _ => True) p q ∧ (o.run p = q ∨ ∃ n, o.run p = q.finish n) := by
  have any {q : ParseState} (h : Steps Finds p q) : Steps (fun _ _ => True) p q :=
    h.mono fun _ _ _ => trivial
  cases o with
  | advance => exact ⟨_, (Steps.refl p).advance, .inl rfl⟩
  | expect kind => exact ⟨_, any ((Stepwise.expect kind).after p), .inl rfl⟩
  | synchronize => exact ⟨_, Steps.synchronize p, .inl rfl⟩
  | record d => exact ⟨_, (Steps.refl p).record trivial, .inl rfl⟩
  | program => exact ⟨_, any (Steps.readStatements p), .inr ⟨_, rfl⟩⟩
  | statement => exact ⟨_, any (Stepwise.statement.after p), .inl rfl⟩
  | form kind => exact ⟨_, any ((Stepwise.form kind).after p), .inl rfl⟩
  | expression min => exact ⟨_, any (Steps.readExpr min p), .inl rfl⟩
  | opening o => exact ⟨_, any (Steps.readOpening o p), .inl rfl⟩
  | binary left power => exact ⟨_, any (Steps.readBinary left power p), .inl rfl⟩

/-- No operation goes back in the text or takes a problem off the record. -/
theorem InView.run (h : InView S i p) (o : Operation) :
    ∃ j, i ≤ j ∧ InView S j (o.run p) ∧ p.errors.toList <+: (o.run p).errors.toList := by
  obtain ⟨q, hs, ho⟩ := o.steps p
  obtain ⟨j, hij, hj⟩ := hs.keeps h InView.advance fun h _ => h.record _
  refine ⟨j, hij, ?_⟩
  rcases ho with ho | ⟨n, ho⟩
  · rw [ho]
    exact ⟨hj, hs.errors_prefix⟩
  · rw [ho]
    exact ⟨hj.finish n, hs.errors_prefix⟩

theorem InView.runAll (h : InView S i p) (ops : List Operation) :
    ∃ place : Nat → Nat, place 0 = i ∧ ∀ n, InView S (place n) (Operation.runAll (ops.take n) p) ∧
      ∀ k ≤ n, place k ≤ place n ∧ (Operation.runAll (ops.take k) p).errors.toList <+:
        (Operation.runAll (ops.take n) p).errors.toList := by
  induction ops generalizing i p with
  | nil =>
    refine ⟨fun _ => i, rfl, ?_⟩
    intro n
    simp only [List.take_nil]
    exact ⟨h, fun k _ => ⟨Nat.le_refl i, List.prefix_rfl⟩⟩
  | cons o ops ih =>
    obtain ⟨j, hij, hj, he⟩ := h.run o
    obtain ⟨place, rfl, hp⟩ := ih hj
    -- The state before `o` comes first, so the places of the later ones move up by one.
    refine ⟨fun | 0 => i | n + 1 => place n, rfl, ?_⟩
    intro n
    cases n with
    | zero =>
      refine ⟨h, ?_⟩
      intro k hk
      cases Nat.le_zero.mp hk
      exact ⟨Nat.le_refl i, List.prefix_rfl⟩
    | succ n =>
      obtain ⟨hv, hk⟩ := hp n
      refine ⟨hv, ?_⟩
      intro k hkn
      cases k with
      | zero =>
        obtain ⟨hle, hpre⟩ := hk 0 (Nat.zero_le n)
        exact ⟨Nat.le_trans hij hle, he.trans hpre⟩
      | succ k => exact hk k (Nat.le_of_succ_le_succ hkn)

end ParseState

/-- The window `w` stands at the token `i` of `S`, and the state shows the two tokens in it. The
token after them is the next one that is read. -/
structure Window.Shows (S : TokenStream) (i : Nat) (w : Window) (p : ParseState) : Prop where
  current : p.current = w.current
  current_eq : w.current = S.get i
  peek : p.peek = w.peek
  peek_eq : w.peek = S.get (i + 1)
  next : ∃ l, w.lexer.next? = some (S.get (i + 2), l)
  lexed : Event.atLevel .trace p.journal.toList = (S.ahead.take (i + 2)).map .lexed

theorem Window.At.shows {S : TokenStream} {w : Window} (h : w.At S i)
    (hp : ParseState.InView S i p) : w.Shows S i p := by
  obtain ⟨l, hl, -⟩ := h.before.next?
  constructor
  · exact (ParseState.current_eq hp.tokens).trans h.current.symm
  · exact h.current
  · exact (ParseState.peek_eq hp.tokens).trans h.peek.symm
  · exact h.peek
  · exact ⟨l, hl⟩
  · exact hp.lexed

open ParseState in
/-- Whatever is asked of a state and in whatever order, its two tokens are neighbours in the text,
none of them comes back, and what is on record stays there. -/
theorem window_of_operations (front back file : String) (ops : List Operation) :
    ∃ S m, (Lexer.between front back file).stream? = some (S, m) ∧
      ∃ place : Nat → Nat, place 0 = 0 ∧ ∀ n,
        (∃ w, Window.after? (.between front back file) (place n) = some w ∧
          w.Shows S (place n) (Operation.runAll (ops.take n) (.start S))) ∧
        ∀ k ≤ n, place k ≤ place n ∧ (Operation.runAll (ops.take k) (.start S)).errors.toList <+:
          (Operation.runAll (ops.take n) (.start S)).errors.toList := by
  have hc := Lexer.cursor?_between front back file
  refine ⟨_, _, by rw [Lexer.stream?, hc, Option.map_some], ?_⟩
  obtain ⟨place, h0, hp⟩ := (InView.start _).runAll ops
  refine ⟨place, h0, ?_⟩
  intro n
  obtain ⟨hv, hk⟩ := hp n
  obtain ⟨w, hw, ha⟩ := Window.exists_after? ⟨_, hc, rfl⟩ (place n)
  exact ⟨⟨w, hw, ha.shows hv⟩, hk⟩

end ExprLang
