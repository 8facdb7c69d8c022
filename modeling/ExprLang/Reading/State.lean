import ExprLang.Reading.Journal
import ExprLang.Token.Stream

namespace ExprLang

/-- How far a text has been read: the tokens from the current one on, the problems found so far,
and what happened. -/
structure ParseState where
  tokens : TokenStream
  errors : Array Diagnostic
  journal : Array Event
  deriving DecidableEq, Repr, Inhabited

namespace ParseState

/-- Two tokens are in view from the start on, the current one and the one after it. -/
def start (tokens : TokenStream) : ParseState where
  tokens := tokens
  errors := #[]
  journal := ((tokens.ahead.take 2).map .lexed).toArray

def current (p : ParseState) : Token := p.tokens.get 0

def peek (p : ParseState) : Token := p.tokens.get 1

def remaining (p : ParseState) : Nat := p.tokens.ahead.length

/-- Steps to the next token; the one after that comes into view. -/
def advance (p : ParseState) : ParseState where
  tokens := p.tokens.drop 1
  errors := p.errors
  journal := p.journal ++ (p.tokens.ahead[2]?.map Event.lexed).toArray

def record (p : ParseState) (d : Diagnostic) : ParseState where
  tokens := p.tokens
  errors := p.errors.push d
  journal := p.journal.push (.recorded d)

/-- Steps onto the next token if it is of the kind that belongs there. -/
def expect (p : ParseState) (kind : Kind) : Except Diagnostic ParseState :=
  if p.peek.kind = kind then .ok p.advance else .error (.unexpected kind p.peek)

@[simp] theorem tokens_advance (p : ParseState) : p.advance.tokens = p.tokens.drop 1 := rfl

@[simp] theorem errors_advance (p : ParseState) : p.advance.errors = p.errors := rfl

@[simp] theorem tokens_record (p : ParseState) (d : Diagnostic) :
    (p.record d).tokens = p.tokens := rfl

@[simp] theorem errors_record (p : ParseState) (d : Diagnostic) :
    (p.record d).errors = p.errors.push d := rfl

@[simp] theorem current_advance (p : ParseState) : p.advance.current = p.peek := by
  simp [current, peek]

@[simp] theorem remaining_advance (p : ParseState) : p.advance.remaining = p.remaining - 1 := by
  simp [remaining]

theorem remaining_advance_le (p : ParseState) : p.advance.remaining ≤ p.remaining := by
  rw [remaining_advance]
  exact Nat.sub_le _ _

@[simp] theorem remaining_record (p : ParseState) (d : Diagnostic) :
    (p.record d).remaining = p.remaining := rfl

theorem remaining_pos {p : ParseState} (h : p.current.kind ≠ .eof) : 0 < p.remaining := by
  refine List.length_pos_iff.mpr fun hn => h ?_
  simp [current, TokenStream.get, hn, TokenStream.last]

theorem remaining_advance_lt {p : ParseState} (h : p.current.kind ≠ .eof) :
    p.advance.remaining < p.remaining := by
  rw [remaining_advance]
  exact Nat.sub_lt (remaining_pos h) Nat.one_pos

theorem remaining_advance_advance_lt {p : ParseState} (h : p.peek.kind ≠ .eof) :
    p.advance.advance.remaining < p.remaining :=
  Nat.lt_of_lt_of_le (remaining_advance_lt (by simpa using h)) p.remaining_advance_le

theorem expect_eq_ok_iff {p q : ParseState} {kind : Kind} :
    p.expect kind = .ok q ↔ p.peek.kind = kind ∧ q = p.advance := by
  simp only [expect]
  split <;> simp_all [eq_comm]

theorem expect_eq_error_iff {p : ParseState} {kind : Kind} {d : Diagnostic} :
    p.expect kind = .error d ↔ p.peek.kind ≠ kind ∧ d = .unexpected kind p.peek := by
  simp only [expect]
  split <;> simp_all [eq_comm]

/-- Skips to the end of a statement that failed: to a semicolon, to the end of the text, or to the
last token before the next `let` or `return`. -/
def synchronize (p : ParseState) : ParseState :=
  if p.current.isOneOf [.semicolon, .eof] || p.peek.isOneOf [.letWord, .returnWord] then p
  else p.advance.synchronize
termination_by p.remaining
decreasing_by
  rename_i h
  simp only [Bool.or_eq_true, Token.isOneOf_iff, not_or] at h
  exact remaining_advance_lt fun he => h.1 (by simp [he])

theorem remaining_synchronize_le (p : ParseState) : p.synchronize.remaining ≤ p.remaining := by
  fun_induction synchronize p with
  | case1 => exact Nat.le_refl _
  | case2 p _ ih => exact Nat.le_trans ih p.remaining_advance_le

@[simp] theorem errors_synchronize (p : ParseState) : p.synchronize.errors = p.errors := by
  fun_induction synchronize p with
  | case1 => rfl
  | case2 p _ ih => simpa using ih

end ParseState

end ExprLang
