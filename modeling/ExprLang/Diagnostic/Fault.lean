import ExprLang.Diagnostic.Basic
import ExprLang.Token.Shift

namespace ExprLang

/-- What can be wrong at a token, whatever the token. -/
inductive Fault where
  | unexpected (expected : Kind)
  | noOperand
  | integerTooLarge
  | failed (kind : StmtKind) (cause : Fault)
  deriving DecidableEq, Repr

/-- The diagnostic that blames a token for a fault. -/
def Fault.on (t : Token) : Fault → Diagnostic
  | unexpected expected => .unexpected expected t
  | noOperand => .noOperand t
  | integerTooLarge => .integerTooLarge t
  | failed kind cause => (cause.on t).wrap kind

/-- A fault with the place in a text of the token to blame. -/
structure Charge where
  fault : Fault
  place : Nat
  deriving DecidableEq, Repr

def Charge.diagnostic (S : TokenStream) (c : Charge) : Diagnostic := c.fault.on (S.get c.place)

def Diagnostic.Blames (d : Diagnostic) (t : Token) : Prop := ∃ f : Fault, d = f.on t

def Problem.mapTokens (f : Token → Token) : Problem → Problem
  | unexpectedToken expected actual literal => unexpectedToken expected actual literal
  | noOperand token => noOperand (f token)
  | integerTooLarge literal => integerTooLarge literal
  | statementFailed kind cause => statementFailed kind (cause.mapTokens f)

def Diagnostic.shift (n : Nat) (d : Diagnostic) : Diagnostic where
  problem := d.problem.mapTokens (.shift n)
  position := d.position.shift n

/-- A token without its place. -/
def Token.eraseSpan (t : Token) : Token := { t with span := default }

/-- A diagnostic without its place and that of its token. -/
def Diagnostic.eraseSpans (d : Diagnostic) : Diagnostic where
  problem := d.problem.mapTokens Token.eraseSpan
  position := default

theorem Token.faithful_shift (n : Nat) : Faithful (shift n) := ⟨fun _ => rfl, fun _ => rfl⟩

theorem Token.faithful_eraseSpan : Faithful eraseSpan := ⟨fun _ => rfl, fun _ => rfl⟩

namespace Fault

/-- A diagnostic shows where the token that it blames starts. -/
@[simp] theorem position_on (f : Fault) (t : Token) : (f.on t).position = t.span.start := by
  induction f with
  | failed kind cause ih => exact ih
  | _ => rfl

theorem mapTokens_problem_on {g : Token → Token} (hg : Token.Faithful g) (f : Fault) (t : Token) :
    (f.on t).problem.mapTokens g = (f.on (g t)).problem := by
  induction f with
  | unexpected expected =>
    simp only [on, Diagnostic.unexpected, Diagnostic.blame, Problem.mapTokens, hg.kind, hg.literal]
  | noOperand => rfl
  | integerTooLarge =>
    simp only [on, Diagnostic.integerTooLarge, Diagnostic.blame, Problem.mapTokens, hg.literal]
  | failed kind cause ih => exact congrArg (Problem.statementFailed kind) ih

theorem shift_on (n : Nat) (f : Fault) (t : Token) : (f.on t).shift n = f.on (t.shift n) := by
  simp only [Diagnostic.shift, mapTokens_problem_on (Token.faithful_shift n), position_on]
  rw [show t.span.start.shift n = (t.shift n).span.start from rfl, ← position_on f (t.shift n)]

theorem eraseSpans_on (f : Fault) (t : Token) : (f.on t).eraseSpans = f.on t.eraseSpan := by
  simp only [Diagnostic.eraseSpans, mapTokens_problem_on Token.faithful_eraseSpan]
  rw [show (default : Position) = t.eraseSpan.span.start from rfl, ← position_on f t.eraseSpan]

end Fault

end ExprLang
