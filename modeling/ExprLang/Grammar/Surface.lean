import ExprLang.Reading.Expression

namespace ExprLang.Grammar

/-- An expression as it is written, with its groups. -/
inductive Surface where
  | atom (token : Token)
  | unary (operator : Token) (operand : Surface)
  | binary (left : Surface) (operator : Token) (right : Surface)
  | group (opening : Token) (inner : Surface) (closing : Token)
  deriving DecidableEq, Repr

namespace Surface

def tokens : Surface → List Token
  | atom token => [token]
  | unary operator operand => operator :: operand.tokens
  | binary left operator right => left.tokens ++ operator :: right.tokens
  | group opening inner closing => opening :: inner.tokens ++ [closing]

/-- The expression without its groups. -/
def expr : Surface → Expr
  | atom token => match token.kind with
    | .integer => .int token (Text.Decimal.value token.literal.toList)
    | .identifier => .ident token token.literal
    | kind => .bool token (kind = .trueWord)
  | unary operator operand => .unary operator operator.literal operand.expr
  | binary left operator right => .binary operator left.expr operator.literal right.expr
  | group _ inner _ => inner.expr

/-- The power of the operator that stands between the parts of an expression, outside any group. -/
def power? : Surface → Option Power
  | binary _ operator _ => some operator.kind.power
  | _ => none

/-- The groups of an expression are those that its operators need, or more: every operator outside
them binds tighter than `min`, and no part of an operator hides a looser one. -/
def Valid (min : Power) : Surface → Prop
  | atom token => token.kind.opening? = some .atom ∧
    (token.kind = .integer → Text.Decimal.value token.literal.toList ≤ maxInteger)
  | unary operator operand => operator.kind.opening? = some .operator ∧
    operand.power? = none ∧ operand.Valid min
  | binary left operator right => operator.kind.isInfix = true ∧ min < operator.kind.power ∧
    (∀ p, left.power? = some p → operator.kind.power ≤ p) ∧
    (∀ p, right.power? = some p → operator.kind.power < p) ∧ left.Valid min ∧ right.Valid min
  | group opening inner closing => opening.kind = .openParen ∧ closing.kind = .closeParen ∧
    inner.Valid .lowest

instance decidableValid : (min : Power) → (s : Surface) → Decidable (s.Valid min)
  | _, atom token => inferInstanceAs (Decidable (token.kind.opening? = some .atom ∧
      (token.kind = .integer → Text.Decimal.value token.literal.toList ≤ maxInteger)))
  | min, unary operator operand =>
    have := decidableValid min operand
    inferInstanceAs (Decidable (operator.kind.opening? = some .operator ∧
      operand.power? = none ∧ operand.Valid min))
  | min, binary left operator right =>
    have := decidableValid min left
    have := decidableValid min right
    inferInstanceAs (Decidable (operator.kind.isInfix = true ∧ min < operator.kind.power ∧
      (∀ p ∈ left.power?, operator.kind.power ≤ p) ∧
      (∀ p ∈ right.power?, operator.kind.power < p) ∧ left.Valid min ∧ right.Valid min))
  | _, group opening inner closing =>
    have := decidableValid .lowest inner
    inferInstanceAs (Decidable (opening.kind = .openParen ∧ closing.kind = .closeParen ∧
      inner.Valid .lowest))

theorem tokens_ne_nil (s : Surface) : s.tokens ≠ [] := by
  cases s <;> simp [tokens]

theorem isMissing_expr (s : Surface) : s.expr.isMissing = false := by
  induction s with
  | atom token =>
    simp only [expr]
    split <;> rfl
  | group opening inner closing ih => exact ih
  | _ => rfl

end Surface

end ExprLang.Grammar
