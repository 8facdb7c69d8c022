import ExprLang.Reading.Power
import ExprLang.Reading.State
import ExprLang.Text.Decimal

namespace ExprLang

/-- The largest integer that an expression holds. -/
def maxInteger : Nat := 9223372036854775807

namespace ParseState

/-- Reads the current token as an operand of its own. -/
def readAtom (p : ParseState) : Expr × ParseState :=
  let token := p.current
  match token.kind with
  | .integer =>
    let value := Text.Decimal.value token.literal.toList
    if value ≤ maxInteger then (.int token value, p)
    else (.missing, p.record (.integerTooLarge token))
  | .identifier => (.ident token token.literal, p)
  | .trueWord => (.bool token true, p)
  | .falseWord => (.bool token false, p)
  | _ => (.missing, p.record (.noOperand token))

/-- Closes a group around what was read in it. A problem inside the group is not reported again. -/
def closeGroup (errorsBefore : Nat) (inner : Expr × ParseState) : Expr × ParseState :=
  if inner.1.isMissing || errorsBefore < inner.2.errors.size then inner
  else match inner.2.expect .closeParen with
    | .ok p => (inner.1, p)
    | .error d => (.missing, inner.2.record d)

@[simp] theorem tokens_readAtom (p : ParseState) : p.readAtom.2.tokens = p.tokens := by
  simp only [readAtom]
  split <;> try rfl
  split <;> rfl

@[simp] theorem remaining_readAtom (p : ParseState) : p.readAtom.2.remaining = p.remaining := by
  simp [remaining]

theorem remaining_closeGroup_le (n : Nat) (inner : Expr × ParseState) :
    (closeGroup n inner).2.remaining ≤ inner.2.remaining := by
  simp only [closeGroup]
  split
  · exact Nat.le_refl _
  · split
    · next h =>
      rw [(expect_eq_ok_iff.mp h).2, remaining_advance]
      exact Nat.sub_le _ _
    · exact Nat.le_refl _

mutual

/-- The expression at the current token with the operators that bind tighter than `min`, and a
proof that no token comes back. -/
def expressionWithin (min : Power) (p : ParseState) :
    { r : Expr × ParseState // r.2.remaining ≤ p.remaining } :=
  let operand := operandWithin p
  if operand.1.1.isMissing then operand
  else
    let r := operatorsWithin min operand.1.1 operand.1.2
    ⟨r.1, Nat.le_trans r.2 operand.2⟩
termination_by 3 * p.remaining + 2
decreasing_by
  · exact Nat.lt_succ_self _
  · have := Nat.mul_le_mul_left 3 operand.2
    exact Nat.lt_of_le_of_lt this (Nat.lt_add_of_pos_right Nat.zero_lt_two)

def operandWithin (p : ParseState) :
    { r : Expr × ParseState // r.2.remaining ≤ p.remaining } :=
  match _h : p.current.kind.opening? with
  | none => ⟨(.missing, p.record (.noOperand p.current)), Nat.le_refl _⟩
  | some .atom => ⟨p.readAtom, Nat.le_of_eq p.remaining_readAtom⟩
  | some .operator =>
    let r := expressionWithin .unary p.advance
    ⟨(.unary p.current p.current.literal r.1.1, r.1.2), Nat.le_trans r.2 p.remaining_advance_le⟩
  | some .group =>
    let r := expressionWithin .lowest p.advance
    ⟨closeGroup p.errors.size r.1,
      Nat.le_trans (remaining_closeGroup_le _ _) (Nat.le_trans r.2 p.remaining_advance_le)⟩
termination_by 3 * p.remaining + 1
decreasing_by
  all_goals
    have := remaining_advance_lt (Kind.ne_eof_of_opening? _h)
    omega

/-- The operators after an expression that bind tighter than `min`, each with its right operand. -/
def operatorsWithin (min : Power) (left : Expr) (p : ParseState) :
    { r : Expr × ParseState // r.2.remaining ≤ p.remaining } :=
  if h : min < p.peek.kind.power then
    let right := expressionWithin p.peek.kind.power p.advance.advance
    have hr : right.1.2.remaining < p.remaining :=
      Nat.lt_of_le_of_lt right.2 (remaining_advance_advance_lt (Kind.ne_eof_of_lt_power h))
    let r := operatorsWithin min (.binary p.peek left p.peek.literal right.1.1) right.1.2
    ⟨r.1, Nat.le_trans r.2 (Nat.le_of_lt hr)⟩
  else ⟨(left, p), Nat.le_refl _⟩
termination_by 3 * p.remaining
decreasing_by
  · have := remaining_advance_advance_lt (Kind.ne_eof_of_lt_power h)
    omega
  · exact Nat.mul_lt_mul_of_pos_left hr (Nat.zero_lt_succ 2)

end

/-- Reads an expression at the current token, with the operators that bind tighter than `min`, and
stops on its last token. Each hole in it has its reason on record. -/
def readExpr (min : Power) (p : ParseState) : Expr × ParseState := (expressionWithin min p).1

/-- Reads the shortest expression at the current token. -/
def readOperand (p : ParseState) : Expr × ParseState := (operandWithin p).1

/-- Reads on after an expression as long as operators follow that bind tighter than `min`. -/
def readOperators (min : Power) (left : Expr) (p : ParseState) : Expr × ParseState :=
  (operatorsWithin min left p).1

def readUnary (p : ParseState) : Expr × ParseState :=
  let operand := p.advance.readExpr .unary
  (.unary p.current p.current.literal operand.1, operand.2)

def readGroup (p : ParseState) : Expr × ParseState :=
  closeGroup p.errors.size (p.advance.readExpr .lowest)

/-- Reads the current token as an operator between `left` and an operand that binds tighter. -/
def readBinary (left : Expr) (power : Power) (p : ParseState) : Expr × ParseState :=
  let right := p.advance.readExpr power
  (.binary p.current left p.current.literal right.1, right.2)

def readOpening (opening : Opening) (p : ParseState) : Expr × ParseState :=
  match opening with
  | .atom => p.readAtom
  | .operator => p.readUnary
  | .group => p.readGroup

theorem readExpr_eq (min : Power) (p : ParseState) :
    p.readExpr min =
      if p.readOperand.1.isMissing then p.readOperand
      else p.readOperand.2.readOperators min p.readOperand.1 := by
  rw [readExpr, expressionWithin]
  split <;> simp_all [readOperand, readOperators]

theorem readOperand_eq (p : ParseState) :
    p.readOperand =
      match p.current.kind.opening? with
      | none => (.missing, p.record (.noOperand p.current))
      | some opening => p.readOpening opening := by
  rw [readOperand, operandWithin]
  split <;> simp_all [readOpening, readUnary, readGroup, readExpr]

theorem readOperators_eq (min : Power) (left : Expr) (p : ParseState) :
    p.readOperators min left =
      if min < p.peek.kind.power then
        let r := p.advance.readBinary left p.peek.kind.power
        r.2.readOperators min r.1
      else (left, p) := by
  rw [readOperators, operatorsWithin]
  split <;> simp [readOperators, readBinary, readExpr]

theorem remaining_readExpr_le (min : Power) (p : ParseState) :
    (p.readExpr min).2.remaining ≤ p.remaining :=
  (expressionWithin min p).2

theorem remaining_readOperand_le (p : ParseState) : p.readOperand.2.remaining ≤ p.remaining :=
  (operandWithin p).2

theorem remaining_readOperators_le (min : Power) (left : Expr) (p : ParseState) :
    (p.readOperators min left).2.remaining ≤ p.remaining :=
  (operatorsWithin min left p).2

end ParseState

end ExprLang
