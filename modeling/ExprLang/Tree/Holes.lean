import ExprLang.Tree.Basic

namespace ExprLang

namespace Expr

/-- The number of operators of an expression that lack their right operand. -/
def holes : Expr → Nat
  | missing | ident .. | int .. | bool .. => 0
  | unary _ _ operand => if operand.isMissing then 1 else operand.holes
  | binary _ left _ right => left.holes + if right.isMissing then 1 else right.holes

/-- The holes of an expression, where one that is absent altogether counts as one. -/
def gaps (e : Expr) : Nat := if e.isMissing then 1 else e.holes

theorem gaps_of_isMissing {e : Expr} (h : e.isMissing = true) : e.gaps = 1 := if_pos h

theorem gaps_of_not_isMissing {e : Expr} (h : e.isMissing = false) : e.gaps = e.holes := by
  rw [gaps, h]
  rfl

@[simp] theorem gaps_missing : missing.gaps = 1 := rfl

@[simp] theorem gaps_unary (t : Token) (operator : String) (operand : Expr) :
    (unary t operator operand).gaps = operand.gaps := rfl

theorem gaps_binary (t : Token) (left right : Expr) (operator : String)
    (h : left.isMissing = false) :
    (binary t left operator right).gaps = left.gaps + right.gaps := by
  rw [gaps_of_not_isMissing h]
  rfl

end Expr

/-- The gaps of a statement that starts right before `next`. A `return` that a semicolon follows
directly lacks nothing. -/
def Stmt.gaps (next : Token) (s : Stmt) : Nat :=
  if s.kind = .returning ∧ next.kind = .semicolon then 0 else s.value.gaps

end ExprLang
