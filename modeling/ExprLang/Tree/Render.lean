import ExprLang.Text.Decimal
import ExprLang.Tree.Basic

namespace ExprLang

/-- An expression as text, with parentheses around every operator; a hole has no text. -/
def Expr.render : Expr → String
  | missing => ""
  | ident _ name => name
  | int _ value => Text.Decimal.ofInt value
  | bool _ true => "true"
  | bool _ false => "false"
  | unary _ operator operand => "(" ++ operator ++ operand.render ++ ")"
  | binary _ left operator right =>
    "(" ++ left.render ++ " " ++ operator ++ " " ++ right.render ++ ")"

/-- A statement as text; a `return` without a value is followed by its semicolon. -/
def Stmt.render : Stmt → String
  | binding token binder value =>
    token.literal ++ " " ++ binder.name ++ " = " ++ value.render ++ ";"
  | returning token .missing => token.literal ++ ";"
  | returning token value => token.literal ++ " " ++ value.render ++ ";"
  | expression _ value => value.render

def Program.render (p : Program) : String := String.join (p.statements.map Stmt.render)

instance : ToString Expr := ⟨Expr.render⟩
instance : ToString Stmt := ⟨Stmt.render⟩
instance : ToString Program := ⟨Program.render⟩

end ExprLang
