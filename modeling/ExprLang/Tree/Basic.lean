import ExprLang.Token.Basic

namespace ExprLang

/-- An expression. Each node holds the token that it was read from, an operator node its operator.
Where nothing could be read there is a hole. -/
inductive Expr where
  | missing
  | ident (token : Token) (name : String)
  | int (token : Token) (value : Int)
  | bool (token : Token) (value : Bool)
  | unary (token : Token) (operator : String) (operand : Expr)
  | binary (token : Token) (left : Expr) (operator : String) (right : Expr)
  deriving DecidableEq, Repr, Inhabited

namespace Expr

def isMissing : Expr → Bool
  | missing => true
  | _ => false

def token? : Expr → Option Token
  | missing => none
  | ident token _ | int token _ | bool token _ | unary token _ _ | binary token _ _ _ => some token

theorem isMissing_iff {e : Expr} : e.isMissing = true ↔ e = .missing := by
  cases e <;> simp [isMissing]

theorem token?_eq_none_iff {e : Expr} : e.token? = none ↔ e = .missing := by
  cases e <;> simp [token?]

end Expr

inductive StmtKind where
  | binding
  | returning
  | expression
  deriving DecidableEq, Repr, Inhabited

def StmtKind.label : StmtKind → String
  | binding => "let"
  | returning => "return"
  | expression => "expression"

instance : ToString StmtKind := ⟨StmtKind.label⟩

structure Binder where
  token : Token
  name : String
  deriving DecidableEq, Repr, Inhabited

/-- A statement, with the token that it starts with. -/
inductive Stmt where
  | binding (token : Token) (binder : Binder) (value : Expr)
  | returning (token : Token) (value : Expr)
  | expression (token : Token) (value : Expr)
  deriving DecidableEq, Repr, Inhabited

namespace Stmt

def kind : Stmt → StmtKind
  | binding .. => .binding
  | returning .. => .returning
  | expression .. => .expression

def token : Stmt → Token
  | binding token _ _ | returning token _ | expression token _ => token

def value : Stmt → Expr
  | binding _ _ value | returning _ value | expression _ value => value

def binder? : Stmt → Option Binder
  | binding _ binder _ => some binder
  | _ => none

theorem kind_eq_binding_iff {s : Stmt} : s.kind = .binding ↔ s.binder?.isSome = true := by
  cases s <;> simp [kind, binder?]

end Stmt

structure Program where
  statements : List Stmt
  deriving DecidableEq, Repr, Inhabited

namespace Program

def size (p : Program) : Nat := p.statements.length

def isEmpty (p : Program) : Bool := p.statements.isEmpty

def literal (p : Program) : String :=
  match p.statements with
  | [] => ""
  | stmt :: _ => stmt.token.literal

end Program

end ExprLang
