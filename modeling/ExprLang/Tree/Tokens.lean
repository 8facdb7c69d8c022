import ExprLang.Tree.Render

namespace ExprLang

namespace Expr

/-- The tokens of the nodes, as they stand in the text. -/
def tokens : Expr → List Token
  | missing => []
  | ident token _ | int token _ | bool token _ => [token]
  | unary token _ operand => token :: operand.tokens
  | binary token left _ right => left.tokens ++ token :: right.tokens

def mapTokens (f : Token → Token) : Expr → Expr
  | missing => missing
  | ident token name => ident (f token) name
  | int token value => int (f token) value
  | bool token value => bool (f token) value
  | unary token operator operand => unary (f token) operator (operand.mapTokens f)
  | binary token left operator right =>
    binary (f token) (left.mapTokens f) operator (right.mapTokens f)

theorem tokens_mapTokens (f : Token → Token) (e : Expr) :
    (e.mapTokens f).tokens = e.tokens.map f := by
  induction e with
  | unary token operator operand ih => simp [tokens, mapTokens, ih]
  | binary token left operator right ihl ihr => simp [tokens, mapTokens, ihl, ihr]
  | _ => rfl

theorem mapTokens_mapTokens (f g : Token → Token) (e : Expr) :
    (e.mapTokens f).mapTokens g = e.mapTokens (g ∘ f) := by
  induction e with
  | unary token operator operand ih => simp only [mapTokens, ih, Function.comp]
  | binary token left operator right ihl ihr => simp only [mapTokens, ihl, ihr, Function.comp]
  | _ => rfl

@[simp] theorem mapTokens_id (e : Expr) : e.mapTokens id = e := by
  induction e with
  | unary token operator operand ih => simp only [mapTokens, ih, id]
  | binary token left operator right ihl ihr => simp only [mapTokens, ihl, ihr, id]
  | _ => rfl

/-- The text of an expression does not depend on its tokens. -/
theorem render_mapTokens (f : Token → Token) (e : Expr) : (e.mapTokens f).render = e.render := by
  induction e with
  | unary token operator operand ih => simp [render, mapTokens, ih]
  | binary token left operator right ihl ihr => simp [render, mapTokens, ihl, ihr]
  | bool token value => cases value <;> rfl
  | _ => rfl

end Expr

namespace Stmt

/-- The tokens that a statement owns: its word, its name and those of its value. -/
def tokens : Stmt → List Token
  | binding token binder value => token :: binder.token :: value.tokens
  | returning token value => token :: value.tokens
  | expression _ value => value.tokens

def mapTokens (f : Token → Token) : Stmt → Stmt
  | binding token binder value =>
    binding (f token) { binder with token := f binder.token } (value.mapTokens f)
  | returning token value => returning (f token) (value.mapTokens f)
  | expression token value => expression (f token) (value.mapTokens f)

theorem tokens_mapTokens (f : Token → Token) (s : Stmt) :
    (s.mapTokens f).tokens = s.tokens.map f := by
  cases s <;> simp [tokens, mapTokens, Expr.tokens_mapTokens]

theorem mapTokens_mapTokens (f g : Token → Token) (s : Stmt) :
    (s.mapTokens f).mapTokens g = s.mapTokens (g ∘ f) := by
  cases s <;> simp only [mapTokens, Expr.mapTokens_mapTokens, Function.comp]

theorem render_mapTokens {f : Token → Token} (hf : ∀ t, (f t).literal = t.literal) (s : Stmt) :
    (s.mapTokens f).render = s.render := by
  cases s with
  | binding token binder value => simp [render, mapTokens, hf, Expr.render_mapTokens]
  | returning token value =>
    have hv := Expr.render_mapTokens f value
    cases value <;> simp_all [render, mapTokens, Expr.mapTokens]
  | expression token value => exact Expr.render_mapTokens f value

end Stmt

namespace Program

def tokens (p : Program) : List Token := p.statements.flatMap Stmt.tokens

def mapTokens (f : Token → Token) (p : Program) : Program := ⟨p.statements.map (Stmt.mapTokens f)⟩

theorem tokens_mapTokens (f : Token → Token) (p : Program) :
    (p.mapTokens f).tokens = p.tokens.map f := by
  simp [tokens, mapTokens, List.flatMap_map, List.map_flatMap, Stmt.tokens_mapTokens]

theorem mapTokens_mapTokens (f g : Token → Token) (p : Program) :
    (p.mapTokens f).mapTokens g = p.mapTokens (g ∘ f) := by
  simp only [mapTokens, List.map_map]
  congr 2
  funext s
  exact Stmt.mapTokens_mapTokens f g s

theorem render_mapTokens {f : Token → Token} (hf : ∀ t, (f t).literal = t.literal) (p : Program) :
    (p.mapTokens f).render = p.render := by
  simp [render, mapTokens, Function.comp_def, Stmt.render_mapTokens hf]

end Program

end ExprLang
