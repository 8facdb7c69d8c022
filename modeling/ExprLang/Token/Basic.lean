import ExprLang.Text.Position
import ExprLang.Token.Kind

namespace ExprLang

/-- A piece of a text that the grammar treats as one: its kind, its own characters, its place. -/
structure Token where
  kind : Kind
  literal : String
  span : Span
  deriving DecidableEq, Repr, Inhabited

namespace Token

def eof (position : Position) : Token where
  kind := .eof
  literal := ""
  span := ⟨position, position⟩

def describe (t : Token) : String :=
  "Token \x7bkind: " ++ t.kind.label ++ ", literal: " ++ t.literal ++ "\x7d"

instance : ToString Token := ⟨describe⟩

def isOneOf (t : Token) (kinds : List Kind) : Bool := kinds.contains t.kind

@[simp] theorem kind_eof (position : Position) : (eof position).kind = .eof := rfl

theorem isOneOf_iff {t : Token} {kinds : List Kind} :
    t.isOneOf kinds = true ↔ t.kind ∈ kinds := by
  simp [isOneOf]

/-- A change to tokens that the grammar does not see. -/
structure Faithful (f : Token → Token) : Prop where
  kind : ∀ t, (f t).kind = t.kind
  literal : ∀ t, (f t).literal = t.literal

end Token

end ExprLang
