import ExprLang.Reading.Power

namespace ExprLang.Grammar

mutual

/-- The tokens of an expression, whatever its operators bind: operands with operators between them.
The atoms are those that `fits` admits. -/
inductive IsExpression (fits : Token → Prop) : List Token → Prop where
  | operand {ts : List Token} : IsOperand fits ts → IsExpression fits ts
  | operator {left right : List Token} {op : Token} : IsExpression fits left →
      op.kind.isInfix = true → IsOperand fits right → IsExpression fits (left ++ op :: right)

/-- The tokens of an operand: an atom or a group, with operators before it. -/
inductive IsOperand (fits : Token → Prop) : List Token → Prop where
  | atom {t : Token} : t.kind.opening? = some .atom → fits t → IsOperand fits [t]
  | operator {op : Token} {ts : List Token} : op.kind.opening? = some .operator →
      IsOperand fits ts → IsOperand fits (op :: ts)
  | group {opening closing : Token} {ts : List Token} : opening.kind = .openParen →
      IsExpression fits ts → closing.kind = .closeParen →
      IsOperand fits (opening :: ts ++ [closing])

end

inductive Form where
  | binding (name : String)
  | returning
  | returningNothing
  | closed
  | bare
  deriving DecidableEq, Repr

namespace Form

def kind : Form → StmtKind
  | binding _ => .binding
  | returning | returningNothing => .returning
  | closed | bare => .expression

/-- A statement has a given form: its kind, its name, and whether there is a value. -/
def Describes (form : Form) (s : Stmt) : Prop :=
  s.kind = form.kind ∧
  s.binder?.map Binder.name = (match form with | binding name => some name | _ => none) ∧
  (s.value = .missing ↔ form = .returningNothing)

end Form

inductive IsStatement (fits : Token → Prop) : Form → List Token → Prop where
  | binding {word name sign semicolon : Token} {value : List Token} : word.kind = .letWord →
      name.kind = .identifier → sign.kind = .assign → IsExpression fits value →
      semicolon.kind = .semicolon →
      IsStatement fits (.binding name.literal) (word :: name :: sign :: value ++ [semicolon])
  | returning {word semicolon : Token} {value : List Token} : word.kind = .returnWord →
      IsExpression fits value → semicolon.kind = .semicolon →
      IsStatement fits .returning (word :: value ++ [semicolon])
  | returningNothing {word semicolon : Token} : word.kind = .returnWord →
      semicolon.kind = .semicolon → IsStatement fits .returningNothing [word, semicolon]
  | closed {semicolon : Token} {value : List Token} : IsExpression fits value →
      semicolon.kind = .semicolon → IsStatement fits .closed (value ++ [semicolon])
  | bare {value : List Token} : IsExpression fits value → IsStatement fits .bare value

/-- The tokens of a text cut into statements, each with its form. -/
structure IsSentence (fits : Token → Prop) (parts : List (Form × List Token))
    (ts : List Token) : Prop where
  statements : ∀ part ∈ parts, IsStatement fits part.1 part.2
  tokens : parts.flatMap Prod.snd = ts

/-- No expression that lacks its semicolon stands right before a minus. -/
def Separated : List (Form × List Token) → Prop
  | [] => True
  | part :: parts =>
    (part.1 = .bare → (parts.flatMap Prod.snd).head?.map Token.kind ≠ some .minus) ∧
      Separated parts

theorem IsOperand.ne_nil {fits : Token → Prop} {ts : List Token} (h : IsOperand fits ts) :
    ts ≠ [] := by
  cases h <;> simp

theorem IsExpression.ne_nil {fits : Token → Prop} {ts : List Token} (h : IsExpression fits ts) :
    ts ≠ [] := by
  cases h with
  | operand h => exact h.ne_nil
  | operator => simp

theorem IsStatement.ne_nil {fits : Token → Prop} {form : Form} {ts : List Token}
    (h : IsStatement fits form ts) : ts ≠ [] := by
  cases h with
  | bare h => exact h.ne_nil
  | _ => simp

end ExprLang.Grammar
