import ExprLang.Reading.Expression

namespace ExprLang.ParseState

/-- What holds of each step of reading an expression, given that it holds of the steps inside it,
holds of the whole: `E` of expressions, `O` of operands, `L` of the operators that follow one. -/
theorem reading_induction {E : Power → ParseState → Prop} {O : ParseState → Prop}
    {L : Power → Expr → ParseState → Prop}
    (expr : ∀ min p, O p →
      (p.readOperand.1.isMissing = false → L min p.readOperand.1 p.readOperand.2) → E min p)
    (refused : ∀ p, p.current.kind.opening? = none → O p)
    (atom : ∀ p, p.current.kind.opening? = some .atom → O p)
    (unary : ∀ p, p.current.kind.opening? = some .operator → E .unary p.advance → O p)
    (group : ∀ p, p.current.kind.opening? = some .group → E .lowest p.advance → O p)
    (stop : ∀ min left p, ¬ min < p.peek.kind.power → L min left p)
    (step : ∀ min left p, min < p.peek.kind.power →
      E p.peek.kind.power p.advance.advance →
      L min (p.advance.readBinary left p.peek.kind.power).1
        (p.advance.readBinary left p.peek.kind.power).2 → L min left p) (p : ParseState) :
    (∀ min, E min p) ∧ O p ∧ ∀ min left, L min left p := by
  induction h : p.remaining using Nat.strongRecOn generalizing p with
  | ind n ih =>
    have hL (q : ParseState) (hq : q.remaining ≤ p.remaining) (min left) : L min left q := by
      by_cases hp : min < q.peek.kind.power
      · have hlt := remaining_advance_advance_lt (Kind.ne_eof_of_lt_power hp)
        have hle := remaining_readExpr_le q.peek.kind.power q.advance.advance
        refine step min left q hp ((ih _ ?_ _ rfl).1 _) ((ih _ ?_ _ rfl).2.2 _ _)
        · omega
        · simp only [readBinary]
          omega
      · exact stop min left q hp
    have hO : O p := by
      cases ho : p.current.kind.opening? with
      | none => exact refused p ho
      | some opening =>
        have hlt := remaining_advance_lt (Kind.ne_eof_of_opening? ho)
        cases opening with
        | atom => exact atom p ho
        | operator => exact unary p ho ((ih _ (by omega) _ rfl).1 _)
        | group => exact group p ho ((ih _ (by omega) _ rfl).1 _)
    exact ⟨fun min => expr min p hO fun _ => hL _ p.remaining_readOperand_le _ _, hO,
      hL p (Nat.le_refl _)⟩

end ExprLang.ParseState
