import ExprLang.Reading.Program
import ExprLang.Reading.Recursion

namespace ExprLang

namespace ParseState

/-- The states that are reached from a state by stepping to the next token and by recording a
diagnostic where `A` has it. -/
inductive Steps (A : ParseState → Diagnostic → Prop) : ParseState → ParseState → Prop where
  | refl (p : ParseState) : Steps A p p
  | advance : Steps A p q → Steps A p q.advance
  | record : Steps A p q → A q d → Steps A p (q.record d)

/-- What reading finds wrong: no operand can be read from the current token, or another kind of
token belongs in the place of the next one. -/
inductive Finds : ParseState → Diagnostic → Prop where
  | noOperand (p : ParseState) : Finds p (.noOperand p.current)
  | integerTooLarge (p : ParseState) : Finds p (.integerTooLarge p.current)
  | unexpected (kind : Kind) (p : ParseState) : Finds p (.unexpected kind p.peek)
  | failed (form : StmtKind) (kind : Kind) (p : ParseState) :
      Finds p ((Diagnostic.unexpected kind p.peek).wrap form)

variable {A B : ParseState → Diagnostic → Prop} {p q r : ParseState}

namespace Steps

theorem trans (h : Steps A p q) (h' : Steps A q r) : Steps A p r := by
  induction h' with
  | refl => exact h
  | advance _ ih => exact ih.advance
  | record _ hd ih => exact ih.record hd

theorem mono (h : Steps A p q) (hA : ∀ p d, A p d → B p d) : Steps B p q := by
  induction h with
  | refl => exact .refl _
  | advance _ ih => exact ih.advance
  | record _ hd ih => exact ih.record (hA _ _ hd)

theorem from_advance (h : Steps A p.advance q) : Steps A p q :=
  (Steps.refl p).advance.trans h

theorem errors_prefix (h : Steps A p q) : p.errors.toList <+: q.errors.toList := by
  induction h with
  | refl => exact List.prefix_rfl
  | advance _ ih => exact ih
  | record _ _ ih =>
    rw [errors_record, Array.toList_push]
    exact ih.trans (List.prefix_append _ _)

/-- What each step keeps at a place that never goes back is kept along all of them. -/
theorem keeps {I : Nat → ParseState → Prop} (h : Steps A p q) (hp : I i p)
    (ha : ∀ {i p}, I i p → I (i + 1) p.advance)
    (hr : ∀ {i p d}, I i p → A p d → I i (p.record d)) : ∃ j, i ≤ j ∧ I j q := by
  induction h with
  | refl => exact ⟨i, Nat.le_refl i, hp⟩
  | advance _ ih =>
    obtain ⟨j, hij, hj⟩ := ih
    exact ⟨j + 1, Nat.le_succ_of_le hij, ha hj⟩
  | record _ hd ih =>
    obtain ⟨j, hij, hj⟩ := ih
    exact ⟨j, hij, hr hj hd⟩

theorem readAtom (p : ParseState) : Steps Finds p p.readAtom.2 := by
  simp only [ParseState.readAtom]
  split
  · split
    · exact .refl p
    · exact (Steps.refl p).record (.integerTooLarge p)
  · exact .refl p
  · exact .refl p
  · exact .refl p
  · exact (Steps.refl p).record (.noOperand p)

theorem closeGroup {inner : Expr × ParseState} (h : Steps Finds p inner.2) (n : Nat) :
    Steps Finds p (closeGroup n inner).2 := by
  rw [ParseState.closeGroup]
  split
  · exact h
  · split
    · next he =>
      obtain ⟨-, rfl⟩ := expect_eq_ok_iff.mp he
      exact h.advance
    · next he =>
      obtain ⟨-, rfl⟩ := expect_eq_error_iff.mp he
      exact h.record (.unexpected _ _)

/-- Reading an expression is made of such steps. -/
theorem readExpr (min : Power) (p : ParseState) : Steps Finds p (p.readExpr min).2 := by
  refine (reading_induction
    (E := fun min p => Steps Finds p (p.readExpr min).2)
    (O := fun p => Steps Finds p p.readOperand.2)
    (L := fun min left p => Steps Finds p (p.readOperators min left).2)
    ?expr ?refused ?atom ?unary ?group ?stop ?step p).1 min
  case expr =>
    intro min p hO hL
    rw [readExpr_eq]
    split
    · exact hO
    · next he => exact hO.trans (hL (Bool.eq_false_iff.mpr he))
  case refused =>
    intro p ho
    rw [readOperand_eq, ho]
    exact (Steps.refl p).record (.noOperand p)
  case atom =>
    intro p ho
    rw [readOperand_eq, ho]
    exact readAtom p
  case unary =>
    intro p ho ih
    rw [readOperand_eq, ho]
    exact ih.from_advance
  case group =>
    intro p ho ih
    rw [readOperand_eq, ho]
    exact ih.from_advance.closeGroup _
  case stop =>
    intro min left p hlt
    rw [readOperators_eq, if_neg hlt]
    exact .refl p
  case step =>
    intro min left p hlt hE hL
    rw [readOperators_eq, if_pos hlt]
    exact hE.from_advance.from_advance.trans hL

theorem readUnary (p : ParseState) : Steps Finds p p.readUnary.2 :=
  (readExpr .unary p.advance).from_advance

theorem readGroup (p : ParseState) : Steps Finds p p.readGroup.2 :=
  (readExpr .lowest p.advance).from_advance.closeGroup _

theorem readBinary (left : Expr) (power : Power) (p : ParseState) :
    Steps Finds p (p.readBinary left power).2 :=
  (readExpr power p.advance).from_advance

theorem readOpening (opening : Opening) (p : ParseState) :
    Steps Finds p (p.readOpening opening).2 :=
  match opening with
  | .atom => readAtom p
  | .operator => readUnary p
  | .group => readGroup p

theorem synchronize (p : ParseState) : Steps A p p.synchronize := by
  fun_induction ParseState.synchronize p with
  | case1 p => exact .refl p
  | case2 p _ ih => exact ih.from_advance

end Steps

end ParseState

namespace StmtReader

open ParseState

/-- The step is made of steps of reading, and if it fails, `F` holds of the diagnostic where it
stops. -/
def Stepwise (F : ParseState → Diagnostic → Prop) (m : StmtReader α) : Prop :=
  ∀ p, match m p with
    | .ok _ q => Steps Finds p q
    | .error d q => Steps Finds p q ∧ F q d

/-- The token after the last one in view is of another kind than the one that belongs there. -/
def LacksNext (p : ParseState) (d : Diagnostic) : Prop := ∃ kind, d = .unexpected kind p.peek

namespace Stepwise

variable {F : ParseState → Diagnostic → Prop}

theorem bind {m : StmtReader α} {f : α → StmtReader β} (hm : Stepwise F m)
    (hf : ∀ a, Stepwise F (f a)) : Stepwise F (m >>= f) := by
  intro p
  have hp := hm p
  rw [run_bind]
  cases h : m p with
  | error d q =>
    rw [h] at hp
    exact hp
  | ok a q =>
    rw [h] at hp
    have hq := hf a q
    dsimp only at hp ⊢
    cases h' : f a q with
    | ok b r =>
      rw [h'] at hq
      exact hp.trans hq
    | error d r =>
      rw [h'] at hq
      exact ⟨hp.trans hq.1, hq.2⟩

theorem pure (a : α) : Stepwise F (pure a : StmtReader α) := Steps.refl

theorem get : Stepwise F (get : StmtReader ParseState) := Steps.refl

theorem current : Stepwise F current := Steps.refl

theorem peek : Stepwise F peek := Steps.refl

theorem advance : Stepwise F advance := fun p => (Steps.refl p).advance

theorem expression : Stepwise F expression := Steps.readExpr .lowest

theorem expect (kind : Kind) : Stepwise LacksNext (expect kind) := by
  intro p
  rw [run_expect]
  cases h : p.expect kind with
  | ok q =>
    obtain ⟨-, rfl⟩ := expect_eq_ok_iff.mp h
    exact (Steps.refl p).advance
  | error d =>
    obtain ⟨-, rfl⟩ := expect_eq_error_iff.mp h
    exact ⟨.refl p, kind, rfl⟩

theorem value : Stepwise LacksNext value := by
  refine get.bind fun before => expression.bind fun e => get.bind fun now => ?_
  split
  · exact bind Steps.synchronize fun _ => pure e
  · exact (expect _).bind fun _ => pure e

theorem binding : Stepwise LacksNext binding :=
  current.bind fun _ => (expect _).bind fun _ => current.bind fun _ => (expect _).bind fun _ =>
    advance.bind fun _ => value.bind fun _ => pure _

theorem returning : Stepwise LacksNext returning := by
  refine current.bind fun _ => advance.bind fun _ => current.bind fun _ => ?_
  split
  · exact pure _
  · exact value.bind fun _ => pure _

theorem bare : Stepwise F bare := by
  refine current.bind fun _ => expression.bind fun _ => peek.bind fun _ => ?_
  split
  · exact advance.bind fun _ => pure _
  · exact pure _

theorem form (kind : StmtKind) : Stepwise LacksNext (form kind) :=
  match kind with
  | .binding => binding
  | .returning => returning
  | .expression => bare

/-- A statement that fails blames the token after the last one in view. -/
theorem statement : Stepwise Finds statement := by
  intro p
  rw [run_statement]
  cases p.current.kind.stmtKind? with
  | none => exact bare p
  | some kind =>
    have hp := form kind p
    dsimp only
    cases h : StmtReader.form kind p with
    | ok s q =>
      rw [h] at hp
      exact hp
    | error d q =>
      rw [h] at hp
      obtain ⟨hs, expected, rfl⟩ := hp
      exact ⟨hs, .failed kind expected q⟩

theorem after {m : StmtReader α} (h : Stepwise F m) (p : ParseState) :
    Steps Finds p (after m p) := by
  have hp := h p
  rw [StmtReader.after]
  cases hm : m p with
  | ok a q =>
    rw [hm] at hp
    exact hp
  | error d q =>
    rw [hm] at hp
    exact hp.1

end Stepwise

end StmtReader

namespace ParseState

open StmtReader

theorem Steps.readStatements (p : ParseState) : Steps Finds p p.readStatements.2 := by
  fun_induction ParseState.readStatements p with
  | case1 p => exact .refl p
  | case2 p _ stmt q hq rest ih =>
    have hp := Stepwise.statement p
    rw [hq] at hp
    exact hp.advance.trans ih
  | case3 p _ d q hq ih =>
    have hp := Stepwise.statement p
    rw [hq] at hp
    have hs := (hp.1.record hp.2).trans (Steps.synchronize _)
    exact hs.advance.trans ih

end ParseState

end ExprLang
