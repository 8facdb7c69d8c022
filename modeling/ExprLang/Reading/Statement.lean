import ExprLang.Reading.Expression

namespace ExprLang

/-- A step that reads on in a text; if it fails, the text is read up to where it failed. -/
abbrev StmtReader := EStateM Diagnostic ParseState

namespace StmtReader

def current : StmtReader Token := do return (← get).current

def peek : StmtReader Token := do return (← get).peek

def advance : StmtReader Unit := modify ParseState.advance

def expect (kind : Kind) : StmtReader Unit := do
  match (← get).expect kind with
  | .ok p => set p
  | .error d => throw d

def expression : StmtReader Expr := modifyGet (ParseState.readExpr .lowest)

/-- Reads the value of a statement and the semicolon after it. If a part of the value could not be
read, that is on record, and the rest of the statement is skipped without a word. -/
def value : StmtReader Expr := do
  let before ← get
  let e ← expression
  if before.errors.size < (← get).errors.size then modify ParseState.synchronize
  else expect .semicolon
  return e

/-- Reads a statement that binds a name; the current token is its first word. -/
def binding : StmtReader Stmt := do
  let token ← current
  expect .identifier
  let name ← current
  expect .assign
  advance
  return .binding token ⟨name, name.literal⟩ (← value)

/-- Reads a statement that returns a value or nothing; the current token is its first word. -/
def returning : StmtReader Stmt := do
  let token ← current
  advance
  if (← current).kind = .semicolon then return .returning token .missing
  return .returning token (← value)

/-- Reads an expression that stands as a statement; a semicolon may follow. -/
def bare : StmtReader Stmt := do
  let token ← current
  let e ← expression
  if (← peek).kind = .semicolon then advance
  return .expression token e

def form : StmtKind → StmtReader Stmt
  | .binding => binding
  | .returning => returning
  | .expression => bare

/-- Reads a statement. If its first word opens a form, a failure is that of the whole statement. -/
def statement : StmtReader Stmt := do
  match (← current).kind.stmtKind? with
  | some kind => EStateM.adaptExcept (·.wrap kind) (form kind)
  | none => bare

theorem run_bind (m : StmtReader α) (f : α → StmtReader β) (p : ParseState) :
    (m >>= f) p =
      match m p with
      | .ok a q => f a q
      | .error d q => .error d q := by
  simp only [bind, EStateM.bind]
  cases m p <;> rfl

theorem run_pure (a : α) (p : ParseState) : (pure a : StmtReader α) p = .ok a p := rfl

theorem run_get (p : ParseState) : (get : StmtReader ParseState) p = .ok p p := rfl

theorem run_modify (f : ParseState → ParseState) (p : ParseState) :
    (modify f : StmtReader Unit) p = .ok () (f p) := rfl

theorem run_current (p : ParseState) : current p = .ok p.current p := rfl

theorem run_peek (p : ParseState) : peek p = .ok p.peek p := rfl

theorem run_advance (p : ParseState) : advance p = .ok () p.advance := rfl

theorem run_expression (p : ParseState) :
    expression p = .ok (p.readExpr .lowest).1 (p.readExpr .lowest).2 := rfl

theorem run_expect (kind : Kind) (p : ParseState) :
    expect kind p =
      match p.expect kind with
      | .ok q => .ok () q
      | .error d => .error d p := by
  simp only [expect, run_bind, run_get]
  cases p.expect kind <;> rfl

theorem run_value (p : ParseState) :
    value p =
      let r := p.readExpr .lowest
      if p.errors.size < r.2.errors.size then .ok r.1 r.2.synchronize
      else match r.2.expect .semicolon with
        | .ok q => .ok r.1 q
        | .error d => .error d r.2 := by
  simp only [value, run_bind, run_get, run_expression]
  split
  · rfl
  · simp only [run_bind, run_expect]
    cases (p.readExpr .lowest).2.expect .semicolon <;> rfl

theorem run_binding (p : ParseState) :
    binding p =
      match p.expect .identifier with
      | .error d => .error d p
      | .ok named =>
        match named.expect .assign with
        | .error d => .error d named
        | .ok q =>
          match value q.advance with
          | .error d r => .error d r
          | .ok e r => .ok (.binding p.current ⟨named.current, named.current.literal⟩ e) r := by
  simp only [binding, run_bind, run_current, run_expect, run_advance]
  cases p.expect .identifier with
  | error => rfl
  | ok named =>
    dsimp only
    cases named.expect .assign with
    | error => rfl
    | ok q =>
      dsimp only
      cases value q.advance <;> rfl

theorem run_returning (p : ParseState) :
    returning p =
      if p.peek.kind = .semicolon then .ok (.returning p.current .missing) p.advance
      else match value p.advance with
        | .error d r => .error d r
        | .ok e r => .ok (.returning p.current e) r := by
  simp only [returning, run_bind, run_current, run_advance, ParseState.current_advance]
  split
  · rfl
  · simp only [run_bind]
    cases value p.advance <;> rfl

theorem run_bare (p : ParseState) :
    bare p =
      let r := p.readExpr .lowest
      .ok (.expression p.current r.1)
        (if r.2.peek.kind = .semicolon then r.2.advance else r.2) := by
  simp only [bare, run_bind, run_current, run_expression, run_peek]
  split <;> rfl

theorem run_statement (p : ParseState) :
    statement p =
      match p.current.kind.stmtKind? with
      | none => bare p
      | some kind =>
        match form kind p with
        | .ok s q => .ok s q
        | .error d q => .error (d.wrap kind) q := by
  simp only [statement, run_bind, run_current]
  cases p.current.kind.stmtKind? with
  | none => rfl
  | some kind =>
    simp only [EStateM.adaptExcept]
    cases form kind p <;> rfl

/-- The state in which a step leaves the text, whether it fails or not. -/
def after (m : StmtReader α) (p : ParseState) : ParseState :=
  match m p with
  | .ok _ q => q
  | .error _ q => q

/-- No token comes back in the step. -/
def NonGrowing (m : StmtReader α) : Prop := ∀ p, (after m p).remaining ≤ p.remaining

namespace NonGrowing

theorem bind {m : StmtReader α} {f : α → StmtReader β} (hm : NonGrowing m)
    (hf : ∀ a, NonGrowing (f a)) : NonGrowing (m >>= f) := by
  intro p
  have hp := hm p
  simp only [after, run_bind] at hp ⊢
  cases h : m p with
  | ok a q =>
    rw [h] at hp
    exact Nat.le_trans (hf a q) hp
  | error d q =>
    rw [h] at hp
    exact hp

theorem pure (a : α) : NonGrowing (pure a : StmtReader α) := fun _ => Nat.le_refl _

theorem get : NonGrowing (get : StmtReader ParseState) := fun _ => Nat.le_refl _

theorem current : NonGrowing current := fun _ => Nat.le_refl _

theorem peek : NonGrowing peek := fun _ => Nat.le_refl _

theorem advance : NonGrowing advance := ParseState.remaining_advance_le

theorem expression : NonGrowing expression := ParseState.remaining_readExpr_le .lowest

theorem expect (kind : Kind) : NonGrowing (expect kind) := by
  intro p
  simp only [after, run_expect]
  cases h : p.expect kind with
  | ok q =>
    rw [(ParseState.expect_eq_ok_iff.mp h).2]
    exact p.remaining_advance_le
  | error => exact Nat.le_refl _

theorem value : NonGrowing value := by
  refine get.bind fun before => expression.bind fun e => get.bind fun now => ?_
  split
  · exact bind ParseState.remaining_synchronize_le fun _ => pure e
  · exact (expect _).bind fun _ => pure e

theorem binding : NonGrowing binding :=
  current.bind fun _ => (expect _).bind fun _ => current.bind fun _ => (expect _).bind fun _ =>
    advance.bind fun _ => value.bind fun _ => pure _

theorem returning : NonGrowing returning := by
  refine current.bind fun _ => advance.bind fun _ => current.bind fun _ => ?_
  split
  · exact pure _
  · exact value.bind fun _ => pure _

theorem bare : NonGrowing bare := by
  refine current.bind fun _ => expression.bind fun _ => peek.bind fun _ => ?_
  split
  · exact advance.bind fun _ => pure _
  · exact pure _

theorem form (kind : StmtKind) : NonGrowing (form kind) :=
  match kind with
  | .binding => binding
  | .returning => returning
  | .expression => bare

theorem statement : NonGrowing statement := by
  refine current.bind fun t => ?_
  split
  · next kind _ =>
    intro p
    have hp := form kind p
    simp only [after, EStateM.adaptExcept] at hp ⊢
    cases h : StmtReader.form kind p <;> simpa [h] using hp
  · exact bare

end NonGrowing

theorem remaining_le_of_statement_ok {p q : ParseState} {stmt : Stmt}
    (h : statement p = .ok stmt q) : q.remaining ≤ p.remaining := by
  simpa [after, h] using NonGrowing.statement p

theorem remaining_le_of_statement_error {p q : ParseState} {d : Diagnostic}
    (h : statement p = .error d q) : q.remaining ≤ p.remaining := by
  simpa [after, h] using NonGrowing.statement p

end StmtReader

end ExprLang
