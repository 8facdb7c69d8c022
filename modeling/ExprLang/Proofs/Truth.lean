import ExprLang.Proofs.Acceptance
import Mathlib

namespace ExprLang

open Grammar

/-- What the tokens of `S` have to be like for a problem to be told of the token `i`. Where another
token is expected in its place, there is something before it that the other one would end. -/
inductive Problem.TrueAt (S : TokenStream) : Nat → Problem → Prop where
  | noOperand : (S.get i).kind.opening? = none → TrueAt S i (.noOperand (S.get i))
  | integerTooLarge : (S.get i).kind = .integer →
      maxInteger < Text.Decimal.value (S.get i).literal.toList →
      TrueAt S i (.integerTooLarge (S.get i).literal)
  | unclosed : (S.get j).kind = .openParen → Covers S (j + 1) i ts →
      IsExpression Token.InRange ts → (S.get i).kind ≠ .closeParen →
      (S.get i).kind.isInfix = false →
      TrueAt S i (.unexpectedToken .closeParen (S.get i).kind (S.get i).literal)
  | name : (S.get j).kind = .letWord → (S.get (j + 1)).kind ≠ .identifier →
      TrueAt S (j + 1) (.statementFailed .binding
        (.unexpectedToken .identifier (S.get (j + 1)).kind (S.get (j + 1)).literal))
  | sign : (S.get j).kind = .letWord → (S.get (j + 1)).kind = .identifier →
      (S.get (j + 2)).kind ≠ .assign →
      TrueAt S (j + 2) (.statementFailed .binding
        (.unexpectedToken .assign (S.get (j + 2)).kind (S.get (j + 2)).literal))
  | binding : (S.get j).kind = .letWord → (S.get (j + 1)).kind = .identifier →
      (S.get (j + 2)).kind = .assign → Covers S (j + 3) i ts → IsExpression Token.InRange ts →
      (S.get i).kind ≠ .semicolon → (S.get i).kind.isInfix = false →
      TrueAt S i (.statementFailed .binding
        (.unexpectedToken .semicolon (S.get i).kind (S.get i).literal))
  | returning : (S.get j).kind = .returnWord → Covers S (j + 1) i ts →
      IsExpression Token.InRange ts → (S.get i).kind ≠ .semicolon →
      (S.get i).kind.isInfix = false →
      TrueAt S i (.statementFailed .returning
        (.unexpectedToken .semicolon (S.get i).kind (S.get i).literal))

/-- A diagnostic shows at the start of a token of `S`, and what it says of that token is so. -/
def Diagnostic.IsTrue (S : TokenStream) (d : Diagnostic) : Prop :=
  ∃ i ≤ S.ahead.length, d.position = (S.get i).span.start ∧ d.problem.TrueAt S i

/-- Of a statement that fails nothing but the token in its way is told. -/
theorem Problem.TrueAt.of_statementFailed {S : TokenStream}
    (h : TrueAt S i (.statementFailed kind cause)) : kind ≠ .expression ∧ cause.causes = [] := by
  cases h <;> exact ⟨nofun, rfl⟩

theorem Reads.isTrue (h : Reads S m a e ds b) (ha : a ≤ S.ahead.length) :
    ∀ d ∈ ds, d.IsTrue S := by
  induction h with
  | refused ho => exact List.forall_mem_singleton.mpr ⟨_, ha, rfl, .noOperand ho⟩
  | tooLarge hi hr =>
    have hlt := Nat.not_le.mp fun hv => hr fun _ => hv
    exact List.forall_mem_singleton.mpr ⟨_, ha, rfl, .integerTooLarge hi hlt⟩
  | atom => exact List.forall_mem_nil _
  | unary ho _ ih => exact ih (TokenStream.lt_of_kind_ne_eof (Kind.ne_eof_of_opening? ho))
  | group => exact List.forall_mem_nil _
  | unclosed ho hr hs hk =>
    obtain ⟨ts, hc, he⟩ := hr.isExpression
    exact List.forall_mem_singleton.mpr ⟨_, hr.lt_length_of_nil, rfl,
      .unclosed (Kind.eq_openParen ho) hc he hk (hs.isInfix hr.isMissing_of_nil)⟩
  | broken ho _ _ _ ih => exact ih (TokenStream.lt_of_kind_ne_eof (Kind.ne_eof_of_opening? ho))
  | binary _ _ hlt _ _ ihl ihr =>
    have hb := TokenStream.lt_of_kind_ne_eof (Kind.ne_eof_of_lt_power hlt)
    exact List.forall_mem_append.mpr ⟨ihl ha, ihr hb⟩

theorem ReadsValue.isTrue (h : ReadsValue S a e ds b) (ha : a ≤ S.ahead.length) :
    ∀ d ∈ ds, d.IsTrue S := by
  cases h with
  | ended hr => exact hr.isTrue ha
  | skipped hr => exact hr.isTrue ha

theorem ReadsStmt.isTrue (h : ReadsStmt S a s ds b) (ha : a < S.ahead.length) :
    ∀ d ∈ ds, d.IsTrue S := by
  cases h with
  | binding _ _ hs hv => exact hv.isTrue (TokenStream.lt_of_kind_eq hs nofun)
  | returning _ _ hv => exact hv.isTrue ha
  | returningNothing => exact List.forall_mem_nil _
  | closed _ hr => exact hr.isTrue (Nat.le_of_lt ha)
  | bare _ hr => exact hr.isTrue (Nat.le_of_lt ha)

theorem FailsStmt.isTrue {S : TokenStream} (h : FailsStmt S a d b) : d.IsTrue S := by
  cases h with
  | name hw hn => exact ⟨_, TokenStream.lt_of_kind_eq hw nofun, rfl, .name hw hn⟩
  | sign hw hn hs => exact ⟨_, TokenStream.lt_of_kind_eq hn nofun, rfl, .sign hw hn hs⟩
  | binding hw hn hs hv =>
    obtain ⟨ts, hc, he⟩ := hv.reads.isExpression
    exact ⟨_, hv.reads.lt_length_of_nil, rfl,
      .binding hw hn hs hc he hv.lacks (hv.stops.isInfix hv.reads.isMissing_of_nil)⟩
  | returning hw _ hv =>
    obtain ⟨ts, hc, he⟩ := hv.reads.isExpression
    exact ⟨_, hv.reads.lt_length_of_nil, rfl,
      .returning hw hc he hv.lacks (hv.stops.isInfix hv.reads.isMissing_of_nil)⟩

theorem Runs.isTrue (h : Runs S a turns) : ∀ d ∈ turns.flatMap Turn.diagnostics, d.IsTrue S := by
  induction h with
  | stop => exact List.forall_mem_nil _
  | keep hk hr _ ih =>
    exact List.forall_mem_append.mpr ⟨hr.isTrue (TokenStream.lt_of_kind_ne_eof hk), ih⟩
  | drop _ hf _ _ ih => exact List.forall_mem_cons.mpr ⟨hf.isTrue, ih⟩

/-- What a diagnostic says of a token is so. The token to blame opens no operand, is an integer out
of range, stands where a group should end, or stands in the way of a statement that a word opens. A
failure is that of such a statement, and is told of once. -/
theorem diagnostics_true (source : String) (file : Option String) :
    ∀ d ∈ (parse source file).2.errors.toList, d.IsTrue (tokenize source file) ∧
      ∀ kind cause, d.problem = .statementFailed kind cause →
        kind ≠ .expression ∧ cause.causes = [] := by
  intro d hd
  obtain ⟨turns, ht⟩ := exists_runs (tokenize source file) 0
  rw [(parse_of_runs ht).2] at hd
  have htrue := ht.isTrue d hd
  refine ⟨htrue, ?_⟩
  intro kind cause he
  obtain ⟨i, -, -, hp⟩ := htrue
  rw [he] at hp
  exact hp.of_statementFailed

/-- The group is not closed before the second statement, which lacks its equals sign. -/
theorem sign_missing_after_group :
    ∃ d ∈ (parse "return (2 let y 3;" none).2.errors.toList,
      d.problem = .statementFailed .binding (.unexpectedToken .assign .integer "3") ∧
        d.IsTrue (tokenize "return (2 let y 3;" none) ∧
        ∀ kind cause, d.problem = .statementFailed kind cause →
          kind ≠ .expression ∧ cause.causes = [] := by
  have he : (parse "return (2 let y 3;" none).2.errors.toList =
      [.unexpected .closeParen ((tokenize "return (2 let y 3;" none).get 3),
       (Diagnostic.unexpected .assign ((tokenize "return (2 let y 3;" none).get 5)).wrap
         .binding] := by
    rw [parse, ParseState.readProgram, ParseState.readStatements_eq]
    cbv
  have hd := he ▸ List.mem_cons_of_mem _ (List.mem_singleton_self _)
  exact ⟨_, hd, by cbv, diagnostics_true _ _ _ hd⟩

end ExprLang
