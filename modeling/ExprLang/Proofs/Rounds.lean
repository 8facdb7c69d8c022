import ExprLang.Proofs.Balance
import ExprLang.Proofs.Ownership
import Mathlib

namespace ExprLang

namespace ParseState

/-- The state after one round of the loop over statements. A statement that fails is recorded and
skipped. -/
def nextRound (p : ParseState) : ParseState :=
  match StmtReader.statement p with
  | .ok _ q => q.advance
  | .error d q => (q.record d).synchronize.advance

/-- The statement that a round keeps. -/
def kept? (p : ParseState) : Option Stmt :=
  match StmtReader.statement p with
  | .ok stmt _ => some stmt
  | .error .. => none

variable {S : TokenStream} {p q : ParseState}

/-- The loop over statements goes from round to round and keeps what each of them keeps. -/
theorem readStatements_eq_round (h : p.current.kind ≠ .eof) :
    p.readStatements =
      (p.kept?.toList ++ p.nextRound.readStatements.1, p.nextRound.readStatements.2) := by
  rw [readStatements_eq, if_neg h, kept?, nextRound]
  cases StmtReader.statement p <;> rfl

theorem readStatements_of_eof (h : p.current.kind = .eof) : p.readStatements = ([], p) := by
  rw [readStatements_eq, if_pos h]

theorem kept?_of_ok (h : StmtReader.statement p = .ok s q) :
    p.kept? = some s ∧ p.nextRound = q.advance := by
  rw [kept?, nextRound, h]
  exact ⟨rfl, rfl⟩

theorem kept?_of_error (h : StmtReader.statement p = .error d q) :
    p.kept? = none ∧ p.nextRound = (q.record d).synchronize.advance := by
  rw [kept?, nextRound, h]
  exact ⟨rfl, rfl⟩

end ParseState

open ParseState

/-- What a round does that starts at the token `a` of `S`: the next one starts at the token `b`, the
diagnostics `ds` are recorded, and a statement is kept or one fails. -/
structure Round (S : TokenStream) (a : Nat) (p : ParseState) (b : Nat) (ds : List Diagnostic) :
    Prop where
  lt : a < b
  moves : MovesTo S p p.nextRound b ds
  counts : p.kept?.toList.length + ds.countP Diagnostic.isFailure = 1
  keeps : ∃ ts, Covers S a b ts ∧ (p.kept?.toList.flatMap Stmt.tokens).Sublist ts

section

variable {S : TokenStream} {p q : ParseState}

theorem ReadsStmt.round (h : ReadsStmt S a s ds b) (hp : p.tokens = S.drop a) :
    Round S a p (b + 1) ds := by
  obtain ⟨q, he, hm⟩ := StmtReader.statement_of_reads h hp
  obtain ⟨hk, hr⟩ := kept?_of_ok he
  constructor
  · exact Nat.lt_succ_of_le h.le
  · rw [hr]
    exact hm.advance
  · have hf : ds.countP Diagnostic.isFailure = 0 :=
      List.countP_eq_zero.mpr fun d hd => Bool.eq_false_iff.mp (h.not_isFailure d hd)
    rw [hk, hf]
    rfl
  · obtain ⟨ts, hc, hkeeps⟩ := h.keeps
    refine ⟨ts, hc, ?_⟩
    rw [hk, Option.toList_some, List.flatMap_singleton]
    exact hkeeps.sublist

theorem FailsStmt.round (h : FailsStmt S a d b) (hc : Skips S b c) (hp : p.tokens = S.drop a) :
    Round S a p (c + 1) [d] := by
  obtain ⟨q, he, hm⟩ := StmtReader.statement_of_fails h hp
  obtain ⟨hk, hr⟩ := kept?_of_error he
  have hlt : a < c + 1 := Nat.lt_succ_of_le (Nat.le_trans h.le hc.le)
  constructor
  · exact hlt
  · have hm := hm.record d
    rw [hr]
    exact (hm.trans (synchronize_of_skips hc hm.tokens)).advance
  · rw [hk, List.countP_singleton, if_pos h.isFailure]
    rfl
  · obtain ⟨ts, hts⟩ := Covers.exists_of_le S (Nat.le_of_lt hlt)
    refine ⟨ts, hts, ?_⟩
    rw [hk]
    exact List.nil_sublist ts

/-- Every round gets on, wherever it starts. -/
theorem exists_round (hp : p.tokens = S.drop a) : ∃ b ds, Round S a p b ds := by
  rcases StmtReader.exists_readsStmt S a with ⟨s, ds, b, hr⟩ | ⟨d, b, hf⟩
  · exact ⟨_, _, hr.round hp⟩
  · obtain ⟨c, hc, -⟩ := skips_synchronize ⟨S.drop b, #[], #[]⟩ rfl
    exact ⟨_, _, hf.round hc hp⟩

end

end ExprLang
