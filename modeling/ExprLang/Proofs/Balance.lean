import ExprLang.Proofs.Turns
import Mathlib

namespace ExprLang

def Diagnostic.isFailure (d : Diagnostic) : Bool := d.problem.cause?.isSome

theorem Reads.not_isFailure (h : Reads S m a e ds b) : ∀ d ∈ ds, d.isFailure = false := by
  induction h with
  | refused => exact List.forall_mem_singleton.mpr rfl
  | tooLarge => exact List.forall_mem_singleton.mpr rfl
  | atom => exact List.forall_mem_nil _
  | unary _ _ ih => exact ih
  | group _ _ _ ih => exact ih
  | unclosed => exact List.forall_mem_singleton.mpr rfl
  | broken _ _ _ _ ih => exact ih
  | binary _ _ _ _ _ ihl ihr => exact List.forall_mem_append.mpr ⟨ihl, ihr⟩

theorem ReadsValue.not_isFailure (h : ReadsValue S a e ds b) :
    ∀ d ∈ ds, d.isFailure = false := by
  cases h with
  | ended hr => exact hr.not_isFailure
  | skipped hr => exact hr.not_isFailure

theorem ReadsStmt.not_isFailure (h : ReadsStmt S a s ds b) : ∀ d ∈ ds, d.isFailure = false := by
  cases h with
  | binding _ _ _ hv => exact hv.not_isFailure
  | returning _ _ hv => exact hv.not_isFailure
  | returningNothing => exact List.forall_mem_nil _
  | closed _ hr => exact hr.not_isFailure
  | bare _ hr => exact hr.not_isFailure

theorem FailsStmt.isFailure (h : FailsStmt S a d b) : d.isFailure = true := by
  cases h <;> rfl

theorem ReadsValue.length_diagnostics (h : ReadsValue S a e ds b) : ds.length = e.gaps := by
  cases h with
  | ended hr => exact hr.length_diagnostics
  | skipped hr => exact hr.length_diagnostics

theorem Stmt.gaps_binding (t next : Token) (binder : Binder) (e : Expr) :
    (binding t binder e).gaps next = e.gaps := rfl

theorem Stmt.gaps_expression (t next : Token) (e : Expr) :
    (expression t e).gaps next = e.gaps := rfl

theorem Stmt.gaps_returning {next : Token} (h : next.kind ≠ .semicolon) (t : Token) (e : Expr) :
    (returning t e).gaps next = e.gaps :=
  if_neg fun hk => h hk.2

theorem ReadsStmt.length_diagnostics (h : ReadsStmt S a s ds b) :
    ds.length = s.gaps (S.get (a + 1)) := by
  cases h with
  | binding _ _ _ hv => rw [hv.length_diagnostics, Stmt.gaps_binding]
  | returning _ hn hv => rw [hv.length_diagnostics, Stmt.gaps_returning hn]
  | returningNothing _ hn => exact (if_pos ⟨rfl, hn⟩).symm
  | closed _ hr => rw [hr.length_diagnostics, Stmt.gaps_expression]
  | bare _ hr => rw [hr.length_diagnostics, Stmt.gaps_expression]

theorem ReadsValue.reads_of_nil (h : ReadsValue S a e [] b) :
    Reads S .lowest a e [] (b - 1) := by
  cases h with
  | ended hr => exact hr
  | skipped _ _ hd => exact absurd rfl hd

/-- A statement with nothing on record lacks nothing, unless it returns nothing. -/
theorem ReadsStmt.complete (h : ReadsStmt S a s [] b) :
    s.value.holes = 0 ∧
      (s.value = .missing → s.kind = .returning ∧ (S.get (a + 1)).kind = .semicolon) := by
  have hne {m : Power} {a b : Nat} {e : Expr} (hr : Reads S m a e [] b) : e ≠ .missing := by
    rintro rfl
    cases hr.isMissing_of_nil
  cases h with
  | binding _ _ _ hv =>
    exact ⟨hv.reads_of_nil.holes_of_nil, fun he => absurd he (hne hv.reads_of_nil)⟩
  | returning _ _ hv =>
    exact ⟨hv.reads_of_nil.holes_of_nil, fun he => absurd he (hne hv.reads_of_nil)⟩
  | returningNothing _ hn => exact ⟨rfl, fun _ => ⟨rfl, hn⟩⟩
  | closed _ hr => exact ⟨hr.holes_of_nil, fun he => absurd he (hne hr)⟩
  | bare _ hr => exact ⟨hr.holes_of_nil, fun he => absurd he (hne hr)⟩

def keptOf (turns : List Turn) : List (Nat × Stmt) :=
  turns.filterMap fun turn => turn.stmt?.map (turn.start, ·)

theorem keptOf_map_snd (turns : List Turn) :
    (keptOf turns).map Prod.snd = turns.filterMap Turn.stmt? := by
  simp only [keptOf, List.map_filterMap, Option.map_map, Function.comp_def, Option.map_id']

/-- Each turn starts further on than the one before it, and a statement is kept with the token that
it starts with. -/
theorem Runs.kept_starts (h : Runs S a turns) :
    (∀ k ∈ keptOf turns, a ≤ k.1 ∧ k.2.token = S.get k.1) ∧
      ((keptOf turns).map Prod.fst).Pairwise (· < ·) := by
  induction h with
  | stop => exact ⟨List.forall_mem_nil _, .nil⟩
  | @keep a s ds b turns _ hr _ ih =>
    have hb := hr.le
    change (∀ k ∈ (a, s) :: keptOf turns, _) ∧ (((a, s) :: keptOf turns).map Prod.fst).Pairwise _
    rw [List.forall_mem_cons, List.map_cons, List.pairwise_cons, List.forall_mem_map]
    refine ⟨⟨⟨Nat.le_refl a, hr.token_eq⟩, ?_⟩, ?_, ih.2⟩
    · intro k hk
      obtain ⟨hle, ht⟩ := ih.1 k hk
      exact ⟨by omega, ht⟩
    · intro k hk
      have hle := (ih.1 k hk).1
      omega
  | @drop a d b c turns _ hf hc _ ih =>
    have hb := hf.le
    have hc := hc.le
    change (∀ k ∈ keptOf turns, _) ∧ ((keptOf turns).map Prod.fst).Pairwise _
    refine ⟨?_, ih.2⟩
    intro k hk
    obtain ⟨hle, ht⟩ := ih.1 k hk
    exact ⟨by omega, ht⟩

/-- What a run records are the gaps of the statements that it keeps and the failures of those that
it drops. -/
theorem Runs.length_diagnostics (h : Runs S a turns) :
    (turns.flatMap Turn.diagnostics).length =
      ((keptOf turns).map fun k => k.2.gaps (S.get (k.1 + 1))).sum +
        (turns.flatMap Turn.diagnostics).countP Diagnostic.isFailure := by
  induction h with
  | stop => rfl
  | @keep a s ds b turns _ hr _ ih =>
    have hd := hr.length_diagnostics
    have hf : ds.countP Diagnostic.isFailure = 0 :=
      List.countP_eq_zero.mpr fun d hd => Bool.eq_false_iff.mp (hr.not_isFailure d hd)
    change (ds ++ turns.flatMap Turn.diagnostics).length =
      s.gaps (S.get (a + 1)) + ((keptOf turns).map _).sum +
        (ds ++ turns.flatMap Turn.diagnostics).countP _
    rw [List.length_append, List.countP_append]
    omega
  | @drop a d b c turns _ hf _ _ ih =>
    change _ = ((keptOf turns).map _).sum + _
    rw [List.flatMap_cons, List.length_append, List.countP_append,
      List.countP_singleton, if_pos hf.isFailure, List.length_singleton]
    omega

theorem Runs.complete (h : Runs S a turns) (hd : turns.flatMap Turn.diagnostics = []) :
    ∀ k ∈ keptOf turns, k.2.value.holes = 0 ∧
      (k.2.value = .missing → k.2.kind = .returning ∧ (S.get (k.1 + 1)).kind = .semicolon) := by
  induction h with
  | stop => exact List.forall_mem_nil _
  | @keep a s ds b turns _ hr _ ih =>
    obtain ⟨rfl, hd⟩ := List.append_eq_nil_iff.mp hd
    exact List.forall_mem_cons.mpr ⟨hr.complete, ih hd⟩
  | drop => cases hd

/-- Diagnostics and gaps balance. An expression leaves one diagnostic for each of its gaps on
record, a statement that fails none, and one that is kept as many as it has gaps. So the diagnostics
of a text are the gaps of its statements and the failures of those that were dropped, and where
there is none only a `return` that a semicolon follows lacks its value. -/
theorem diagnostics_balance :
    (∀ (p : ParseState) (m : Power), ∃ ds,
      (p.readExpr m).2.errors.toList = p.errors.toList ++ ds ∧
        ds.length = (p.readExpr m).1.gaps) ∧
    (∀ p : ParseState, match StmtReader.statement p with
      | .error _ q => q.errors = p.errors
      | .ok s q => ∃ ds, q.errors.toList = p.errors.toList ++ ds ∧
          ds.length = s.gaps p.peek) ∧
    ∀ (source : String) (file : Option String), ∃ kept : List (Nat × Stmt),
      kept.map Prod.snd = (parse source file).1.statements ∧
      (kept.map Prod.fst).Pairwise (· < ·) ∧
      (∀ k ∈ kept, k.2.token = (tokenize source file).get k.1) ∧
      (parse source file).2.errors.size =
        (kept.map fun k => k.2.gaps ((tokenize source file).get (k.1 + 1))).sum +
          (parse source file).2.errors.countP Diagnostic.isFailure ∧
      ((parse source file).2.errors = #[] → ∀ k ∈ kept, k.2.value.holes = 0 ∧
        (k.2.value = .missing →
          k.2.kind = .returning ∧ ((tokenize source file).get (k.1 + 1)).kind = .semicolon)) := by
  refine ⟨?_, ?_, ?_⟩
  · intro p m
    obtain ⟨ds, b, ⟨hr, hm⟩, -⟩ := p.follows_readExpr (S := p.tokens) (a := 0) m rfl
    exact ⟨ds, hm.errors, hr.length_diagnostics⟩
  · intro p
    have hp : p.tokens = p.tokens.drop 0 := rfl
    rcases StmtReader.exists_readsStmt p.tokens 0 with ⟨s, ds, b, hr⟩ | ⟨d, b, hf⟩
    · obtain ⟨q, he, hm⟩ := StmtReader.statement_of_reads hr hp
      rw [he]
      exact ⟨ds, hm.errors, hr.length_diagnostics⟩
    · obtain ⟨q, he, hm⟩ := StmtReader.statement_of_fails hf hp
      rw [he]
      exact Array.toList_inj.mp (hm.errors.trans (List.append_nil _))
  · intro source file
    obtain ⟨turns, ht⟩ := exists_runs (tokenize source file) 0
    obtain ⟨hs, he⟩ := parse_of_runs ht
    refine ⟨keptOf turns, ?_, ht.kept_starts.2, ?_, ?_, ?_⟩
    · rw [keptOf_map_snd, hs]
    · intro k hk
      exact (ht.kept_starts.1 k hk).2
    · rw [← Array.length_toList, ← Array.countP_toList, he]
      exact ht.length_diagnostics
    · intro hn
      exact ht.complete (by rw [← he, hn])

end ExprLang
