import ExprLang.Proofs.Reads
import ExprLang.Reading.Program

namespace ExprLang

/-- The rules of skipping: from the token `b` of `S` on, `c` is the first one to stop at. -/
inductive Skips (S : TokenStream) : Nat → Nat → Prop where
  | stop : (S.get b).kind ∈ [Kind.semicolon, Kind.eof] ∨
      (S.get (b + 1)).kind ∈ [Kind.letWord, Kind.returnWord] → Skips S b b
  | step : (S.get b).kind ∉ [Kind.semicolon, Kind.eof] →
      (S.get (b + 1)).kind ∉ [Kind.letWord, Kind.returnWord] → Skips S (b + 1) c → Skips S b c

/-- The rules of reading the value of a statement with what ends it. -/
inductive ReadsValue (S : TokenStream) : Nat → Expr → List Diagnostic → Nat → Prop where
  | ended : Reads S .lowest a e [] b → (S.get (b + 1)).kind = .semicolon →
      ReadsValue S a e [] (b + 1)
  | skipped : Reads S .lowest a e ds b → Stops S .lowest e b → ds ≠ [] → Skips S b c →
      ReadsValue S a e ds c

/-- The value that starts at the token `a` is complete, but the token after `b` does not end it. -/
structure LacksEnd (S : TokenStream) (a b : Nat) (e : Expr) : Prop where
  reads : Reads S .lowest a e [] b
  stops : Stops S .lowest e b
  lacks : (S.get (b + 1)).kind ≠ .semicolon

/-- The rules of reading a statement from the token `a` on; the last token in view is `b`. -/
inductive ReadsStmt (S : TokenStream) : Nat → Stmt → List Diagnostic → Nat → Prop where
  | binding : (S.get a).kind = .letWord → (S.get (a + 1)).kind = .identifier →
      (S.get (a + 2)).kind = .assign → ReadsValue S (a + 3) e ds b →
      ReadsStmt S a (.binding (S.get a) ⟨S.get (a + 1), (S.get (a + 1)).literal⟩ e) ds b
  | returning : (S.get a).kind = .returnWord → (S.get (a + 1)).kind ≠ .semicolon →
      ReadsValue S (a + 1) e ds b → ReadsStmt S a (.returning (S.get a) e) ds b
  | returningNothing : (S.get a).kind = .returnWord → (S.get (a + 1)).kind = .semicolon →
      ReadsStmt S a (.returning (S.get a) .missing) [] (a + 1)
  | closed : (S.get a).kind.stmtKind? = none → Reads S .lowest a e ds b → Stops S .lowest e b →
      (S.get (b + 1)).kind = .semicolon → ReadsStmt S a (.expression (S.get a) e) ds (b + 1)
  | bare : (S.get a).kind.stmtKind? = none → Reads S .lowest a e ds b → Stops S .lowest e b →
      (S.get (b + 1)).kind ≠ .semicolon → ReadsStmt S a (.expression (S.get a) e) ds b

/-- The rules by which a statement fails; the token after `b` is the one to blame. -/
inductive FailsStmt (S : TokenStream) : Nat → Diagnostic → Nat → Prop where
  | name : (S.get a).kind = .letWord → (S.get (a + 1)).kind ≠ .identifier →
      FailsStmt S a ((Diagnostic.unexpected .identifier (S.get (a + 1))).wrap .binding) a
  | sign : (S.get a).kind = .letWord → (S.get (a + 1)).kind = .identifier →
      (S.get (a + 2)).kind ≠ .assign →
      FailsStmt S a ((Diagnostic.unexpected .assign (S.get (a + 2))).wrap .binding) (a + 1)
  | binding : (S.get a).kind = .letWord → (S.get (a + 1)).kind = .identifier →
      (S.get (a + 2)).kind = .assign → LacksEnd S (a + 3) b e →
      FailsStmt S a ((Diagnostic.unexpected .semicolon (S.get (b + 1))).wrap .binding) b
  | returning : (S.get a).kind = .returnWord → (S.get (a + 1)).kind ≠ .semicolon →
      LacksEnd S (a + 1) b e →
      FailsStmt S a ((Diagnostic.unexpected .semicolon (S.get (b + 1))).wrap .returning) b

/-- One turn of the loop over statements: the token it starts at, the statement if it is kept, and
what is recorded. -/
structure Turn where
  start : Nat
  stmt? : Option Stmt
  diagnostics : List Diagnostic

/-- The rules of reading statements from the token `a` on to the end of the text. -/
inductive Runs (S : TokenStream) : Nat → List Turn → Prop where
  | stop : (S.get a).kind = .eof → Runs S a []
  | keep : (S.get a).kind ≠ .eof → ReadsStmt S a s ds b → Runs S (b + 1) turns →
      Runs S a (⟨a, some s, ds⟩ :: turns)
  | drop : (S.get a).kind ≠ .eof → FailsStmt S a d b → Skips S b c → Runs S (c + 1) turns →
      Runs S a (⟨a, none, [d]⟩ :: turns)

theorem Kind.stmtKind?_eq_none {k : Kind} (hl : k ≠ .letWord) (hr : k ≠ .returnWord) :
    k.stmtKind? = none := by
  simp only [stmtKind?]

theorem Stops.semicolon {S : TokenStream} (h : (S.get (b + 1)).kind = .semicolon) :
    Stops S .lowest e b := by
  apply Or.inr
  rw [h]
  exact Nat.lt_irrefl _

theorem Kind.ne_of_stmtKind?_eq_none {k : Kind} (h : k.stmtKind? = none) :
    k ≠ .letWord ∧ k ≠ .returnWord := by
  constructor <;>
  · rintro rfl
    cases h

theorem ReadsStmt.of_letWord {S : TokenStream} (h : ReadsStmt S a s ds b)
    (hk : (S.get a).kind = .letWord) :
    (S.get (a + 1)).kind = .identifier ∧ (S.get (a + 2)).kind = .assign ∧
      ∃ e, s = .binding (S.get a) ⟨S.get (a + 1), (S.get (a + 1)).literal⟩ e ∧
        ReadsValue S (a + 3) e ds b := by
  cases h with
  | binding _ hn ha hv => exact ⟨hn, ha, _, rfl, hv⟩
  | returning hw => exact absurd (hk.symm.trans hw) nofun
  | returningNothing hw => exact absurd (hk.symm.trans hw) nofun
  | closed ho => exact absurd hk (Kind.ne_of_stmtKind?_eq_none ho).1
  | bare ho => exact absurd hk (Kind.ne_of_stmtKind?_eq_none ho).1

theorem ReadsStmt.of_returnWord {S : TokenStream} (h : ReadsStmt S a s ds b)
    (hk : (S.get a).kind = .returnWord) :
    ((S.get (a + 1)).kind = .semicolon ∧ s = .returning (S.get a) .missing ∧ ds = [] ∧ b = a + 1) ∨
      (S.get (a + 1)).kind ≠ .semicolon ∧ ∃ e, s = .returning (S.get a) e ∧
        ReadsValue S (a + 1) e ds b := by
  cases h with
  | binding hw => exact absurd (hk.symm.trans hw) nofun
  | returning _ hn hv => exact .inr ⟨hn, _, rfl, hv⟩
  | returningNothing _ hn => exact .inl ⟨hn, rfl, rfl, rfl⟩
  | closed ho => exact absurd hk (Kind.ne_of_stmtKind?_eq_none ho).2
  | bare ho => exact absurd hk (Kind.ne_of_stmtKind?_eq_none ho).2

theorem ReadsStmt.of_none {S : TokenStream} (h : ReadsStmt S a s ds b)
    (hk : (S.get a).kind.stmtKind? = none) :
    ∃ e c, s = .expression (S.get a) e ∧ Reads S .lowest a e ds c ∧ Stops S .lowest e c ∧
      ((S.get (c + 1)).kind = .semicolon ∧ b = c + 1 ∨
        (S.get (c + 1)).kind ≠ .semicolon ∧ b = c) := by
  cases h with
  | binding hw => exact absurd hw (Kind.ne_of_stmtKind?_eq_none hk).1
  | returning hw => exact absurd hw (Kind.ne_of_stmtKind?_eq_none hk).2
  | returningNothing hw => exact absurd hw (Kind.ne_of_stmtKind?_eq_none hk).2
  | closed _ hr hs hc => exact ⟨_, _, rfl, hr, hs, .inl ⟨hc, rfl⟩⟩
  | bare _ hr hs hc => exact ⟨_, _, rfl, hr, hs, .inr ⟨hc, rfl⟩⟩

theorem FailsStmt.of_letWord {S : TokenStream} (h : FailsStmt S a d b)
    (hk : (S.get a).kind = .letWord) :
    ((S.get (a + 1)).kind ≠ .identifier ∧ b = a) ∨
      ((S.get (a + 1)).kind = .identifier ∧ (S.get (a + 2)).kind ≠ .assign ∧ b = a + 1) ∨
      (S.get (a + 1)).kind = .identifier ∧ (S.get (a + 2)).kind = .assign ∧
        ∃ e, LacksEnd S (a + 3) b e := by
  cases h with
  | name _ hn => exact .inl ⟨hn, rfl⟩
  | sign _ hn ha => exact .inr (.inl ⟨hn, ha, rfl⟩)
  | binding _ hn ha hv => exact .inr (.inr ⟨hn, ha, _, hv⟩)
  | returning hw => exact absurd (hk.symm.trans hw) nofun

theorem FailsStmt.of_returnWord {S : TokenStream} (h : FailsStmt S a d b)
    (hk : (S.get a).kind = .returnWord) :
    (S.get (a + 1)).kind ≠ .semicolon ∧ ∃ e, LacksEnd S (a + 1) b e := by
  cases h with
  | name hw => exact absurd (hk.symm.trans hw) nofun
  | sign hw => exact absurd (hk.symm.trans hw) nofun
  | binding hw => exact absurd (hk.symm.trans hw) nofun
  | returning _ hn hv => exact ⟨hn, _, hv⟩

/-- Only a statement that a word opens can fail. -/
theorem FailsStmt.opens {S : TokenStream} (h : FailsStmt S a d b) :
    (S.get a).kind = .letWord ∨ (S.get a).kind = .returnWord := by
  cases h with
  | name hw => exact .inl hw
  | sign hw => exact .inl hw
  | binding hw => exact .inl hw
  | returning hw => exact .inr hw

theorem Skips.le (h : Skips S b c) : b ≤ c := by
  induction h with
  | stop => exact Nat.le_refl _
  | step _ _ _ ih => omega

namespace ParseState

variable {S : TokenStream} {p q r : ParseState}

theorem skips_synchronize (p : ParseState) (hp : p.tokens = S.drop b) :
    ∃ c, Skips S b c ∧ MovesTo S p p.synchronize c [] := by
  fun_induction synchronize p generalizing b with
  | case1 p h =>
    simp only [Bool.or_eq_true, Token.isOneOf_iff, current_eq hp, peek_eq hp] at h
    exact ⟨b, .stop h, .refl hp⟩
  | case2 p h ih =>
    obtain ⟨c, hs, hm⟩ := ih (tokens_advance_eq hp)
    simp only [Bool.or_eq_true, Token.isOneOf_iff, current_eq hp, peek_eq hp, not_or] at h
    exact ⟨c, .step h.1 h.2 hs, hm.from_advance hp⟩

theorem synchronize_of_skips (h : Skips S b c) (hp : p.tokens = S.drop b) :
    MovesTo S p p.synchronize c [] := by
  induction h generalizing p with
  | stop h =>
    rw [synchronize, if_pos]
    · exact .refl hp
    · simpa only [Bool.or_eq_true, Token.isOneOf_iff, current_eq hp, peek_eq hp] using h
  | step hc hn _ ih =>
    rw [synchronize, if_neg]
    · exact (ih (tokens_advance_eq hp)).from_advance hp
    · simp only [Bool.or_eq_true, Token.isOneOf_iff, current_eq hp, peek_eq hp, not_or]
      exact ⟨hc, hn⟩

end ParseState

namespace StmtReader

open ParseState

variable {S : TokenStream} {p q : ParseState}

theorem value_ended (h : p.readExpr .lowest = (e, q)) (hn : ¬ p.errors.size < q.errors.size)
    (hk : q.peek.kind = .semicolon) : value p = .ok e q.advance := by
  simp only [run_value, h, if_neg hn, expect_eq_ok_iff.mpr ⟨hk, rfl⟩]

theorem value_skipped (h : p.readExpr .lowest = (e, q)) (hn : p.errors.size < q.errors.size) :
    value p = .ok e q.synchronize := by
  simp only [run_value, h, if_pos hn]

theorem value_lacksEnd (h : p.readExpr .lowest = (e, q)) (hn : ¬ p.errors.size < q.errors.size)
    (hk : q.peek.kind ≠ .semicolon) : value p = .error (.unexpected .semicolon q.peek) q := by
  simp only [run_value, h, if_neg hn, expect_eq_error_iff.mpr ⟨hk, rfl⟩]

theorem value_of_reads (h : ReadsValue S a e ds b) (hp : p.tokens = S.drop a) :
    ∃ q, value p = .ok e q ∧ MovesTo S p q b ds := by
  cases h with
  | ended hr hk =>
    obtain ⟨q, he, hm⟩ := hr.readExpr_eq (.semicolon hk) hp
    rw [← peek_eq hm.tokens] at hk
    exact ⟨_, value_ended he (fun hlt => hm.size_lt_iff.mp hlt rfl) hk, hm.advance⟩
  | skipped hr hs hd hc =>
    obtain ⟨q, he, hm⟩ := hr.readExpr_eq hs hp
    refine ⟨_, value_skipped he (hm.size_lt_iff.mpr hd), ?_⟩
    simpa only [List.append_nil] using hm.trans (synchronize_of_skips hc hm.tokens)

theorem value_of_lacksEnd (h : LacksEnd S a b e) (hp : p.tokens = S.drop a) :
    ∃ q, value p = .error (.unexpected .semicolon (S.get (b + 1))) q ∧ MovesTo S p q b [] := by
  obtain ⟨q, he, hm⟩ := h.reads.readExpr_eq h.stops hp
  have hk := h.lacks
  rw [← peek_eq hm.tokens] at hk ⊢
  exact ⟨q, value_lacksEnd he (fun hlt => hm.size_lt_iff.mp hlt rfl) hk, hm⟩

/-- Every place of a text has a value to read there by the rules, or one that lacks its end. -/
theorem exists_readsValue (S : TokenStream) (a : Nat) :
    (∃ e ds b, ReadsValue S a e ds b) ∨ ∃ e b, LacksEnd S a b e := by
  obtain ⟨ds, b, ⟨hr, hm⟩, hs⟩ := follows_readExpr ⟨S.drop a, #[], #[]⟩ .lowest rfl
  by_cases hd : ds = []
  · subst ds
    by_cases hk : (S.get (b + 1)).kind = .semicolon
    · exact .inl ⟨_, _, _, .ended hr hk⟩
    · exact .inr ⟨_, _, hr, hs, hk⟩
  · obtain ⟨c, hc, -⟩ := skips_synchronize _ hm.tokens
    exact .inl ⟨_, _, _, .skipped hr hs hd hc⟩

theorem expect_ok (hp : p.tokens = S.drop a) (hk : (S.get (a + 1)).kind = k) :
    p.expect k = .ok p.advance := by
  rw [← peek_eq hp] at hk
  exact expect_eq_ok_iff.mpr ⟨hk, rfl⟩

theorem expect_error (hp : p.tokens = S.drop a) (hk : (S.get (a + 1)).kind ≠ k) :
    p.expect k = .error (.unexpected k (S.get (a + 1))) := by
  rw [← peek_eq hp] at hk ⊢
  exact expect_eq_error_iff.mpr ⟨hk, rfl⟩

theorem run_statement_binding (h : p.current.kind = .letWord) :
    statement p = match binding p with
      | .ok s q => .ok s q
      | .error d q => .error (d.wrap .binding) q := by
  rw [run_statement, h]
  rfl

theorem run_statement_returning (h : p.current.kind = .returnWord) :
    statement p = match returning p with
      | .ok s q => .ok s q
      | .error d q => .error (d.wrap .returning) q := by
  rw [run_statement, h]
  rfl

theorem run_statement_bare (h : p.current.kind.stmtKind? = none) : statement p = bare p := by
  simp only [run_statement, h]

/-- The statement that the rules read is the one that the reader reads. -/
theorem statement_of_reads (h : ReadsStmt S a s ds b) (hp : p.tokens = S.drop a) :
    ∃ q, statement p = .ok s q ∧ MovesTo S p q b ds := by
  have hp₁ := tokens_advance_eq hp
  have hp₂ := tokens_advance_eq hp₁
  cases h with
  | binding hw hn ha hv =>
    obtain ⟨q, he, hm⟩ := value_of_reads hv (tokens_advance_eq hp₂)
    refine ⟨q, ?_, ((hm.from_advance hp₂).from_advance hp₁).from_advance hp⟩
    rw [run_statement_binding (current_eq hp ▸ hw), run_binding]
    simp only [expect_ok hp hn, expect_ok hp₁ ha, he, current_eq hp, current_eq hp₁]
  | returning hw hn hv =>
    obtain ⟨q, he, hm⟩ := value_of_reads hv hp₁
    refine ⟨q, ?_, hm.from_advance hp⟩
    rw [run_statement_returning (current_eq hp ▸ hw), run_returning,
      if_neg (peek_eq hp ▸ hn), he, current_eq hp]
  | returningNothing hw hn =>
    refine ⟨p.advance, ?_, (MovesTo.refl hp).advance⟩
    rw [run_statement_returning (current_eq hp ▸ hw), run_returning,
      if_pos (peek_eq hp ▸ hn), current_eq hp]
  | closed hw hr hs hk =>
    obtain ⟨q, he, hm⟩ := hr.readExpr_eq hs hp
    refine ⟨q.advance, ?_, hm.advance⟩
    rw [← peek_eq hm.tokens] at hk
    simp only [run_statement_bare (current_eq hp ▸ hw), run_bare, he, if_pos hk, current_eq hp]
  | bare hw hr hs hk =>
    obtain ⟨q, he, hm⟩ := hr.readExpr_eq hs hp
    refine ⟨q, ?_, hm⟩
    rw [← peek_eq hm.tokens] at hk
    simp only [run_statement_bare (current_eq hp ▸ hw), run_bare, he, if_neg hk, current_eq hp]

/-- A statement that fails by the rules is one that the reader gives up, with nothing recorded. -/
theorem statement_of_fails (h : FailsStmt S a d b) (hp : p.tokens = S.drop a) :
    ∃ q, statement p = .error d q ∧ MovesTo S p q b [] := by
  have hp₁ := tokens_advance_eq hp
  have hp₂ := tokens_advance_eq hp₁
  cases h with
  | name hw hn =>
    refine ⟨p, ?_, .refl hp⟩
    rw [run_statement_binding (current_eq hp ▸ hw), run_binding]
    simp only [expect_error hp hn]
  | sign hw hn ha =>
    refine ⟨p.advance, ?_, (MovesTo.refl hp).advance⟩
    rw [run_statement_binding (current_eq hp ▸ hw), run_binding]
    simp only [expect_ok hp hn, expect_error hp₁ ha]
  | binding hw hn ha hv =>
    obtain ⟨q, he, hm⟩ := value_of_lacksEnd hv (tokens_advance_eq hp₂)
    refine ⟨q, ?_, ((hm.from_advance hp₂).from_advance hp₁).from_advance hp⟩
    rw [run_statement_binding (current_eq hp ▸ hw), run_binding]
    simp only [expect_ok hp hn, expect_ok hp₁ ha, he]
  | returning hw hn hv =>
    obtain ⟨q, he, hm⟩ := value_of_lacksEnd hv hp₁
    refine ⟨q, ?_, hm.from_advance hp⟩
    rw [run_statement_returning (current_eq hp ▸ hw), run_returning,
      if_neg (peek_eq hp ▸ hn), he]

/-- From every token on a statement can be read or fails by the rules. -/
theorem exists_readsStmt (S : TokenStream) (a : Nat) :
    (∃ s ds b, ReadsStmt S a s ds b) ∨ ∃ d b, FailsStmt S a d b := by
  by_cases hl : (S.get a).kind = .letWord
  · by_cases hn : (S.get (a + 1)).kind = .identifier
    · by_cases ha : (S.get (a + 2)).kind = .assign
      · rcases exists_readsValue S (a + 3) with ⟨e, ds, b, hv⟩ | ⟨e, b, hv⟩
        · exact .inl ⟨_, _, _, .binding hl hn ha hv⟩
        · exact .inr ⟨_, _, .binding hl hn ha hv⟩
      · exact .inr ⟨_, _, .sign hl hn ha⟩
    · exact .inr ⟨_, _, .name hl hn⟩
  by_cases hr : (S.get a).kind = .returnWord
  · by_cases hn : (S.get (a + 1)).kind = .semicolon
    · exact .inl ⟨_, _, _, .returningNothing hr hn⟩
    · rcases exists_readsValue S (a + 1) with ⟨e, ds, b, hv⟩ | ⟨e, b, hv⟩
      · exact .inl ⟨_, _, _, .returning hr hn hv⟩
      · exact .inr ⟨_, _, .returning hr hn hv⟩
  have ho := Kind.stmtKind?_eq_none hl hr
  obtain ⟨ds, b, ⟨hr, -⟩, hs⟩ := follows_readExpr ⟨S.drop a, #[], #[]⟩ .lowest rfl
  by_cases hk : (S.get (b + 1)).kind = .semicolon
  · exact .inl ⟨_, _, _, .closed ho hr hs hk⟩
  · exact .inl ⟨_, _, _, .bare ho hr hs hk⟩

end StmtReader

namespace ParseState

variable {S : TokenStream} {p : ParseState}

/-- The statements that the rules keep are those that the reader keeps, and what they record is
what it records. -/
theorem readStatements_of_runs (h : Runs S a turns) (hp : p.tokens = S.drop a) :
    p.readStatements.1 = turns.filterMap Turn.stmt? ∧
      ∃ z, MovesTo S p p.readStatements.2 z (turns.flatMap Turn.diagnostics) := by
  induction h generalizing p with
  | stop hk =>
    rw [readStatements_eq, if_pos (current_eq hp ▸ hk)]
    exact ⟨rfl, _, .refl hp⟩
  | keep hk hr _ ih =>
    obtain ⟨q, he, hm⟩ := StmtReader.statement_of_reads hr hp
    obtain ⟨hs, z, hz⟩ := ih (tokens_advance_eq hm.tokens)
    rw [readStatements_eq, if_neg (current_eq hp ▸ hk), he]
    exact ⟨congrArg (_ :: ·) hs, z, hm.advance.trans hz⟩
  | @drop a d b c turns hk hf hc _ ih =>
    obtain ⟨q, he, hm⟩ := StmtReader.statement_of_fails hf hp
    have hm := hm.record d
    have hc := synchronize_of_skips hc hm.tokens
    obtain ⟨hs, z, hz⟩ := ih (tokens_advance_eq hc.tokens)
    rw [readStatements_eq, if_neg (current_eq hp ▸ hk), he]
    exact ⟨hs, z, (hm.trans hc.advance).trans hz⟩

end ParseState

theorem ReadsValue.le (h : ReadsValue S a e ds b) : a ≤ b := by
  cases h with
  | ended hr => exact Nat.le_succ_of_le hr.le
  | skipped hr _ _ hc => exact Nat.le_trans hr.le hc.le

theorem ReadsStmt.le (h : ReadsStmt S a s ds b) : a ≤ b := by
  cases h with
  | binding _ _ _ hv => exact Nat.le_trans (Nat.le_add_right _ _) hv.le
  | returning _ _ hv => exact Nat.le_of_succ_le hv.le
  | returningNothing => exact Nat.le_succ a
  | closed _ hr => exact Nat.le_succ_of_le hr.le
  | bare _ hr => exact hr.le

theorem FailsStmt.le (h : FailsStmt S a d b) : a ≤ b := by
  cases h with
  | name => exact Nat.le_refl a
  | sign => exact Nat.le_succ a
  | binding _ _ _ hv => exact Nat.le_trans (Nat.le_add_right _ _) hv.reads.le
  | returning _ _ hv => exact Nat.le_of_succ_le hv.reads.le

/-- The loop over statements comes to the end of the text from every token. -/
theorem exists_runs (S : TokenStream) (a : Nat) : ∃ turns, Runs S a turns := by
  induction hn : S.ahead.length - a using Nat.strongRecOn generalizing a with
  | ind n ih =>
    by_cases hk : (S.get a).kind = .eof
    · exact ⟨[], .stop hk⟩
    have ha := TokenStream.lt_of_kind_ne_eof hk
    rcases StmtReader.exists_readsStmt S a with ⟨s, ds, b, hr⟩ | ⟨d, b, hf⟩
    · have hb := hr.le
      obtain ⟨turns, ht⟩ := ih _ (by omega) (b + 1) rfl
      exact ⟨_, .keep hk hr ht⟩
    · have hb := hf.le
      obtain ⟨c, hc, -⟩ := ParseState.skips_synchronize ⟨S.drop b, #[], #[]⟩ rfl
      have hc' := hc.le
      obtain ⟨turns, ht⟩ := ih _ (by omega) (c + 1) rfl
      exact ⟨_, .drop hk hf hc ht⟩

theorem ReadsStmt.token_eq (h : ReadsStmt S a s ds b) : s.token = S.get a := by
  cases h <;> rfl

theorem Runs.exists_readsStmt (h : Runs S a turns) (hs : s ∈ turns.filterMap Turn.stmt?) :
    ∃ i ds b, a ≤ i ∧ ReadsStmt S i s ds b := by
  induction h with
  | stop => cases hs
  | keep _ hr _ ih =>
    rcases List.mem_cons.mp hs with rfl | hs
    · exact ⟨_, _, _, Nat.le_refl _, hr⟩
    · have hle := hr.le
      obtain ⟨i, ds, b, hi, hr⟩ := ih hs
      exact ⟨i, ds, b, by omega, hr⟩
  | drop _ hf hc _ ih =>
    have hle := hf.le
    have hle' := hc.le
    obtain ⟨i, ds, b, hi, hr⟩ := ih hs
    exact ⟨i, ds, b, by omega, hr⟩

/-- Reading a text is a run over its tokens from the first one on. -/
theorem parse_of_runs (h : Runs (tokenize source file) 0 turns) :
    (parse source file).1.statements = turns.filterMap Turn.stmt? ∧
      (parse source file).2.errors.toList = turns.flatMap Turn.diagnostics := by
  have hp : (ParseState.start (tokenize source file)).tokens = (tokenize source file).drop 0 := rfl
  obtain ⟨hs, z, hm⟩ := ParseState.readStatements_of_runs h hp
  exact ⟨hs, hm.errors.trans (List.nil_append _)⟩

theorem exists_readsStmt_of_mem (hs : s ∈ (parse source file).1.statements) :
    ∃ a ds b, ReadsStmt (tokenize source file) a s ds b := by
  obtain ⟨turns, ht⟩ := exists_runs (tokenize source file) 0
  rw [(parse_of_runs ht).1] at hs
  obtain ⟨a, ds, b, -, hr⟩ := ht.exists_readsStmt hs
  exact ⟨a, ds, b, hr⟩

end ExprLang
