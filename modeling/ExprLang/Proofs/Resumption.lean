import ExprLang.Proofs.ErrorOrder
import ExprLang.Proofs.Layout
import ExprLang.Proofs.Rounds
import Mathlib

namespace ExprLang

/-- Reading can go on at the token `j` of `S` after the token `b` was in the way of a statement:
there a statement opens or the text ends, or a semicolon stands right before it. -/
def TokenStream.ResumesAt (S : TokenStream) (b j : Nat) : Prop :=
  b ≤ j ∧ ((S.get j).kind ∈ [Kind.letWord, .returnWord, .eof] ∨
    (S.get (j - 1)).kind = .semicolon ∧ b ≤ j - 1)

namespace Skips

variable {S : TokenStream}

theorem stops (h : Skips S b c) : (S.get c).kind ∈ [Kind.semicolon, .eof] ∨
    (S.get (c + 1)).kind ∈ [Kind.letWord, .returnWord] := by
  induction h with
  | stop hs => exact hs
  | step _ _ _ ih => exact ih

theorem passes (h : Skips S b c) : ∀ i, b ≤ i → i < c →
    (S.get i).kind ∉ [Kind.semicolon, .eof] ∧
      (S.get (i + 1)).kind ∉ [Kind.letWord, .returnWord] := by
  induction h with
  | stop => omega
  | step hc hn _ ih =>
    intro i hi hlt
    rcases Nat.eq_or_lt_of_le hi with rfl | hi
    · exact ⟨hc, hn⟩
    · exact ih i hi hlt

theorem lt_of_resumesAt (h : Skips S b c) (hj : S.ResumesAt (b + 1) j) :
    c < j ∨ c = j ∧ (S.get c).kind = .eof := by
  obtain ⟨hbj, hj⟩ := hj
  obtain ⟨i, rfl⟩ := Nat.exists_eq_succ_of_ne_zero (by omega : j ≠ 0)
  rcases Nat.lt_or_ge c (i + 1) with hlt | hic
  · exact .inl hlt
  · right
    obtain ⟨hend, hword⟩ := h.passes i (Nat.le_of_succ_le_succ hbj) hic
    have hk : (S.get (i + 1)).kind = .eof := by
      simp only [Nat.succ_eq_add_one, Nat.add_sub_cancel, List.mem_cons, List.not_mem_nil, or_false,
        not_or] at hend hword hj
      rcases hj with (hk | hk | hk) | ⟨hk, -⟩
      · exact absurd hk hword.1
      · exact absurd hk hword.2
      · exact hk
      · exact absurd hk hend.1
    rcases Nat.eq_or_lt_of_le hic with rfl | hlt
    · exact ⟨rfl, hk⟩
    · have hend := (h.passes (i + 1) (Nat.le_of_succ_le hbj) hlt).1
      rw [hk] at hend
      exact absurd (by decide) hend

/-- Skipping comes to the token before the first one at which reading can go on, or to that one if
the text ends there. -/
theorem exists_resumesAt (h : Skips S b c) (hS : S.Closed)
    (hb : (S.get b).kind ∉ [Kind.semicolon, .eof]) :
    ∃ j, IsLeast {j | S.ResumesAt (b + 1) j} j ∧ S.drop (c + 1) = S.drop j := by
  have hbc : (S.get c).kind ∈ [Kind.semicolon, .eof] → b + 1 ≤ c := by
    intro hk
    apply Nat.lt_of_le_of_ne h.le
    rintro rfl
    exact hb hk
  by_cases hk : (S.get c).kind = .eof
  · refine ⟨c, ⟨⟨hbc (by rw [hk]; decide), .inl (by rw [hk]; decide)⟩, ?_⟩, ?_⟩
    · intro j hj
      rcases h.lt_of_resumesAt hj with hlt | ⟨he, -⟩
      · exact Nat.le_of_lt hlt
      · exact Nat.le_of_eq he
    · have hc := hS.kind_eq_eof_iff.mp hk
      rw [← S.drop_min, ← S.drop_min c, Nat.min_eq_right hc,
        Nat.min_eq_right (Nat.le_succ_of_le hc)]
  · refine ⟨c + 1, ⟨⟨Nat.succ_le_succ h.le, ?_⟩, ?_⟩, rfl⟩
    · rcases h.stops with hend | hword
      · have hlt := hbc hend
        simp only [List.mem_cons, List.not_mem_nil, or_false, hk] at hend
        exact .inr ⟨hend, hlt⟩
      · exact .inl (List.mem_append_left [Kind.eof] hword)
    · intro j hj
      exact (h.lt_of_resumesAt hj).resolve_right fun he => hk he.2

end Skips

/-- The statement that the word `a` of `S` opens fails, as the token `b` is in its way. Nothing is
recorded yet, and the token before `b` is the current one. -/
structure FailsAt (S : TokenStream) (p q : ParseState) (d : Diagnostic) (a b : Nat) : Prop where
  tokens : p.tokens = S.drop a
  opens : (S.get a).kind ∈ [Kind.letWord, .returnWord]
  lt : a < b
  inside : b ≤ S.ahead.length
  blames : ∃ form expected, (S.get a).kind.stmtKind? = some form ∧
    d = (Diagnostic.unexpected expected (S.get b)).wrap form
  stands : q.tokens = S.drop (b - 1)
  silent : q.errors = p.errors

open ParseState

/-- The loop over statements records the failure `d` and keeps nothing. It goes on at the token `j`
unless the text ends there. -/
structure GoesOnAt (S : TokenStream) (p : ParseState) (d : Diagnostic) (j : Nat) : Prop where
  errors : p.nextRound.errors = p.errors.push d
  tokens : p.nextRound.tokens = S.drop j
  statements : p.readStatements =
    if (S.get j).kind = .eof then ([], p.nextRound) else p.nextRound.readStatements

/-- From the token `a` of `S` to the token `c` the loop over statements takes `n` rounds and keeps
the statements `front`. -/
structure Leads (S : TokenStream) (a : Nat) (p : ParseState) (n c : Nat) (front : List Stmt) :
    Prop where
  goesOn : ∀ k < n, (nextRound^[k] p).current.kind ≠ .eof
  statements : p.readStatements.1 = front ++ (nextRound^[n] p).readStatements.1
  keeps : ∃ ts, Covers S a c ts ∧ (front.flatMap Stmt.tokens).Sublist ts

section

variable {S : TokenStream} {p q : ParseState}

theorem Leads.refl (S : TokenStream) (a : Nat) (p : ParseState) : Leads S a p 0 a [] :=
  ⟨fun k hk => absurd hk (Nat.not_lt_zero k), rfl, [], rfl, .slnil⟩

theorem Round.leads (hr : Round S a p b ds) (hk : p.current.kind ≠ .eof)
    (h : Leads S b p.nextRound n c front) : Leads S a p (n + 1) c (p.kept?.toList ++ front) := by
  constructor
  · intro k hkn
    cases k with
    | zero => exact hk
    | succ k => exact h.goesOn k (Nat.lt_of_succ_lt_succ hkn)
  · rw [readStatements_eq_round hk, h.statements, List.append_assoc]
    rfl
  · obtain ⟨ts, hts, hkeeps⟩ := hr.keeps
    obtain ⟨us, hus, hfront⟩ := h.keeps
    refine ⟨ts ++ us, hts.trans hus, ?_⟩
    rw [List.flatMap_append]
    exact hkeeps.append hfront

/-- Wherever some rounds lead to but the end of the text, they are rounds of the loop. -/
theorem exists_leads (hS : S.Closed) (hp : p.tokens = S.drop a) (n : Nat) :
    ∃ c, a ≤ c ∧ (nextRound^[n] p).tokens = S.drop c ∧
      ((S.get c).kind ≠ .eof → ∃ front, Leads S a p n c front) := by
  induction n generalizing p a with
  | zero => exact ⟨a, Nat.le_refl a, hp, fun _ => ⟨[], .refl S a p⟩⟩
  | succ n ih =>
    obtain ⟨b, ds, hr⟩ := exists_round hp
    obtain ⟨c, hbc, hc, hl⟩ := ih hr.moves.tokens
    have hac := Nat.lt_of_lt_of_le hr.lt hbc
    refine ⟨c, Nat.le_of_lt hac, hc, ?_⟩
    intro hk
    obtain ⟨front, hf⟩ := hl hk
    have ha : p.current.kind ≠ .eof := by
      rw [current_eq hp, Ne, hS.kind_eq_eof_iff, Nat.not_le]
      exact Nat.lt_trans hac (TokenStream.lt_of_kind_ne_eof hk)
    exact ⟨_, hr.leads ha hf⟩

theorem FailsStmt.kind_ne_eof {S : TokenStream} (h : FailsStmt S a d b) :
    (S.get a).kind ≠ .eof := by
  rcases h.opens with hw | hw <;>
  · rw [hw]
    nofun

theorem FailsStmt.of_error (h : StmtReader.statement p = .error d q) (hp : p.tokens = S.drop a) :
    ∃ b, FailsStmt S a d b ∧ MovesTo S p q b [] := by
  rcases StmtReader.exists_readsStmt S a with ⟨s, ds, b, hr⟩ | ⟨d', b, hf⟩
  · obtain ⟨q', he, -⟩ := StmtReader.statement_of_reads hr hp
    cases h.symm.trans he
  · obtain ⟨q', he, hm⟩ := StmtReader.statement_of_fails hf hp
    cases h.symm.trans he
    exact ⟨b, hf, hm⟩

theorem FailsStmt.failsAt (h : FailsStmt S a d b) (hp : p.tokens = S.drop a)
    (hm : MovesTo S p q b []) : FailsAt S p q d a (b + 1) := by
  constructor
  · exact hp
  · simpa only [List.mem_cons, List.not_mem_nil, or_false] using h.opens
  · exact Nat.lt_succ_of_le h.le
  · obtain ⟨f, -, hb, -⟩ := h.charge
    exact hb
  · cases h with
    | name hw => exact ⟨_, _, congrArg Kind.stmtKind? hw, rfl⟩
    | sign hw => exact ⟨_, _, congrArg Kind.stmtKind? hw, rfl⟩
    | binding hw => exact ⟨_, _, congrArg Kind.stmtKind? hw, rfl⟩
    | returning hw => exact ⟨_, _, congrArg Kind.stmtKind? hw, rfl⟩
  · exact hm.tokens
  · exact Array.toList_inj.mp (hm.errors.trans (List.append_nil _))

theorem FailsStmt.goesOnAt (h : FailsStmt S a d b) (hS : S.Closed) (hp : p.tokens = S.drop a) :
    ∃ j, IsLeast {j | S.ResumesAt (b + 1) j} j ∧ GoesOnAt S p d j := by
  obtain ⟨q, he, hm⟩ := StmtReader.statement_of_fails h hp
  obtain ⟨c, hc, -⟩ := skips_synchronize q hm.tokens
  obtain ⟨f, -, -, hend⟩ := h.charge
  obtain ⟨j, hj, hcj⟩ := hc.exists_resumesAt hS hend
  have hr := h.round hc hp
  have ht : p.nextRound.tokens = S.drop j := hr.moves.tokens.trans hcj
  have hk : p.current.kind ≠ .eof := current_eq hp ▸ h.kind_ne_eof
  refine ⟨j, hj, ?_, ht, ?_⟩
  · rw [← Array.toList_inj, Array.toList_push]
    exact hr.moves.errors
  · rw [readStatements_eq_round hk, (kept?_of_error he).1]
    split
    · next hj =>
      rw [readStatements_of_eof (current_eq ht ▸ hj)]
      rfl
    · rfl

theorem sublist_readStatements (hS : S.Closed) (hp : p.tokens = S.drop a) :
    (p.readStatements.1.flatMap Stmt.tokens).Sublist (S.ahead.drop a) := by
  obtain ⟨turns, ht⟩ := exists_runs S a
  rw [(readStatements_of_runs ht hp).1]
  exact (ht.keeps hS).sublist

/-- The statements that come before a round at the token `a` and after it, where the next one is at
the token `j`, have no tokens between the two. -/
theorem Leads.sublist (h : Leads S 0 p n a front) (hg : GoesOnAt S (nextRound^[n] p) d j)
    (hS : S.Closed) : (p.readStatements.1.flatMap Stmt.tokens).Sublist
      (S.ahead.take a ++ S.ahead.drop j) := by
  obtain ⟨ts, hts, hfront⟩ := h.keeps
  obtain rfl : S.ahead.take a = ts := by
    rw [← List.append_left_inj (S.ahead.drop a), List.take_append_drop]
    exact hts
  have hback := sublist_readStatements hS hg.tokens
  have hn : (nextRound^[n] p).readStatements.1 = (nextRound^[n] p).nextRound.readStatements.1 := by
    rw [hg.statements]
    split
    · next hk => rw [readStatements_of_eof (current_eq hg.tokens ▸ hk)]
    · rfl
  rw [h.statements, hn, List.flatMap_append]
  exact hfront.append hback

theorem TokenStream.not_mem_of_sublist {us : List Token} (hn : S.ahead.Nodup)
    (hs : us.Sublist (S.ahead.take a ++ S.ahead.drop j)) (hi : i < S.ahead.length) (ha : a ≤ i)
    (hj : i < j) : S.get i ∉ us := by
  intro hm
  rw [get_of_lt hi] at hm
  rcases List.mem_append.mp (hs.mem hm) with hm | hm
  · obtain ⟨k, hk, he⟩ := List.mem_take_iff_getElem.mp hm
    have hki := hn.getElem_inj_iff.mp he
    omega
  · obtain ⟨k, hk, he⟩ := List.mem_drop_iff_getElem.mp hm
    have hki := hn.getElem_inj_iff.mp he
    omega

end

/-- A statement that fails leaves one diagnostic and no statement, and the loop over statements goes
on at the first token from the one to blame on where it can. No word that opens a statement is
skipped, and no token from the one where the statement starts to there is in the program. -/
theorem failure_resumes {source : String} {file : Option String} {n : Nat} {d : Diagnostic}
    {q : ParseState}
    (h : StmtReader.statement (nextRound^[n] (start (tokenize source file))) = .error d q) :
    (∀ k ≤ n, (nextRound^[k] (start (tokenize source file))).current.kind ≠ .eof) ∧
    ∃ a b j,
      FailsAt (tokenize source file) (nextRound^[n] (start (tokenize source file))) q d a b ∧
      IsLeast {j | (tokenize source file).ResumesAt b j} j ∧
      GoesOnAt (tokenize source file) (nextRound^[n] (start (tokenize source file))) d j ∧
      (∀ i, b ≤ i → i < j →
        ((tokenize source file).get i).kind ∉ [Kind.letWord, .returnWord]) ∧
      (parse source file).1.tokens.Sublist
        ((tokenize source file).ahead.take a ++ (tokenize source file).ahead.drop j) ∧
      (Text.size source.toList ≤ Position.maxOffset →
        d.BlamesOnly (tokenize source file) b ∧
        ∀ i, a ≤ i → i < j → ∀ s ∈ (parse source file).1.statements,
          (tokenize source file).get i ∉ s.tokens) := by
  have hS : (tokenize source file).Closed := Cursor.closed_tokens _
  have hp₀ : (start (tokenize source file)).tokens = (tokenize source file).drop 0 := rfl
  obtain ⟨a, -, hp, hl⟩ := exists_leads hS hp₀ n
  obtain ⟨b, hf, hm⟩ := FailsStmt.of_error h hp
  have hfails := hf.failsAt hp hm
  obtain ⟨j, hj, hg⟩ := hf.goesOnAt hS hp
  obtain ⟨front, hfront⟩ := hl hf.kind_ne_eof
  refine ⟨?_, a, b + 1, j, hfails, hj, hg, ?_, ?_, ?_⟩
  · intro k hkn
    rcases Nat.eq_or_lt_of_le hkn with rfl | hlt
    · rw [current_eq hp]
      exact hf.kind_ne_eof
    · exact hfront.goesOn k hlt
  · intro i hi hij hw
    exact Nat.not_le.mpr hij (hj.2 ⟨hi, .inl (List.mem_append_left [Kind.eof] hw)⟩)
  · exact hfront.sublist hg hS
  · intro hsize
    constructor
    · obtain ⟨f, rfl, -⟩ := hf.charge
      exact f.blamesOnly hsize hfails.inside
    · intro i ha hij s hs hm
      have hlen : j ≤ (tokenize source file).ahead.length :=
        hj.2 ⟨hfails.inside, .inl (by rw [hS.kind_eq_eof_iff.mpr (Nat.le_refl _)]; decide)⟩
      exact TokenStream.not_mem_of_sublist (nodup_tokenize hsize) (hfront.sublist hg hS)
        (Nat.lt_of_lt_of_le hij hlen) ha hij (List.mem_flatMap.mpr ⟨s, hs, hm⟩)

/-- A semicolon is in the way of the second statement. -/
theorem resumes_after_semicolon :
    ∃ d q, StmtReader.statement (nextRound^[1] (start (tokenize "1; let x; 2;" none))) =
        .error d q ∧
      ∃ a b j,
        FailsAt (tokenize "1; let x; 2;" none)
          (nextRound^[1] (start (tokenize "1; let x; 2;" none))) q d a b ∧
        IsLeast {j | (tokenize "1; let x; 2;" none).ResumesAt b j} j ∧
        GoesOnAt (tokenize "1; let x; 2;" none)
          (nextRound^[1] (start (tokenize "1; let x; 2;" none))) d j ∧
        (parse "1; let x; 2;" none).1.tokens.Sublist
          ((tokenize "1; let x; 2;" none).ahead.take a ++
            (tokenize "1; let x; 2;" none).ahead.drop j) := by
  have hr : Reads (tokenize "1; let x; 2;" none) .lowest 0 _ [] 0 :=
    .atom (by cbv) fun _ => by cbv
  have hs : ReadsStmt (tokenize "1; let x; 2;" none) 0 _ _ 1 :=
    .closed (by cbv) hr (.semicolon (by cbv)) (by cbv)
  have hf : FailsStmt (tokenize "1; let x; 2;" none) 2 _ 3 :=
    .sign (by cbv) (by cbv) (of_decide_eq_false (by cbv))
  have hp : (start (tokenize "1; let x; 2;" none)).tokens =
    (tokenize "1; let x; 2;" none).drop 0 := rfl
  obtain ⟨q, he, -⟩ := StmtReader.statement_of_fails hf (hs.round hp).moves.tokens
  obtain ⟨-, a, b, j, hfails, hj, hg, -, ht, -⟩ := failure_resumes (n := 1) he
  exact ⟨_, q, he, a, b, j, hfails, hj, hg, ht⟩

end ExprLang
