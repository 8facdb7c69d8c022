import ExprLang.Proofs.Balance

namespace ExprLang

/-- The words `let` and `return` open a statement. -/
def Token.isOpener (t : Token) : Bool := t.kind ∈ [Kind.letWord, .returnWord]

/-- The places from `a` on where a word opens a statement, or would. -/
def TokenStream.openers (S : TokenStream) (a : Nat) : List Nat :=
  (List.range' a (S.ahead.length - a)).filter fun i => (S.get i).isOpener

/-- An operand was looked for where a statement opens. -/
def Diagnostic.refusesOpener (d : Diagnostic) : Bool :=
  match d.problem with
  | .noOperand t => t.isOpener
  | _ => false

def Stmt.isOpened (s : Stmt) : Bool := s.kind ≠ .expression

/-- What becomes of a word that opens a statement: the statement is kept, it fails, or the word is
refused as an operand. -/
inductive Fate where
  | kept (stmt : Stmt)
  | failed (diagnostic : Diagnostic)
  | refused (diagnostic : Diagnostic)

namespace Fate

def kept? : Fate → Option Stmt
  | kept stmt => some stmt
  | _ => none

def failed? : Fate → Option Diagnostic
  | failed diagnostic => some diagnostic
  | _ => none

def refused? : Fate → Option Diagnostic
  | refused diagnostic => some diagnostic
  | _ => none

/-- What reading does at the token `i` of `S` for this to be its fate. -/
def IsOf (S : TokenStream) (i : Nat) : Fate → Prop
  | kept s => s.token = S.get i ∧
    ∀ p : ParseState, p.tokens = S.drop i → ∃ q, StmtReader.statement p = .ok s q
  | failed d =>
    ∀ p : ParseState, p.tokens = S.drop i → ∃ q, StmtReader.statement p = .error d q
  | refused d => d = .noOperand (S.get i)

end Fate

/-- From the token `a` of `S` up to the one before `b` the words that open a statement have the
fates `fs`, which are the statements `ss` and the diagnostics `ds` as far as they concern words. -/
structure Fates (S : TokenStream) (a b : Nat) (ss : List Stmt) (ds : List Diagnostic)
    (fs : List (Nat × Fate)) : Prop where
  openers : S.openers a = fs.map Prod.fst ++ S.openers b
  kept : fs.filterMap (fun f => f.2.kept?) = ss.filter Stmt.isOpened
  failed : fs.filterMap (fun f => f.2.failed?) = ds.filter Diagnostic.isFailure
  refused : fs.filterMap (fun f => f.2.refused?) = ds.filter Diagnostic.refusesOpener
  isOf : ∀ f ∈ fs, f.2.IsOf S f.1

theorem Token.isOpener_of_opening? {t : Token} (h : t.kind.opening? = some o) :
    t.isOpener = false := by
  simp only [isOpener]
  cases hk : t.kind <;> rw [hk] at h <;> first | rfl | cases h

theorem Token.isOpener_of_lt_power {t : Token} (h : m < t.kind.power) : t.isOpener = false := by
  have hi := Kind.isInfix_of_lt_power h
  simp only [isOpener]
  cases hk : t.kind <;> rw [hk] at hi <;> first | rfl | cases hi

theorem Token.isOpener_of_kind {t : Token} (h : t.kind = k) :
    t.isOpener = decide (k ∈ [Kind.letWord, .returnWord]) := by
  rw [isOpener, h]

namespace TokenStream

variable {S : TokenStream}

theorem openers_of_length_le (h : S.ahead.length ≤ a) : S.openers a = [] := by
  rw [openers, Nat.sub_eq_zero_of_le h]
  rfl

theorem openers_eq (S : TokenStream) (a : Nat) :
    S.openers a = if (S.get a).isOpener then a :: S.openers (a + 1) else S.openers (a + 1) := by
  rcases Nat.lt_or_ge a S.ahead.length with hlt | hle
  · rw [openers, show S.ahead.length - a = S.ahead.length - (a + 1) + 1 by omega,
      List.range'_succ, List.filter_cons]
    rfl
  · have hk : (S.get a).isOpener = false := by
      rw [Token.isOpener_of_kind (kind_of_drop_eq_nil (List.drop_eq_nil_of_le hle))]
      rfl
    rw [hk, openers_of_length_le hle, openers_of_length_le (Nat.le_succ_of_le hle)]
    rfl

theorem length_openers (S : TokenStream) :
    (S.openers 0).length = S.toList.countP Token.isOpener := by
  have he : S.ahead = (List.range S.ahead.length).map S.get := by
    apply List.ext_getElem
    · simp
    · intro i hi _
      simp [get_of_lt hi]
  rw [toList, List.countP_append, openers, Nat.sub_zero, ← List.range_eq_range',
    ← List.countP_eq_length_filter]
  conv => rhs; rw [he, List.countP_map]
  rfl

end TokenStream

namespace Fates

variable {S : TokenStream}

theorem append (h : Fates S a b ss ds fs) (h' : Fates S b c ss' ds' fs') :
    Fates S a c (ss ++ ss') (ds ++ ds') (fs ++ fs') := by
  constructor
  · rw [h.openers, h'.openers, List.map_append, List.append_assoc]
  · rw [List.filterMap_append, h.kept, h'.kept, List.filter_append]
  · rw [List.filterMap_append, h.failed, h'.failed, List.filter_append]
  · rw [List.filterMap_append, h.refused, h'.refused, List.filter_append]
  · exact List.forall_mem_append.mpr ⟨h.isOf, h'.isOf⟩

theorem nil (S : TokenStream) (a : Nat) : Fates S a a [] [] [] :=
  ⟨rfl, rfl, rfl, rfl, List.forall_mem_nil _⟩

theorem pass (ht : (S.get a).isOpener = false) : Fates S a (a + 1) [] [] [] := by
  refine ⟨?_, rfl, rfl, rfl, List.forall_mem_nil _⟩
  rw [S.openers_eq, ht]
  rfl

theorem meet (ht : (S.get a).isOpener = true) (f : Fate) :
    S.openers a = [(a, f)].map Prod.fst ++ S.openers (a + 1) := by
  rw [S.openers_eq, if_pos ht]
  rfl

theorem keep (ht : (S.get a).isOpener = true) (hs : s.isOpened = true)
    (hf : (Fate.kept s).IsOf S a) : Fates S a (a + 1) [s] [] [(a, .kept s)] := by
  refine ⟨meet ht _, ?_, rfl, rfl, List.forall_mem_singleton.mpr hf⟩
  rw [List.filter_cons_of_pos hs]
  rfl

theorem skip (S : TokenStream) (a : Nat) (t : Token) (e : Expr) :
    Fates S a a [.expression t e] [] [] :=
  ⟨rfl, rfl, rfl, rfl, List.forall_mem_nil _⟩

theorem record (hd : d.isFailure = false) (ho : d.refusesOpener = false) (a : Nat) :
    Fates S a a [] [d] [] := by
  refine ⟨rfl, rfl, ?_, ?_, List.forall_mem_nil _⟩
  · rw [List.filter_cons_of_neg (by rw [hd]; nofun)]
    rfl
  · rw [List.filter_cons_of_neg (by rw [ho]; nofun)]
    rfl

theorem refuse (S : TokenStream) (a : Nat) :
    ∃ fs, Fates S a (a + 1) [] [.noOperand (S.get a)] fs := by
  cases ht : (S.get a).isOpener with
  | false => exact ⟨[], (pass ht).append (record (d := .noOperand (S.get a)) rfl ht _)⟩
  | true =>
    have ho : (Diagnostic.noOperand (S.get a)).refusesOpener = true := ht
    refine ⟨[(a, .refused (.noOperand (S.get a)))], meet ht _, rfl, rfl, ?_,
      List.forall_mem_singleton.mpr rfl⟩
    rw [List.filter_cons_of_pos ho]
    rfl

theorem fail (ht : (S.get a).isOpener = true) (hd : d.isFailure = true)
    (hf : (Fate.failed d).IsOf S a) : Fates S a (a + 1) [] [d] [(a, .failed d)] := by
  refine ⟨meet ht _, rfl, ?_, ?_, List.forall_mem_singleton.mpr hf⟩
  · rw [List.filter_cons_of_pos hd]
    rfl
  · have ho : d.refusesOpener = false := by
      rcases d with ⟨problem, position⟩
      cases problem <;> first | rfl | cases hd
    rw [List.filter_cons_of_neg (by rw [ho]; nofun)]
    rfl

end Fates

/-- An expression meets no word that opens a statement but to refuse it. -/
theorem Reads.fates (h : Reads S m a e ds b) : ∃ fs, Fates S a (b + 1) [] ds fs := by
  induction h with
  | @refused a => exact Fates.refuse S a
  | tooLarge hi =>
    exact ⟨_, (Fates.pass (Token.isOpener_of_kind hi)).append (.record rfl rfl _)⟩
  | atom ho => exact ⟨_, .pass (Token.isOpener_of_opening? ho)⟩
  | unary ho _ ih =>
    obtain ⟨fs, hf⟩ := ih
    exact ⟨_, (Fates.pass (Token.isOpener_of_opening? ho)).append hf⟩
  | group ho _ hk ih =>
    obtain ⟨fs, hf⟩ := ih
    exact ⟨_, ((Fates.pass (Token.isOpener_of_opening? ho)).append hf).append
      (.pass (Token.isOpener_of_kind hk))⟩
  | unclosed ho _ _ _ ih =>
    obtain ⟨fs, hf⟩ := ih
    exact ⟨_, ((Fates.pass (Token.isOpener_of_opening? ho)).append hf).append (.record rfl rfl _)⟩
  | broken ho _ _ _ ih =>
    obtain ⟨fs, hf⟩ := ih
    exact ⟨_, (Fates.pass (Token.isOpener_of_opening? ho)).append hf⟩
  | binary _ _ hlt _ _ ihl ihr =>
    obtain ⟨fs, hf⟩ := ihl
    obtain ⟨fs', hf'⟩ := ihr
    exact ⟨_, hf.append ((Fates.pass (Token.isOpener_of_lt_power hlt)).append hf')⟩

/-- Skipping stops short of a word that opens a statement. -/
theorem Skips.fates (h : Skips S b c) : Fates S (b + 1) (c + 1) [] [] [] := by
  induction h with
  | stop => exact .nil S _
  | step _ hn _ ih => exact (Fates.pass (decide_eq_false hn)).append ih

theorem ReadsValue.fates (h : ReadsValue S a e ds b) : ∃ fs, Fates S a (b + 1) [] ds fs := by
  cases h with
  | ended hr hk =>
    obtain ⟨fs, hf⟩ := hr.fates
    exact ⟨_, hf.append (.pass (Token.isOpener_of_kind hk))⟩
  | skipped hr _ _ hc =>
    obtain ⟨fs, hf⟩ := hr.fates
    have ha := hf.append hc.fates
    rw [List.append_nil ds] at ha
    exact ⟨_, ha⟩

theorem ReadsStmt.isOf_kept {S : TokenStream} (h : ReadsStmt S a s ds b) :
    (Fate.kept s).IsOf S a := by
  refine ⟨h.token_eq, ?_⟩
  intro p hp
  obtain ⟨q, he, -⟩ := StmtReader.statement_of_reads h hp
  exact ⟨q, he⟩

theorem FailsStmt.isOf_failed {S : TokenStream} (h : FailsStmt S a d b) :
    (Fate.failed d).IsOf S a := by
  intro p hp
  obtain ⟨q, he, -⟩ := StmtReader.statement_of_fails h hp
  exact ⟨q, he⟩

/-- A statement keeps the word that opens it and refuses the others. -/
theorem ReadsStmt.fates (h : ReadsStmt S a s ds b) : ∃ fs, Fates S a (b + 1) [s] ds fs := by
  have hs := h.isOf_kept
  cases h with
  | binding hw hn ha hv =>
    obtain ⟨fs, hf⟩ := hv.fates
    have hk := Fates.keep (Token.isOpener_of_kind hw) rfl hs
    exact ⟨_, hk.append ((Fates.pass (Token.isOpener_of_kind hn)).append
      ((Fates.pass (Token.isOpener_of_kind ha)).append hf))⟩
  | returning hw _ hv =>
    obtain ⟨fs, hf⟩ := hv.fates
    exact ⟨_, (Fates.keep (Token.isOpener_of_kind hw) rfl hs).append hf⟩
  | returningNothing hw hn =>
    exact ⟨_, (Fates.keep (Token.isOpener_of_kind hw) rfl hs).append
      (.pass (Token.isOpener_of_kind hn))⟩
  | closed _ hr _ hk =>
    obtain ⟨fs, hf⟩ := hr.fates
    have hv := hf.append (.pass (Token.isOpener_of_kind hk))
    rw [List.append_nil ds] at hv
    exact ⟨_, (Fates.skip S a _ _).append hv⟩
  | bare _ hr =>
    obtain ⟨fs, hf⟩ := hr.fates
    exact ⟨_, (Fates.skip S a _ _).append hf⟩

/-- A statement that fails leaves no word behind but the one that opens it. -/
theorem FailsStmt.fates {S : TokenStream} (h : FailsStmt S a d b) :
    ∃ fs, Fates S a (b + 1) [] [d] fs := by
  have hd := h.isFailure
  have hf := h.isOf_failed
  cases h with
  | name hw => exact ⟨_, .fail (Token.isOpener_of_kind hw) hd hf⟩
  | sign hw hn =>
    exact ⟨_, (Fates.fail (Token.isOpener_of_kind hw) hd hf).append
      (.pass (Token.isOpener_of_kind hn))⟩
  | binding hw hn ha hv =>
    obtain ⟨fs, hv⟩ := hv.reads.fates
    exact ⟨_, (Fates.fail (Token.isOpener_of_kind hw) hd hf).append
      ((Fates.pass (Token.isOpener_of_kind hn)).append
        ((Fates.pass (Token.isOpener_of_kind ha)).append hv))⟩
  | returning hw _ hv =>
    obtain ⟨fs, hv⟩ := hv.reads.fates
    exact ⟨_, (Fates.fail (Token.isOpener_of_kind hw) hd hf).append hv⟩

theorem Runs.fates (h : Runs S a turns) (hS : S.Closed) :
    ∃ fs, Fates S a S.ahead.length (turns.filterMap Turn.stmt?)
      (turns.flatMap Turn.diagnostics) fs := by
  induction h with
  | stop hk =>
    refine ⟨[], ?_, rfl, rfl, rfl, List.forall_mem_nil _⟩
    rw [TokenStream.openers_of_length_le (hS.kind_eq_eof_iff.mp hk),
      TokenStream.openers_of_length_le (Nat.le_refl _)]
    rfl
  | keep _ hr _ ih =>
    obtain ⟨fs, hf⟩ := hr.fates
    obtain ⟨fs', hf'⟩ := ih
    exact ⟨_, hf.append hf'⟩
  | drop _ hd hc _ ih =>
    obtain ⟨fs, hf⟩ := hd.fates
    obtain ⟨fs', hf'⟩ := ih
    exact ⟨_, hf.append (hc.fates.append hf')⟩

theorem length_fates (fs : List (Nat × Fate)) :
    fs.length = (fs.filterMap fun f => f.2.kept?).length +
      (fs.filterMap fun f => f.2.failed?).length + (fs.filterMap fun f => f.2.refused?).length := by
  induction fs with
  | nil => rfl
  | cons f fs ih =>
    obtain ⟨i, f⟩ := f
    cases f <;> simp [Fate.kept?, Fate.failed?, Fate.refused?, ih] <;> omega

/-- Every word that opens a statement has one fate: a statement of the program starts with it, its
statement fails, or it is refused as an operand. In the order of the text these are the statements
with a word, the failures, and the words that the diagnostics refuse, each once. -/
theorem opener_fates (source : String) (file : Option String) :
    (tokenize source file).toList.countP Token.isOpener =
        (parse source file).1.statements.countP Stmt.isOpened +
          (parse source file).2.errors.countP Diagnostic.isFailure +
          (parse source file).2.errors.countP Diagnostic.refusesOpener ∧
      ∃ fs : List (Nat × Fate),
        fs.map Prod.fst = (tokenize source file).openers 0 ∧
        fs.filterMap (fun f => f.2.kept?) =
          (parse source file).1.statements.filter Stmt.isOpened ∧
        fs.filterMap (fun f => f.2.failed?) =
          (parse source file).2.errors.toList.filter Diagnostic.isFailure ∧
        fs.filterMap (fun f => f.2.refused?) =
          (parse source file).2.errors.toList.filter Diagnostic.refusesOpener ∧
        ∀ f ∈ fs, f.2.IsOf (tokenize source file) f.1 := by
  obtain ⟨turns, ht⟩ := exists_runs (tokenize source file) 0
  obtain ⟨fs, hf⟩ := ht.fates (Cursor.closed_tokens _)
  obtain ⟨hs, he⟩ := parse_of_runs ht
  rw [← hs, ← he] at hf
  have ho : fs.map Prod.fst = (tokenize source file).openers 0 := by
    rw [hf.openers, TokenStream.openers_of_length_le (Nat.le_refl _), List.append_nil]
  refine ⟨?_, fs, ho, hf.kept, hf.failed, hf.refused, hf.isOf⟩
  rw [← TokenStream.length_openers, ← ho, List.length_map, length_fates, hf.kept, hf.failed,
    hf.refused, List.countP_eq_length_filter, ← Array.countP_toList, ← Array.countP_toList,
    List.countP_eq_length_filter, List.countP_eq_length_filter]

end ExprLang
