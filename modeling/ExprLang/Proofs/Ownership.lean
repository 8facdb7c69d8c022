import ExprLang.Proofs.Acceptance

namespace ExprLang

/-- The tokens that a text without problems leaves in its program. -/
def Token.isOwned (t : Token) : Bool :=
  t.kind ∉ [Kind.openParen, .closeParen, .semicolon, .assign, .eof]

theorem Token.isOwned_of_opening? {t : Token} (h : t.kind.opening? = some o) (ho : o ≠ .group) :
    t.isOwned = true := by
  simp only [isOwned]
  cases hk : t.kind <;> rw [hk] at h <;> cases h <;> first | rfl | exact absurd rfl ho

theorem Token.isOwned_of_isInfix {t : Token} (h : t.kind.isInfix = true) : t.isOwned = true := by
  simp only [isOwned]
  cases hk : t.kind <;> rw [hk] at h <;> first | rfl | cases h

theorem Token.isOwned_of_kind {t : Token} (h : t.kind = k) :
    t.isOwned = decide (k ∉ [Kind.openParen, .closeParen, .semicolon, .assign, .eof]) := by
  rw [isOwned, h]

/-- Of the tokens `ts` those in `us` are kept, in their order; where nothing is on record these are
all that can be. -/
structure Keeps (ds : List Diagnostic) (ts us : List Token) : Prop where
  sublist : us.Sublist ts
  filter : ds = [] → us = ts.filter Token.isOwned

namespace Keeps

theorem nil (ds : List Diagnostic) : Keeps ds [] [] := ⟨.slnil, fun _ => rfl⟩

theorem append (h : Keeps ds ts us) (h' : Keeps ds' ts' us') :
    Keeps (ds ++ ds') (ts ++ ts') (us ++ us') := by
  refine ⟨h.sublist.append h'.sublist, ?_⟩
  intro hd
  obtain ⟨hd, hd'⟩ := List.append_eq_nil_iff.mp hd
  rw [h.filter hd, h'.filter hd', List.filter_append]

theorem own (h : Keeps ds ts us) (ht : t.isOwned = true) : Keeps ds (t :: ts) (t :: us) := by
  refine ⟨h.sublist.cons_cons t, ?_⟩
  intro hd
  rw [List.filter_cons_of_pos ht, ← h.filter hd]

theorem pass (h : Keeps ds ts us) (ht : t.isOwned = false) : Keeps ds (t :: ts) us := by
  refine ⟨h.sublist.cons t, ?_⟩
  intro hd
  rw [List.filter_cons_of_neg (by rw [ht]; nofun), ← h.filter hd]

theorem passLast (h : Keeps ds ts us) (ht : t.isOwned = false) : Keeps ds (ts ++ [t]) us := by
  simpa only [List.append_nil] using h.append ((Keeps.nil []).pass ht)

theorem of_problem (hd : ds ≠ []) (h : us.Sublist ts) : Keeps ds ts us :=
  ⟨h, fun he => absurd he hd⟩

theorem more (h : Keeps ds ts us) (hd : ds ≠ []) (ts' : List Token) : Keeps ds (ts ++ ts') us :=
  .of_problem hd (h.sublist.trans (List.sublist_append_left ts ts'))

end Keeps

theorem Covers.exists_of_le (S : TokenStream) (h : a ≤ b) : ∃ ts, Covers S a b ts := by
  refine ⟨(S.ahead.drop a).take (b - a), ?_⟩
  rw [Covers, show b = a + (b - a) by omega, ← List.drop_drop, Nat.add_sub_cancel_left,
    List.take_append_drop]

/-- An expression keeps tokens from where it was read, each once and in the order of the text. -/
theorem Reads.keeps (h : Reads S m a e ds b) :
    ∃ ts, Covers S a (b + 1) ts ∧ Keeps ds ts e.tokens := by
  induction h with
  | @refused a =>
    obtain ⟨ts, hc⟩ := Covers.exists_of_le S (Nat.le_succ a)
    exact ⟨ts, hc, .of_problem (List.cons_ne_nil _ _) (List.nil_sublist ts)⟩
  | @tooLarge a =>
    obtain ⟨ts, hc⟩ := Covers.exists_of_le S (Nat.le_succ a)
    exact ⟨ts, hc, .of_problem (List.cons_ne_nil _ _) (List.nil_sublist ts)⟩
  | atom ho =>
    rw [Grammar.Surface.tokens_expr_atom]
    exact ⟨_, .single (Kind.ne_eof_of_opening? ho),
      (Keeps.nil []).own (Token.isOwned_of_opening? ho nofun)⟩
  | unary ho _ ih =>
    obtain ⟨ts, hc, hk⟩ := ih
    exact ⟨_, hc.cons (Kind.ne_eof_of_opening? ho), hk.own (Token.isOwned_of_opening? ho nofun)⟩
  | group ho _ hp ih =>
    obtain ⟨ts, hc, hk⟩ := ih
    have hne := Kind.ne_eof_of_opening? ho
    refine ⟨_, (hc.concat (hp ▸ nofun)).cons hne, (hk.passLast ?_).pass ?_⟩
    · exact Token.isOwned_of_kind hp
    · exact Token.isOwned_of_kind (Kind.eq_openParen ho)
  | @unclosed a e b _ _ hr =>
    obtain ⟨ts, hc⟩ := Covers.exists_of_le S (Nat.le_succ_of_le (Nat.le_of_succ_le hr.le))
    exact ⟨ts, hc, .of_problem (List.cons_ne_nil _ _) (List.nil_sublist ts)⟩
  | broken ho _ _ _ ih =>
    obtain ⟨ts, hc, hk⟩ := ih
    exact ⟨_, hc.cons (Kind.ne_eof_of_opening? ho),
      hk.pass (Token.isOwned_of_kind (Kind.eq_openParen ho))⟩
  | binary _ _ hlt _ _ ihl ihr =>
    obtain ⟨ts, hc, hk⟩ := ihl
    obtain ⟨us, hc', hk'⟩ := ihr
    have hi := Kind.isInfix_of_lt_power hlt
    exact ⟨_, hc.trans (hc'.cons (Kind.ne_eof_of_isInfix hi)),
      hk.append (hk'.own (Token.isOwned_of_isInfix hi))⟩

theorem ReadsValue.keeps (h : ReadsValue S a e ds b) :
    ∃ ts, Covers S a (b + 1) ts ∧ Keeps ds ts e.tokens := by
  cases h with
  | ended hr hk =>
    obtain ⟨ts, hc, hkeeps⟩ := hr.keeps
    exact ⟨_, hc.concat (hk ▸ nofun), hkeeps.passLast (Token.isOwned_of_kind hk)⟩
  | skipped hr _ hd hs =>
    obtain ⟨ts, hc, hkeeps⟩ := hr.keeps
    obtain ⟨us, hc'⟩ := Covers.exists_of_le S (Nat.succ_le_succ hs.le)
    exact ⟨_, hc.trans hc', hkeeps.more hd us⟩

theorem ReadsStmt.keeps (h : ReadsStmt S a s ds b) :
    ∃ ts, Covers S a (b + 1) ts ∧ Keeps ds ts s.tokens := by
  cases h with
  | binding hw hn ha hv =>
    obtain ⟨ts, hc, hk⟩ := hv.keeps
    refine ⟨_, ((hc.cons (ha ▸ nofun)).cons (hn ▸ nofun)).cons (hw ▸ nofun), ?_⟩
    exact ((hk.pass (Token.isOwned_of_kind ha)).own (Token.isOwned_of_kind hn)).own
      (Token.isOwned_of_kind hw)
  | returning hw _ hv =>
    obtain ⟨ts, hc, hk⟩ := hv.keeps
    exact ⟨_, hc.cons (hw ▸ nofun), hk.own (Token.isOwned_of_kind hw)⟩
  | returningNothing hw hk =>
    exact ⟨_, (Covers.single (hk ▸ nofun)).cons (hw ▸ nofun),
      ((Keeps.nil []).pass (Token.isOwned_of_kind hk)).own (Token.isOwned_of_kind hw)⟩
  | closed _ hr _ hk =>
    obtain ⟨ts, hc, hkeeps⟩ := hr.keeps
    exact ⟨_, hc.concat (hk ▸ nofun), hkeeps.passLast (Token.isOwned_of_kind hk)⟩
  | bare _ hr => exact hr.keeps

/-- A run keeps tokens from where it starts on, a statement that is dropped none of its own. -/
theorem Runs.keeps (h : Runs S a turns) (hS : S.Closed) :
    Keeps (turns.flatMap Turn.diagnostics) (S.ahead.drop a)
      ((turns.filterMap Turn.stmt?).flatMap Stmt.tokens) := by
  induction h with
  | stop hk =>
    rw [List.drop_eq_nil_of_le (hS.kind_eq_eof_iff.mp hk)]
    exact .nil []
  | keep _ hr _ ih =>
    obtain ⟨ts, hc, hk⟩ := hr.keeps
    rw [hc]
    exact hk.append ih
  | @drop a d b c turns _ hf hc _ ih =>
    have hle : a ≤ c + 1 := Nat.le_succ_of_le (Nat.le_trans hf.le hc.le)
    obtain ⟨ts, ht⟩ := Covers.exists_of_le S hle
    rw [ht]
    exact .of_problem (List.cons_ne_nil _ _)
      (ih.sublist.trans (List.sublist_append_right ts _))

/-- The tokens that a program owns are tokens of its text, each once and in the order of the text.
Where nothing is on record they are all of them but parentheses, semicolons and equals signs. -/
theorem tokens_sublist_tokenize (source : String) (file : Option String) :
    (parse source file).1.tokens.Sublist (tokenize source file).toList ∧
      ((parse source file).2.errors = #[] →
        (parse source file).1.tokens = (tokenize source file).toList.filter fun t =>
          t.kind ∉ [Kind.openParen, .closeParen, .semicolon, .assign, .eof]) := by
  obtain ⟨turns, ht⟩ := exists_runs (tokenize source file) 0
  obtain ⟨hs, he⟩ := parse_of_runs ht
  have hk := (ht.keeps (Cursor.closed_tokens _)).passLast
    (Token.isOwned_of_kind (Token.kind_eof (tokenize source file).stop))
  rw [Program.tokens, hs]
  refine ⟨hk.sublist, fun hn => hk.filter ?_⟩
  rw [← he, hn]

end ExprLang
