import ExprLang.Proofs.Acceptance

namespace ExprLang

open Grammar

/-- The first operand is an integer out of range, and an operator that is no sign comes next. -/
def BreaksOff : List Token → Prop
  | t :: op :: _ => ¬ t.InRange ∧ op.kind.isInfix = true ∧ op.kind ≠ .minus
  | _ => False

/-- The reader loses its way in an expression statement with these tokens. -/
def Derails (ts : List Token) : Prop := Buried 0 ts ∨ BreaksOff ts

theorem Token.isFlat_of_not_inRange {t : Token} (h : ¬ t.InRange) : t.kind.IsFlat := by
  rw [Token.integer_of_not_inRange h]
  exact ⟨nofun, nofun⟩

theorem Reads.of_not_inRange {S : TokenStream} (h : Reads S m a e ds b)
    (hn : ¬ (S.get a).InRange) : e = .missing ∧ b = a := by
  have ha := ParseState.opening?_eq_atom_of_integer (Token.integer_of_not_inRange hn)
  induction h with
  | refused => exact ⟨rfl, rfl⟩
  | tooLarge => exact ⟨rfl, rfl⟩
  | atom _ hr => exact absurd hr hn
  | unary ho => cases ha.symm.trans ho
  | group ho => cases ha.symm.trans ho
  | unclosed ho => cases ha.symm.trans ho
  | broken ho => cases ha.symm.trans ho
  | binary _ hl _ _ _ ih =>
    rw [(ih hn ha).1] at hl
    cases hl

theorem Reads.of_refused {S : TokenStream} (h : Reads S m a e ds b)
    (hn : (S.get a).kind.opening? = none) : e = .missing ∧ ds = [.noOperand (S.get a)] := by
  induction h with
  | refused => exact ⟨rfl, rfl⟩
  | tooLarge hi =>
    rw [hi] at hn
    cases hn
  | atom ho => cases hn.symm.trans ho
  | unary ho => cases hn.symm.trans ho
  | group ho => cases hn.symm.trans ho
  | unclosed ho => cases hn.symm.trans ho
  | broken ho => cases hn.symm.trans ho
  | binary _ hl _ _ _ ih =>
    rw [(ih hn).1] at hl
    cases hl

theorem Diagnostic.not_isOverflow_noOperand (t : Token) : ¬ (noOperand t).IsOverflow := by
  rintro ⟨text, h⟩
  cases h

/-- From the token `a` on the reader comes to a token that it can do nothing with: an operator that
is no sign, or a closing parenthesis after some more operators with their operands. -/
inductive Lost (fits : Token → Prop) (S : TokenStream) (a : Nat) : Prop where
  | operator : (S.get a).kind.isInfix = true → (S.get a).kind ≠ .minus → Lost fits S a
  | closing : IsTail fits back → closing.kind = .closeParen →
      S.ahead.drop a = back ++ closing :: rest → Lost fits S a

namespace Lost

variable {fits : Token → Prop} {S : TokenStream}

theorem kind (h : Lost fits S a) :
    (S.get a).kind.isInfix = true ∨ (S.get a).kind = .closeParen := by
  cases h with
  | operator hi => exact .inl hi
  | closing ht hc hd =>
    cases ht with
    | nil =>
      rw [(TokenStream.get_of_drop_eq_cons hd).1]
      exact .inr hc
    | cons ho =>
      rw [(TokenStream.get_of_drop_eq_cons hd).1]
      exact .inl ho

theorem opens_no_statement (h : Lost fits S a) :
    (S.get a).kind ≠ .eof ∧ (S.get a).kind ≠ .semicolon ∧ (S.get a).kind.stmtKind? = none := by
  rcases h.kind with hi | hc
  · generalize (S.get a).kind = k at hi
    cases k <;> first | (cases hi; done) | exact ⟨nofun, nofun, rfl⟩
  · rw [hc]
    exact ⟨nofun, nofun, rfl⟩

/-- Either the token is refused at once, or it is a minus that the grammar has as a sign too. -/
theorem refused_or_sign (h : Lost fits S a) :
    (S.get a).kind.opening? = none ∨ ∃ u tail closing rest, IsOperand fits u ∧
      IsTail fits tail ∧ closing.kind = .closeParen ∧
      S.ahead.drop a = u ++ (tail ++ closing :: rest) := by
  have hrefuse {k : Kind} (hi : k.isInfix = true) (hm : k ≠ .minus) : k.opening? = none := by
    cases k <;> first | rfl | exact absurd rfl hm | cases hi
  cases h with
  | operator hi hm => exact .inl (hrefuse hi hm)
  | @closing back closing rest ht hc hd =>
    cases ht with
    | nil =>
      rw [(TokenStream.get_of_drop_eq_cons hd).1, hc]
      exact .inl rfl
    | cons ho hu ht =>
      obtain rfl := (TokenStream.get_of_drop_eq_cons hd).1
      by_cases hm : (S.get a).kind = .minus
      · refine .inr ⟨_, _, closing, rest, .operator (by rw [hm]; rfl) hu, ht, hc, ?_⟩
        rw [hd, List.cons_append, List.cons_append, List.append_assoc]
      · exact .inl (hrefuse ho hm)

end Lost

theorem Reaches.lost (h : Reaches fits S a e ds b ts (closing :: rest))
    (hc : closing.kind = .closeParen) : Lost fits S (b + 1) := by
  cases h with
  | aligned _ _ hl => exact .closing hl.tail hc hl.drop
  | stuck _ hs => exact .closing hs.tail hs.closes hs.drop

/-- A run that comes to such a token reports it. -/
theorem Runs.reports_lost {S : TokenStream} (h : Runs S a turns) (hl : Lost fits S a) :
    ∃ d ∈ turns.flatMap Turn.diagnostics, ¬ d.IsOverflow := by
  induction h with
  | stop hk => exact absurd hk hl.opens_no_statement.1
  | @keep a s ds b turns _ hr _ ih =>
    obtain ⟨-, -, ho⟩ := hl.opens_no_statement
    obtain ⟨e, c, rfl, hr, hs, hc⟩ := hr.of_none ho
    rcases hl.refused_or_sign with hn | ⟨u, tail, closing, rest, hu, ht, hclose, hd⟩
    · rw [(hr.of_refused hn).2]
      exact ⟨_, List.mem_cons_self, Diagnostic.not_isOverflow_noOperand _⟩
    · have hl := (hr.reaches hu ht hd (Ends.closeParen hclose _)).2.lost hclose
      obtain ⟨-, rfl⟩ := hc.resolve_left fun hk => hl.opens_no_statement.2.1 hk.1
      obtain ⟨d, hd, hn⟩ := ih hl
      exact ⟨d, List.mem_append_right ds hd, hn⟩
  | drop _ hf =>
    have ho := Kind.ne_of_stmtKind?_eq_none hl.opens_no_statement.2.2
    exact absurd hf.opens (not_or.mpr ho)

theorem Reaches.exists_left (h : Reaches fits S a e ds b ts rest) :
    ∃ left, S.ahead.drop (b + 1) = left ++ rest := by
  cases h with
  | aligned _ _ hl => exact ⟨_, hl.drop⟩
  | @stuck back closing more hs =>
    refine ⟨back ++ closing :: more, ?_⟩
    rw [hs.drop, List.append_assoc, List.cons_append]

/-- The kinds that skipping stops at or does not pass. -/
def Kind.IsStop (k : Kind) : Prop := k ∈ [semicolon, eof] ∨ k ∈ [letWord, returnWord]

theorem Grammar.IsExpression.not_isStop (h : IsExpression fits ts) :
    ∀ t ∈ ts, ¬ t.kind.IsStop := by
  have hstop {k : Kind} (hk : k.IsStop) :
      k.opening? = none ∧ k.isInfix = false ∧ k ≠ .closeParen := by
    simp only [Kind.IsStop, List.mem_cons, List.not_mem_nil, or_false] at hk
    rcases hk with (rfl | rfl) | rfl | rfl <;> exact ⟨rfl, rfl, nofun⟩
  refine h.forall_mem ?_ ?_ ?_
  · intro t ho _ hk
    exact ho (hstop hk).1
  · intro t hi hk
    cases hi.symm.trans (hstop hk).2.1
  · intro t hc hk
    exact (hstop hk).2.2 hc

/-- Skipping comes to the next semicolon if no word that opens a statement stands before it. -/
theorem Skips.to_semicolon {S : TokenStream} (h : Skips S b c)
    (hd : S.ahead.drop b = us ++ semicolon :: rest) (hk : semicolon.kind = .semicolon)
    (hu : ∀ t ∈ us, ¬ t.kind.IsStop) : S.ahead.drop (c + 1) = rest := by
  induction h generalizing us with
  | stop hs =>
    cases us with
    | nil => exact (TokenStream.get_of_drop_eq_cons hd).2
    | cons t us =>
      obtain ⟨he, hd⟩ := TokenStream.get_of_drop_eq_cons hd
      obtain ⟨ht, hu⟩ := List.forall_mem_cons.mp hu
      rw [he] at hs
      rcases hs with hs | hs
      · exact absurd (.inl hs) ht
      · cases us with
        | nil =>
          rw [(TokenStream.get_of_drop_eq_cons hd).1, hk] at hs
          exact absurd hs (by decide)
        | cons t' us =>
          rw [(TokenStream.get_of_drop_eq_cons hd).1] at hs
          exact absurd (.inr hs) (hu t' List.mem_cons_self)
  | step hc _ _ ih =>
    cases us with
    | nil =>
      rw [(TokenStream.get_of_drop_eq_cons hd).1, hk] at hc
      exact absurd List.mem_cons_self hc
    | cons t us => exact ih (TokenStream.get_of_drop_eq_cons hd).2 (List.forall_mem_cons.mp hu).2

theorem Reads.skips_to_semicolon {S : TokenStream} (h : Reads S .lowest a e ds b)
    (hc : Skips S b c) (he : IsExpression fits ts) (hk : semicolon.kind = .semicolon)
    (hd : S.ahead.drop a = ts ++ semicolon :: rest) : S.ahead.drop (c + 1) = rest := by
  obtain ⟨left, hl⟩ := (h.reaches_expression he hd (.semicolon hk _)).2.exists_left
  have hlt : b < S.ahead.length := by
    have hlen := congrArg List.length hl
    simp only [List.length_drop, List.length_append, List.length_cons] at hlen
    omega
  have hb : S.ahead.drop b = (S.get b :: left) ++ semicolon :: rest := by
    rw [TokenStream.drop_eq_cons_of_lt hlt, hl, List.cons_append]
  refine hc.to_semicolon hb hk fun t ht => he.not_isStop t ?_
  obtain ⟨front, hf⟩ := List.drop_suffix_drop_left S.ahead h.le
  rw [hb, hd, ← List.append_assoc] at hf
  rw [← List.append_cancel_right hf]
  exact List.mem_append_right front ht

/-- An integer out of range costs the value of a statement, but not what comes after the
statement. -/
theorem ReadsValue.overflows {S : TokenStream} (h : ReadsValue S a e ds b)
    (he : IsExpression fits ts) (hk : semicolon.kind = .semicolon)
    (hd : S.ahead.drop a = ts ++ semicolon :: rest) :
    (∀ d ∈ ds, d.IsOverflow) ∧ S.ahead.drop (b + 1) = rest := by
  cases h with
  | ended hr hk' =>
    have hreach := (hr.reaches_expression he hd (.semicolon hk _)).2
    have hd := (hreach.of_nil (by rw [hk']; rfl)).1
    exact ⟨List.forall_mem_nil _, (TokenStream.get_of_drop_eq_cons hd).2⟩
  | skipped hr _ _ hc =>
    exact ⟨(hr.reaches_expression he hd (.semicolon hk _)).1, hr.skips_to_semicolon hc he hk hd⟩

theorem not_breaksOff_of_inRange {ts : List Token} (h : t.InRange) : ¬ BreaksOff (t :: ts) := by
  cases ts with
  | nil => exact id
  | cons op ts => exact fun hb => hb.1 h

theorem derails_cons_minus {t op : Token} (ht : ¬ t.InRange) (hm : op.kind = .minus)
    (ts : List Token) : Derails (t :: op :: ts) ↔ Derails (op :: ts) := by
  have hin : op.InRange := Token.inRange_of_ne (hm ▸ nofun)
  have hn : ¬ BreaksOff (t :: op :: ts) := fun hb => hb.2.2 hm
  rw [Derails, Derails, buried_zero_cons (Token.isFlat_of_not_inRange ht), or_iff_left hn,
    or_iff_left (not_breaksOff_of_inRange hin)]

theorem derails_append_minus {left right : List Token} (hl : IsExpression fits left)
    (hm : right.head?.map Token.kind = some .minus) :
    Derails (left ++ right) ↔ Derails left ∨ Derails right := by
  obtain ⟨t, left, rfl, -⟩ := hl.begins
  cases right with
  | nil => cases hm
  | cons op right =>
    have hm : op.kind = .minus := Option.some.inj hm
    have hb : BreaksOff (t :: left ++ op :: right) ↔ BreaksOff (t :: left) := by
      cases left with
      | nil => exact iff_of_false (fun hb => hb.2.2 hm) id
      | cons => exact Iff.rfl
    have hn : ¬ BreaksOff (op :: right) :=
      not_breaksOff_of_inRange (Token.inRange_of_ne (hm ▸ nofun))
    rw [Derails, Derails, Derails, hl.nested.append, hb, or_iff_left hn, or_right_comm]

theorem derails_semicolon {semicolon : Token} {ts : List Token} (h : IsExpression fits ts)
    (hk : semicolon.kind = .semicolon) : Derails (ts ++ [semicolon]) ↔ Derails ts := by
  have hb : ¬ Buried 0 [semicolon] := by simp [Buried]
  obtain ⟨t, ts, rfl, -⟩ := h.begins
  have hb' : BreaksOff (t :: ts ++ [semicolon]) ↔ BreaksOff (t :: ts) := by
    cases ts with
    | nil =>
      refine iff_of_false ?_ id
      rintro ⟨-, hi, -⟩
      rw [hk] at hi
      cases hi
    | cons => exact Iff.rfl
  rw [Derails, Derails, h.nested.append, or_iff_left hb, hb']

/-- How reading ends in an expression of the grammar that stands as a statement with `rest` after
it. Where it breaks off before a minus, the minus and what follows is an expression again. -/
inductive Leaves (fits : Token → Prop) (S : TokenStream) (b : Nat) (ts rest : List Token) : Prop
    where
  | done : S.ahead.drop (b + 1) = rest → ¬ Derails ts → Leaves fits S b ts rest
  | sign : IsExpression fits back → (S.get (b + 1)).kind = .minus →
      S.ahead.drop (b + 1) = back ++ rest → (Derails ts ↔ Derails back) → Leaves fits S b ts rest
  | lost : Lost fits S (b + 1) → Derails ts → Leaves fits S b ts rest

theorem Reads.leaves {S : TokenStream} {ts rest : List Token} (h : Reads S .lowest a e ds b)
    (hs : Stops S .lowest e b) (he : IsExpression fits ts) (hd : S.ahead.drop a = ts ++ rest)
    (hr : Ends rest) : (∀ d ∈ ds, d.IsOverflow) ∧ Leaves fits S b ts rest := by
  obtain ⟨hall, hreach⟩ := h.reaches_expression he hd hr
  refine ⟨hall, ?_⟩
  cases hreach with
  | stuck _ hstuck =>
    exact .lost (.closing hstuck.tail hstuck.closes hstuck.drop) (.inl hstuck.buried)
  | aligned used hts hl =>
    by_cases hin : (S.get a).InRange
    · obtain rfl := hl.tail.eq_nil hl.drop (hs.isInfix (hl.present hin))
      obtain rfl := hts.trans (List.append_nil used)
      refine .done hl.drop (not_or.mpr ⟨hl.shallow, ?_⟩)
      obtain ⟨t, ts, rfl, -⟩ := he.begins
      rw [(TokenStream.get_of_drop_eq_cons hd).1] at hin
      exact not_breaksOff_of_inRange hin
    · obtain ⟨-, rfl⟩ := h.of_not_inRange hin
      have hne : (S.get b).kind ≠ .eof := by
        rw [Token.integer_of_not_inRange hin]
        nofun
      rw [TokenStream.drop_eq_cons hne, hl.drop, ← List.cons_append] at hd
      obtain rfl := List.append_cancel_right hd
      have ht := hl.tail
      have hb := hl.drop
      cases ht with
      | nil =>
        refine .done hb (not_or.mpr ⟨?_, id⟩)
        rw [buried_zero_cons (Token.isFlat_of_not_inRange hin)]
        exact id
      | cons ho hu ht =>
        obtain rfl := (TokenStream.get_of_drop_eq_cons hb).1
        by_cases hm : (S.get (b + 1)).kind = .minus
        · have hback := (IsOperand.operator (by rw [hm]; rfl) hu).append_tail ht
          exact .sign hback hm hb (derails_cons_minus hin hm _)
        · exact .lost (.operator ho hm) (.inr ⟨hin, ho, hm⟩)

/-- How reading ends in a statement of the grammar. -/
inductive LeavesStmt (fits : Token → Prop) (S : TokenStream) (b : Nat) (form : Form)
    (ts rest : List Token) : Prop where
  | done : S.ahead.drop (b + 1) = rest → (form.kind = .expression → ¬ Derails ts) →
      LeavesStmt fits S b form ts rest
  | again : form.kind = .expression → IsStatement fits form back →
      S.ahead.drop (b + 1) = back ++ rest → (Derails ts ↔ Derails back) →
      LeavesStmt fits S b form ts rest
  | lost : form.kind = .expression → Lost fits S (b + 1) → Derails ts →
      LeavesStmt fits S b form ts rest

/-- An expression of the grammar in the place of a statement is read as a statement, with the
semicolon if that comes next. -/
theorem ReadsStmt.leaves_expression {S : TokenStream} {ts rest : List Token}
    (h : ReadsStmt S a s ds b) (he : IsExpression fits ts) (hd : S.ahead.drop a = ts ++ rest)
    (hr : Ends rest) : (∀ d ∈ ds, d.IsOverflow) ∧ ∃ c, Leaves fits S c ts rest ∧
      ((S.get (c + 1)).kind = .semicolon → b = c + 1) ∧
      ((S.get (c + 1)).kind ≠ .semicolon → b = c) := by
  obtain ⟨e, c, rfl, hread, hs, hc⟩ := h.of_none (he.stmtKind?_eq_none hd)
  obtain ⟨hall, hl⟩ := hread.leaves hs he hd hr
  refine ⟨hall, c, hl, fun hk => ?_, fun hk => (hc.resolve_left (hk ·.1)).2⟩
  exact (hc.resolve_right (·.1 hk)).2

theorem ReadsStmt.leaves_bare {S : TokenStream} {ts rest : List Token}
    (h : ReadsStmt S a s ds b) (he : IsExpression fits ts) (hd : S.ahead.drop a = ts ++ rest)
    (hf : MayFollow .bare rest) :
    (∀ d ∈ ds, d.IsOverflow) ∧ LeavesStmt fits S b .bare ts rest := by
  obtain ⟨hends, hn⟩ := hf rfl
  obtain ⟨hall, c, hl, -, hbare⟩ := h.leaves_expression he hd hends
  refine ⟨hall, ?_⟩
  cases hl with
  | done hdrop hderails =>
    have hk : (S.get (c + 1)).kind ≠ .semicolon := by
      cases rest with
      | nil =>
        rw [TokenStream.kind_of_drop_eq_nil hdrop]
        nofun
      | cons t rest =>
        rw [(TokenStream.get_of_drop_eq_cons hdrop).1]
        exact hn t rfl
    obtain rfl := hbare hk
    exact .done hdrop fun _ => hderails
  | sign hback hm hdrop hiff =>
    obtain rfl := hbare (hm ▸ nofun)
    exact .again rfl (.bare hback) hdrop hiff
  | lost hl hderails =>
    obtain rfl := hbare hl.opens_no_statement.2.1
    exact .lost rfl hl hderails

theorem ReadsStmt.leaves_closed {S : TokenStream} {ts rest : List Token} {semicolon : Token}
    (h : ReadsStmt S a s ds b) (he : IsExpression fits ts) (hk : semicolon.kind = .semicolon)
    (hd : S.ahead.drop a = ts ++ semicolon :: rest) :
    (∀ d ∈ ds, d.IsOverflow) ∧ LeavesStmt fits S b .closed (ts ++ [semicolon]) rest := by
  obtain ⟨hall, c, hl, hclosed, hbare⟩ := h.leaves_expression he hd (.semicolon hk _)
  refine ⟨hall, ?_⟩
  cases hl with
  | done hdrop hderails =>
    obtain ⟨rfl, hnext⟩ := TokenStream.get_of_drop_eq_cons hdrop
    obtain rfl := hclosed hk
    exact .done hnext fun _ => (derails_semicolon he hk).not.mpr hderails
  | @sign back hback hm hdrop hiff =>
    obtain rfl := hbare (hm ▸ nofun)
    refine .again rfl (.closed hback hk) ?_ ?_
    · rw [hdrop, List.append_assoc, List.singleton_append]
    · rw [derails_semicolon he hk, derails_semicolon hback hk, hiff]
  | lost hl hderails =>
    obtain rfl := hbare hl.opens_no_statement.2.1
    exact .lost rfl hl ((derails_semicolon he hk).mpr hderails)

/-- Where the grammar has a statement, reading it finds no fault but integers out of range. -/
theorem ReadsStmt.leaves {S : TokenStream} {ts rest : List Token} (h : ReadsStmt S a s ds b)
    (hs : IsStatement fits form ts) (hd : S.ahead.drop a = ts ++ rest)
    (hf : MayFollow form rest) :
    (∀ d ∈ ds, d.IsOverflow) ∧ LeavesStmt fits S b form ts rest := by
  cases hs with
  | binding hw hn ha he hk =>
    obtain ⟨rfl, rfl, rfl, hd₃⟩ := get_drop_three hd
    obtain ⟨_, _, e, rfl, hv⟩ := h.of_letWord hw
    obtain ⟨hall, hb⟩ := hv.overflows he hk (hd₃.trans (List.append_assoc _ _ _))
    exact ⟨hall, .done hb nofun⟩
  | @returning word semicolon value hw he hk =>
    obtain ⟨rfl, hd₁⟩ := TokenStream.get_of_drop_eq_cons hd
    have hd₁ := hd₁.trans (List.append_assoc value [semicolon] rest)
    have hne : (S.get (a + 1)).kind ≠ .semicolon := by
      obtain ⟨t, value, rfl, ho⟩ := he.begins
      rw [(TokenStream.get_of_drop_eq_cons hd₁).1]
      exact Begins.ne_semicolon (.inl ho)
    rcases h.of_returnWord hw with ⟨hk', _⟩ | ⟨_, e, rfl, hv⟩
    · exact absurd hk' hne
    · obtain ⟨hall, hb⟩ := hv.overflows he hk hd₁
      exact ⟨hall, .done hb nofun⟩
  | returningNothing hw hk =>
    obtain ⟨rfl, hd₁⟩ := TokenStream.get_of_drop_eq_cons hd
    obtain ⟨rfl, hd₂⟩ := TokenStream.get_of_drop_eq_cons hd₁
    rcases h.of_returnWord hw with ⟨_, rfl, rfl, rfl⟩ | ⟨hn, _⟩
    · exact ⟨List.forall_mem_nil _, .done hd₂ nofun⟩
    · exact absurd hk hn
  | closed he hk => exact h.leaves_closed he hk (hd.trans (List.append_assoc _ _ _))
  | bare he => exact h.leaves_bare he hd hf

/-- A run over a cut text reports integers out of range and nothing else, unless an expression
statement derails. -/
theorem Runs.overflows_iff {S : TokenStream} (h : Runs S a turns) (hS : S.Closed)
    (hp : IsSentence fits parts (S.ahead.drop a)) (hs : Separated parts) :
    (∀ d ∈ turns.flatMap Turn.diagnostics, d.IsOverflow) ↔
      ∀ part ∈ parts, part.1.kind = .expression → ¬ Derails part.2 := by
  induction h generalizing parts with
  | stop hk =>
    obtain rfl := hp.of_eof hS hk
    exact iff_of_true (List.forall_mem_nil _) (List.forall_mem_nil _)
  | keep hk hr ht ih =>
    obtain ⟨part, parts, rfl⟩ := hp.exists_cons hk
    obtain ⟨hpart, hparts⟩ := List.forall_mem_cons.mp hp.statements
    obtain ⟨hall, hl⟩ := hr.leaves hpart hp.drop_eq (hp.mayFollow hs)
    rw [List.flatMap_cons, List.forall_mem_append, and_iff_right hall, List.forall_mem_cons]
    cases hl with
    | done hd hn => rw [ih ⟨hparts, hd.symm⟩ hs.2, and_iff_right hn]
    | @again back hk hb hd hiff =>
      have hnext : IsSentence fits ((part.1, back) :: parts) _ :=
        ⟨List.forall_mem_cons.mpr ⟨hb, hparts⟩, List.flatMap_cons.trans hd.symm⟩
      rw [ih hnext hs, List.forall_mem_cons, hiff]
    | lost hk hl hn =>
      obtain ⟨d, hd, hd'⟩ := ht.reports_lost hl
      exact iff_of_false (fun hall => hd' (hall d hd)) fun hall => hall.1 hk hn
  | drop hk hf _ _ _ =>
    obtain ⟨part, parts, rfl⟩ := hp.exists_cons hk
    exact absurd hp.drop_eq (hf.not_isStatement (hp.statements part List.mem_cons_self))

theorem Grammar.IsStatement.kind_of_minus (h : IsStatement fits form ts)
    (hm : ts.head?.map Token.kind = some .minus) : form.kind = .expression := by
  cases h with
  | binding hw => cases (Option.some.inj hm).symm.trans hw
  | returning hw => cases (Option.some.inj hm).symm.trans hw
  | returningNothing hw => cases (Option.some.inj hm).symm.trans hw
  | closed => rfl
  | bare => rfl

/-- In a text that the grammar has but for the range of its integers, the integers out of range are
all that is reported just in case no expression statement derails. -/
theorem overflow_alone_iff
    (h : IsSentence (fun _ => True) parts (tokenize source file).ahead) :
    (∀ d ∈ (parse source file).2.errors, d.IsOverflow) ↔
      ∀ part ∈ parts, part.1.kind = .expression → ¬ Derails part.2 := by
  have hP {form : Form} {left right : List Token} (hl : IsExpression (fun _ => True) left)
      (hr : IsStatement (fun _ => True) form right)
      (hm : right.head?.map Token.kind = some .minus) :
      (form.kind = .expression → ¬ Derails (left ++ right)) ↔
        (Form.bare.kind = .expression → ¬ Derails left) ∧
          (form.kind = .expression → ¬ Derails right) := by
    have hk := hr.kind_of_minus hm
    rw [derails_append_minus hl hm, not_or]
    exact ⟨fun hn => ⟨fun _ => (hn hk).1, fun _ => (hn hk).2⟩, fun hn _ => ⟨hn.1 rfl, hn.2 hk⟩⟩
  obtain ⟨parts', hp, hs, hiff⟩ := IsSentence.exists_separated_iff
    (P := fun part => part.1.kind = .expression → ¬ Derails part.2) hP h
  obtain ⟨turns, ht⟩ := exists_runs (tokenize source file) 0
  rw [hiff, ← ht.overflows_iff (Cursor.closed_tokens _) hp hs, ← (parse_of_runs ht).2]
  exact forall_congr' fun d => imp_congr_left Array.mem_toList_iff.symm

theorem overflow_in_group :
    ¬ ∀ d ∈ (parse "(1 + 9223372036854775808)" none).2.errors, d.IsOverflow := by
  let t := (tokenize "(1 + 9223372036854775808)" none).get
  have htokens : (tokenize "(1 + 9223372036854775808)" none).ahead = [t 0, t 1, t 2, t 3, t 4] := by
    decide +kernel
  have he : IsExpression (fun _ => True) ([t 1] ++ t 2 :: [t 3]) :=
    .operator (.operand (.atom (by decide +kernel) trivial)) (by decide +kernel)
      (.atom (by decide +kernel) trivial)
  have hu : IsOperand (fun _ => True) (t 0 :: ([t 1] ++ t 2 :: [t 3]) ++ [t 4]) :=
    .group (by decide +kernel) he (by decide +kernel)
  have hp : IsSentence (fun _ => True) [(.bare, [t 0, t 1, t 2, t 3, t 4])]
      (tokenize "(1 + 9223372036854775808)" none).ahead :=
    ⟨List.forall_mem_singleton.mpr (.bare (.operand hu)), htokens.symm⟩
  have hn : ¬ (t 3).InRange := by
    intro hr
    exact absurd (hr (by decide +kernel)) (by decide +kernel)
  intro hall
  refine (overflow_alone_iff hp).mp hall _ List.mem_cons_self rfl (.inl ?_)
  exact (he.nested.buried_group (by decide +kernel) (by decide +kernel) 0 []).mpr
    (.inl ⟨t 3, List.mem_append_right [t 1] (List.mem_cons_of_mem _ List.mem_cons_self), hn⟩)

end ExprLang
