import ExprLang.Proofs.Printing

namespace ExprLang

namespace Expr

/-- Operands are missing at the end of an expression only: to the left of one that is missing
stands such an expression again, and nothing else lacks an operand. -/
def GapsLast : Expr → Prop
  | unary _ _ operand => operand.holes = 0
  | binary _ left _ right =>
    right.isMissing = true ∧ left.GapsLast ∨
      right.isMissing = false ∧ left.holes = 0 ∧ right.holes = 0
  | _ => True

/-- The places of the tokens that stand where an operand is missing, in the text of an expression
that starts with the token `a`. -/
def gapPlaces (a : Nat) : Expr → List Nat
  | missing => [a]
  | unary _ _ operand => operand.gapPlaces (a + 2)
  | binary _ left _ right =>
    left.gapPlaces (a + 1) ++ right.gapPlaces (a + 1 + left.marks.length + 1)
  | _ => []

/-- Every gap of an expression is reported on the token that stands in its place. -/
def gapErrors (S : TokenStream) (a : Nat) (e : Expr) : List Diagnostic :=
  (e.gapPlaces a).map fun i => .noOperand (S.get i)

theorem length_gapPlaces {e : Expr} (h : e = missing ∨ e.Writable) (a : Nat) :
    (e.gapPlaces a).length = e.gaps := by
  induction e generalizing a with
  | unary token operator operand ih => exact ih (h.resolve_left nofun).2 _
  | binary token left operator right ihl ihr =>
    obtain ⟨-, hl, hr⟩ := h.resolve_left nofun
    rw [gapPlaces, List.length_append, ihl (.inr hl), ihr hr,
      gaps_binary _ _ _ _ hl.isMissing]
  | _ => rfl

theorem Writable.length_gapPlaces {e : Expr} (h : e.Writable) (a : Nat) :
    (e.gapPlaces a).length = e.holes := by
  rw [Expr.length_gapPlaces (.inr h), gaps_of_not_isMissing h.isMissing]

theorem gapPlaces_bounds (e : Expr) (a : Nat) :
    ∀ i ∈ e.gapPlaces a, a ≤ i ∧ i ≤ a + e.marks.length := by
  induction e generalizing a with
  | missing => exact List.forall_mem_singleton.mpr ⟨Nat.le_refl a, Nat.le_refl a⟩
  | unary token operator operand ih =>
    intro i hi
    have hb := ih _ i hi
    simp only [marks, List.length_cons, List.length_append, List.length_nil]
    omega
  | binary token left operator right ihl ihr =>
    intro i hi
    simp only [marks, List.length_cons, List.length_append, List.length_nil]
    rcases List.mem_append.mp hi with hi | hi
    · have hb := ihl _ i hi
      omega
    · have hb := ihr _ i hi
      omega
  | _ => exact List.forall_mem_nil _

theorem pairwise_gapPlaces (e : Expr) (a : Nat) : (e.gapPlaces a).Pairwise (· < ·) := by
  induction e generalizing a with
  | missing => exact List.pairwise_singleton _ a
  | unary token operator operand ih => exact ih _
  | binary token left operator right ihl ihr =>
    refine List.pairwise_append.mpr ⟨ihl _, ihr _, ?_⟩
    intro i hi j hj
    have hb := left.gapPlaces_bounds _ i hi
    have hb' := right.gapPlaces_bounds _ j hj
    omega
  | _ => exact .nil

theorem gapsLast_of_complete {e : Expr} (h : e.holes = 0) : e.GapsLast := by
  cases e with
  | unary => exact (complete_unary h).2
  | binary =>
    obtain ⟨hl, hm, hr⟩ := complete_binary h
    exact .inr ⟨hm, hl, hr⟩
  | _ => trivial

theorem GapsLast.unary {operand : Expr} (h : (unary t operator operand).GapsLast)
    (hc : (Expr.unary t operator operand).holes ≠ 0) : operand = missing := by
  have h : operand.holes = 0 := h
  rw [← isMissing_iff, ← Bool.not_eq_false]
  intro hm
  simp only [holes, hm, h] at hc
  exact hc rfl

theorem GapsLast.binary {left right : Expr} (h : (binary t left operator right).GapsLast)
    (hc : (Expr.binary t left operator right).holes ≠ 0) : right = missing ∧ left.GapsLast := by
  rcases h with ⟨hm, hl⟩ | ⟨hm, hl, hr⟩
  · exact ⟨isMissing_iff.mp hm, hl⟩
  · simp only [holes, hm, hl, hr] at hc
    exact absurd rfl hc

/-- In the text of an expression a parenthesis stands where an operand is missing. -/
theorem closeParen_of_mem_gapPlaces {e : Expr} {S : TokenStream} (h : e = missing ∨ e.Writable)
    (hs : Shows S a e.marks) (hm : e = missing → (S.get a).kind = .closeParen) :
    ∀ i ∈ e.gapPlaces a, (S.get i).kind = .closeParen := by
  induction e generalizing a with
  | missing => exact List.forall_mem_singleton.mpr (hm rfl)
  | unary token operator operand ih =>
    obtain ⟨⟨k, hk, -⟩, hx⟩ := h.resolve_left nofun
    obtain ⟨hs, hp⟩ := (hs.unary hk).2.2.closed
    refine ih hx hs ?_
    rintro rfl
    exact hp
  | binary token left operator right ihl ihr =>
    obtain ⟨⟨k, hk, -⟩, hl, hx⟩ := h.resolve_left nofun
    obtain ⟨-, hs, -, hs'⟩ := hs.binary hk
    obtain ⟨hs', hp⟩ := hs'.closed
    refine List.forall_mem_append.mpr ⟨ihl (.inr hl) hs ?_, ihr hx hs' ?_⟩
    · rintro rfl
      cases hl
    · rintro rfl
      exact hp
  | _ => exact List.forall_mem_nil _

end Expr

/-- Nothing but opening parentheses stands from the token `a` of `S` up to the token `c`. -/
inductive Opens (S : TokenStream) : Nat → Nat → Prop where
  | refl : Opens S a a
  | cons : (S.get a).kind.opening? = some .group → Opens S (a + 1) c → Opens S a c

theorem Opens.le (h : Opens S a c) : a ≤ c := by
  induction h with
  | refl => exact Nat.le_refl _
  | cons _ _ ih => omega

/-- Groups in which a problem is on record are left open. -/
theorem Opens.reads (ho : Opens S a c) (hne : a ≠ c) (h : Reads S .lowest c e ds b)
    (hs : Stops S .lowest e b) (hd : ds ≠ []) (m : Power) : Reads S m a e ds b := by
  induction ho generalizing m with
  | refl => exact absurd rfl hne
  | @cons a c hk ho ih =>
    by_cases hc : a + 1 = c
    · rw [← hc] at h
      exact .broken hk h hs hd
    · exact .broken hk (ih hc h .lowest) hs hd

theorem Reads.refused_closeParen {S : TokenStream} (h : (S.get a).kind = .closeParen) (m : Power) :
    Reads S m a .missing [.noOperand (S.get a)] a := by
  apply Reads.refused
  rw [h]
  rfl

namespace Expr

/-- The text of `e` from the token `a` on is read as `e`, to its end. The groups before the token
`c` stay open, and each gap is reported on the parenthesis that stands in its place. -/
structure ReadsFrom (S : TokenStream) (a c : Nat) (e e' : Expr) (b : Nat) : Prop where
  opens : Opens S a c
  eq_iff : a = c ↔ e.holes = 0
  reads : Reads S .lowest c e' (e.gapErrors S a) b
  ends : b + 1 = a + e.marks.length
  same : e'.eraseTokens = e.eraseTokens

theorem ReadsFrom.isMissing {e e' : Expr} (hf : ReadsFrom S a c e e' b) (h : e.Writable) :
    e'.isMissing = false :=
  (isMissing_eq_of_eraseTokens hf.same).trans h.isMissing

theorem Writable.readsFrom_of_complete {e : Expr} {S : TokenStream} (h : e.Writable)
    (hc : e.holes = 0) (hs : Shows S a e.marks) : ∃ c e' b, ReadsFrom S a c e e' b := by
  obtain ⟨e', b, hr, hb, he⟩ := h.reads hc hs .lowest
  have hn : e.gapPlaces a = [] := List.length_eq_zero_iff.mp ((h.length_gapPlaces a).trans hc)
  refine ⟨a, e', b, .refl, iff_of_true rfl hc, ?_, hb, he⟩
  rw [gapErrors, hn]
  exact hr

theorem Writable.readsFrom {e : Expr} {S : TokenStream} (h : e.Writable) (hg : e.GapsLast)
    (hs : Shows S a e.marks) : ∃ c e' b, ReadsFrom S a c e e' b := by
  induction e generalizing a with
  | missing => cases h
  | unary token operator operand ih =>
    by_cases hc : (Expr.unary token operator operand).holes = 0
    · exact h.readsFrom_of_complete hc hs
    obtain rfl := hg.unary hc
    obtain ⟨⟨k, hk, ho⟩, -⟩ := h
    obtain ⟨hopen, h₁, hs⟩ := hs.unary hk
    rw [← Token.kind_of_mark h₁] at ho
    have hr := Reads.refused_closeParen hs.closed.2 .unary
    refine ⟨a + 1, _, a + 2, .cons hopen .refl, iff_of_false (Nat.ne_of_lt (Nat.lt_succ_self a)) hc,
      .unary ho hr, rfl, ?_⟩
    rw [Token.literal_of_mark h₁]
    rfl
  | binary token left operator right ihl ihr =>
    by_cases hc : (Expr.binary token left operator right).holes = 0
    · exact h.readsFrom_of_complete hc hs
    obtain ⟨rfl, hgl⟩ := hg.binary hc
    obtain ⟨⟨k, hk, hi⟩, hl, -⟩ := h
    obtain ⟨hopen, hs, h₁, hs'⟩ := hs.binary hk
    obtain ⟨c, l', b, hf⟩ := ihl hl hgl hs
    rw [← hf.ends] at h₁ hs'
    rw [← Token.kind_of_mark h₁] at hi
    have hr := Reads.refused_closeParen hs'.closed.2 (S.get (b + 1)).kind.power
    have hb := Reads.binary hf.reads (hf.isMissing hl) (Kind.lowest_lt_power hi) hr (.inl rfl)
    have hp : (Expr.binary token left operator missing).gapPlaces a =
        left.gapPlaces (a + 1) ++ [b + 2] := by
      rw [gapPlaces, ← hf.ends]
      rfl
    refine ⟨c, .binary (S.get (b + 1)) l' (S.get (b + 1)).literal .missing, b + 2,
      .cons hopen hf.opens, iff_of_false (Nat.ne_of_lt hf.opens.le) hc, ?_, ?_, ?_⟩
    · rw [gapErrors, hp, List.map_append]
      exact hb
    · have hlen := hf.ends
      simp only [marks, List.length_cons, List.length_append, List.length_nil]
      omega
    · rw [Token.literal_of_mark h₁]
      exact congrArg (binary default · operator missing) hf.same
  | _ => exact h.readsFrom_of_complete rfl hs

theorem Writable.complete_of_nil {e : Expr} {S : TokenStream} (h : e.Writable)
    (hd : e.gapErrors S a = []) : e.holes = 0 := by
  rw [← h.length_gapPlaces a, List.map_eq_nil_iff.mp hd, List.length_nil]

/-- Reading `e` from the token `a` on stops right before a closing parenthesis. If `e` lacks an
operand, that is on record. -/
def HaltsAtClose (S : TokenStream) (m : Power) (a : Nat) (e : Expr) : Prop :=
  ∃ e' ds b, Reads S m a e' ds b ∧ (e.holes ≠ 0 → ds ≠ []) ∧ (S.get (b + 1)).kind = .closeParen

theorem Writable.haltsAtClose_closed {e : Expr} {S : TokenStream} (h : e.Writable)
    (hs : Shows S a (e.marks ++ [⟨.closeParen, ")"⟩]))
    (hn : Shows S a e.marks → ¬ e.GapsLast → ∀ m, e.HaltsAtClose S m a) (m : Power) :
    e.HaltsAtClose S m a := by
  obtain ⟨hs, hp⟩ := hs.closed
  by_cases hg : e.GapsLast
  · by_cases hc : e.holes = 0
    · obtain ⟨e', b, hr, hb, -⟩ := h.reads hc hs m
      rw [← hb] at hp
      exact ⟨e', [], b, hr, fun hn => absurd hc hn, hp⟩
    · obtain ⟨c, e', b, hf⟩ := h.readsFrom hg hs
      rw [← hf.ends] at hp
      have hd : e.gapErrors S a ≠ [] := mt h.complete_of_nil hc
      exact ⟨e', _, b, hf.opens.reads (mt hf.eq_iff.mp hc) hf.reads (.closeParen hp) hd m,
        fun _ => hd, hp⟩
  · exact hn hs hg m

/-- A gap that does not come last leaves a closing parenthesis behind. -/
theorem Writable.haltsAtClose {e : Expr} {S : TokenStream} (h : e.Writable) (hg : ¬ e.GapsLast)
    (hs : Shows S a e.marks) (m : Power) : e.HaltsAtClose S m a := by
  induction e generalizing a m with
  | unary token operator operand ih =>
    obtain ⟨⟨k, hk, ho⟩, hx⟩ := h
    have hx : operand.Writable := by
      rcases hx with rfl | hx
      · exact absurd rfl hg
      · exact hx
    obtain ⟨hopen, h₁, hs⟩ := hs.unary hk
    rw [← Token.kind_of_mark h₁] at ho
    obtain ⟨x', ds, b, hr, hd, hk⟩ := hx.haltsAtClose_closed hs (fun hs hgx => ih hx hgx hs) .unary
    have hd := hd hg
    exact ⟨_, ds, b, .broken hopen (.unary ho hr) (.closeParen hk) hd, fun _ => hd, hk⟩
  | binary token left operator right ihl ihr =>
    obtain ⟨⟨k, hk, hi⟩, hl, hx⟩ := h
    obtain ⟨hopen, hs, h₁, hs'⟩ := hs.binary hk
    by_cases hgl : left.GapsLast
    · have hx : right.Writable := by
        rcases hx with rfl | hx
        · exact absurd (.inl ⟨rfl, hgl⟩) hg
        · exact hx
      obtain ⟨c, l', b, hf⟩ := hl.readsFrom hgl hs
      rw [← hf.ends] at h₁ hs'
      rw [← Token.kind_of_mark h₁] at hi
      obtain ⟨r', ds', b', hr', hd', hk'⟩ := hx.haltsAtClose_closed hs'
        (fun hs hgx => ihr hx hgx hs) (S.get (b + 1)).kind.power
      have hb :=
        Reads.binary hf.reads (hf.isMissing hl) (Kind.lowest_lt_power hi) hr' (.closeParen hk')
      have hd : left.gapErrors S (a + 1) ++ ds' ≠ [] := by
        intro hn
        obtain ⟨hn, hn'⟩ := List.append_eq_nil_iff.mp hn
        have hcl := hl.complete_of_nil hn
        exact hg (.inr ⟨hx.isMissing, hcl, not_not.mp fun hc => hd' hc hn'⟩)
      exact ⟨_, _, b', (Opens.cons hopen hf.opens).reads (Nat.ne_of_lt hf.opens.le) hb
        (.closeParen hk') hd m, fun _ => hd, hk'⟩
    · obtain ⟨l', ds, b, hr, hd, hk⟩ := ihl hl hgl hs .lowest
      have hd := hd fun hc => hgl (gapsLast_of_complete hc)
      exact ⟨l', ds, b, .broken hopen hr (.closeParen hk) hd, fun _ => hd, hk⟩
  | _ => exact absurd trivial hg

end Expr

theorem Runs.of_gapsLast {e : Expr} {S : TokenStream} (h : e.Writable) (hg : e.GapsLast)
    (hs : Shows S 0 e.marks) (hend : (S.get e.marks.length).kind = .eof) :
    ∃ e', Runs S 0 [⟨0, some (.expression (S.get 0) e'), e.gapErrors S 0⟩] ∧
      e'.eraseTokens = e.eraseTokens := by
  obtain ⟨c, e', b, hf⟩ := h.readsFrom hg hs
  have hk : (S.get (b + 1)).kind = .eof := by
    rw [hf.ends, Nat.zero_add]
    exact hend
  have hstops : Stops S .lowest e' b := by
    apply Or.inr
    rw [hk]
    exact Nat.lt_irrefl _
  have hr : Reads S .lowest 0 e' (e.gapErrors S 0) b := by
    by_cases hc : e.holes = 0
    · obtain rfl := hf.eq_iff.mpr hc
      exact hf.reads
    · exact hf.opens.reads (mt hf.eq_iff.mp hc) hf.reads hstops (mt h.complete_of_nil hc) _
  have ho := Kind.stmtKind?_of_opening? (hs.opening h)
  have hstmt := ReadsStmt.bare ho hr hstops (by rw [hk]; nofun)
  exact ⟨e', .keep (hs.kind_ne h rfl) hstmt (.stop hk), hf.same⟩

theorem Runs.of_not_gapsLast {e : Expr} {S : TokenStream} (h : e.Writable) (hg : ¬ e.GapsLast)
    (hs : Shows S 0 e.marks) :
    ∃ turns, Runs S 0 turns ∧ 2 ≤ (turns.filterMap Turn.stmt?).length := by
  obtain ⟨e', ds, b, hr, -, hk⟩ := h.haltsAtClose hg hs .lowest
  have ho := Kind.stmtKind?_of_opening? (hs.opening h)
  have hstmt := ReadsStmt.bare ho hr (.closeParen hk) (by rw [hk]; nofun)
  obtain ⟨turns, ht⟩ := exists_runs S (b + 1)
  refine ⟨_, .keep (hs.kind_ne h rfl) hstmt ht, ?_⟩
  cases ht with
  | stop hk' => exact absurd (hk.symm.trans hk') nofun
  | keep => exact Nat.le_add_left 2 _
  | drop _ hf =>
    rcases hf.opens with hw | hw
    · exact absurd (hk.symm.trans hw) nofun
    · exact absurd (hk.symm.trans hw) nofun

theorem shows_tokenize_render {e : Expr} (h : e.Writable) (file : Option String) :
    Shows (tokenize e.render file) 0 e.marks ∧
      ((tokenize e.render file).get e.marks.length).kind = .eof := by
  have hs := h.spells (fun k => .nil k) .nil
  rw [List.append_nil, List.append_nil] at hs
  have hm : (tokenize e.render file).ahead.map Token.mark = e.marks :=
    Cursor.marks_of_spells hs rfl
  refine ⟨⟨[], (List.append_nil _).trans hm.symm⟩, ?_⟩
  rw [← hm, List.length_map]
  exact TokenStream.kind_of_drop_eq_nil List.drop_length

/-- The text of an expression is read as a single statement just in case its gaps come last. Then
each gap is reported once, on the parenthesis that stands in its place, and the statement has the
text that was read. -/
theorem gaps_of_render {e : Expr} (h : e.Writable) (file : Option String) :
    ((e.gapPlaces 0).length = e.holes ∧ (e.gapPlaces 0).Pairwise (· < ·) ∧
      ∀ i ∈ e.gapPlaces 0, ((tokenize e.render file).get i).kind = .closeParen) ∧
    ((parse e.render file).1.statements.length = 1 ↔ e.GapsLast) ∧
    (e.GapsLast →
      (parse e.render file).2.errors.toList = e.gapErrors (tokenize e.render file) 0 ∧
      ∃ e', (parse e.render file).1.statements =
          [.expression ((tokenize e.render file).get 0) e'] ∧
        e'.render = e.render) := by
  obtain ⟨hs, hend⟩ := shows_tokenize_render h file
  have hone (hg : e.GapsLast) :
      (parse e.render file).2.errors.toList = e.gapErrors (tokenize e.render file) 0 ∧
      ∃ e', (parse e.render file).1.statements =
          [.expression ((tokenize e.render file).get 0) e'] ∧
        e'.render = e.render := by
    obtain ⟨e', ht, he⟩ := Runs.of_gapsLast h hg hs hend
    obtain ⟨hstmts, herrors⟩ := parse_of_runs ht
    exact ⟨herrors.trans (List.append_nil _), e', hstmts, Expr.render_eq_of_eraseTokens he⟩
  refine ⟨⟨h.length_gapPlaces 0, e.pairwise_gapPlaces 0, ?_⟩, ⟨?_, ?_⟩, hone⟩
  · refine Expr.closeParen_of_mem_gapPlaces (.inr h) hs ?_
    rintro rfl
    cases h
  · intro hl
    by_contra hg
    obtain ⟨turns, ht, hlen⟩ := Runs.of_not_gapsLast h hg hs
    rw [← (parse_of_runs ht).1, hl] at hlen
    exact absurd hlen (by decide)
  · intro hg
    obtain ⟨-, e', hstmts, -⟩ := hone hg
    rw [hstmts, List.length_singleton]

theorem inner_gap_of_render :
    (parse "((1 + ) * 2)" none).1.statements.length ≠ 1 ∧
      (parse "((1 + ) * )" none).1.statements.length = 1 := by
  have hl : (Expr.binary default (.int default 1) "+" .missing).Writable :=
    ⟨⟨_, rfl, rfl⟩, ⟨by decide, by decide⟩, .inl rfl⟩
  have hw : (Expr.binary default (.binary default (.int default 1) "+" .missing) "*"
      (.int default 2)).Writable :=
    ⟨⟨_, rfl, rfl⟩, hl, .inr ⟨by decide, by decide⟩⟩
  have hw' : (Expr.binary default (.binary default (.int default 1) "+" .missing) "*"
      .missing).Writable :=
    ⟨⟨_, rfl, rfl⟩, hl, .inl rfl⟩
  have ht := (gaps_of_render hw none).2.1
  have ht' := (gaps_of_render hw' none).2.1
  rw [show Expr.render _ = "((1 + ) * 2)" by decide +kernel] at ht
  rw [show Expr.render _ = "((1 + ) * )" by decide +kernel] at ht'
  refine ⟨fun hone => ?_, ht'.mpr (.inl ⟨rfl, .inl ⟨rfl, trivial⟩⟩)⟩
  rcases ht.mp hone with ⟨hm, -⟩ | ⟨-, hc, -⟩
  · cases hm
  · cases hc

end ExprLang
