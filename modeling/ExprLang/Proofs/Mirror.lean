import ExprLang.Diagnostic.Fault
import ExprLang.Proofs.Turns
import ExprLang.Tree.Tokens

namespace ExprLang

/-- The end of a text and the words that open a statement: no expression goes on across them. -/
def Kind.IsBarrier (k : Kind) : Prop := k ∈ [Kind.eof, .letWord, .returnWord]

instance (k : Kind) : Decidable k.IsBarrier :=
  inferInstanceAs (Decidable (k ∈ [Kind.eof, .letWord, .returnWord]))

/-- Kinds that the same expressions may end before. -/
def Kind.Alike (k l : Kind) : Prop := k = l ∨ k.IsBarrier ∧ l.IsBarrier

namespace Kind

theorem IsBarrier.power_eq {k : Kind} (h : k.IsBarrier) : k.power = .lowest := by
  cases k <;> first | rfl | exact absurd h (by decide)

theorem IsBarrier.opening?_eq {k : Kind} (h : k.IsBarrier) : k.opening? = none := by
  cases k <;> first | rfl | exact absurd h (by decide)

theorem not_isBarrier_of_opening? {k : Kind} {o : Opening} (h : k.opening? = some o) :
    ¬ k.IsBarrier := by
  intro hk
  cases hk.opening?_eq.symm.trans h

theorem not_isBarrier_of_lt_power {m : Power} {k : Kind} (h : m < k.power) : ¬ k.IsBarrier := by
  intro hk
  rw [hk.power_eq] at h
  exact Nat.not_lt_zero _ h

theorem IsBarrier.ne {k l : Kind} (h : k.IsBarrier) (hl : ¬ l.IsBarrier) : k ≠ l := by
  rintro rfl
  exact hl h

theorem Alike.power_eq {k l : Kind} (h : k.Alike l) : k.power = l.power := by
  rcases h with rfl | ⟨hk, hl⟩
  · rfl
  · rw [hk.power_eq, hl.power_eq]

theorem Alike.ne {k l : Kind} (h : k.Alike l) (ho : ¬ o.IsBarrier) (hl : l ≠ o) : k ≠ o := by
  rcases h with rfl | ⟨hk, -⟩
  · exact hl
  · exact hk.ne ho

end Kind

namespace Expr

theorem isMissing_mapTokens (f : Token → Token) (e : Expr) :
    (e.mapTokens f).isMissing = e.isMissing := by
  cases e <;> rfl

end Expr

/-- The diagnostics `ds'` have the faults of `ds`, each at the token of `S` that stands `n` places
further on than that of `M`. -/
def Echoes (n : Nat) (M S : TokenStream) (ds ds' : List Diagnostic) : Prop :=
  ∃ cs : List Charge, ds = cs.map (Charge.diagnostic M) ∧
    ds' = cs.map fun c => c.fault.on (S.get (n + c.place))

namespace Echoes

variable {M S : TokenStream}

theorem nil (n : Nat) (M S : TokenStream) : Echoes n M S [] [] := ⟨[], rfl, rfl⟩

theorem single (n : Nat) (M S : TokenStream) (f : Fault) (i : Nat) :
    Echoes n M S [f.on (M.get i)] [f.on (S.get (n + i))] :=
  ⟨[⟨f, i⟩], rfl, rfl⟩

theorem append (h : Echoes n M S ds ds') (h' : Echoes n M S es es') :
    Echoes n M S (ds ++ es) (ds' ++ es') := by
  obtain ⟨cs, rfl, rfl⟩ := h
  obtain ⟨cs', rfl, rfl⟩ := h'
  exact ⟨cs ++ cs', List.map_append.symm, List.map_append.symm⟩

theorem nil_iff (h : Echoes n M S ds ds') : ds' = [] ↔ ds = [] := by
  obtain ⟨cs, rfl, rfl⟩ := h
  rw [List.map_eq_nil_iff, List.map_eq_nil_iff]

end Echoes

/-- Up to the token `b` of `M` the tokens of `S` from `n` on are those of `M`, changed by `f`, and
what comes next ends the same expressions. -/
structure Mirrors (f : Token → Token) (n b : Nat) (M S : TokenStream) : Prop where
  faithful : Token.Faithful f
  get : ∀ i ≤ b, S.get (n + i) = f (M.get i)
  next : (S.get (n + (b + 1))).kind.Alike (M.get (b + 1)).kind

theorem Token.Faithful.expr_atom {f : Token → Token} (hf : Token.Faithful f) (t : Token) :
    (Grammar.Surface.atom (f t)).expr = (Grammar.Surface.atom t).expr.mapTokens f := by
  simp only [Grammar.Surface.expr, hf.kind, hf.literal]
  split <;> rfl

theorem Token.Faithful.inRange_iff {f : Token → Token} (hf : Token.Faithful f) (t : Token) :
    (f t).InRange ↔ t.InRange := by
  simp only [Token.InRange, hf.kind, hf.literal]

namespace Mirrors

variable {M S : TokenStream} {f : Token → Token}

theorem kind (h : Mirrors f n b M S) (hi : i ≤ b) : (S.get (n + i)).kind = (M.get i).kind := by
  rw [h.get i hi, h.faithful.kind]

theorem literal (h : Mirrors f n b M S) (hi : i ≤ b) :
    (S.get (n + i)).literal = (M.get i).literal := by
  rw [h.get i hi, h.faithful.literal]

theorem mono (h : Mirrors f n b M S) (hc : c ≤ b) : Mirrors f n c M S := by
  refine ⟨h.faithful, fun i hi => h.get i (Nat.le_trans hi hc), ?_⟩
  rcases Nat.eq_or_lt_of_le hc with rfl | hlt
  · exact h.next
  · exact .inl (h.kind hlt)

/-- Streams that agree before `n`, and at `n` as far as expressions see, mirror each other. -/
theorem of_agree (hi : ∀ i < n, S.get i = M.get i) (hb : b < n)
    (hn : (S.get n).kind.Alike (M.get n).kind) : Mirrors id 0 b M S := by
  refine ⟨⟨fun _ => rfl, fun _ => rfl⟩, ?_, ?_⟩
  · intro i hib
    rw [Nat.zero_add]
    exact hi i (Nat.lt_of_le_of_lt hib hb)
  · rw [Nat.zero_add]
    rcases Nat.eq_or_lt_of_le (Nat.succ_le_of_lt hb) with rfl | hlt
    · exact hn
    · exact .inl (congrArg Token.kind (hi _ hlt))

theorem stops (h : Mirrors f n b M S) (hs : Stops M m e b) : Stops S m (e.mapTokens f) (n + b) := by
  rcases hs with hs | hs
  · left
    rwa [Expr.isMissing_mapTokens]
  · right
    have hp := h.next.power_eq
    change ¬ m < (S.get (n + (b + 1))).kind.power
    rwa [hp]

end Mirrors

/-- Where the tokens are the same, the same expressions are read. -/
theorem Reads.mirror (h : Reads M m a e ds b) (hm : Mirrors f n b M S) :
    ∃ ds', Reads S m (n + a) (e.mapTokens f) ds' (n + b) ∧ Echoes n M S ds ds' := by
  induction h with
  | @refused a m ho =>
    rw [← hm.kind (Nat.le_refl a)] at ho
    exact ⟨_, .refused ho, .single n M S .noOperand a⟩
  | @tooLarge a m hi hr =>
    rw [← hm.kind (Nat.le_refl a)] at hi
    rw [← hm.faithful.inRange_iff, ← hm.get a (Nat.le_refl a)] at hr
    exact ⟨_, .tooLarge hi hr, .single n M S .integerTooLarge a⟩
  | @atom a m ho hr =>
    rw [← hm.kind (Nat.le_refl a)] at ho
    rw [← hm.faithful.inRange_iff, ← hm.get a (Nat.le_refl a)] at hr
    rw [← hm.faithful.expr_atom, ← hm.get a (Nat.le_refl a)]
    exact ⟨_, .atom ho hr, .nil n M S⟩
  | @unary a e ds b m ho hr ih =>
    have hab : a ≤ b := Nat.le_of_succ_le hr.le
    obtain ⟨ds', hr', he⟩ := ih hm
    rw [← hm.kind hab] at ho
    refine ⟨ds', ?_, he⟩
    rw [Expr.mapTokens, ← hm.literal hab, ← hm.get a hab]
    exact .unary ho hr'
  | @group a e b m ho hr hk ih =>
    have hab : a ≤ b := Nat.le_of_succ_le hr.le
    obtain ⟨ds', hr', he⟩ := ih (hm.mono (Nat.le_succ b))
    obtain rfl := he.nil_iff.mpr rfl
    rw [← hm.kind (Nat.le_succ_of_le hab)] at ho
    rw [← hm.kind (Nat.le_refl _)] at hk
    exact ⟨[], .group ho hr' hk, he⟩
  | @unclosed a e b m ho hr hs hk ih =>
    have hab : a ≤ b := Nat.le_of_succ_le hr.le
    obtain ⟨ds', hr', he⟩ := ih hm
    obtain rfl := he.nil_iff.mpr rfl
    rw [← hm.kind hab] at ho
    exact ⟨_, .unclosed ho hr' (hm.stops hs) (hm.next.ne (by decide) hk),
      .single n M S (.unexpected .closeParen) (b + 1)⟩
  | @broken a e ds b m ho hr hs hd ih =>
    have hab : a ≤ b := Nat.le_of_succ_le hr.le
    obtain ⟨ds', hr', he⟩ := ih hm
    rw [← hm.kind hab] at ho
    exact ⟨ds', .broken ho hr' (hm.stops hs) (mt he.nil_iff.mp hd), he⟩
  | @binary m a l ds b r ds₁ c hl he hlt hr hs ihl ihr =>
    have hbc : b + 1 ≤ c := Nat.le_of_succ_le hr.le
    obtain ⟨ds', hl', hd⟩ := ihl (hm.mono (Nat.le_of_succ_le hbc))
    obtain ⟨ds₁', hr', hd₁⟩ := ihr hm
    have hs' := hm.stops hs
    rw [← hm.kind hbc] at hlt hr' hs'
    rw [← Expr.isMissing_mapTokens f] at he
    refine ⟨ds' ++ ds₁', ?_, hd.append hd₁⟩
    rw [Expr.mapTokens, ← hm.literal hbc, ← hm.get _ hbc]
    exact .binary hl' he hlt hr' hs'

theorem LacksEnd.mirror {M : TokenStream} (h : LacksEnd M a b e) (hm : Mirrors f n b M S) :
    LacksEnd S (n + a) (n + b) (e.mapTokens f) := by
  obtain ⟨ds', hr, he⟩ := h.reads.mirror hm
  obtain rfl := he.nil_iff.mpr rfl
  exact ⟨hr, hm.stops h.stops, hm.next.ne (by decide) h.lacks⟩

theorem FailsStmt.mirror {M : TokenStream} (h : FailsStmt M a d b) (hm : Mirrors f n b M S) :
    ∃ d', FailsStmt S (n + a) d' (n + b) ∧ Echoes n M S [d] [d'] := by
  have hab := h.le
  cases h with
  | name hw hn =>
    rw [← hm.kind hab] at hw
    exact ⟨_, .name hw (hm.next.ne (by decide) hn),
      .single n M S (.failed .binding (.unexpected .identifier)) (a + 1)⟩
  | sign hw hn ha =>
    rw [← hm.kind hab] at hw
    rw [← hm.kind (Nat.le_refl _)] at hn
    exact ⟨_, .sign hw hn (hm.next.ne (by decide) ha),
      .single n M S (.failed .binding (.unexpected .assign)) (a + 2)⟩
  | binding hw hn ha hv =>
    have hvb := hv.reads.le
    rw [← hm.kind hab] at hw
    rw [← hm.kind (by omega)] at hn ha
    exact ⟨_, .binding hw hn ha (hv.mirror hm),
      .single n M S (.failed .binding (.unexpected .semicolon)) (b + 1)⟩
  | returning hw hn hv =>
    rw [← hm.kind hab] at hw
    rw [← hm.kind hv.reads.le] at hn
    exact ⟨_, .returning hw hn (hv.mirror hm),
      .single n M S (.failed .returning (.unexpected .semicolon)) (b + 1)⟩

/-- From `n` on all tokens of `S` are those of `M`, changed by `f`. -/
structure Continues (f : Token → Token) (n : Nat) (M S : TokenStream) : Prop where
  faithful : Token.Faithful f
  get : ∀ i, S.get (n + i) = f (M.get i)

namespace Continues

variable {M S : TokenStream} {f : Token → Token}

theorem kind (h : Continues f n M S) (i : Nat) : (S.get (n + i)).kind = (M.get i).kind := by
  rw [h.get, h.faithful.kind]

theorem mirrors (h : Continues f n M S) (b : Nat) : Mirrors f n b M S :=
  ⟨h.faithful, fun i _ => h.get i, .inl (h.kind _)⟩

end Continues

theorem continues_prepend (k : Nat) (ts : List Token) (M : TokenStream) :
    Continues (Token.shift k) ts.length M ((M.shift k).prepend ts) := by
  refine ⟨Token.faithful_shift k, ?_⟩
  intro i
  rw [TokenStream.get_prepend_add, TokenStream.get_shift]

/-- Diagnostics that are found again further on in a text are the same but for that. -/
theorem Echoes.eq_map_shift {M S : TokenStream} (h : Echoes n M S ds ds')
    (hm : Continues (Token.shift k) n M S) : ds' = ds.map (Diagnostic.shift k) := by
  obtain ⟨cs, rfl, rfl⟩ := h
  rw [List.map_map]
  apply List.map_congr_left
  intro c _
  rw [hm.get, ← Fault.shift_on]
  rfl

theorem Skips.mirror {M : TokenStream} (h : Skips M b c) (hm : Continues f n M S) :
    Skips S (n + b) (n + c) := by
  induction h with
  | stop h =>
    rw [← hm.kind, ← hm.kind] at h
    exact .stop h
  | step hc hn _ ih =>
    rw [← hm.kind] at hc hn
    exact .step hc hn ih

theorem ReadsValue.mirror {M : TokenStream} (h : ReadsValue M a e ds b) (hm : Continues f n M S) :
    ∃ ds', ReadsValue S (n + a) (e.mapTokens f) ds' (n + b) ∧ Echoes n M S ds ds' := by
  cases h with
  | ended hr hk =>
    obtain ⟨ds', hr', he⟩ := hr.mirror (hm.mirrors _)
    obtain rfl := he.nil_iff.mpr rfl
    rw [← hm.kind] at hk
    exact ⟨[], .ended hr' hk, he⟩
  | skipped hr hs hd hc =>
    obtain ⟨ds', hr', he⟩ := hr.mirror (hm.mirrors _)
    exact ⟨ds', .skipped hr' ((hm.mirrors _).stops hs) (mt he.nil_iff.mp hd) (hc.mirror hm), he⟩

theorem ReadsStmt.mirror {M : TokenStream} (h : ReadsStmt M a s ds b) (hm : Continues f n M S) :
    ∃ ds', ReadsStmt S (n + a) (s.mapTokens f) ds' (n + b) ∧ Echoes n M S ds ds' := by
  cases h with
  | binding hw hn ha hv =>
    obtain ⟨ds', hv', he⟩ := hv.mirror hm
    rw [← hm.kind] at hw hn ha
    refine ⟨ds', ?_, he⟩
    rw [Stmt.mapTokens, ← hm.get, ← hm.get, ← hm.faithful.literal, ← hm.get]
    exact .binding hw hn ha hv'
  | returning hw hn hv =>
    obtain ⟨ds', hv', he⟩ := hv.mirror hm
    rw [← hm.kind] at hw hn
    refine ⟨ds', ?_, he⟩
    rw [Stmt.mapTokens, ← hm.get]
    exact .returning hw hn hv'
  | returningNothing hw hn =>
    rw [← hm.kind] at hw hn
    refine ⟨[], ?_, .nil n M S⟩
    rw [Stmt.mapTokens, ← hm.get]
    exact .returningNothing hw hn
  | closed hw hr hs hk =>
    obtain ⟨ds', hr', he⟩ := hr.mirror (hm.mirrors _)
    rw [← hm.kind] at hw hk
    refine ⟨ds', ?_, he⟩
    rw [Stmt.mapTokens, ← hm.get]
    exact .closed hw hr' ((hm.mirrors _).stops hs) hk
  | bare hw hr hs hk =>
    obtain ⟨ds', hr', he⟩ := hr.mirror (hm.mirrors _)
    rw [← hm.kind] at hw hk
    refine ⟨ds', ?_, he⟩
    rw [Stmt.mapTokens, ← hm.get]
    exact .bare hw hr' ((hm.mirrors _).stops hs) hk

/-- Where a text goes on with another one, the statements of that one are read again, and its
faults are found again. -/
theorem Runs.mirror {M : TokenStream} (h : Runs M a turns) (hm : Continues f n M S) :
    ∃ turns', Runs S (n + a) turns' ∧
      turns'.filterMap Turn.stmt? = (turns.filterMap Turn.stmt?).map (Stmt.mapTokens f) ∧
      Echoes n M S (turns.flatMap Turn.diagnostics) (turns'.flatMap Turn.diagnostics) := by
  induction h with
  | stop hk =>
    rw [← hm.kind] at hk
    exact ⟨[], .stop hk, rfl, .nil n M S⟩
  | keep hk hr _ ih =>
    obtain ⟨ds', hr', hd⟩ := hr.mirror hm
    obtain ⟨turns', ht, hs, he⟩ := ih
    rw [← hm.kind] at hk
    exact ⟨_, .keep hk hr' ht, congrArg (_ :: ·) hs, hd.append he⟩
  | drop hk hf hc _ ih =>
    obtain ⟨d', hf', hd⟩ := hf.mirror (hm.mirrors _)
    obtain ⟨turns', ht, hs, he⟩ := ih
    rw [← hm.kind] at hk
    exact ⟨_, .drop hk hf' (hc.mirror hm) ht, hs, hd.append he⟩

end ExprLang
