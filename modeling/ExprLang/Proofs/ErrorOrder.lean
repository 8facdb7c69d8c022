import ExprLang.Diagnostic.Fault
import ExprLang.Proofs.Turns
import ExprLang.Token.Order
import Mathlib

namespace ExprLang

/-- A fault of a token that no operand can be read from. -/
def Fault.RefusesOperand (f : Fault) : Prop := f = .noOperand ∨ f = .integerTooLarge

/-- One charge comes before another: it blames an earlier token, or the same one, which stands in
the place of a closing parenthesis and is then refused as an operand. -/
def Charge.Before (c c' : Charge) : Prop :=
  c.place < c'.place ∨
    c.place = c'.place ∧ c.fault = .unexpected .closeParen ∧ c'.fault.RefusesOperand

/-- The charges `cs` are raised one after the other from the token `a` of `S` on. Where reading
starts, only a token that no operand can be read from is blamed. -/
structure Raised (S : TokenStream) (a : Nat) (cs : List Charge) : Prop where
  ordered : cs.Pairwise Charge.Before
  first : ∀ c ∈ cs, a < c.place ∨ c.place = a ∧ c.fault.RefusesOperand
  inside : ∀ c ∈ cs, c.place ≤ S.ahead.length

/-- Charges that are raised until the token `b` is in view. Of what comes after it, only a token in
the place of a closing parenthesis is blamed. -/
structure RaisedUpTo (S : TokenStream) (a b : Nat) (cs : List Charge) : Prop
    extends Raised S a cs where
  last : ∀ c ∈ cs, c.place ≤ b ∨ c.place = b + 1 ∧ c.fault = .unexpected .closeParen

namespace Raised

variable {S : TokenStream}

theorem nil (S : TokenStream) (a : Nat) : Raised S a [] :=
  ⟨.nil, List.forall_mem_nil _, List.forall_mem_nil _⟩

theorem lt_of_lt (h : Raised S a cs) (ha : a' < a) : ∀ c ∈ cs, a' < c.place := by
  intro c hc
  rcases h.first c hc with hlt | ⟨he, -⟩
  · exact Nat.lt_trans ha hlt
  · rw [he]
    exact ha

theorem from_earlier (h : Raised S a cs) (ha : a' < a) : Raised S a' cs :=
  ⟨h.ordered, fun c hc => .inl (h.lt_of_lt ha c hc), h.inside⟩

theorem cons (h : Raised S a cs) (hlt : ∀ c' ∈ cs, c.place < c'.place) (ha : a' < c.place)
    (hc : c.place ≤ S.ahead.length) : Raised S a' (c :: cs) := by
  constructor
  · apply List.Pairwise.cons
    · intro c' hc'
      exact .inl (hlt c' hc')
    · exact h.ordered
  · rw [List.forall_mem_cons]
    constructor
    · exact .inl ha
    · intro c' hc'
      exact .inl (Nat.lt_trans ha (hlt c' hc'))
  · exact List.forall_mem_cons.mpr ⟨hc, h.inside⟩

end Raised

namespace RaisedUpTo

variable {S : TokenStream}

theorem nil (S : TokenStream) (a b : Nat) : RaisedUpTo S a b [] :=
  ⟨.nil S a, List.forall_mem_nil _⟩

theorem refused (hf : f.RefusesOperand) (ha : a ≤ S.ahead.length) :
    RaisedUpTo S a a [⟨f, a⟩] := by
  constructor
  · constructor
    · exact List.pairwise_singleton _ _
    · exact List.forall_mem_singleton.mpr (.inr ⟨rfl, hf⟩)
    · exact List.forall_mem_singleton.mpr ha
  · exact List.forall_mem_singleton.mpr (.inl (Nat.le_refl a))

theorem unclosed (hab : a ≤ b) (hb : b < S.ahead.length) :
    RaisedUpTo S a b [⟨.unexpected .closeParen, b + 1⟩] := by
  constructor
  · exact (Raised.nil S a).cons (List.forall_mem_nil _) (Nat.lt_succ_of_le hab) hb
  · exact List.forall_mem_singleton.mpr (.inr ⟨rfl, rfl⟩)

theorem from_earlier (h : RaisedUpTo S a b cs) (ha : a' < a) : RaisedUpTo S a' b cs :=
  ⟨h.toRaised.from_earlier ha, h.last⟩

theorem to_later (h : RaisedUpTo S a b cs) (hb : b ≤ b') : RaisedUpTo S a b' cs := by
  refine ⟨h.toRaised, ?_⟩
  intro c hc
  rcases h.last c hc with hle | ⟨he, hf⟩
  · exact .inl (Nat.le_trans hle hb)
  · rcases Nat.eq_or_lt_of_le hb with rfl | hlt
    · exact .inr ⟨he, hf⟩
    · exact .inl (he ▸ hlt)

theorem append (h : RaisedUpTo S a b cs) (h' : Raised S (b + 1) cs') (ha : a ≤ b) :
    Raised S a (cs ++ cs') := by
  constructor
  · apply List.pairwise_append.mpr
    refine ⟨h.ordered, h'.ordered, ?_⟩
    intro c hc c' hc'
    rcases h.last c hc with hle | ⟨he, hf⟩ <;> rcases h'.first c' hc' with hlt | ⟨he', hf'⟩
    · exact .inl (by omega)
    · exact .inl (by omega)
    · exact .inl (by omega)
    · exact .inr ⟨he.trans he'.symm, hf, hf'⟩
  · exact List.forall_mem_append.mpr ⟨h.first, (h'.from_earlier (Nat.lt_succ_of_le ha)).first⟩
  · exact List.forall_mem_append.mpr ⟨h.inside, h'.inside⟩

theorem append_upTo (h : RaisedUpTo S a b cs) (h' : RaisedUpTo S (b + 1) b' cs') (ha : a ≤ b)
    (hb : b ≤ b') : RaisedUpTo S a b' (cs ++ cs') :=
  ⟨h.append h'.toRaised ha, List.forall_mem_append.mpr ⟨(h.to_later hb).last, h'.last⟩⟩

end RaisedUpTo

/-- The charges of an expression are raised in the order of its tokens. -/
theorem Reads.raised (h : Reads S m a e ds b) (ha : a ≤ S.ahead.length) :
    ∃ cs : List Charge, ds = cs.map (Charge.diagnostic S) ∧ RaisedUpTo S a b cs := by
  induction h with
  | @refused a => exact ⟨[⟨.noOperand, a⟩], rfl, .refused (.inl rfl) ha⟩
  | @tooLarge a => exact ⟨[⟨.integerTooLarge, a⟩], rfl, .refused (.inr rfl) ha⟩
  | atom => exact ⟨[], rfl, .nil S _ _⟩
  | unary ho _ ih =>
    obtain ⟨cs, hd, hr⟩ := ih (TokenStream.lt_of_kind_ne_eof (Kind.ne_eof_of_opening? ho))
    exact ⟨cs, hd, hr.from_earlier (Nat.lt_succ_self _)⟩
  | group => exact ⟨[], rfl, .nil S _ _⟩
  | @unclosed a e b m _ hr =>
    exact ⟨[⟨.unexpected .closeParen, b + 1⟩], rfl,
      .unclosed (Nat.le_of_succ_le hr.le) hr.lt_length_of_nil⟩
  | broken ho _ _ _ ih =>
    obtain ⟨cs, hd, hr⟩ := ih (TokenStream.lt_of_kind_ne_eof (Kind.ne_eof_of_opening? ho))
    exact ⟨cs, hd, hr.from_earlier (Nat.lt_succ_self _)⟩
  | binary hl _ hlt hr _ ihl ihr =>
    have hb := TokenStream.lt_of_kind_ne_eof (Kind.ne_eof_of_lt_power hlt)
    obtain ⟨cs, rfl, hc⟩ := ihl ha
    obtain ⟨cs', rfl, hc'⟩ := ihr hb
    have hle := hr.le
    exact ⟨cs ++ cs', List.map_append.symm,
      hc.append_upTo (hc'.from_earlier (Nat.lt_succ_self _)) hl.le (by omega)⟩

theorem ReadsValue.raised (h : ReadsValue S a e ds b) (ha : a ≤ S.ahead.length) :
    ∃ cs : List Charge, ds = cs.map (Charge.diagnostic S) ∧ RaisedUpTo S a b cs := by
  cases h with
  | ended => exact ⟨[], rfl, .nil S _ _⟩
  | skipped hr _ _ hc =>
    obtain ⟨cs, hd, hcs⟩ := hr.raised ha
    exact ⟨cs, hd, hcs.to_later hc.le⟩

/-- The charges of a statement are raised in the order of its tokens, and its word is not blamed. -/
theorem ReadsStmt.raised (h : ReadsStmt S a s ds b) (hk : (S.get a).kind ≠ .eof) :
    ∃ cs : List Charge, ds = cs.map (Charge.diagnostic S) ∧ RaisedUpTo S a b cs ∧
      ((S.get a).kind.stmtKind? ≠ none → ∀ c ∈ cs, a < c.place) := by
  have ha := TokenStream.lt_of_kind_ne_eof hk
  cases h with
  | binding _ _ hs hv =>
    have hlt : a < a + 3 := by omega
    have hsign : a + 2 < S.ahead.length := TokenStream.lt_of_kind_eq hs nofun
    obtain ⟨cs, hd, hc⟩ := hv.raised hsign
    exact ⟨cs, hd, hc.from_earlier hlt, fun _ => hc.lt_of_lt hlt⟩
  | returning _ _ hv =>
    have hlt := Nat.lt_succ_self a
    obtain ⟨cs, hd, hc⟩ := hv.raised ha
    exact ⟨cs, hd, hc.from_earlier hlt, fun _ => hc.lt_of_lt hlt⟩
  | returningNothing => exact ⟨[], rfl, .nil S _ _, fun _ => List.forall_mem_nil _⟩
  | closed ho hr =>
    obtain ⟨cs, hd, hc⟩ := hr.raised (Nat.le_of_lt ha)
    exact ⟨cs, hd, hc.to_later (Nat.le_succ _), fun hn => absurd ho hn⟩
  | bare ho hr =>
    obtain ⟨cs, hd, hc⟩ := hr.raised (Nat.le_of_lt ha)
    exact ⟨cs, hd, hc, fun hn => absurd ho hn⟩

/-- A statement that fails blames the token after the last one in view, which is no end. -/
theorem FailsStmt.charge {S : TokenStream} (h : FailsStmt S a d b) :
    ∃ f : Fault, d = f.on (S.get (b + 1)) ∧ b < S.ahead.length ∧
      (S.get b).kind ∉ [Kind.semicolon, .eof] := by
  cases h with
  | name hw =>
    refine ⟨.failed .binding (.unexpected .identifier), rfl, ?_, ?_⟩
    · exact TokenStream.lt_of_kind_eq hw nofun
    · rw [hw]
      decide
  | sign _ hn =>
    refine ⟨.failed .binding (.unexpected .assign), rfl, ?_, ?_⟩
    · exact TokenStream.lt_of_kind_eq hn nofun
    · rw [hn]
      decide
  | binding _ _ _ hv =>
    exact ⟨.failed .binding (.unexpected .semicolon), rfl, hv.reads.lt_length_of_nil,
      hv.reads.kind_ne_of_nil⟩
  | returning _ _ hv =>
    exact ⟨.failed .returning (.unexpected .semicolon), rfl, hv.reads.lt_length_of_nil,
      hv.reads.kind_ne_of_nil⟩

theorem Kind.stmtKind?_ne_none {k : Kind} (h : k ∈ [Kind.letWord, .returnWord]) :
    k.stmtKind? ≠ none := by
  simp only [List.mem_cons, List.not_mem_nil, or_false] at h
  rcases h with rfl | rfl <;> nofun

/-- Where skipping stops short of the token to blame, that token opens a statement. -/
theorem Skips.lt_or_word (h : Skips S b c) (hb : (S.get b).kind ∉ [Kind.semicolon, .eof]) :
    b < c ∨ b = c ∧ (S.get (b + 1)).kind ∈ [Kind.letWord, .returnWord] := by
  cases h with
  | stop hs => exact .inr ⟨rfl, hs.resolve_left hb⟩
  | step _ _ hc => exact .inl hc.le

/-- The charges of a run are raised in the order of the tokens, and a word that opens its first
statement is not blamed. -/
theorem Runs.raised (h : Runs S a turns) :
    ∃ cs : List Charge, turns.flatMap Turn.diagnostics = cs.map (Charge.diagnostic S) ∧
      Raised S a cs ∧ ((S.get a).kind.stmtKind? ≠ none → ∀ c ∈ cs, a < c.place) := by
  induction h with
  | stop => exact ⟨[], rfl, .nil S _, fun _ => List.forall_mem_nil _⟩
  | keep hk hr _ ih =>
    obtain ⟨cs, rfl, hc, hw⟩ := hr.raised hk
    obtain ⟨cs', hd', hc', -⟩ := ih
    refine ⟨cs ++ cs', ?_, hc.append hc' hr.le, ?_⟩
    · rw [List.flatMap_cons, hd', List.map_append]
    · intro hn
      exact List.forall_mem_append.mpr ⟨hw hn, hc'.lt_of_lt (Nat.lt_succ_of_le hr.le)⟩
  | @drop a d b c turns hk hf hs _ ih =>
    obtain ⟨f, rfl, hb, hend⟩ := hf.charge
    obtain ⟨cs, hd, hc, hw⟩ := ih
    have hab := hf.le
    have hbc := hs.le
    -- The token to blame starts the next turn only if it is a word, and that is not blamed again.
    have hlt : ∀ c' ∈ cs, b + 1 < c'.place := by
      rcases hs.lt_or_word hend with hlt | ⟨rfl, hword⟩
      · exact hc.lt_of_lt (Nat.succ_lt_succ hlt)
      · exact hw (Kind.stmtKind?_ne_none hword)
    refine ⟨⟨f, b + 1⟩ :: cs, ?_, hc.cons hlt (Nat.lt_succ_of_le hab) hb, ?_⟩
    · rw [List.flatMap_cons, hd]
      rfl
    · intro _
      rw [List.forall_mem_cons]
      constructor
      · exact Nat.lt_succ_of_le hab
      · intro c' hc'
        exact Nat.lt_of_le_of_lt (Nat.le_succ_of_le hab) (hlt c' hc')

/-- One diagnostic comes before another over the tokens `ts`: it shows at an earlier offset, or both
blame one token, which stands in the place of a closing parenthesis and is then refused as an
operand. -/
def Diagnostic.Precedes (ts : List Token) (d d' : Diagnostic) : Prop :=
  d.position.offset < d'.position.offset ∨
    d.position.offset = d'.position.offset ∧
      ∃ t ∈ ts, d = .unexpected .closeParen t ∧ (d' = .noOperand t ∨ d' = .integerTooLarge t)

namespace Diagnostic.Precedes

variable {d d' d'' : Diagnostic}

theorem le (h : Precedes ts d d') : d.position.offset ≤ d'.position.offset := by
  rcases h with hlt | ⟨he, -⟩
  · exact Nat.le_of_lt hlt
  · exact Nat.le_of_eq he

/-- A token is blamed twice at most. -/
theorem lt_of_precedes (h : Precedes ts d d') (h' : Precedes ts d' d'') :
    d.position.offset < d''.position.offset := by
  rcases h with hlt | ⟨he, t, -, -, hd⟩
  · exact Nat.lt_of_lt_of_le hlt h'.le
  · rcases h' with hlt | ⟨-, u, -, hd', -⟩
    · rw [he]
      exact hlt
    · rcases hd with rfl | rfl <;> cases congrArg problem hd'

end Diagnostic.Precedes

theorem Charge.Before.precedes {c c' : Charge} (h : c.Before c')
    (hsize : Text.size source.toList ≤ Position.maxOffset)
    (hc : c'.place ≤ (tokenize source file).ahead.length) :
    (c.diagnostic (tokenize source file)).Precedes (tokenize source file).toList
      (c'.diagnostic (tokenize source file)) := by
  rcases h with hlt | ⟨hp, hf, hf'⟩
  · left
    simp only [diagnostic, Fault.position_on]
    exact start_lt_start hsize hlt hc
  · right
    simp only [diagnostic, Fault.position_on, hp, hf]
    refine ⟨trivial, _, TokenStream.get_mem_toList _ _, rfl, ?_⟩
    rcases hf' with hf' | hf' <;> rw [hf']
    · exact .inl rfl
    · exact .inr rfl

theorem pairwise_precedes (h : Text.size source.toList ≤ Position.maxOffset)
    (file : Option String) :
    (parse source file).2.errors.toList.Pairwise
      (Diagnostic.Precedes (tokenize source file).toList) := by
  obtain ⟨turns, ht⟩ := exists_runs (tokenize source file) 0
  obtain ⟨cs, hd, hc, -⟩ := ht.raised
  rw [(parse_of_runs ht).2, hd, List.pairwise_map]
  apply hc.ordered.imp_of_mem
  intro c c' _ hm hb
  exact hb.precedes h (hc.inside c' hm)

/-- The diagnostics of a text come in the order of their offsets. Two in a row show at the same
offset only where a token stands in the place of a closing parenthesis and is then refused as an
operand, and no three do. -/
theorem diagnostics_in_order (h : Text.size source.toList ≤ Position.maxOffset) :
    ((parse source file).2.errors.toList.Pairwise fun d d' =>
      d.position.offset ≤ d'.position.offset) ∧
    (∀ front d d' back, (parse source file).2.errors.toList = front ++ d :: d' :: back →
      d.position.offset = d'.position.offset →
      ∃ t ∈ (tokenize source file).toList,
        d = .unexpected .closeParen t ∧ (d' = .noOperand t ∨ d' = .integerTooLarge t)) ∧
    ∀ d d' d'', [d, d', d''].Sublist (parse source file).2.errors.toList →
      d.position.offset < d''.position.offset := by
  have hp := pairwise_precedes h file
  refine ⟨hp.imp fun hd => hd.le, ?_, ?_⟩
  · intro front d d' back he heq
    rw [he] at hp
    have hd := List.rel_of_pairwise_cons (List.pairwise_append.mp hp).2.1 List.mem_cons_self
    rcases hd with hlt | ⟨-, ht⟩
    · exact absurd heq (Nat.ne_of_lt hlt)
    · exact ht
  · intro d d' d'' hs
    have hs := hp.sublist hs
    have hd := List.rel_of_pairwise_cons hs List.mem_cons_self
    have hd' := List.rel_of_pairwise_cons hs.of_cons List.mem_cons_self
    exact hd.lt_of_precedes hd'

theorem token_blamed_twice : Text.size "(1 ,".toList ≤ Position.maxOffset ∧
    ∃ d d', (parse "(1 ," none).2.errors.toList = [d, d'] ∧
      d.position.offset = d'.position.offset ∧
      ∃ t ∈ (tokenize "(1 ," none).toList,
        d = .unexpected .closeParen t ∧ (d' = .noOperand t ∨ d' = .integerTooLarge t) := by
  have hr : Reads (tokenize "(1 ," none) .lowest 1 _ [] 1 := .atom (by cbv) fun _ => by cbv
  have hu : Reads (tokenize "(1 ," none) .lowest 0 _ _ 1 :=
    .unclosed (by cbv) hr (.inr (by cbv)) (of_decide_eq_false (by cbv))
  have hs : ReadsStmt (tokenize "(1 ," none) 0 _ _ 1 :=
    .bare (by cbv) hu (.inl rfl) (of_decide_eq_false (by cbv))
  have hs' : ReadsStmt (tokenize "(1 ," none) 2 _ _ 2 :=
    .bare (by cbv) (.refused (by cbv)) (.inl rfl) (of_decide_eq_false (by cbv))
  have ht := Runs.keep (of_decide_eq_false (by cbv)) hs
    (.keep (of_decide_eq_false (by cbv)) hs' (.stop (by cbv)))
  have he := (parse_of_runs ht).2
  have hsize : Text.size "(1 ,".toList ≤ Position.maxOffset := by decide
  exact ⟨hsize, _, _, he, rfl, (diagnostics_in_order hsize).2.1 [] _ _ [] he rfl⟩

end ExprLang
