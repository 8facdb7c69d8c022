import ExprLang.Proofs.Progress
import ExprLang.Proofs.Turns
import Mathlib.Data.List.Forall2

namespace ExprLang

open Grammar

/-- The tokens of `S` from `a` up to the one before `b`. -/
def Covers (S : TokenStream) (a b : Nat) (ts : List Token) : Prop :=
  S.ahead.drop a = ts ++ S.ahead.drop b

theorem Covers.trans {S : TokenStream} (h : Covers S a b ts) (h' : Covers S b c us) :
    Covers S a c (ts ++ us) := by
  rw [Covers, h, h', List.append_assoc]

theorem Covers.single {S : TokenStream} (h : (S.get a).kind ≠ .eof) :
    Covers S a (a + 1) [S.get a] :=
  TokenStream.drop_eq_cons h

theorem Covers.cons {S : TokenStream} (h : (S.get a).kind ≠ .eof) (h' : Covers S (a + 1) b ts) :
    Covers S a b (S.get a :: ts) :=
  (Covers.single h).trans h'

theorem Covers.concat {S : TokenStream} (h : Covers S a b ts) (h' : (S.get b).kind ≠ .eof) :
    Covers S a (b + 1) (ts ++ [S.get b]) :=
  h.trans (.single h')

/-- What is read with nothing on record is an operand or, where operators between operands may be
read, an expression. -/
theorem Reads.covers (h : Reads S m a e [] b) : ∃ ts, Covers S a (b + 1) ts ∧
    (IsOperand Token.InRange ts ∨ m ≠ .unary ∧ IsExpression Token.InRange ts) := by
  generalize hd : ([] : List Diagnostic) = ds at h
  induction h with
  | refused => cases hd
  | tooLarge => cases hd
  | atom ho hr => exact ⟨_, .single (Kind.ne_eof_of_opening? ho), .inl (.atom ho hr)⟩
  | unary ho _ ih =>
    obtain ⟨ts, hc, hu⟩ := ih hd
    rcases hu with hu | ⟨hm, _⟩
    · exact ⟨_, hc.cons (Kind.ne_eof_of_opening? ho), .inl (.operator ho hu)⟩
    · exact absurd rfl hm
  | @group a e b m ho _ hk ih =>
    obtain ⟨ts, hc, hu⟩ := ih rfl
    have he : IsExpression Token.InRange ts := hu.elim .operand And.right
    have hne : (S.get (b + 1)).kind ≠ .eof := by
      rw [hk]
      nofun
    have ho' := Kind.eq_openParen ho
    exact ⟨_, (hc.concat hne).cons (Kind.ne_eof_of_opening? ho), .inl (.group ho' he hk)⟩
  | unclosed => cases hd
  | broken _ _ _ hn => exact absurd hd.symm hn
  | @binary m a l ds b r ds' c _ _ hlt _ _ ihl ihr =>
    obtain ⟨hd, hd'⟩ := List.append_eq_nil_iff.mp hd.symm
    obtain ⟨ts, hc, hu⟩ := ihl hd.symm
    obtain ⟨us, hc', hu'⟩ := ihr hd'.symm
    have hl : IsExpression Token.InRange ts := hu.elim .operand And.right
    have hr : IsExpression Token.InRange us := hu'.elim .operand And.right
    have hi := Kind.isInfix_of_lt_power hlt
    refine ⟨_, hc.trans (hc'.cons (Kind.ne_eof_of_isInfix hi)), .inr ⟨?_, hl.append hi hr⟩⟩
    rintro rfl
    exact Kind.not_unary_lt_power _ hlt

theorem Reads.isExpression (h : Reads S m a e [] b) :
    ∃ ts, Covers S a (b + 1) ts ∧ IsExpression Token.InRange ts := by
  obtain ⟨ts, hc, hu⟩ := h.covers
  exact ⟨ts, hc, hu.elim .operand And.right⟩

theorem Grammar.IsExpression.inRange (h : IsExpression Token.InRange ts) :
    ∀ t ∈ ts, t.InRange := by
  refine h.forall_mem ?_ ?_ ?_
  · intro t _ hf hk
    exact hf (ParseState.opening?_eq_atom_of_integer hk) hk
  · intro t hi hk
    rw [hk] at hi
    cases hi
  · intro t hc hk
    cases hc.symm.trans hk

/-- Where the grammar has an expression, the reader finds no fault and stops at its end. -/
theorem Reads.of_isExpression {S : TokenStream} (h : Reads S .lowest a e ds b)
    (hs : Stops S .lowest e b) (he : IsExpression Token.InRange ts)
    (hd : S.ahead.drop a = ts ++ rest) (hr : Ends rest) :
    ds = [] ∧ S.ahead.drop (b + 1) = rest := by
  have hreach := (h.reaches_expression he hd hr).2
  have hn : ds = [] := by
    apply Decidable.byContradiction
    intro hn
    obtain ⟨t, ht, hn⟩ := hreach.exists_of_ne_nil hn
    exact hn (he.inRange t ht)
  subst hn
  exact ⟨rfl, (hreach.of_nil (hs.isInfix h.isMissing_of_nil)).1⟩

theorem Grammar.Ends.semicolon {t : Token} (h : t.kind = .semicolon) (rest : List Token) :
    Ends (t :: rest) := by
  refine .cons ?_ rest
  rw [h]
  rfl

theorem ReadsValue.of_isExpression {S : TokenStream} (h : ReadsValue S a e ds b)
    (he : IsExpression Token.InRange ts) (hk : semicolon.kind = .semicolon)
    (hd : S.ahead.drop a = ts ++ semicolon :: rest) :
    ds = [] ∧ e.isMissing = false ∧ S.ahead.drop (b + 1) = rest := by
  cases h with
  | ended hr hk' =>
    have hd := (hr.of_isExpression (.semicolon hk') he hd (.semicolon hk _)).2
    exact ⟨rfl, hr.isMissing_of_nil, (TokenStream.get_of_drop_eq_cons hd).2⟩
  | skipped hr hs hn => exact absurd (hr.of_isExpression hs he hd (.semicolon hk _)).1 hn

theorem LacksEnd.not_isExpression {S : TokenStream} (h : LacksEnd S a b e)
    (he : IsExpression fits ts) (hk : semicolon.kind = .semicolon) :
    S.ahead.drop a ≠ ts ++ semicolon :: rest := by
  intro hd
  have hreach := (h.reads.reaches_expression he hd (.semicolon hk _)).2
  have hd := (hreach.of_nil (h.stops.isInfix h.reads.isMissing_of_nil)).1
  rw [← (TokenStream.get_of_drop_eq_cons hd).1] at hk
  exact h.lacks hk

theorem Kind.stmtKind?_of_opening? {k : Kind} (h : k.opening? ≠ none) : k.stmtKind? = none := by
  cases k <;> first | rfl | exact absurd rfl h

theorem Grammar.IsExpression.stmtKind?_eq_none {S : TokenStream} (h : IsExpression fits ts)
    (hd : S.ahead.drop a = ts ++ rest) : (S.get a).kind.stmtKind? = none := by
  obtain ⟨t, ts, rfl, ho⟩ := h.begins
  rw [(TokenStream.get_of_drop_eq_cons hd).1]
  exact Kind.stmtKind?_of_opening? ho

theorem get_drop_three {S : TokenStream} {t t' t'' : Token} {rest : List Token}
    (h : S.ahead.drop a = t :: t' :: t'' :: rest) :
    S.get a = t ∧ S.get (a + 1) = t' ∧ S.get (a + 2) = t'' ∧ S.ahead.drop (a + 3) = rest := by
  obtain ⟨h₀, h⟩ := TokenStream.get_of_drop_eq_cons h
  obtain ⟨h₁, h⟩ := TokenStream.get_of_drop_eq_cons h
  obtain ⟨h₂, h⟩ := TokenStream.get_of_drop_eq_cons h
  exact ⟨h₀, h₁, h₂, h⟩

/-- What may follow a statement of the grammar so that the reader does not go on with it. -/
def Grammar.MayFollow (form : Form) (rest : List Token) : Prop :=
  form = .bare → Ends rest ∧ ∀ t ∈ rest.head?, t.kind ≠ .semicolon

theorem missing_iff {e : Expr} {form : Form} (h : e.isMissing = false)
    (hf : form ≠ .returningNothing) : e = .missing ↔ form = .returningNothing := by
  refine ⟨?_, fun hn => absurd hn hf⟩
  rintro rfl
  cases h

/-- Where the grammar has a statement that is cut off right, the reader keeps that statement. -/
theorem ReadsStmt.of_isStatement {S : TokenStream} (h : ReadsStmt S a s ds b)
    (hs : IsStatement Token.InRange form ts) (hd : S.ahead.drop a = ts ++ rest)
    (hf : MayFollow form rest) :
    ds = [] ∧ form.Describes s ∧ S.ahead.drop (b + 1) = rest := by
  cases hs with
  | binding hw hn ha he hk =>
    obtain ⟨rfl, rfl, rfl, hd₃⟩ := get_drop_three hd
    obtain ⟨_, _, e, rfl, hv⟩ := h.of_letWord hw
    obtain ⟨rfl, hm, hb⟩ := hv.of_isExpression he hk (hd₃.trans (List.append_assoc _ _ _))
    exact ⟨rfl, ⟨rfl, rfl, missing_iff hm (by nofun)⟩, hb⟩
  | @returning word semicolon value hw he hk =>
    obtain ⟨rfl, hd₁⟩ := TokenStream.get_of_drop_eq_cons hd
    have hd₁ := hd₁.trans (List.append_assoc value [semicolon] rest)
    obtain ⟨t, value', rfl, ho⟩ := he.begins
    have hb : Begins t.kind := .inl ho
    rw [← (TokenStream.get_of_drop_eq_cons hd₁).1] at hb
    rcases h.of_returnWord hw with ⟨hn, _⟩ | ⟨_, e, rfl, hv⟩
    · exact absurd hn hb.ne_semicolon
    · obtain ⟨rfl, hm, hb⟩ := hv.of_isExpression he hk hd₁
      exact ⟨rfl, ⟨rfl, rfl, missing_iff hm (by nofun)⟩, hb⟩
  | returningNothing hw hk =>
    obtain ⟨rfl, hd₁⟩ := TokenStream.get_of_drop_eq_cons hd
    obtain ⟨rfl, hd₂⟩ := TokenStream.get_of_drop_eq_cons hd₁
    rcases h.of_returnWord hw with ⟨_, rfl, rfl, rfl⟩ | ⟨hn, _⟩
    · exact ⟨rfl, ⟨rfl, rfl, iff_of_true rfl rfl⟩, hd₂⟩
    · exact absurd hk hn
  | @closed semicolon value he hk =>
    have hd := hd.trans (List.append_assoc value [semicolon] rest)
    obtain ⟨e, c, rfl, hr, hs, hc⟩ := h.of_none (he.stmtKind?_eq_none hd)
    obtain ⟨rfl, hd₁⟩ := hr.of_isExpression hs he hd (.semicolon hk _)
    obtain ⟨rfl, hd₂⟩ := TokenStream.get_of_drop_eq_cons hd₁
    rcases hc with ⟨_, rfl⟩ | ⟨hn, _⟩
    · exact ⟨rfl, ⟨rfl, rfl, missing_iff hr.isMissing_of_nil (by nofun)⟩, hd₂⟩
    · exact absurd hk hn
  | bare he =>
    obtain ⟨e, c, rfl, hr, hs, hc⟩ := h.of_none (he.stmtKind?_eq_none hd)
    obtain ⟨hends, hn⟩ := hf rfl
    obtain ⟨rfl, hd⟩ := hr.of_isExpression hs he hd hends
    rcases hc with ⟨hk, _⟩ | ⟨_, rfl⟩
    · have hne : (S.get (c + 1)).kind ≠ .eof := by
        rw [hk]
        nofun
      have hh := TokenStream.drop_eq_cons hne
      rw [hd] at hh
      exact absurd hk (hn _ (by rw [hh]; rfl))
    · exact ⟨rfl, ⟨rfl, rfl, missing_iff hr.isMissing_of_nil (by nofun)⟩, hd⟩

theorem FailsStmt.not_isStatement {S : TokenStream} (h : FailsStmt S a d b)
    (hs : IsStatement fits form ts) : S.ahead.drop a ≠ ts ++ rest := by
  intro hd
  cases hs with
  | binding hw hn ha he hk =>
    obtain ⟨rfl, rfl, rfl, hd₃⟩ := get_drop_three hd
    rcases h.of_letWord hw with ⟨hn', _⟩ | ⟨_, ha', _⟩ | ⟨_, _, e, hv⟩
    · exact hn' hn
    · exact ha' ha
    · exact hv.not_isExpression he hk (hd₃.trans (List.append_assoc _ _ _))
  | returning hw he hk =>
    obtain ⟨rfl, hd₁⟩ := TokenStream.get_of_drop_eq_cons hd
    obtain ⟨_, e, hv⟩ := h.of_returnWord hw
    exact hv.not_isExpression he hk (hd₁.trans (List.append_assoc _ _ _))
  | returningNothing hw hk =>
    obtain ⟨rfl, hd₁⟩ := TokenStream.get_of_drop_eq_cons hd
    obtain ⟨rfl, hd₂⟩ := TokenStream.get_of_drop_eq_cons hd₁
    exact (h.of_returnWord hw).1 hk
  | closed he hk =>
    have hd := hd.trans (List.append_assoc _ _ _)
    have ho := Kind.ne_of_stmtKind?_eq_none (he.stmtKind?_eq_none hd)
    exact h.opens.elim ho.1 ho.2
  | bare he =>
    have ho := Kind.ne_of_stmtKind?_eq_none (he.stmtKind?_eq_none hd)
    exact h.opens.elim ho.1 ho.2

theorem ReadsValue.isExpression {S : TokenStream} (h : ReadsValue S a e [] b) :
    ∃ ts, IsExpression Token.InRange ts ∧ (S.get b).kind = .semicolon ∧ Covers S a b ts := by
  cases h with
  | ended hr hk =>
    obtain ⟨ts, hc, he⟩ := hr.isExpression
    exact ⟨ts, he, hk, hc⟩
  | skipped _ _ hn => exact absurd rfl hn

theorem ReadsStmt.isStatement {S : TokenStream} (h : ReadsStmt S a s [] b) :
    ∃ form ts, IsStatement Token.InRange form ts ∧ Covers S a (b + 1) ts := by
  have hne {i : Nat} {k : Kind} (hk : (S.get i).kind = k) (hn : k ≠ .eof) :
      (S.get i).kind ≠ .eof := hk ▸ hn
  cases h with
  | binding hw hn ha hv =>
    obtain ⟨ts, he, hk, hc⟩ := hv.isExpression
    have hc := hc.concat (hne hk nofun)
    exact ⟨_, _, .binding hw hn ha he hk, ((hc.cons (hne ha nofun)).cons (hne hn nofun)).cons
      (hne hw nofun)⟩
  | returning hw _ hv =>
    obtain ⟨ts, he, hk, hc⟩ := hv.isExpression
    have hc := hc.concat (hne hk nofun)
    exact ⟨_, _, .returning hw he hk, hc.cons (hne hw nofun)⟩
  | returningNothing hw hk =>
    exact ⟨_, _, .returningNothing hw hk, (Covers.single (hne hk nofun)).cons (hne hw nofun)⟩
  | closed _ hr _ hk =>
    obtain ⟨ts, hc, he⟩ := hr.isExpression
    exact ⟨_, _, .closed he hk, hc.concat (hne hk nofun)⟩
  | bare _ hr =>
    obtain ⟨ts, hc, he⟩ := hr.isExpression
    exact ⟨_, _, .bare he, hc⟩

theorem Runs.isSentence {S : TokenStream} (h : Runs S a turns) (hS : S.Closed)
    (hd : turns.flatMap Turn.diagnostics = []) :
    ∃ parts, IsSentence Token.InRange parts (S.ahead.drop a) := by
  induction h with
  | stop hk =>
    have hn := List.drop_eq_nil_of_le (hS.kind_eq_eof_iff.mp hk)
    exact ⟨[], List.forall_mem_nil _, hn.symm⟩
  | keep _ hr _ ih =>
    obtain ⟨rfl, hd⟩ := List.append_eq_nil_iff.mp hd
    obtain ⟨form, ts, hs, hc⟩ := hr.isStatement
    obtain ⟨parts, hp⟩ := ih hd
    refine ⟨(form, ts) :: parts, List.forall_mem_cons.mpr ⟨hs, hp.statements⟩, ?_⟩
    rw [hc, ← hp.tokens, List.flatMap_cons]
  | drop => cases hd

theorem Grammar.IsSentence.mayFollow {part : Form × List Token}
    (h : IsSentence fits (part :: parts) ts) (hs : Separated (part :: parts)) :
    MayFollow part.1 (parts.flatMap Prod.snd) := by
  intro hb
  have hbegins := begins_of_parts (List.forall_mem_cons.mp h.statements).2
  constructor
  · intro t ht
    rw [Bool.eq_false_iff]
    intro hi
    have hm := (hbegins t ht).minus_of_isInfix hi
    apply hs.1 hb
    rw [ht, Option.map_some, hm]
  · intro t ht
    exact (hbegins t ht).ne_semicolon

theorem Grammar.IsSentence.drop_eq {S : TokenStream} {part : Form × List Token}
    (h : IsSentence fits (part :: parts) (S.ahead.drop a)) :
    S.ahead.drop a = part.2 ++ parts.flatMap Prod.snd := by
  rw [← h.tokens, List.flatMap_cons]

theorem ReadsStmt.of_isSentence {S : TokenStream} {part : Form × List Token}
    (h : ReadsStmt S a s ds b)
    (hp : IsSentence Token.InRange (part :: parts) (S.ahead.drop a))
    (hs : Separated (part :: parts)) :
    ds = [] ∧ part.1.Describes s ∧ IsSentence Token.InRange parts (S.ahead.drop (b + 1)) := by
  obtain ⟨hpart, hparts⟩ := List.forall_mem_cons.mp hp.statements
  obtain ⟨rfl, hf, hd⟩ := h.of_isStatement hpart hp.drop_eq (hp.mayFollow hs)
  exact ⟨rfl, hf, hparts, hd.symm⟩

theorem Grammar.IsSentence.eq_nil (h : IsSentence fits parts []) : parts = [] := by
  cases parts with
  | nil => rfl
  | cons part parts =>
    have hn := List.append_eq_nil_iff.mp (List.flatMap_cons.symm.trans h.tokens)
    exact absurd hn.1 (h.statements part List.mem_cons_self).ne_nil

theorem Grammar.IsSentence.of_eof {S : TokenStream}
    (h : IsSentence fits parts (S.ahead.drop a)) (hS : S.Closed) (hk : (S.get a).kind = .eof) :
    parts = [] := by
  rw [List.drop_eq_nil_of_le (hS.kind_eq_eof_iff.mp hk)] at h
  exact h.eq_nil

theorem Grammar.IsSentence.exists_cons {S : TokenStream}
    (h : IsSentence fits parts (S.ahead.drop a)) (hk : (S.get a).kind ≠ .eof) :
    ∃ part parts', parts = part :: parts' := by
  refine List.exists_cons_of_ne_nil ?_
  rintro rfl
  exact hk (TokenStream.kind_of_drop_eq_nil h.tokens.symm)

/-- A run over a cut text keeps one statement for each part and records nothing. -/
theorem Runs.of_isSentence {S : TokenStream} (h : Runs S a turns) (hS : S.Closed)
    (hp : IsSentence Token.InRange parts (S.ahead.drop a)) (hs : Separated parts) :
    turns.flatMap Turn.diagnostics = [] ∧
      List.Forall₂ (fun part s => part.1.Describes s) parts (turns.filterMap Turn.stmt?) := by
  induction h generalizing parts with
  | stop hk =>
    obtain rfl := hp.of_eof hS hk
    exact ⟨rfl, .nil⟩
  | keep hk hr _ ih =>
    obtain ⟨part, parts, rfl⟩ := hp.exists_cons hk
    obtain ⟨rfl, hf, hp⟩ := hr.of_isSentence hp hs
    obtain ⟨hd, hall⟩ := ih hp hs.2
    exact ⟨hd, .cons hf hall⟩
  | drop hk hf _ _ _ =>
    obtain ⟨part, parts, rfl⟩ := hp.exists_cons hk
    exact absurd hp.drop_eq (hf.not_isStatement (hp.statements part List.mem_cons_self))

/-- There is one way to cut a text into statements whose expressions are as long as can be. -/
theorem Runs.sentence_unique {S : TokenStream} (h : Runs S a turns) (hS : S.Closed)
    (hp : IsSentence Token.InRange parts (S.ahead.drop a)) (hs : Separated parts)
    (hp' : IsSentence Token.InRange parts' (S.ahead.drop a)) (hs' : Separated parts') :
    parts = parts' := by
  induction h generalizing parts parts' with
  | stop hk => rw [hp.of_eof hS hk, hp'.of_eof hS hk]
  | keep hk hr _ ih =>
    obtain ⟨part, parts, rfl⟩ := hp.exists_cons hk
    obtain ⟨part', parts', rfl⟩ := hp'.exists_cons hk
    obtain ⟨_, hf, hq⟩ := hr.of_isSentence hp hs
    obtain ⟨_, hf', hq'⟩ := hr.of_isSentence hp' hs'
    have hts : part.2 = part'.2 := by
      have hd := hp.drop_eq.symm.trans hp'.drop_eq
      rw [hq.tokens, hq'.tokens] at hd
      exact List.append_cancel_right hd
    have hb := (hp.statements part List.mem_cons_self).bare_iff
    have hb' := (hp'.statements part' List.mem_cons_self).bare_iff
    rw [← hts] at hb'
    rw [ih hq hs.2 hq' hs'.2, Prod.ext (Form.eq_of_describes hf hf' (hb.trans hb'.symm)) hts]
  | drop hk hf _ _ _ =>
    obtain ⟨part, parts, rfl⟩ := hp.exists_cons hk
    exact absurd hp.drop_eq (hf.not_isStatement (hp.statements part List.mem_cons_self))

/-- A text is read with nothing on record just in case its tokens are those of statements of the
grammar whose integers are in range. Then there is one way to cut it into statements such that no
expression without its semicolon stands right before a minus, and the program has a statement for
each, of the same form. -/
theorem parse_accepts_iff (source : String) (file : Option String) :
    ((parse source file).2.errors = #[] ↔
      ∃ parts, IsSentence Token.InRange parts (tokenize source file).ahead) ∧
    ((parse source file).2.errors = #[] ↔
      ∃ parts, (IsSentence Token.InRange parts (tokenize source file).ahead ∧ Separated parts) ∧
        (∀ parts', IsSentence Token.InRange parts' (tokenize source file).ahead ∧
          Separated parts' → parts' = parts) ∧
        List.Forall₂ (fun part s => part.1.Describes s) parts
          (parse source file).1.statements) := by
  have hS : (tokenize source file).Closed := Cursor.closed_tokens _
  obtain ⟨turns, ht⟩ := exists_runs (tokenize source file) 0
  obtain ⟨hstmts, herrors⟩ := parse_of_runs ht
  have hnil : (parse source file).2.errors = #[] ↔ turns.flatMap Turn.diagnostics = [] := by
    rw [← herrors, Array.toList_eq_nil_iff]
  have hiff : (parse source file).2.errors = #[] ↔
      ∃ parts, IsSentence Token.InRange parts (tokenize source file).ahead := by
    rw [hnil]
    constructor
    · exact ht.isSentence hS
    · rintro ⟨parts, hp⟩
      obtain ⟨parts', hp', hs'⟩ := hp.exists_separated
      exact (ht.of_isSentence hS hp' hs').1
  refine ⟨hiff, ?_, ?_⟩
  · intro he
    obtain ⟨parts, hp⟩ := hiff.mp he
    obtain ⟨parts', hp', hs'⟩ := hp.exists_separated
    refine ⟨parts', ⟨hp', hs'⟩, ?_, ?_⟩
    · rintro other ⟨hq, hqs⟩
      exact ht.sentence_unique hS hq hqs hp' hs'
    · rw [hstmts]
      exact (ht.of_isSentence hS hp' hs').2
  · rintro ⟨parts, ⟨hp, _⟩, _⟩
    exact hiff.mpr ⟨parts, hp⟩

end ExprLang
