import ExprLang.Proofs.Rounds
import ExprLang.Proofs.Segmentation
import Mathlib

namespace ExprLang

/-- The number that a numeral stands for, the digit at its end being worth the least. -/
def Text.Decimal.worth (numeral : List Char) : Nat :=
  Nat.ofDigits 10 (numeral.reverse.map fun c => c.toNat - '0'.toNat)

theorem Text.Decimal.value_eq_worth (numeral : List Char) : value numeral = worth numeral := by
  induction numeral using List.reverseRecOn with
  | nil => rfl
  | append_singleton numeral c ih =>
    rw [value_append_singleton, ih, worth, worth, List.reverse_append, List.reverse_singleton,
      List.singleton_append, List.map_cons, Nat.ofDigits_cons, Nat.add_comm]

/-- The operator nodes and the leaves of an expression. -/
def Expr.nodes : Expr → List Expr
  | missing => []
  | unary token operator operand => unary token operator operand :: operand.nodes
  | binary token left operator right =>
    binary token left operator right :: (left.nodes ++ right.nodes)
  | leaf => [leaf]

/-- The token is the name `name`: a word of letters that is not reserved. -/
structure Token.Names (t : Token) (name : String) : Prop where
  kind : t.kind = .identifier
  literal : name = t.literal
  ne_empty : name ≠ ""
  letters : ∀ c ∈ name.toList, c.isAlpha = true
  free : name ∉ Kind.reserved

/-- A node says what its token `t` says. -/
def Expr.AgreesWith (t : Token) : Expr → Prop
  | missing => False
  | ident token name => token = t ∧ t.Names name
  | int token value => token = t ∧ t.kind = .integer ∧
      value = Text.Decimal.worth t.literal.toList ∧ 0 ≤ value ∧ value ≤ 2 ^ 63 - 1
  | bool token value => token = t ∧ t.kind ∈ [Kind.trueWord, .falseWord] ∧
      (value = true ↔ t.kind = .trueWord)
  | unary token operator _ => token = t ∧ operator = t.literal ∧ operator ∈ ["!", "-"]
  | binary token _ operator _ => token = t ∧ operator = t.literal ∧
      operator ∈ ["==", "!=", "<", ">", "+", "-", "*", "/"]

/-- A statement has the word that opens its form, and a name that its token says. -/
def Stmt.IsOpened : Stmt → Prop
  | binding token binder _ => token.kind = .letWord ∧ binder.token.Names binder.name
  | returning token _ => token.kind = .returnWord
  | expression token _ => token.kind ∉ [Kind.letWord, .returnWord]

theorem Token.names_of_fits {t : Token} (hk : t.kind = .identifier)
    (h : t.kind.Fits t.literal.toList) : t.Names t.literal := by
  rw [hk] at h
  obtain ⟨hn, hl, hf⟩ := h
  refine ⟨hk, rfl, ?_, hl, ?_⟩
  · intro he
    exact hn (by rw [he]; rfl)
  · rwa [String.ofList_toList] at hf

theorem Token.agreesWith_atom {t : Token} (ho : t.kind.opening? = some .atom) (hr : t.InRange)
    (h : t.kind.Fits t.literal.toList) :
    ∀ e ∈ (Grammar.Surface.atom t).expr.nodes, e.AgreesWith t := by
  simp only [Grammar.Surface.expr]
  cases hk : t.kind with
  | integer =>
    have hv := hr hk
    refine List.forall_mem_singleton.mpr ⟨rfl, hk, ?_, Int.natCast_nonneg _, ?_⟩
    · rw [Text.Decimal.value_eq_worth]
    · exact Int.ofNat_le.mpr hv
  | identifier => exact List.forall_mem_singleton.mpr ⟨rfl, t.names_of_fits hk h⟩
  | trueWord =>
    refine List.forall_mem_singleton.mpr ⟨rfl, ?_, ?_⟩ <;> simp [hk]
  | falseWord =>
    refine List.forall_mem_singleton.mpr ⟨rfl, ?_, ?_⟩ <;> simp [hk]
  | _ =>
    rw [hk] at ho
    cases ho

/-- A token of a kind that has but one text has that text. -/
theorem Kind.Fits.eq_text {k : Kind} {literal text : String} (h : k.Fits literal.toList)
    (hk : k.text? = some text) : literal = text := by
  have ht : k.text? = some (String.ofList literal.toList) := by
    cases k <;> first | exact h | cases hk
  rw [String.ofList_toList] at ht
  exact Option.some.inj (ht.symm.trans hk)

theorem Kind.exists_text_of_opening? {k : Kind} (h : k.opening? = some .operator) :
    ∃ text ∈ ["!", "-"], k.text? = some text := by
  cases k <;> cases h <;> exact ⟨_, by decide, rfl⟩

theorem Kind.exists_text_of_isInfix {k : Kind} (h : k.isInfix = true) :
    ∃ text ∈ ["==", "!=", "<", ">", "+", "-", "*", "/"], k.text? = some text := by
  cases k <;> first | exact ⟨_, by decide, rfl⟩ | cases h

theorem Token.agreesWith_unary {t : Token} (ho : t.kind.opening? = some .operator)
    (h : t.kind.Fits t.literal.toList) (operand : Expr) :
    (Expr.unary t t.literal operand).AgreesWith t := by
  obtain ⟨text, hm, ht⟩ := Kind.exists_text_of_opening? ho
  refine ⟨rfl, rfl, ?_⟩
  rwa [h.eq_text ht]

theorem Token.agreesWith_binary {t : Token} (hi : t.kind.isInfix = true)
    (h : t.kind.Fits t.literal.toList) (left right : Expr) :
    (Expr.binary t left t.literal right).AgreesWith t := by
  obtain ⟨text, hm, ht⟩ := Kind.exists_text_of_isInfix hi
  refine ⟨rfl, rfl, ?_⟩
  rwa [h.eq_text ht]

/-- Every node of `e` says what a token of `S` says. -/
def TokenStream.Backs (S : TokenStream) (e : Expr) : Prop :=
  ∀ node ∈ e.nodes, ∃ t ∈ S.ahead, node.AgreesWith t

theorem TokenStream.get_mem {S : TokenStream} (h : (S.get i).kind ≠ .eof) : S.get i ∈ S.ahead := by
  have hi := lt_of_kind_ne_eof h
  rw [get_of_lt hi]
  exact List.getElem_mem hi

theorem fits_of_mem_tokenize (h : t ∈ (tokenize source file).ahead) :
    t.kind.Fits t.literal.toList :=
  (Cursor.spelled_of_mem_tokens h).fits

section

variable {S : TokenStream} {p : ParseState}

theorem TokenStream.backs_missing (S : TokenStream) : S.Backs .missing := List.forall_mem_nil _

/-- Whatever is read, and whatever is wrong with it, its nodes say what tokens of the text say. -/
theorem Reads.backs (hS : ∀ t ∈ S.ahead, t.kind.Fits t.literal.toList)
    (h : Reads S m a e ds b) : S.Backs e := by
  induction h with
  | refused => exact S.backs_missing
  | tooLarge => exact S.backs_missing
  | atom ho hr =>
    have hm := TokenStream.get_mem (Kind.ne_eof_of_opening? ho)
    intro node hn
    exact ⟨_, hm, Token.agreesWith_atom ho hr (hS _ hm) node hn⟩
  | unary ho _ ih =>
    have hm := TokenStream.get_mem (Kind.ne_eof_of_opening? ho)
    exact List.forall_mem_cons.mpr ⟨⟨_, hm, Token.agreesWith_unary ho (hS _ hm) _⟩, ih⟩
  | group _ _ _ ih => exact ih
  | unclosed => exact S.backs_missing
  | broken _ _ _ _ ih => exact ih
  | binary _ _ hlt _ _ ihl ihr =>
    have hi := Kind.isInfix_of_lt_power hlt
    have hm := TokenStream.get_mem (Kind.ne_eof_of_isInfix hi)
    exact List.forall_mem_cons.mpr ⟨⟨_, hm, Token.agreesWith_binary hi (hS _ hm) _ _⟩,
      List.forall_mem_append.mpr ⟨ihl, ihr⟩⟩

theorem ReadsValue.backs (hS : ∀ t ∈ S.ahead, t.kind.Fits t.literal.toList)
    (h : ReadsValue S a e ds b) : S.Backs e := by
  cases h with
  | ended hr => exact hr.backs hS
  | skipped hr => exact hr.backs hS

theorem ReadsStmt.backs (hS : ∀ t ∈ S.ahead, t.kind.Fits t.literal.toList)
    (h : ReadsStmt S a s ds b) : S.Backs s.value := by
  cases h with
  | binding _ _ _ hv => exact hv.backs hS
  | returning _ _ hv => exact hv.backs hS
  | returningNothing => exact S.backs_missing
  | closed _ hr => exact hr.backs hS
  | bare _ hr => exact hr.backs hS

theorem ReadsStmt.isOpened (hS : ∀ t ∈ S.ahead, t.kind.Fits t.literal.toList)
    (h : ReadsStmt S a s ds b) : s.IsOpened := by
  have hword (hk : (S.get a).kind.stmtKind? = none) :
      (S.get a).kind ∉ [Kind.letWord, .returnWord] := by
    simpa using Kind.ne_of_stmtKind?_eq_none hk
  cases h with
  | binding hw hn => exact ⟨hw, Token.names_of_fits hn (hS _ (TokenStream.get_mem (hn ▸ nofun)))⟩
  | returning hw => exact hw
  | returningNothing hw => exact hw
  | closed hk => exact hword hk
  | bare hk => exact hword hk

theorem ReadsStmt.binder_mem (h : ReadsStmt S a s ds b) :
    ∀ binder ∈ s.binder?, binder.token ∈ S.ahead := by
  cases h with
  | binding _ hn =>
    rintro binder ⟨rfl⟩
    exact TokenStream.get_mem (hn ▸ nofun)
  | _ => exact nofun

theorem ReadsStmt.of_ok (h : StmtReader.statement p = .ok s q) (hp : p.tokens = S.drop a) :
    ∃ ds b, ReadsStmt S a s ds b := by
  rcases StmtReader.exists_readsStmt S a with ⟨s', ds, b, hr⟩ | ⟨d, b, hf⟩
  · obtain ⟨q', he, -⟩ := StmtReader.statement_of_reads hr hp
    cases h.symm.trans he
    exact ⟨ds, b, hr⟩
  · obtain ⟨q', he, -⟩ := StmtReader.statement_of_fails hf hp
    cases h.symm.trans he

/-- A statement of a text is kept by one of the rounds, and read from the token at which that one
starts. -/
theorem exists_kept (hp : p.tokens = S.drop a) (hs : s ∈ p.readStatements.1) :
    ∃ n b, (ParseState.nextRound^[n] p).tokens = S.drop b ∧ (S.get b).kind ≠ .eof ∧
      (ParseState.nextRound^[n] p).kept? = some s := by
  induction hn : S.ahead.length - a using Nat.strongRecOn generalizing p a with
  | ind n ih =>
    by_cases hk : p.current.kind = .eof
    · rw [ParseState.readStatements_of_eof hk] at hs
      cases hs
    rw [ParseState.readStatements_eq_round hk] at hs
    rw [ParseState.current_eq hp] at hk
    rcases List.mem_append.mp hs with hs | hs
    · exact ⟨0, a, hp, hk, Option.mem_toList.mp hs⟩
    · obtain ⟨b, ds, hr⟩ := exists_round hp
      have ha := TokenStream.lt_of_kind_ne_eof hk
      have hb := hr.lt
      obtain ⟨k, c, hc⟩ := ih _ (by omega) hr.moves.tokens hs rfl
      exact ⟨k + 1, c, hc⟩

theorem ParseState.statement_of_kept? (h : p.kept? = some s) :
    ∃ q, StmtReader.statement p = .ok s q := by
  cases hr : StmtReader.statement p with
  | ok s' q =>
    rw [(kept?_of_ok hr).1] at h
    cases h
    exact ⟨q, rfl⟩
  | error d q =>
    rw [(kept?_of_error hr).1] at h
    cases h

/-- An integer that opens an expression stays in it, whatever operators follow. -/
theorem Reads.int_mem_nodes (h : Reads S m a e ds b) (hk : (S.get a).kind = .integer)
    (hr : (S.get a).InRange) :
    .int (S.get a) (Text.Decimal.value (S.get a).literal.toList) ∈ e.nodes := by
  have ho := ParseState.opening?_eq_atom_of_integer hk
  induction h with
  | refused hn => cases hn.symm.trans ho
  | tooLarge _ hn => exact absurd hr hn
  | atom =>
    simp only [Grammar.Surface.expr, hk]
    exact List.mem_singleton_self _
  | unary hn => cases hn.symm.trans ho
  | group hn => cases hn.symm.trans ho
  | unclosed hn => cases hn.symm.trans ho
  | broken hn => cases hn.symm.trans ho
  | binary _ _ _ _ _ ih =>
    exact List.mem_cons_of_mem _ (List.mem_append_left _ (ih hk hr ho))

theorem ParseState.readExpr_tooLarge (hk : p.current.kind = .integer) (hr : ¬ p.current.InRange)
    (m : Power) : p.readExpr m = (.missing, p.record (.integerTooLarge p.current)) := by
  have ho := readOperand_opening (opening?_eq_atom_of_integer hk)
  rw [readOpening, readAtom_tooLarge hk hr] at ho
  rw [readExpr_of_readOperand ho]
  rfl

end

/-- What holds of a statement of the text: a round of reading keeps it and starts at its token, its
word and its name are those of its tokens, and so are the nodes of its value. -/
structure Stmt.IsBacked (source : String) (file : Option String) (s : Stmt) : Prop where
  kept : ∃ n, (ParseState.nextRound^[n] (.start (tokenize source file))).kept? = some s ∧
    s.token = (ParseState.nextRound^[n] (.start (tokenize source file))).current
  token : s.token ∈ (tokenize source file).ahead
  opened : s.IsOpened
  binder : ∀ binder ∈ s.binder?, binder.token ∈ (tokenize source file).ahead
  value : (tokenize source file).Backs s.value

theorem ParseState.readOperand_integer {p : ParseState} (hk : p.current.kind = .integer)
    (hr : p.current.InRange) :
    p.readOperand = (.int p.current (Text.Decimal.value p.current.literal.toList), p) := by
  have ho := opening?_eq_atom_of_integer hk
  rw [readOperand_opening ho, readOpening, readAtom_eq ho hr]
  simp only [Grammar.Surface.expr, hk]

open Text.Decimal ParseState in
/-- A program says what the tokens of its text say, also where something is wrong. And an integer at
which an operand starts is that operand exactly if it is in range; else it is on record. -/
theorem program_agrees (source : String) (file : Option String) :
    (∀ s ∈ (parse source file).1.statements, s.IsBacked source file) ∧
      ∀ (p : ParseState) (m : Power), p.current.kind = .integer →
        (p.readOperand = (.int p.current (worth p.current.literal.toList), p) ∧
          .int p.current (worth p.current.literal.toList) ∈ (p.readExpr m).1.nodes ↔
            worth p.current.literal.toList ≤ 2 ^ 63 - 1) ∧
        (p.readExpr m = (.missing, p.record (.integerTooLarge p.current)) ↔
          2 ^ 63 - 1 < worth p.current.literal.toList) := by
  constructor
  · intro s hs
    have hS : ∀ t ∈ (tokenize source file).ahead, t.kind.Fits t.literal.toList :=
      fun t ht => fits_of_mem_tokenize ht
    have hp : (start (tokenize source file)).tokens = (tokenize source file).drop 0 := rfl
    obtain ⟨n, a, ha, hk, hkept⟩ := exists_kept hp hs
    obtain ⟨q, hq⟩ := statement_of_kept? hkept
    obtain ⟨ds, b, hr⟩ := ReadsStmt.of_ok hq ha
    constructor
    · exact ⟨n, hkept, hr.token_eq.trans (current_eq ha).symm⟩
    · rw [hr.token_eq]
      exact TokenStream.get_mem hk
    · exact hr.isOpened hS
    · exact hr.binder_mem
    · exact hr.backs hS
  · intro p m hk
    rw [← value_eq_worth]
    by_cases hr : p.current.InRange
    · have hv : value p.current.literal.toList ≤ 2 ^ 63 - 1 := hr hk
      obtain ⟨ds, b, ⟨hreads, -⟩, -⟩ := follows_readExpr (S := p.tokens) (a := 0) p m rfl
      have hm := hreads.int_mem_nodes hk hr
      refine ⟨iff_of_true ⟨readOperand_integer hk hr, hm⟩ hv, iff_of_false ?_ (Nat.not_lt.mpr hv)⟩
      intro he
      rw [he] at hm
      cases hm
    · have hv : 2 ^ 63 - 1 < value p.current.literal.toList :=
        Nat.not_le.mp fun hv => hr fun _ => hv
      have he := readExpr_tooLarge hk hr m
      refine ⟨iff_of_false ?_ (Nat.not_le.mpr hv), iff_of_true he hv⟩
      rw [he]
      rintro ⟨-, hm⟩
      cases hm

/-- A sum that lacks its right operand is a node, and its left operand is seven. -/
theorem broken_sum_agrees :
    (∃ s ∈ (parse "let ab = -007 + ;" none).1.statements,
      s.value.nodes.length = 3 ∧ s.IsBacked "let ab = -007 + ;" none) ∧
    ∃ p : ParseState, p.current.kind = .integer ∧
      p.readExpr .lowest = (.missing, p.record (.integerTooLarge p.current)) := by
  have hminus : Reads (tokenize "let ab = -007 + ;" none) .lowest 3 _ [] 4 :=
    .unary (by cbv) (.atom (by cbv) fun _ => by cbv)
  have hsum := Reads.binary hminus rfl (of_decide_eq_true (by cbv)) (.refused (by cbv)) (.inl rfl)
  have hs := ReadsStmt.binding (by cbv) (by cbv) (by cbv) (.skipped hsum
    (.inr (of_decide_eq_false (by cbv))) (List.cons_ne_nil _ _)
    (.stop (.inl (of_decide_eq_true (by cbv)))))
  have hm := (parse_of_runs (.keep (of_decide_eq_false (by cbv)) hs (.stop (by cbv)))).1
  have hs := List.mem_of_head? (congrArg List.head? hm)
  obtain ⟨hbacked, hinteger⟩ := program_agrees "let ab = -007 + ;" none
  refine ⟨⟨_, hs, by cbv, hbacked _ hs⟩, ?_⟩
  exact ⟨.start (tokenize "9223372036854775808 + 1" none), by cbv,
    (hinteger _ _ (by cbv)).2.mpr (of_decide_eq_true (by cbv))⟩

end ExprLang
