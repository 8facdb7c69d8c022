import ExprLang.Proofs.Printing

namespace ExprLang

/-- An expression that can be written out and read back: nothing in it is missing. -/
structure Expr.Whole (e : Expr) : Prop where
  writable : e.Writable
  complete : e.holes = 0

namespace Stmt

/-- The text of a statement stands for the statement. -/
def Writable : Stmt → Prop
  | binding token binder value => token.literal = "let" ∧ IsName binder.name ∧ value.Whole
  | returning token value => token.literal = "return" ∧ (value = .missing ∨ value.Whole)
  | expression _ value => value.Whole

/-- The tokens that the text of a statement consists of. -/
def marks : Stmt → List Mark
  | binding token binder value =>
    ⟨.letWord, token.literal⟩ :: ⟨.identifier, binder.name⟩ :: ⟨.assign, "="⟩ ::
      (value.marks ++ [⟨.semicolon, ";"⟩])
  | returning token value =>
    ⟨.returnWord, token.literal⟩ :: (value.marks ++ [⟨.semicolon, ";"⟩])
  | expression _ value => value.marks

def eraseTokens (s : Stmt) : Stmt := s.mapTokens fun _ => default

end Stmt

def Program.eraseTokens (p : Program) : Program := p.mapTokens fun _ => default

/-- Every token of a stream is spelled as tokens of its kind are. -/
def TokenStream.Genuine (S : TokenStream) : Prop :=
  ∀ t ∈ S.ahead, t.kind.Spelled t.literal.toList

theorem genuine_tokenize (source : String) (file : Option String) :
    (tokenize source file).Genuine :=
  fun _ ht => Cursor.spelled_of_mem_tokens ht

theorem TokenStream.Genuine.get {S : TokenStream} (h : S.Genuine) (hk : (S.get i).kind = k)
    (hn : k ≠ .eof) : k.Spelled (S.get i).literal.toList := by
  have hi := TokenStream.lt_of_kind_ne_eof (hk ▸ hn)
  rw [← hk, TokenStream.get_of_lt hi]
  exact h _ (List.getElem_mem hi)

theorem Token.writable_atom {t : Token} (ho : t.kind.opening? = some .atom) (hr : t.InRange)
    (hs : t.kind.Spelled t.literal.toList) : (Grammar.Surface.atom t).expr.Writable := by
  simp only [Grammar.Surface.expr]
  cases hk : t.kind with
  | integer => exact ⟨Int.natCast_nonneg _, Int.ofNat_le.mpr (hr hk)⟩
  | identifier =>
    rw [hk] at hs
    exact .of_spelled hs
  | trueWord => trivial
  | falseWord => trivial
  | _ =>
    rw [hk] at ho
    cases ho

theorem Token.exists_ofOperator? {t : Token} (hs : t.kind.Spelled t.literal.toList)
    (hk : t.kind.opening? = some .operator ∨ t.kind.isInfix = true) :
    Kind.ofOperator? t.literal = some t.kind := by
  have ho := hs.ofOperator? hk
  rwa [String.ofList_toList] at ho

/-- Whatever is read with nothing on record can be written out. -/
theorem Reads.writable {S : TokenStream} (hS : S.Genuine) (h : Reads S m a e [] b) :
    e.Writable := by
  generalize hd : ([] : List Diagnostic) = ds at h
  induction h with
  | refused => cases hd
  | tooLarge => cases hd
  | atom ho hr => exact Token.writable_atom ho hr (hS.get rfl (Kind.ne_eof_of_opening? ho))
  | unary ho _ ih =>
    have hk := Token.exists_ofOperator? (hS.get rfl (Kind.ne_eof_of_opening? ho)) (.inl ho)
    exact ⟨⟨_, hk, ho⟩, .inr (ih hd)⟩
  | group _ _ _ ih => exact ih rfl
  | unclosed => cases hd
  | broken _ _ _ hn => exact absurd hd.symm hn
  | binary _ _ hlt _ _ ihl ihr =>
    obtain ⟨hd, hd'⟩ := List.append_eq_nil_iff.mp hd.symm
    have hi := Kind.isInfix_of_lt_power hlt
    have hk := Token.exists_ofOperator? (hS.get rfl (Kind.ne_eof_of_isInfix hi)) (.inr hi)
    exact ⟨⟨_, hk, hi⟩, ihl hd.symm, .inr (ihr hd'.symm)⟩

theorem Reads.whole {S : TokenStream} (hS : S.Genuine) (h : Reads S m a e [] b) : e.Whole :=
  ⟨h.writable hS, h.holes_of_nil⟩

theorem ReadsValue.whole {S : TokenStream} (hS : S.Genuine) (h : ReadsValue S a e [] b) :
    e.Whole := by
  cases h with
  | ended hr => exact hr.whole hS
  | skipped _ _ hn => exact absurd rfl hn

theorem ReadsStmt.writable {S : TokenStream} (hS : S.Genuine) (h : ReadsStmt S a s [] b) :
    s.Writable := by
  cases h with
  | binding hw hn _ hv =>
    exact ⟨(hS.get hw nofun).eq_keyword rfl, .of_spelled (hS.get hn nofun), hv.whole hS⟩
  | returning hw _ hv => exact ⟨(hS.get hw nofun).eq_keyword rfl, .inr (hv.whole hS)⟩
  | returningNothing hw => exact ⟨(hS.get hw nofun).eq_keyword rfl, .inl rfl⟩
  | closed _ hr => exact hr.whole hS
  | bare _ hr => exact hr.whole hS

theorem Runs.writable {S : TokenStream} (hS : S.Genuine) (h : Runs S a turns)
    (hd : turns.flatMap Turn.diagnostics = []) :
    ∀ s ∈ turns.filterMap Turn.stmt?, s.Writable := by
  induction h with
  | stop => exact List.forall_mem_nil _
  | keep _ hr _ ih =>
    obtain ⟨rfl, hd⟩ := List.append_eq_nil_iff.mp hd
    exact List.forall_mem_cons.mpr ⟨hr.writable hS, ih hd⟩
  | drop => cases hd

theorem Spells.semicolon (h : Spells text ms) :
    Spells (';' :: text) (⟨.semicolon, ";"⟩ :: ms) :=
  .token (.symbol rfl) (fun _ _ => rfl) h

theorem Expr.Whole.spells {e : Expr} (h : e.Whole) (hs : Spells text ms) :
    Spells (e.render.toList ++ ';' :: text) (e.marks ++ ⟨.semicolon, ";"⟩ :: ms) :=
  h.writable.spells (fun k => Kind.endsBefore_of_break (.inr (.inr rfl)) k text) hs.semicolon

theorem Stmt.render_returning {e : Expr} (h : e.isMissing = false) (t : Token) :
    (returning t e).render = t.literal ++ " " ++ e.render ++ ";" := by
  cases e with
  | missing => cases h
  | _ => rfl

/-- The text of a statement consists of its marks. One without a semicolon has to be the last. -/
theorem Stmt.Writable.spells {s : Stmt} (h : s.Writable) (hr : s.kind = .expression → text = [])
    (hs : Spells text ms) : Spells (s.render.toList ++ text) (s.marks ++ ms) := by
  have hspace (k : Kind) (text : List Char) : k.EndsBefore (' ' :: text) :=
    Kind.endsBefore_of_break (.inl rfl) k text
  have hlet : Kind.letWord.Spelled "let".toList := Kind.spelled_of_keyword? rfl
  have hreturn : Kind.returnWord.Spelled "return".toList := Kind.spelled_of_keyword? rfl
  cases s with
  | binding token binder value =>
    obtain ⟨ht, hn, hv⟩ := h
    have hsign := Spells.token (k := .assign) (.symbol (c := '=') rfl) (hspace _ _)
      (.blank rfl (hv.spells hs))
    have hname := Spells.write hn.spelled (hspace _ _) (.blank rfl hsign)
    have hword := Spells.write hlet (hspace _ _) (.blank rfl hname)
    simp only [render, marks, ht, String.toList_append, List.append_assoc, List.cons_append]
    exact hword
  | returning token value =>
    obtain ⟨ht, rfl | hv⟩ := h
    · have hword := Spells.write hreturn (Kind.endsBefore_of_break (.inr (.inr rfl)) _ _)
        hs.semicolon
      simp only [render, marks, ht, String.toList_append, List.append_assoc]
      exact hword
    · have hword := Spells.write hreturn (hspace _ _) (.blank rfl (hv.spells hs))
      rw [render_returning hv.writable.isMissing]
      simp only [marks, ht, String.toList_append, List.append_assoc, List.cons_append]
      exact hword
  | expression token value =>
    obtain rfl := hr rfl
    exact Expr.Writable.spells h.writable .nil hs

/-- No statement but the last is an expression. -/
def Punctuated (statements : List Stmt) : Prop :=
  ∀ s ∈ statements.dropLast, s.kind ≠ .expression

theorem Punctuated.of_cons {ss : List Stmt} (h : Punctuated (s :: ss)) :
    (s.kind = .expression → ss = []) ∧ Punctuated ss := by
  cases ss with
  | nil => exact ⟨fun _ => rfl, List.forall_mem_nil _⟩
  | cons s' ss =>
    rw [Punctuated, List.dropLast_cons_of_ne_nil (List.cons_ne_nil s' ss)] at h
    exact ⟨fun hk => absurd hk (h s List.mem_cons_self), (List.forall_mem_cons.mp h).2⟩

theorem spells_statements {ss : List Stmt} (h : ∀ s ∈ ss, s.Writable) (hp : Punctuated ss) :
    Spells (String.join (ss.map Stmt.render)).toList (ss.flatMap Stmt.marks) := by
  induction ss with
  | nil => exact .nil
  | cons s ss ih =>
    obtain ⟨hs, hss⟩ := List.forall_mem_cons.mp h
    obtain ⟨hlast, hp⟩ := hp.of_cons
    rw [List.map_cons, String.join_cons, String.toList_append, List.flatMap_cons]
    refine hs.spells ?_ (ih hss hp)
    intro hk
    rw [hlast hk]
    rfl

theorem Shows.readsValue {S : TokenStream} {e : Expr}
    (hs : Shows S a (e.marks ++ [⟨.semicolon, ";"⟩])) (h : e.Whole) :
    ∃ e' b, ReadsValue S a e' [] b ∧ b = a + e.marks.length ∧
      e'.eraseTokens = e.eraseTokens ∧ e'.isMissing = false := by
  obtain ⟨hs, hk⟩ := hs.append
  obtain ⟨e', b, hr, hb, he⟩ := h.writable.reads h.complete hs .lowest
  rw [← hb] at hk
  exact ⟨e', b + 1, .ended hr (Token.kind_of_mark hk.cons.1), hb, he, hr.isMissing_of_nil⟩

/-- Two statements that differ in their tokens only, and not in their text. -/
structure Stmt.Alike (s s' : Stmt) : Prop where
  eraseTokens : s.eraseTokens = s'.eraseTokens
  render : s.render = s'.render

/-- Where a stream shows the marks of a statement, that statement is read. -/
theorem Stmt.Writable.reads {s : Stmt} {S : TokenStream} (h : s.Writable) (hs : Shows S a s.marks)
    (hend : s.kind = .expression → (S.get (a + s.marks.length)).kind = .eof) :
    ∃ s' b, ReadsStmt S a s' [] b ∧ b + 1 = a + s.marks.length ∧ s'.Alike s := by
  cases s with
  | binding token binder value =>
    obtain ⟨-, -, hv⟩ := h
    obtain ⟨h₀, hs⟩ := hs.cons
    obtain ⟨h₁, hs⟩ := hs.cons
    obtain ⟨h₂, hs⟩ := hs.cons
    obtain ⟨e, b, hr, rfl, he, -⟩ := hs.readsValue hv
    refine ⟨_, _, .binding (Token.kind_of_mark h₀) (Token.kind_of_mark h₁)
      (Token.kind_of_mark h₂) hr, ?_, ?_, ?_⟩
    · simp only [marks, List.length_cons, List.length_append, List.length_nil]
      omega
    · rw [Token.literal_of_mark h₁]
      exact congrArg (binding default ⟨default, binder.name⟩) he
    · simp only [render, Token.literal_of_mark h₀, Token.literal_of_mark h₁,
        Expr.render_eq_of_eraseTokens he]
  | returning token value =>
    obtain ⟨-, hv⟩ := h
    obtain ⟨h₀, hs⟩ := hs.cons
    rcases hv with rfl | hv
    · have hk := Token.kind_of_mark hs.cons.1
      refine ⟨_, _, .returningNothing (Token.kind_of_mark h₀) hk, rfl, rfl, ?_⟩
      simp only [render, Token.literal_of_mark h₀]
    · have hn : (S.get (a + 1)).kind ≠ .semicolon := hs.append.1.kind_ne hv.writable rfl
      obtain ⟨e, b, hr, rfl, he, hm⟩ := hs.readsValue hv
      refine ⟨_, _, .returning (Token.kind_of_mark h₀) hn hr, ?_, ?_, ?_⟩
      · simp only [marks, List.length_cons, List.length_append, List.length_nil]
        omega
      · exact congrArg (returning default) he
      · rw [render_returning hm, render_returning hv.writable.isMissing, Token.literal_of_mark h₀,
          Expr.render_eq_of_eraseTokens he]
  | expression token value =>
    obtain ⟨e, b, hr, hb, he⟩ := Expr.Writable.reads h.writable h.complete hs .lowest
    have hk : (S.get (b + 1)).kind = .eof := by
      rw [hb]
      exact hend rfl
    have ho := Shows.opening (e := value) hs h.writable
    refine ⟨_, b, .bare (Kind.stmtKind?_of_opening? ho) hr (.inr ?_) ?_, hb, ?_, ?_⟩
    · rw [hk]
      exact Nat.lt_irrefl _
    · rw [hk]
      decide
    · exact congrArg (expression default) he
    · exact Expr.render_eq_of_eraseTokens he

theorem Stmt.Writable.marks_ne_nil {s : Stmt} (h : s.Writable) : s.marks ≠ [] := by
  cases s with
  | expression token value =>
    obtain ⟨m, ms, he, -⟩ := Expr.Writable.exists_marks h.writable
    rw [marks, he]
    exact List.cons_ne_nil m ms
  | _ => exact List.cons_ne_nil _ _

/-- Where a stream consists of the marks of statements, those statements are read. -/
theorem Runs.of_marks {S : TokenStream} {ss : List Stmt} (hS : S.Closed)
    (h : ∀ s ∈ ss, s.Writable) (hp : Punctuated ss)
    (hm : (S.ahead.drop a).map Token.mark = ss.flatMap Stmt.marks) :
    ∃ turns, Runs S a turns ∧ turns.flatMap Turn.diagnostics = [] ∧
      List.Forall₂ Stmt.Alike (turns.filterMap Turn.stmt?) ss := by
  induction ss generalizing a with
  | nil =>
    have hk := TokenStream.kind_of_drop_eq_nil (List.map_eq_nil_iff.mp hm)
    exact ⟨[], .stop hk, rfl, .nil⟩
  | cons s ss ih =>
    obtain ⟨hs, hss⟩ := List.forall_mem_cons.mp h
    obtain ⟨hlast, hp⟩ := hp.of_cons
    rw [List.flatMap_cons] at hm
    have hnext : (S.ahead.drop (a + s.marks.length)).map Token.mark = ss.flatMap Stmt.marks := by
      rw [← List.drop_drop, List.map_drop, hm, List.drop_left]
    have hk : (S.get a).kind ≠ .eof := by
      intro hk
      rw [List.drop_eq_nil_of_le (hS.kind_eq_eof_iff.mp hk)] at hm
      exact hs.marks_ne_nil (List.append_eq_nil_iff.mp hm.symm).1
    obtain ⟨s', b, hr, hb, ha⟩ := hs.reads ⟨_, hm.symm⟩ fun hk => by
      rw [hlast hk] at hnext
      exact TokenStream.kind_of_drop_eq_nil (List.map_eq_nil_iff.mp hnext)
    rw [← hb] at hnext
    obtain ⟨turns, ht, hd, hall⟩ := ih hss hp hnext
    exact ⟨_, .keep hk hr ht, hd, .cons ha hall⟩

theorem map_eq_of_forall₂ {R : Stmt → Stmt → Prop} {ss ss' : List Stmt} {f : Stmt → β}
    (h : List.Forall₂ R ss ss') (hf : ∀ s s', R s s' → f s = f s') : ss.map f = ss'.map f := by
  induction h with
  | nil => rfl
  | cons hs _ ih => rw [List.map_cons, List.map_cons, hf _ _ hs, ih]

/-- A program that was read with nothing on record, and in which no statement but the last is an
expression, is read again from its own text, with nothing on record. -/
theorem parse_render (h : (parse source file).2.errors = #[])
    (hp : ∀ s ∈ (parse source file).1.statements.dropLast, s.kind ≠ .expression)
    (file' : Option String) :
    (parse (parse source file).1.render file').2.errors = #[] ∧
      (parse (parse source file).1.render file').1.eraseTokens =
        (parse source file).1.eraseTokens ∧
      (parse (parse source file).1.render file').1.render = (parse source file).1.render := by
  obtain ⟨turns, ht⟩ := exists_runs (tokenize source file) 0
  obtain ⟨hs, he⟩ := parse_of_runs ht
  have hw := ht.writable (genuine_tokenize source file) (by rw [← he, h])
  rw [← hs] at hw
  have hm := Cursor.marks_of_spells
    (c := .start (parse source file).1.render file') (spells_statements hw hp) rfl
  obtain ⟨turns', ht', hd, hall⟩ := Runs.of_marks (a := 0) (Cursor.closed_tokens _) hw hp hm
  obtain ⟨hs', he'⟩ := parse_of_runs ht'
  rw [← hs'] at hall
  refine ⟨?_, ?_, ?_⟩
  · rw [← Array.toList_eq_nil_iff, he', hd]
  · exact congrArg Program.mk (map_eq_of_forall₂ hall fun _ _ => Stmt.Alike.eraseTokens)
  · exact congrArg String.join (map_eq_of_forall₂ hall fun _ _ => Stmt.Alike.render)

theorem parse_render_settled :
    (parse "let x = (1 + 2) * 007; return -x; x == !true" none).1.render =
        "let x = ((1 + 2) * 7);return (-x);(x == (!true))" ∧
      (parse "let x = ((1 + 2) * 7);return (-x);(x == (!true))" none).2.errors = #[] ∧
      (parse "let x = ((1 + 2) * 7);return (-x);(x == (!true))" none).1.eraseTokens =
        (parse "let x = (1 + 2) * 007; return -x; x == !true" none).1.eraseTokens ∧
      (parse "let x = ((1 + 2) * 7);return (-x);(x == (!true))" none).1.render =
        "let x = ((1 + 2) * 7);return (-x);(x == (!true))" := by
  have hr : (parse "let x = (1 + 2) * 007; return -x; x == !true" none).1.render =
      "let x = ((1 + 2) * 7);return (-x);(x == (!true))" := by
    decide +kernel
  have ht := @parse_render "let x = (1 + 2) * 007; return -x; x == !true" none
    (by decide +kernel) (by decide +kernel) none
  rw [hr] at ht
  exact ⟨hr, ht⟩

end ExprLang
