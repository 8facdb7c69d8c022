import ExprLang.Proofs.Mirror
import ExprLang.Token.Junction
import Mathlib

namespace ExprLang

section

variable {M S : TokenStream}

/-- An expression that lacks nothing is read again where its tokens and the one after them are. -/
theorem Reads.of_agree (h : Reads M m a e [] b) (hi : ∀ i < n, S.get i = M.get i)
    (hb : b + 1 < n) : Reads S m a e [] b := by
  have hn : (S.get (b + 1)).kind.Alike (M.get (b + 1)).kind := .inl (congrArg Token.kind (hi _ hb))
  have hm : Mirrors id 0 b M S :=
    .of_agree (fun i hib => hi i (Nat.lt_trans hib hb)) (Nat.lt_succ_self b) hn
  obtain ⟨ds, hr, he⟩ := h.mirror hm
  obtain rfl := he.nil_iff.mpr rfl
  simpa only [Nat.zero_add, Expr.mapTokens_id] using hr

theorem ReadsValue.of_agree (h : ReadsValue M a e [] b)
    (hi : ∀ i < M.ahead.length, S.get i = M.get i) :
    b < M.ahead.length ∧ ReadsValue S a e [] b := by
  cases h with
  | ended hr hk =>
    have hb := TokenStream.lt_of_kind_eq hk nofun
    rw [← hi _ hb] at hk
    exact ⟨hb, .ended (hr.of_agree hi hb) hk⟩
  | skipped _ _ hd => exact absurd rfl hd

/-- In a text that ends with a semicolon a statement without problems ends inside the text, and is
read again where the tokens of the text are. -/
theorem ReadsStmt.of_agree (h : ReadsStmt M a s [] b)
    (hl : (M.get (M.ahead.length - 1)).kind = .semicolon)
    (hi : ∀ i < M.ahead.length, S.get i = M.get i) :
    b < M.ahead.length ∧ ReadsStmt S a s [] b := by
  cases h with
  | binding hw hn hs hv =>
    obtain ⟨hb, hv'⟩ := hv.of_agree hi
    have hle := hv.le
    rw [← hi _ (by omega)] at hw hn hs
    rw [← hi a (by omega), ← hi (a + 1) (by omega)]
    exact ⟨hb, .binding hw hn hs hv'⟩
  | returning hw hn hv =>
    obtain ⟨hb, hv'⟩ := hv.of_agree hi
    have hle := hv.le
    rw [← hi _ (by omega)] at hw hn ⊢
    exact ⟨hb, .returning hw hn hv'⟩
  | returningNothing hw hn =>
    have hb := TokenStream.lt_of_kind_eq hn nofun
    rw [← hi _ (by omega)] at hw hn ⊢
    exact ⟨hb, .returningNothing hw hn⟩
  | closed hw hr _ hk =>
    have hb := TokenStream.lt_of_kind_eq hk nofun
    have hle := hr.le
    rw [← hi _ (by omega)] at hw hk ⊢
    exact ⟨hb, .closed hw (hr.of_agree hi hb) (.semicolon hk) hk⟩
  | bare hw hr hs hk =>
    have hb : b + 1 < M.ahead.length := by
      -- The last token of the text ends statements, so this expression does not come up to it.
      have hlt := hr.lt_length_of_nil
      apply Nat.lt_of_le_of_ne hlt
      intro he
      apply hr.kind_ne_of_nil
      rw [← he, Nat.succ_sub_one] at hl
      rw [hl]
      decide
    have hle := hr.le
    rw [Stops, ← hi _ hb] at hs
    rw [← hi _ (by omega)] at hw hk ⊢
    exact ⟨Nat.lt_of_succ_lt hb, .bare hw (hr.of_agree hi hb) hs hk⟩

/-- A run without problems over a text that ends with a semicolon goes on with any other one. -/
theorem Runs.append (h : Runs M a turns) (hM : M.Closed)
    (hl : (M.get (M.ahead.length - 1)).kind = .semicolon)
    (hi : ∀ i < M.ahead.length, S.get i = M.get i)
    (hd : turns.flatMap Turn.diagnostics = []) (ha : a ≤ M.ahead.length)
    (ht : Runs S M.ahead.length rest) : Runs S a (turns ++ rest) := by
  induction h with
  | stop hk =>
    obtain rfl := Nat.le_antisymm ha (hM.kind_eq_eof_iff.mp hk)
    exact ht
  | keep hk hr _ ih =>
    obtain ⟨hds, hd⟩ := List.append_eq_nil_iff.mp hd
    obtain rfl : _ = [] := hds
    obtain ⟨hb, hr'⟩ := hr.of_agree hl hi
    rw [← hi _ (TokenStream.lt_of_kind_ne_eof hk)] at hk
    exact .keep hk hr' (ih hd hb)
  | drop => cases hd

end

theorem TokenStream.kind_get_of_getLast? {s : TokenStream}
    (h : s.ahead.getLast?.map Token.kind = some k) : (s.get (s.ahead.length - 1)).kind = k := by
  rw [List.getLast?_eq_getElem?] at h
  rw [get, List.getD_eq_getElem?_getD]
  obtain ⟨t, ht, rfl⟩ := Option.map_eq_some_iff.mp h
  rw [ht]
  rfl

/-- Reading is compositional at a semicolon that nothing is wrong before: the statements of a text
that starts there are those of that text alone, and so are its problems, further on by as many bytes
as stand in front of it. -/
theorem parse_append (m q : String) (file : Option String) (he : (parse m file).2.errors = #[])
    (hl : (tokenize m file).ahead.getLast?.map Token.kind = some .semicolon) :
    (parse (m ++ q) file).1.statements = (parse m file).1.statements ++
        ((parse q file).1.mapTokens (.shift (Text.size m.toList))).statements ∧
      (parse (m ++ q) file).2.errors =
        (parse q file).2.errors.map (Diagnostic.shift (Text.size m.toList)) := by
  have hs : tokenize (m ++ q) file =
      ((tokenize q file).shift (Text.size m.toList)).prepend (tokenize m file).ahead := by
    apply tokenize_append_of_endsBefore
    intro t ht
    rw [Option.mem_def.mp ht] at hl
    rw [Option.some.inj hl]
    exact .semicolon _
  have hc := continues_prepend (Text.size m.toList) (tokenize m file).ahead (tokenize q file)
  obtain ⟨turns, ht⟩ := exists_runs (tokenize m file) 0
  obtain ⟨own, ho⟩ := exists_runs (tokenize q file) 0
  obtain ⟨own', ho', hown, hds⟩ := ho.mirror hc
  have hd : turns.flatMap Turn.diagnostics = [] := by
    rw [← (parse_of_runs ht).2, he]
  have hr := ht.append (Cursor.closed_tokens _) (TokenStream.kind_get_of_getLast? hl)
    (fun i hi => TokenStream.get_prepend_ahead hi _) hd (Nat.zero_le _) ho'
  rw [← hs] at hr
  constructor
  · rw [(parse_of_runs hr).1, (parse_of_runs ht).1, Program.mapTokens, (parse_of_runs ho).1,
      List.filterMap_append, hown]
  · rw [← Array.toList_inj, Array.toList_map, (parse_of_runs hr).2, (parse_of_runs ho).2,
      List.flatMap_append, hd, List.nil_append, hds.eq_map_shift hc]

theorem unclosed_after_statement :
    ((parse "1;" none).2.errors = #[] ∧
      (tokenize "1;" none).ahead.getLast?.map Token.kind = some .semicolon) ∧
    (parse ("1;" ++ "(2") none).1.statements = (parse "1;" none).1.statements ++
        ((parse "(2" none).1.mapTokens (.shift 2)).statements ∧
      (parse ("1;" ++ "(2") none).2.errors =
        (parse "(2" none).2.errors.map (Diagnostic.shift 2) := by
  have hr : Reads (tokenize "1;" none) .lowest 0 _ [] 0 := .atom (by cbv) fun _ => by cbv
  have hs : ReadsStmt (tokenize "1;" none) 0 _ [] 1 :=
    .closed (by cbv) hr (.semicolon (by cbv)) (by cbv)
  have ht := Runs.keep (of_decide_eq_false (by cbv)) hs (.stop (by cbv))
  have he : (parse "1;" none).2.errors = #[] := Array.toList_inj.mp (parse_of_runs ht).2
  have hl : (tokenize "1;" none).ahead.getLast?.map Token.kind = some .semicolon := by cbv
  exact ⟨⟨he, hl⟩, parse_append "1;" "(2" none he hl⟩

end ExprLang
