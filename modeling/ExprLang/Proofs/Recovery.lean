import ExprLang.Proofs.Mirror
import ExprLang.Token.Junction
import Mathlib

namespace ExprLang

/-- A statement that goes wrong, as it fails or has something on record of its value. The last
token in view is `b`. -/
inductive GoesWrong (S : TokenStream) (a : Nat) : Option Stmt → List Diagnostic → Nat → Prop where
  | fails : FailsStmt S a d b → GoesWrong S a none [d] b
  | binding : (S.get a).kind = .letWord → (S.get (a + 1)).kind = .identifier →
      (S.get (a + 2)).kind = .assign → Reads S .lowest (a + 3) e ds b → Stops S .lowest e b →
      ds ≠ [] → GoesWrong S a
        (some (.binding (S.get a) ⟨S.get (a + 1), (S.get (a + 1)).literal⟩ e)) ds b
  | returning : (S.get a).kind = .returnWord → (S.get (a + 1)).kind ≠ .semicolon →
      Reads S .lowest (a + 1) e ds b → Stops S .lowest e b → ds ≠ [] →
      GoesWrong S a (some (.returning (S.get a) e)) ds b

/-- The tokens of `S` before `n` are the word that opens a statement and others that neither end it
nor open another. A barrier stands at `n`. -/
structure IsFragment (S : TokenStream) (n : Nat) : Prop where
  pos : 0 < n
  word : (S.get 0).kind = .letWord ∨ (S.get 0).kind = .returnWord
  inner : ∀ i, 0 < i → i < n → (S.get i).kind ∉ [Kind.semicolon, .eof, .letWord, .returnWord]
  barrier : (S.get n).kind.IsBarrier

theorem Diagnostic.noOperand_inj {t u : Token} (h : noOperand t = noOperand u) : t = u :=
  Problem.noOperand.inj (congrArg problem h)

/-- An expression ends before the barrier `n`, or the barrier is blamed for an operand it lacks. -/
theorem Reads.lt_or_blames (h : Reads S m a e ds b) (hn : (S.get n).kind.IsBarrier)
    (ha : a ≤ n) : b < n ∨ .noOperand (S.get n) ∈ ds := by
  have hlt {i : Nat} (hi : i ≤ n) (hk : ¬ (S.get i).kind.IsBarrier) : i < n := by
    apply Nat.lt_of_le_of_ne hi
    rintro rfl
    exact hk hn
  induction h with
  | refused =>
    rcases Nat.eq_or_lt_of_le ha with rfl | ha
    · exact .inr List.mem_cons_self
    · exact .inl ha
  | tooLarge hi => exact .inl (hlt ha (by rw [hi]; decide))
  | atom ho => exact .inl (hlt ha (Kind.not_isBarrier_of_opening? ho))
  | unary ho _ ih => exact ih (hlt ha (Kind.not_isBarrier_of_opening? ho))
  | group ho _ hk ih =>
    rcases ih (hlt ha (Kind.not_isBarrier_of_opening? ho)) with hb | hd
    · exact .inl (hlt hb (by rw [hk]; decide))
    · cases hd
  | unclosed ho _ _ _ ih =>
    rcases ih (hlt ha (Kind.not_isBarrier_of_opening? ho)) with hb | hd
    · exact .inl hb
    · cases hd
  | broken ho _ _ _ ih => exact ih (hlt ha (Kind.not_isBarrier_of_opening? ho))
  | binary _ _ hp _ _ ihl ihr =>
    rcases ihl ha with hb | hd
    · rcases ihr (hlt hb (Kind.not_isBarrier_of_lt_power hp)) with hc | hd
      · exact .inl hc
      · exact .inr (List.mem_append_right _ hd)
    · exact .inr (List.mem_append_left _ hd)

theorem Reads.exists_blamed (h : Reads S m a e ds b) (hd : .noOperand t ∈ ds) :
    ∃ i ≤ b, S.get i = t := by
  induction h with
  | @refused a =>
    rw [List.mem_singleton] at hd
    exact ⟨a, Nat.le_refl a, (Diagnostic.noOperand_inj hd).symm⟩
  | tooLarge =>
    rw [List.mem_singleton] at hd
    cases congrArg Diagnostic.problem hd
  | atom => cases hd
  | unary _ _ ih => exact ih hd
  | group => cases hd
  | unclosed =>
    rw [List.mem_singleton] at hd
    cases congrArg Diagnostic.problem hd
  | broken _ _ _ _ ih => exact ih hd
  | binary hl _ _ hr _ ihl ihr =>
    rcases List.mem_append.mp hd with hd | hd
    · obtain ⟨i, hi, ht⟩ := ihl hd
      have hle := hr.le
      exact ⟨i, by omega, ht⟩
    · exact ihr hd

namespace GoesWrong

variable {M S : TokenStream}

theorem opens (h : GoesWrong S a stmt? ds b) :
    (S.get a).kind = .letWord ∨ (S.get a).kind = .returnWord := by
  cases h with
  | fails hf => exact hf.opens
  | binding hw => exact .inl hw
  | returning hw => exact .inr hw

theorem token_eq (h : GoesWrong S a (some s) ds b) : s.token = S.get a := by
  cases h <;> rfl

theorem exists_blamed (h : GoesWrong S a stmt? ds b) (hd : .noOperand t ∈ ds) :
    ∃ i ≤ b, S.get i = t := by
  cases h with
  | fails hf =>
    rw [List.mem_singleton] at hd
    subst hd
    cases hf
  | binding _ _ _ hr => exact hr.exists_blamed hd
  | returning _ _ hr => exact hr.exists_blamed hd

theorem runs (h : GoesWrong S a stmt? ds b) (hc : Skips S b c) (ht : Runs S (c + 1) turns) :
    Runs S a (⟨a, stmt?, ds⟩ :: turns) := by
  have hk : (S.get a).kind ≠ .eof := by
    rcases h.opens with hw | hw <;>
    · rw [hw]
      nofun
  cases h with
  | fails hf => exact .drop hk hf hc ht
  | binding hw hn ha hr hs hd => exact .keep hk (.binding hw hn ha (.skipped hr hs hd hc)) ht
  | returning hw hn hr hs hd => exact .keep hk (.returning hw hn (.skipped hr hs hd hc)) ht

theorem mirror (h : GoesWrong M a stmt? ds b) (hm : Mirrors f n b M S) :
    ∃ stmt? ds, GoesWrong S (n + a) stmt? ds (n + b) := by
  cases h with
  | fails hf =>
    obtain ⟨d', hf', -⟩ := hf.mirror hm
    exact ⟨_, _, .fails hf'⟩
  | binding hw hn ha hr hs hd =>
    have hle := hr.le
    obtain ⟨ds', hr', he⟩ := hr.mirror hm
    rw [← hm.kind (by omega)] at hw hn ha
    exact ⟨_, _, .binding hw hn ha hr' (hm.stops hs) (mt he.nil_iff.mp hd)⟩
  | returning hw hn hr hs hd =>
    have hle := hr.le
    obtain ⟨ds', hr', he⟩ := hr.mirror hm
    rw [← hm.kind (by omega)] at hw hn
    exact ⟨_, _, .returning hw hn hr' (hm.stops hs) (mt he.nil_iff.mp hd)⟩

end GoesWrong

theorem Skips.of_le {S : TokenStream} (hbc : b ≤ c)
    (hc : (S.get c).kind ∈ [Kind.semicolon, .eof] ∨
      (S.get (c + 1)).kind ∈ [Kind.letWord, .returnWord])
    (hi : ∀ i, b ≤ i → i < c → (S.get i).kind ∉ [Kind.semicolon, .eof] ∧
      (S.get (i + 1)).kind ∉ [Kind.letWord, .returnWord]) : Skips S b c := by
  induction hd : c - b generalizing b with
  | zero =>
    obtain rfl : b = c := by omega
    exact .stop hc
  | succ d ih =>
    obtain ⟨hb, hn⟩ := hi b (Nat.le_refl b) (by omega)
    exact .step hb hn (ih (by omega) (fun i hbi => hi i (Nat.le_of_succ_le hbi)) (by omega))

namespace IsFragment

variable {M S : TokenStream}

theorem lt (h : IsFragment S n) (hi : i ≤ n) (hk : ¬ (S.get i).kind.IsBarrier) : i < n := by
  apply Nat.lt_of_le_of_ne hi
  rintro rfl
  exact hk h.barrier

theorem le_three (h : IsFragment S n) (hn : (S.get 1).kind = .identifier)
    (ha : (S.get 2).kind = .assign) : 3 ≤ n :=
  h.lt (h.lt h.pos (by rw [hn]; decide)) (by rw [ha]; decide)

theorem not_semicolon (h : IsFragment S n) (hi : i ≤ n) : (S.get i).kind ≠ .semicolon := by
  intro hk
  have hlt := h.lt hi (by rw [hk]; decide)
  rcases Nat.eq_zero_or_pos i with rfl | hpos
  · rcases h.word with hw | hw <;> cases hk.symm.trans hw
  · exact h.inner i hpos hlt (by rw [hk]; decide)

theorem lacksEnd_lt (h : IsFragment S n) (hl : LacksEnd S v b e) (hv : v ≤ n) : b < n :=
  (hl.reads.lt_or_blames h.barrier hv).resolve_right List.not_mem_nil

/-- What goes wrong does so before the barrier, or the barrier is blamed for an operand it lacks. -/
theorem lt_or_blames (h : IsFragment S n) (hg : GoesWrong S 0 stmt? ds b) :
    b < n ∨ .noOperand (S.get n) ∈ ds := by
  cases hg with
  | fails hf =>
    left
    cases hf with
    | name => exact h.pos
    | sign _ hn => exact h.lt h.pos (by rw [hn]; decide)
    | binding _ hn ha hl => exact h.lacksEnd_lt hl (h.le_three hn ha)
    | returning _ _ hl => exact h.lacksEnd_lt hl h.pos
  | binding _ hn ha hr => exact hr.lt_or_blames h.barrier (h.le_three hn ha)
  | returning _ _ hr => exact hr.lt_or_blames h.barrier h.pos

theorem not_end (h : IsFragment S n) (hi : i < n) :
    (S.get i).kind ∉ [Kind.semicolon, .eof] := by
  rcases Nat.eq_zero_or_pos i with rfl | hpos
  · rcases h.word with hw | hw <;>
    · rw [hw]
      decide
  · exact fun hk => h.inner i hpos hi (List.mem_append_left [Kind.letWord, .returnWord] hk)

theorem not_word (h : IsFragment S n) (hpos : 0 < i) (hi : i < n) :
    (S.get i).kind ∉ [Kind.letWord, .returnWord] :=
  fun hk => h.inner i hpos hi (List.mem_append_right [Kind.semicolon, .eof] hk)

theorem skips_to_word (h : IsFragment S n) (hb : b < n)
    (hk : (S.get n).kind ∈ [Kind.letWord, .returnWord]) : Skips S b (n - 1) := by
  have hn : n - 1 + 1 = n := by omega
  apply Skips.of_le (Nat.le_sub_one_of_lt hb)
  · right
    rwa [hn]
  · intro i _ hi
    exact ⟨h.not_end (by omega), h.not_word (Nat.succ_pos i) (by omega)⟩

theorem skips_to_end (h : IsFragment S n) (hb : b < n) (hk : (S.get n).kind = .eof) :
    Skips S b n := by
  apply Skips.of_le (Nat.le_of_lt hb)
  · left
    rw [hk]
    decide
  · intro i _ hi
    refine ⟨h.not_end hi, ?_⟩
    rcases Nat.eq_or_lt_of_le (show i + 1 ≤ n from hi) with he | hlt
    · rw [he, hk]
      decide
    · exact h.not_word (Nat.succ_pos i) hlt

theorem cut_of_value (h : IsFragment S n) (hr : ReadsValue S v e ds c) (hv : v ≤ n) :
    ∃ b, Reads S .lowest v e ds b ∧ Stops S .lowest e b ∧ ds ≠ [] ∧ Skips S b c := by
  cases hr with
  | ended hr hk =>
    have hb := (hr.lt_or_blames h.barrier hv).resolve_right List.not_mem_nil
    exact absurd hk (h.not_semicolon hb)
  | skipped hr hs hd hc => exact ⟨_, hr, hs, hd, hc⟩

theorem goesWrong (h : IsFragment S n) (hr : ReadsStmt S 0 s ds c) :
    ∃ b, GoesWrong S 0 (some s) ds b ∧ Skips S b c := by
  rcases h.word with hw | hw
  · obtain ⟨hn, ha, e, rfl, hv⟩ := hr.of_letWord hw
    obtain ⟨b, hr, hs, hd, hc⟩ := h.cut_of_value hv (h.le_three hn ha)
    exact ⟨b, .binding hw hn ha hr hs hd, hc⟩
  · rcases hr.of_returnWord hw with ⟨hk, -⟩ | ⟨hn, e, rfl, hv⟩
    · exact absurd hk (h.not_semicolon h.pos)
    · obtain ⟨b, hr, hs, hd, hc⟩ := h.cut_of_value hv h.pos
      exact ⟨b, .returning hw hn hr hs hd, hc⟩

theorem first_turn (h : IsFragment S n) (hr : Runs S 0 turns) :
    ∃ stmt? ds b c rest, GoesWrong S 0 stmt? ds b ∧ Skips S b c ∧ Runs S (c + 1) rest ∧
      turns = ⟨0, stmt?, ds⟩ :: rest := by
  cases hr with
  | stop hk => rcases h.word with hw | hw <;> cases hk.symm.trans hw
  | keep _ hr ht =>
    obtain ⟨b, hg, hc⟩ := h.goesWrong hr
    exact ⟨_, _, b, _, _, hg, hc, ht, rfl⟩
  | drop _ hf hc ht => exact ⟨_, _, _, _, _, .fails hf, hc, ht, rfl⟩

end IsFragment

/-- Two streams that agree up to a barrier have the same statements go wrong before it. -/
theorem GoesWrong.of_agree {M S : TokenStream} (h : GoesWrong M 0 stmt? ds b)
    (hM : (M.get n).kind.IsBarrier) (hS : (S.get n).kind.IsBarrier)
    (hi : ∀ i < n, S.get i = M.get i) (hb : b < n) : ∃ stmt? ds, GoesWrong S 0 stmt? ds b := by
  have hm := Mirrors.of_agree hi hb (.inr ⟨hS, hM⟩)
  simpa only [Nat.zero_add] using h.mirror hm

theorem IsFragment.of_agree {M S : TokenStream} (h : IsFragment M n)
    (hi : ∀ i < n, S.get i = M.get i) (hS : (S.get n).kind.IsBarrier) : IsFragment S n := by
  refine ⟨h.pos, ?_, ?_, hS⟩
  · rw [hi 0 h.pos]
    exact h.word
  · intro i hpos hlt
    rw [hi i hlt]
    exact h.inner i hpos hlt

def OpensStatement (source : String) (file : Option String) : Prop :=
  ((tokenize source file).get 0).kind ∈ [Kind.letWord, .returnWord]

/-- The text of a statement that does not come to its end: after its word neither a semicolon nor
another such word follows. -/
structure IsUnfinished (source : String) (file : Option String) : Prop where
  opens : OpensStatement source file
  inner : ∀ t ∈ (tokenize source file).ahead.tail,
    t.kind ∉ [Kind.semicolon, .letWord, .returnWord]

/-- The end of the text is blamed for an operand that lacks. -/
def BlamesEnd (source : String) (file : Option String) : Prop :=
  .noOperand (tokenize source file).last ∈ (parse source file).2.errors

theorem IsUnfinished.isFragment (h : IsUnfinished source file) :
    IsFragment (tokenize source file) (tokenize source file).ahead.length := by
  have hS : (tokenize source file).Closed := Cursor.closed_tokens _
  have hw : ((tokenize source file).get 0).kind = .letWord ∨
      ((tokenize source file).get 0).kind = .returnWord := by
    simpa only [OpensStatement, List.mem_cons, List.not_mem_nil, or_false] using h.opens
  constructor
  · rcases hw with hw | hw <;> exact TokenStream.lt_of_kind_eq hw nofun
  · exact hw
  · intro i hpos hi hk
    have ht : (tokenize source file).get i ∈ (tokenize source file).ahead.tail := by
      rw [← List.drop_one, List.mem_drop_iff_getElem, TokenStream.get_of_lt hi]
      exact ⟨i - 1, by omega, by congr 1; omega⟩
    have he := hS _ (List.mem_of_mem_tail ht)
    have hn := h.inner _ ht
    simp only [List.mem_cons, List.not_mem_nil, or_false, not_or] at hk hn
    rcases hk with hk | hk | hk
    · exact hn.1 hk
    · exact he hk
    · exact hk.elim hn.2.1 hn.2.2
  · rw [hS.kind_eq_eof_iff.mpr (Nat.le_refl _)]
    decide

/-- Where nothing lacks at its end, a fragment leaves the loop over statements right before the word
that comes next. -/
theorem IsFragment.runs_to_word {M S : TokenStream} (h : IsFragment M n) (hr : Runs M 0 turns)
    (hd : .noOperand (M.get n) ∉ turns.flatMap Turn.diagnostics) (hi : ∀ i < n, S.get i = M.get i)
    (hw : (S.get n).kind ∈ [Kind.letWord, .returnWord]) (ht : Runs S n rest) :
    ∃ turn, Runs S 0 (turn :: rest) := by
  have hS : (S.get n).kind.IsBarrier := List.mem_cons_of_mem _ hw
  obtain ⟨stmt?, ds, b, c, rest', hg, -, -, rfl⟩ := h.first_turn hr
  have hb := (h.lt_or_blames hg).resolve_right fun hm => hd (List.mem_append_left _ hm)
  obtain ⟨stmt?', ds', hg'⟩ := hg.of_agree h.barrier hS hi hb
  have hpos := h.pos
  refine ⟨_, hg'.runs ((h.of_agree hi hS).skips_to_word hb hw) ?_⟩
  rwa [show n - 1 + 1 = n by omega]

/-- Where an operand lacks at its end, a fragment takes the loop over statements past what comes
next, and no statement that is kept starts there. -/
theorem IsFragment.no_statement_at_word {M S : TokenStream} (h : IsFragment M n) (hM : M.Closed)
    (hn : n = M.ahead.length)
    (hd : ∀ turns, Runs M 0 turns → .noOperand (M.get n) ∈ turns.flatMap Turn.diagnostics)
    (hi : ∀ i < n, S.get i = M.get i) (hS : (S.get n).kind.IsBarrier) (hr : Runs S 0 turns)
    (hs : s ∈ turns.filterMap Turn.stmt?) : ∃ i, i ≠ n ∧ s.token = S.get i := by
  obtain ⟨stmt?, ds, b, c, rest, hg, hc, ht, rfl⟩ := (h.of_agree hi hS).first_turn hr
  have hbn : n ≤ b := by
    -- What goes wrong before the barrier does so in the fragment too, where nothing is to follow.
    rw [← Nat.not_lt]
    intro hb
    obtain ⟨stmt?', ds', hg'⟩ := hg.of_agree hS h.barrier (fun i hlt => (hi i hlt).symm) hb
    have hend : (M.get n).kind = .eof := hM.kind_eq_eof_iff.mpr (Nat.le_of_eq hn.symm)
    have hstop : Runs M (n + 1) [] := .stop (hM.kind_eq_eof_iff.mpr (by omega))
    have hm := hd _ (hg'.runs (h.skips_to_end hb hend) hstop)
    rw [List.flatMap_singleton] at hm
    obtain ⟨i, hib, he⟩ := hg'.exists_blamed hm
    have hle := hM.kind_eq_eof_iff.mp (he ▸ hend)
    omega
  obtain ⟨turn, hmem, hturn⟩ := List.mem_filterMap.mp hs
  rcases List.mem_cons.mp hmem with rfl | hmem
  · obtain rfl : stmt? = some s := hturn
    exact ⟨0, Nat.ne_of_lt h.pos, hg.token_eq⟩
  · have hle := hc.le
    obtain ⟨i, ds, b, hi, hr⟩ := ht.exists_readsStmt (List.mem_filterMap.mpr ⟨turn, hmem, hturn⟩)
    exact ⟨i, by omega, hr.token_eq⟩

theorem continues_of_append {m w q : String} (hw : ∀ b ∈ w.toList, b.isWhitespace = true)
    (hn : w ≠ "") (file : Option String) :
    Continues (Token.shift (Text.size (m ++ w).toList)) (tokenize m file).ahead.length
        (tokenize q file) (tokenize (m ++ w ++ q) file) ∧
      ∀ i < (tokenize m file).ahead.length,
        (tokenize (m ++ w ++ q) file).get i = (tokenize m file).get i := by
  rw [tokenize_append hw hn]
  exact ⟨continues_prepend _ _ _, fun i hi => TokenStream.get_prepend_ahead hi _⟩

theorem OpensStatement.mem {q : String} {S : TokenStream} (h : OpensStatement q file)
    (hc : Continues f n (tokenize q file) S) : (S.get n).kind ∈ [Kind.letWord, .returnWord] := by
  have hk := hc.kind 0
  rw [Nat.add_zero] at hk
  rw [hk]
  exact h

theorem blamesEnd_iff {m : String} (h : Runs (tokenize m file) 0 turns) :
    BlamesEnd m file ↔ .noOperand ((tokenize m file).get (tokenize m file).ahead.length) ∈
      turns.flatMap Turn.diagnostics := by
  rw [TokenStream.get_length, ← (parse_of_runs h).2, Array.mem_toList_iff]
  exact Iff.rfl

section

variable {m w q : String} {file : Option String}

theorem suffix_of_not_blamesEnd (hm : IsUnfinished m file)
    (hw : ∀ b ∈ w.toList, b.isWhitespace = true) (hn : w ≠ "") (hq : OpensStatement q file)
    (hb : ¬ BlamesEnd m file) :
    ((parse q file).1.mapTokens (.shift (Text.size (m ++ w).toList))).statements <:+
      (parse (m ++ w ++ q) file).1.statements := by
  obtain ⟨hc, hi⟩ := continues_of_append hw hn file (m := m) (q := q)
  obtain ⟨turns, ht⟩ := exists_runs (tokenize m file) 0
  obtain ⟨own, ho⟩ := exists_runs (tokenize q file) 0
  obtain ⟨own', ho', hs, -⟩ := ho.mirror hc
  obtain ⟨turn, hr⟩ :=
    hm.isFragment.runs_to_word ht (mt (blamesEnd_iff ht).mpr hb) hi (hq.mem hc) ho'
  rw [(parse_of_runs hr).1, Program.mapTokens, (parse_of_runs ho).1, ← hs]
  exact (List.suffix_cons turn own').filterMap Turn.stmt?

theorem token_ne_of_blamesEnd (hm : IsUnfinished m file)
    (hw : ∀ b ∈ w.toList, b.isWhitespace = true) (hn : w ≠ "") (hq : OpensStatement q file)
    (hb : BlamesEnd m file) (hsize : Text.size (m ++ w ++ q).toList ≤ Position.maxOffset) :
    ∀ s ∈ (parse (m ++ w ++ q) file).1.statements,
      s.token ≠ ((tokenize q file).get 0).shift (Text.size (m ++ w).toList) := by
  intro s hs he
  obtain ⟨hc, hi⟩ := continues_of_append hw hn file (m := m) (q := q)
  obtain ⟨turns, ht⟩ := exists_runs (tokenize (m ++ w ++ q) file) 0
  have hword := hq.mem hc
  rw [(parse_of_runs ht).1] at hs
  obtain ⟨i, hin, htoken⟩ := hm.isFragment.no_statement_at_word (Cursor.closed_tokens _) rfl
    (fun _ hr => (blamesEnd_iff hr).mp hb) hi (List.mem_cons_of_mem _ hword) ht hs
  have hne : ((tokenize (m ++ w ++ q) file).get (tokenize m file).ahead.length).kind ≠ .eof := by
    intro hk
    rw [hk] at hword
    exact absurd hword (by decide)
  rw [htoken, ← hc.get 0] at he
  exact hin (distinct_tokenize hsize _ _ hne he.symm).symm

/-- What comes after an unfinished statement. Where no operand lacks at its end, the statements of
the text that the next word opens are all there, at their places. Where one does, no statement
starts with that word, so that the one that it opens in its own text is lost. -/
theorem statements_after_unfinished (hm : IsUnfinished m file)
    (hw : ∀ b ∈ w.toList, b.isWhitespace = true) (hn : w ≠ "") (hq : OpensStatement q file) :
    (¬ BlamesEnd m file →
      ((parse q file).1.mapTokens (.shift (Text.size (m ++ w).toList))).statements <:+
        (parse (m ++ w ++ q) file).1.statements) ∧
    (BlamesEnd m file → Text.size (m ++ w ++ q).toList ≤ Position.maxOffset →
      (∀ s ∈ (parse (m ++ w ++ q) file).1.statements,
        s.token ≠ ((tokenize q file).get 0).shift (Text.size (m ++ w).toList)) ∧
      ((∃ s ∈ (parse q file).1.statements, s.token = (tokenize q file).get 0) →
        ¬ ((parse q file).1.mapTokens (.shift (Text.size (m ++ w).toList))).statements <:+
          (parse (m ++ w ++ q) file).1.statements)) := by
  refine ⟨suffix_of_not_blamesEnd hm hw hn hq, fun hb hsize => ?_⟩
  have hlost := token_ne_of_blamesEnd hm hw hn hq hb hsize
  refine ⟨hlost, ?_⟩
  rintro ⟨s, hs, ht⟩ hsuffix
  apply hlost _ (hsuffix.mem (List.mem_map_of_mem hs))
  rw [← ht]
  cases s <;> rfl

end

theorem isUnfinished_of_all
    (ho : [Kind.letWord, .returnWord].contains ((tokenize source file).get 0).kind = true)
    (hi : (tokenize source file).ahead.tail.all
      (fun t => t.kind ∉ [Kind.semicolon, .letWord, .returnWord]) = true) :
    IsUnfinished source file :=
  ⟨List.contains_iff_mem.mp ho, fun t ht => of_decide_eq_true (List.all_eq_true.mp hi t ht)⟩

theorem statement_kept_or_lost :
    ((parse "let y = 2;" none).1.mapTokens (.shift 4)).statements <:+
        (parse "let let y = 2;" none).1.statements ∧
      ∀ s ∈ (parse "let x = let y = 2;" none).1.statements,
        s.token ≠ ((tokenize "let y = 2;" none).get 0).shift 8 := by
  have hq : OpensStatement "let y = 2;" none := List.contains_iff_mem.mp (by cbv)
  have hw : ∀ b ∈ " ".toList, b.isWhitespace = true := List.all_eq_true.mp (by decide)
  constructor
  · have hf : FailsStmt (tokenize "let" none) 0 _ 0 := .name (by cbv) (of_decide_eq_false (by cbv))
    have hc : Skips (tokenize "let" none) 0 1 :=
      .step (of_decide_eq_false (by cbv)) (of_decide_eq_false (by cbv))
        (.stop (.inl (List.contains_iff_mem.mp (by cbv))))
    have ht := (GoesWrong.fails hf).runs hc (.stop (by cbv))
    have hb : ¬ BlamesEnd "let" none := by
      rw [BlamesEnd, ← Array.mem_toList_iff, (parse_of_runs ht).2, List.flatMap_singleton,
        List.mem_singleton]
      intro he
      cases congrArg Diagnostic.problem he
    have hm : IsUnfinished "let" none := isUnfinished_of_all (by cbv) (by cbv)
    exact (statements_after_unfinished hm hw (by decide) hq).1 hb
  · have hr (m : Power) : Reads (tokenize "let x =" none) m 3 _ _ 3 := .refused (by cbv)
    have hg := GoesWrong.binding (a := 0) (by cbv) (by cbv) (by cbv) (hr _) (.inl rfl)
      (List.cons_ne_nil _ _)
    have hc : Skips (tokenize "let x =" none) 3 3 :=
      .stop (.inl (List.contains_iff_mem.mp (by cbv)))
    have ht := hg.runs hc (.stop (by cbv))
    have hb : BlamesEnd "let x =" none := by
      have hl : (tokenize "let x =" none).ahead.length = 3 := by cbv
      rw [BlamesEnd, ← Array.mem_toList_iff, (parse_of_runs ht).2, List.flatMap_singleton,
        List.mem_singleton, ← TokenStream.get_length, hl]
    have hm : IsUnfinished "let x =" none := isUnfinished_of_all (by cbv) (by cbv)
    exact ((statements_after_unfinished hm hw (by decide) hq).2 hb (by decide)).1

end ExprLang
