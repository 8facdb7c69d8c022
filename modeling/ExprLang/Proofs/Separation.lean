import ExprLang.Proofs.Turns
import ExprLang.Token.Order
import Mathlib

namespace ExprLang

def Kind.IsOperator (k : Kind) : Prop := k.opening? = some .operator ∨ k.isInfix = true

instance (k : Kind) : Decidable k.IsOperator :=
  inferInstanceAs (Decidable (k.opening? = some .operator ∨ k.isInfix = true))

/-- From the token `a` of `S` on nothing but opening parentheses stands before the semicolon `j`. -/
structure LeadsTo (S : TokenStream) (a j : Nat) : Prop where
  le : a ≤ j
  opens : ∀ i, a ≤ i → i < j → (S.get i).kind = .openParen
  semicolon : (S.get j).kind = .semicolon

/-- One of the tokens `ts` is an operator whose operand the semicolon `j` cuts off. -/
def LacksOperandAt (S : TokenStream) (ts : List Token) (j : Nat) : Prop :=
  ∃ i, S.get i ∈ ts ∧ (S.get i).kind.IsOperator ∧ LeadsTo S (i + 1) j

/-- The token `j` of `S` stands between two of the tokens `ts`. -/
def Straddles (S : TokenStream) (ts : List Token) (j : Nat) : Prop :=
  ∃ i k, i < j ∧ j < k ∧ S.get i ∈ ts ∧ S.get k ∈ ts

theorem Kind.IsOperator.opening?_ne_atom {k : Kind} (h : k.IsOperator) :
    k.opening? ≠ some .atom := by
  intro ha
  rcases h with ho | hi
  · rw [ha] at ho
    cases ho
  · cases k <;> cases ha <;> exact absurd hi (by decide)

theorem LacksOperandAt.mono {us : List Token} (h : LacksOperandAt S ts j) (hs : ts ⊆ us) :
    LacksOperandAt S us j := by
  obtain ⟨i, hi, ho, hl⟩ := h
  exact ⟨i, hs hi, ho, hl⟩

namespace LeadsTo

variable {S : TokenStream}

theorem refl (h : (S.get j).kind = .semicolon) : LeadsTo S j j :=
  ⟨Nat.le_refl j, fun _ hi hlt => absurd hi (Nat.not_le_of_lt hlt), h⟩

theorem cons (ho : (S.get a).kind = .openParen) (h : LeadsTo S (a + 1) j) : LeadsTo S a j := by
  refine ⟨Nat.le_of_succ_le h.le, ?_, h.semicolon⟩
  intro i hi hlt
  rcases Nat.eq_or_lt_of_le hi with rfl | hi
  · exact ho
  · exact h.opens i hi hlt

theorem eq_or_next (h : LeadsTo S a j) :
    a = j ∨ (S.get a).kind = .openParen ∧ LeadsTo S (a + 1) j := by
  rcases Nat.eq_or_lt_of_le h.le with he | hlt
  · exact .inl he
  · exact .inr ⟨h.opens a (Nat.le_refl a) hlt, hlt, fun i hi => h.opens i (Nat.le_of_succ_le hi),
      h.semicolon⟩

end LeadsTo

/-- Reading does not stop short of a semicolon that only parentheses lead to. -/
theorem Reads.le_of_leadsTo (h : Reads S m a e ds b) (hj : LeadsTo S a j) : j ≤ b := by
  have hk := hj.eq_or_next
  induction h with
  | refused ho =>
    rcases hk with rfl | ⟨hk, -⟩
    · exact Nat.le_refl _
    · rw [hk] at ho
      cases ho
  | tooLarge hi =>
    rcases hk with rfl | ⟨hk, -⟩
    · exact Nat.le_refl _
    · exact absurd (hk.symm.trans hi) nofun
  | atom ho =>
    rcases hk with rfl | ⟨hk, -⟩
    · exact Nat.le_refl _
    · rw [hk] at ho
      cases ho
  | unary ho hr =>
    have hle := hr.le
    rcases hk with rfl | ⟨hk, -⟩
    · omega
    · rw [hk] at ho
      cases ho
  | group _ hr _ ih =>
    have hle := hr.le
    rcases hk with rfl | ⟨-, hn⟩
    · omega
    · exact Nat.le_succ_of_le (ih hn hn.eq_or_next)
  | unclosed _ hr _ _ ih =>
    rcases hk with rfl | ⟨-, hn⟩
    · exact Nat.le_of_succ_le hr.le
    · exact ih hn hn.eq_or_next
  | broken _ hr _ _ ih =>
    rcases hk with rfl | ⟨-, hn⟩
    · exact Nat.le_of_succ_le hr.le
    · exact ih hn hn.eq_or_next
  | binary _ _ _ hr _ ihl =>
    have hl := ihl hj hk
    have hle := hr.le
    omega

/-- The token `t` stands at `i`, from the token `a` of `S` up to the token `b`. -/
structure StandsAt (S : TokenStream) (a b : Nat) (t : Token) (i : Nat) : Prop where
  get : S.get i = t
  ge : a ≤ i
  le : i ≤ b
  ne : t.kind ≠ .eof

theorem StandsAt.mono {S : TokenStream} (h : StandsAt S a b t i) (ha : a' ≤ a) (hb : b ≤ b') :
    StandsAt S a' b' t i :=
  ⟨h.get, Nat.le_trans ha h.ge, Nat.le_trans h.le hb, h.ne⟩

/-- The tokens of an expression stand where it was read, and so do the semicolons that cut its
operators off from an operand. -/
theorem Reads.exists_standsAt (h : Reads S m a e ds b) (ht : t ∈ e.tokens) :
    ∃ i, StandsAt S a b t i ∧ (t.kind.IsOperator → ∀ j, LeadsTo S (i + 1) j → j ≤ b) := by
  induction h with
  | refused => cases ht
  | tooLarge => cases ht
  | @atom a m ho =>
    rw [Grammar.Surface.tokens_expr_atom, List.mem_singleton] at ht
    subst t
    refine ⟨a, ⟨rfl, Nat.le_refl a, Nat.le_refl a, Kind.ne_eof_of_opening? ho⟩, ?_⟩
    intro hp
    exact absurd ho hp.opening?_ne_atom
  | @unary a e ds b m ho hr ih =>
    have hle := hr.le
    rcases List.mem_cons.mp ht with rfl | ht
    · refine ⟨a, ⟨rfl, Nat.le_refl a, by omega, Kind.ne_eof_of_opening? ho⟩, ?_⟩
      intro _ j hj
      exact hr.le_of_leadsTo hj
    · obtain ⟨i, hi, hl⟩ := ih ht
      exact ⟨i, hi.mono (Nat.le_succ a) (Nat.le_refl b), hl⟩
  | @group a e b m _ _ _ ih =>
    obtain ⟨i, hi, hl⟩ := ih ht
    exact ⟨i, hi.mono (Nat.le_succ a) (Nat.le_succ b),
      fun hp j hj => Nat.le_succ_of_le (hl hp j hj)⟩
  | unclosed => cases ht
  | @broken a e ds b m _ _ _ _ ih =>
    obtain ⟨i, hi, hl⟩ := ih ht
    exact ⟨i, hi.mono (Nat.le_succ a) (Nat.le_refl b), hl⟩
  | @binary m a l ds b r ds' c hl _ hlt hr _ ihl ihr =>
    have hle := hl.le
    have hle' := hr.le
    rcases List.mem_append.mp ht with ht | ht
    · obtain ⟨i, hi, hj⟩ := ihl ht
      exact ⟨i, hi.mono (Nat.le_refl a) (by omega),
        fun hp j hl => Nat.le_trans (hj hp j hl) (by omega)⟩
    rcases List.mem_cons.mp ht with rfl | ht
    · refine ⟨b + 1, ⟨rfl, by omega, by omega, Kind.ne_eof_of_lt_power hlt⟩, ?_⟩
      intro _ j hj
      exact hr.le_of_leadsTo hj
    · obtain ⟨i, hi, hj⟩ := ihr ht
      exact ⟨i, hi.mono (by omega) (Nat.le_refl c), hj⟩

/-- How an expression read from the token `a` to `b` meets a semicolon on its way: it is given up
there, or an operator of it is cut off, and what goes on after the semicolon is an operator too. -/
inductive Meets (S : TokenStream) (a : Nat) (e : Expr) (b j : Nat) : Prop where
  | gaveUp : e.isMissing = true → j = b → LeadsTo S a j → Meets S a e b j
  | wentOn : e.isMissing = false → LacksOperandAt S e.tokens j →
      (j < b → (S.get (j + 1)).kind.isInfix = true ∧ S.get (j + 1) ∈ e.tokens) → Meets S a e b j

namespace Meets

variable {S : TokenStream}

theorem of_not_isMissing (h : Meets S a e b j) (he : e.isMissing = false) :
    LacksOperandAt S e.tokens j ∧
      (j < b → (S.get (j + 1)).kind.isInfix = true ∧ S.get (j + 1) ∈ e.tokens) := by
  cases h with
  | gaveUp hm => cases he.symm.trans hm
  | wentOn _ hl hn => exact ⟨hl, hn⟩

theorem group (h : Meets S (a + 1) e b j) (ho : (S.get a).kind = .openParen) :
    Meets S a e b j := by
  cases h with
  | gaveUp he hj hl => exact .gaveUp he hj (hl.cons ho)
  | wentOn he hl hn => exact .wentOn he hl hn

theorem unary (h : Meets S (a + 1) e b j) (ho : (S.get a).kind.IsOperator) :
    Meets S a (.unary (S.get a) operator e) b j := by
  cases h with
  | gaveUp _ hj hl =>
    subst j
    exact .wentOn rfl ⟨a, List.mem_cons_self, ho, hl⟩ fun hlt => absurd hlt (Nat.lt_irrefl b)
  | wentOn _ hl hn =>
    apply Meets.wentOn rfl (hl.mono (List.subset_cons_self _ _))
    intro hlt
    exact ⟨(hn hlt).1, List.mem_cons_of_mem _ (hn hlt).2⟩

theorem left (h : Meets S a l b j) (hl : l.isMissing = false) (hjb : j ≤ b)
    (hi : (S.get (b + 1)).kind.isInfix = true) :
    Meets S a (.binary (S.get (b + 1)) l operator r) c j := by
  obtain ⟨hl, hn⟩ := h.of_not_isMissing hl
  apply Meets.wentOn rfl (hl.mono (List.subset_append_left _ _))
  intro _
  rcases Nat.eq_or_lt_of_le hjb with rfl | hlt
  · exact ⟨hi, List.mem_append_right _ List.mem_cons_self⟩
  · exact ⟨(hn hlt).1, List.mem_append_left _ (hn hlt).2⟩

theorem right (h : Meets S (b + 2) r c j) (hi : (S.get (b + 1)).kind.isInfix = true) :
    Meets S a (.binary (S.get (b + 1)) l operator r) c j := by
  cases h with
  | gaveUp _ hj hl =>
    subst j
    exact .wentOn rfl ⟨b + 1, List.mem_append_right _ List.mem_cons_self, .inr hi, hl⟩
      fun hlt => absurd hlt (Nat.lt_irrefl c)
  | wentOn _ hl hn =>
    have hs : r.tokens ⊆ l.tokens ++ S.get (b + 1) :: r.tokens :=
      fun _ ht => List.mem_append_right _ (List.mem_cons_of_mem _ ht)
    exact .wentOn rfl (hl.mono hs) fun hlt => ⟨(hn hlt).1, hs (hn hlt).2⟩

end Meets

/-- A semicolon on the way of an expression leaves something on record. -/
theorem Reads.meets (h : Reads S m a e ds b) (hj : (S.get j).kind = .semicolon) (ha : a ≤ j)
    (hb : j ≤ b) : ds ≠ [] ∧ Meets S a e b j := by
  have hne {i : Nat} (hi : (S.get i).kind ≠ .semicolon) : j ≠ i := by
    rintro rfl
    exact hi hj
  have hop {k : Kind} {o : Opening} (ho : k.opening? = some o) : k ≠ .semicolon := by
    rintro rfl
    cases ho
  have hin {m : Power} {k : Kind} (hlt : m < k.power) : k ≠ .semicolon := by
    rintro rfl
    exact absurd hlt (Nat.not_lt_zero _)
  induction h with
  | refused ho =>
    obtain rfl := Nat.le_antisymm ha hb
    exact ⟨nofun, .gaveUp rfl rfl (.refl hj)⟩
  | tooLarge hi =>
    obtain rfl := Nat.le_antisymm ha hb
    exact absurd (hj.symm.trans hi) nofun
  | atom ho => exact absurd (Nat.le_antisymm hb ha) (hne (hop ho))
  | unary ho _ ih =>
    have hja := hne (hop ho)
    obtain ⟨hd, hm⟩ := ih (by omega) hb
    exact ⟨hd, hm.unary (.inl ho)⟩
  | group ho _ hk ih =>
    have hja := hne (hop ho)
    have hjb := hne fun he => absurd (hk.symm.trans he) nofun
    exact absurd rfl (ih (by omega) (by omega)).1
  | unclosed ho _ _ _ ih =>
    have hja := hne (hop ho)
    exact absurd rfl (ih (by omega) hb).1
  | broken ho _ _ _ ih =>
    have hja := hne (hop ho)
    obtain ⟨hd, hm⟩ := ih (by omega) hb
    exact ⟨hd, hm.group (Kind.eq_openParen ho)⟩
  | @binary m a l ds b r ds' c hl hm hlt hr _ ihl ihr =>
    have hjo := hne (hin hlt)
    have hi := Kind.isInfix_of_lt_power hlt
    rcases Nat.lt_or_ge b j with hbj | hjb
    · obtain ⟨hd, hm⟩ := ihr (by omega) hb
      exact ⟨fun he => hd (List.append_eq_nil_iff.mp he).2, hm.right hi⟩
    · obtain ⟨hd, hm'⟩ := ihl ha hjb
      exact ⟨fun he => hd (List.append_eq_nil_iff.mp he).1, hm'.left hm hjb hi⟩

/-- The tokens `ts` stand from the token `a` up to the one before `v`. None of them is an operator,
and no semicolon stands there. -/
structure Fronts (S : TokenStream) (a v : Nat) (ts : List Token) : Prop where
  stands : ∀ t ∈ ts, t.kind ≠ .eof ∧ ¬ t.kind.IsOperator ∧ ∃ i, a ≤ i ∧ i < v ∧ S.get i = t
  free : ∀ i, a ≤ i → i < v → (S.get i).kind ≠ .semicolon

theorem Reads.straddles_iff {front : List Token} (h : Reads S .lowest v e ds c)
    (hS : S.Distinct) (hs : Stops S .lowest e c) (hf : Fronts S a v front)
    (hj : (S.get j).kind = .semicolon) :
    Straddles S (front ++ e.tokens) j ↔
      LacksOperandAt S (front ++ e.tokens) j ∧ (S.get (j + 1)).kind.isInfix = true := by
  have hfront {i : Nat} (hi : S.get i ∈ front) : a ≤ i ∧ i < v := by
    obtain ⟨hne, -, i', hle, hlt, he⟩ := hf.stands _ hi
    obtain rfl := hS _ _ hne he.symm
    exact ⟨hle, hlt⟩
  have hvalue {i : Nat} (hi : S.get i ∈ e.tokens) : v ≤ i ∧ i ≤ c ∧
      ((S.get i).kind.IsOperator → ∀ j, LeadsTo S (i + 1) j → j ≤ c) := by
    obtain ⟨i', ⟨he, hv, hc, hne⟩, hl⟩ := h.exists_standsAt hi
    obtain rfl := hS _ _ hne he.symm
    exact ⟨hv, hc, hl⟩
  have hholds {i : Nat} (hi : S.get i ∈ e.tokens) : e.isMissing = false := by
    rw [Bool.eq_false_iff]
    intro he
    rw [Expr.isMissing_iff] at he
    subst e
    cases hi
  constructor
  · rintro ⟨i, k, hij, hjk, hi, hk⟩
    have hvj : v ≤ j := by
      rcases List.mem_append.mp hi with hi | hi
      · have hai := (hfront hi).1
        rw [← Nat.not_lt]
        intro hlt
        exact hf.free j (by omega) hlt hj
      · exact Nat.le_trans (hvalue hi).1 (Nat.le_of_lt hij)
    rcases List.mem_append.mp hk with hk | hk
    · have hkv := (hfront hk).2
      omega
    · have hjc := Nat.lt_of_lt_of_le hjk (hvalue hk).2.1
      obtain ⟨hl, hn⟩ := (h.meets hj hvj (Nat.le_of_lt hjc)).2.of_not_isMissing (hholds hk)
      exact ⟨hl.mono (List.subset_append_right _ _), (hn hjc).1⟩
  · rintro ⟨⟨i, hi, ho, hl⟩, hn⟩
    rcases List.mem_append.mp hi with hf' | hv
    · exact absurd ho (hf.stands _ hf').2.1
    · obtain ⟨hvi, -, hle⟩ := hvalue hv
      have hjc := hle ho j hl
      have hij := hl.le
      obtain ⟨-, hm⟩ := (h.meets hj (by omega) hjc).2.of_not_isMissing (hholds hv)
      -- The operators stop before one that binds, so the expression goes on after the semicolon.
      have hlt : j < c := by
        apply Nat.lt_of_le_of_ne hjc
        rintro rfl
        rcases hs with hs | hs
        · cases hs.symm.trans (hholds hv)
        · exact hs (Kind.lowest_lt_power hn)
      exact ⟨i, j + 1, by omega, Nat.lt_succ_self j, hi, List.mem_append_right _ (hm hlt).2⟩

theorem Fronts.of_nil (S : TokenStream) (a : Nat) : Fronts S a a [] :=
  ⟨List.forall_mem_nil _, fun _ hi hlt => absurd hi (Nat.not_le_of_lt hlt)⟩

theorem Fronts.binding {S : TokenStream} (hw : (S.get a).kind = .letWord)
    (hn : (S.get (a + 1)).kind = .identifier) (ha : (S.get (a + 2)).kind = .assign) :
    Fronts S a (a + 3) [S.get a, S.get (a + 1)] := by
  constructor
  · rw [List.forall_mem_cons, List.forall_mem_singleton, hw, hn]
    exact ⟨⟨nofun, by decide, a, by omega, by omega, rfl⟩, nofun, by decide, a + 1, by omega,
      by omega, rfl⟩
  · intro i hi hlt he
    have hc : i = a ∨ i = a + 1 ∨ i = a + 2 := by omega
    rcases hc with rfl | rfl | rfl
    · cases hw.symm.trans he
    · cases hn.symm.trans he
    · cases ha.symm.trans he

theorem Fronts.returning {S : TokenStream} (hw : (S.get a).kind = .returnWord) :
    Fronts S a (a + 1) [S.get a] := by
  constructor
  · rw [List.forall_mem_singleton, hw]
    exact ⟨nofun, by decide, a, Nat.le_refl a, Nat.lt_succ_self a, rfl⟩
  · intro i hi hlt he
    obtain rfl : a = i := by omega
    cases hw.symm.trans he

theorem ReadsValue.reads (h : ReadsValue S a e ds b) :
    ∃ c, Reads S .lowest a e ds c ∧ Stops S .lowest e c := by
  cases h with
  | ended hr hk => exact ⟨_, hr, .semicolon hk⟩
  | skipped hr hs => exact ⟨_, hr, hs⟩

theorem ReadsStmt.straddles_iff (h : ReadsStmt S a s ds b) (hS : S.Distinct)
    (hj : (S.get j).kind = .semicolon) :
    Straddles S s.tokens j ↔
      LacksOperandAt S s.tokens j ∧ (S.get (j + 1)).kind.isInfix = true := by
  cases h with
  | binding hw hn ha hv =>
    obtain ⟨c, hr, hs⟩ := hv.reads
    exact hr.straddles_iff hS hs (.binding hw hn ha) hj
  | returning hw _ hv =>
    obtain ⟨c, hr, hs⟩ := hv.reads
    exact hr.straddles_iff hS hs (.returning hw) hj
  | returningNothing hw =>
    constructor
    · rintro ⟨i, k, hij, hjk, hi, hk⟩
      rw [show (Stmt.returning (S.get a) .missing).tokens = [S.get a] from rfl,
        List.mem_singleton] at hi hk
      have hik := hS i k (by rw [hi, hw]; nofun) (hi.trans hk.symm)
      omega
    · rintro ⟨⟨i, hi, ho, -⟩, -⟩
      rw [show (Stmt.returning (S.get a) .missing).tokens = [S.get a] from rfl,
        List.mem_singleton] at hi
      rw [hi, hw] at ho
      exact absurd ho (by decide)
  | closed _ hr hs => exact hr.straddles_iff hS hs (.of_nil S a) hj
  | bare _ hr hs => exact hr.straddles_iff hS hs (.of_nil S a) hj

/-- A semicolon stands between two tokens of a statement exactly where it cuts an operator of the
statement off from its operand and an operator between two operands comes right after it. -/
theorem straddles_semicolon_iff (h : Text.size source.toList ≤ Position.maxOffset)
    (hs : s ∈ (parse source file).1.statements)
    (hj : ((tokenize source file).get j).kind = .semicolon) :
    Straddles (tokenize source file) s.tokens j ↔
      LacksOperandAt (tokenize source file) s.tokens j ∧
        ((tokenize source file).get (j + 1)).kind.isInfix = true := by
  obtain ⟨a, ds, b, hr⟩ := exists_readsStmt_of_mem hs
  exact hr.straddles_iff (distinct_tokenize h) hj

theorem semicolon_straddled : ∃ s ∈ (parse "1 + ; * 2" none).1.statements,
    Straddles (tokenize "1 + ; * 2" none) s.tokens 2 := by
  have hl : Reads (tokenize "1 + ; * 2" none) .lowest 0 _ _ 0 := .atom (by cbv) fun _ => by cbv
  have hr (m : Power) : Reads (tokenize "1 + ; * 2" none) m 2 _ _ 2 := .refused (by cbv)
  have ht (m : Power) : Reads (tokenize "1 + ; * 2" none) m 4 _ _ 4 :=
    .atom (by cbv) fun _ => by cbv
  have hp := Reads.binary hl (by cbv) (by cbv) (hr _) (.inl rfl)
  have he := Reads.binary hp rfl (by cbv) (ht _) (.inr (by cbv))
  have hs := ReadsStmt.bare (by cbv) he (.inr (by cbv)) (of_decide_eq_false (by cbv))
  have hm := (parse_of_runs (.keep (of_decide_eq_false (by cbv)) hs (.stop (by cbv)))).1
  have hs := List.mem_of_head? (congrArg List.head? hm)
  refine ⟨_, hs, (straddles_semicolon_iff (by decide) hs (by cbv)).mpr ⟨⟨1, ?_, ?_⟩, by cbv⟩⟩
  · exact List.mem_append_left _ (List.mem_append_right _ List.mem_cons_self)
  · exact ⟨.inr (by cbv), .refl (by cbv)⟩

end ExprLang
