import ExprLang.Grammar.Surface
import ExprLang.Reading.Recursion
import ExprLang.Tree.Holes
import ExprLang.Tree.Tokens

namespace ExprLang

def Token.InRange (t : Token) : Prop :=
  t.kind = .integer → Text.Decimal.value t.literal.toList ≤ maxInteger

theorem Token.integer_of_not_inRange {t : Token} (h : ¬ t.InRange) : t.kind = .integer :=
  (Decidable.not_imp_iff_and_not.mp h).1

/-- No operator that binds tighter than `min` follows an expression that ends at the token `b`. -/
def Stops (S : TokenStream) (min : Power) (e : Expr) (b : Nat) : Prop :=
  e.isMissing = true ∨ ¬ min < (S.get (b + 1)).kind.power

/-- The rules of reading an expression. From the token `a` of `S` on, some or all of the operators
that bind tighter than `min` are read; the last token in view is `b`, and `ds` is on record. -/
inductive Reads (S : TokenStream) : Power → Nat → Expr → List Diagnostic → Nat → Prop where
  | refused : (S.get a).kind.opening? = none → Reads S m a .missing [.noOperand (S.get a)] a
  | tooLarge : (S.get a).kind = .integer → ¬ (S.get a).InRange →
      Reads S m a .missing [.integerTooLarge (S.get a)] a
  | atom : (S.get a).kind.opening? = some .atom → (S.get a).InRange →
      Reads S m a (Grammar.Surface.atom (S.get a)).expr [] a
  | unary : (S.get a).kind.opening? = some .operator → Reads S .unary (a + 1) e ds b →
      Reads S m a (.unary (S.get a) (S.get a).literal e) ds b
  | group : (S.get a).kind.opening? = some .group → Reads S .lowest (a + 1) e [] b →
      (S.get (b + 1)).kind = .closeParen → Reads S m a e [] (b + 1)
  | unclosed : (S.get a).kind.opening? = some .group → Reads S .lowest (a + 1) e [] b →
      Stops S .lowest e b → (S.get (b + 1)).kind ≠ .closeParen →
      Reads S m a .missing [.unexpected .closeParen (S.get (b + 1))] b
  | broken : (S.get a).kind.opening? = some .group → Reads S .lowest (a + 1) e ds b →
      Stops S .lowest e b → ds ≠ [] → Reads S m a e ds b
  | binary : Reads S m a l ds b → l.isMissing = false → m < (S.get (b + 1)).kind.power →
      Reads S (S.get (b + 1)).kind.power (b + 2) r ds' c →
      Stops S (S.get (b + 1)).kind.power r c →
      Reads S m a (.binary (S.get (b + 1)) l (S.get (b + 1)).literal r) (ds ++ ds') c

theorem Kind.not_unary_lt_power (k : Kind) : ¬ Power.unary < k.power := by
  cases k <;> decide

theorem Kind.power_closeParen {k : Kind} (h : k = .closeParen) : k.power = .lowest := by
  rw [h]
  rfl

theorem Stops.unary (S : TokenStream) (e : Expr) (b : Nat) : Stops S .unary e b :=
  .inr (Kind.not_unary_lt_power _)

theorem Stops.closeParen {S : TokenStream} (h : (S.get (b + 1)).kind = .closeParen) :
    Stops S m e b := by
  apply Or.inr
  rw [Kind.power_closeParen h]
  exact Nat.not_lt_zero _

theorem Grammar.Surface.gaps_atom (t : Token) : (atom t).expr.gaps = 0 := by
  simp only [expr]
  split <;> rfl

theorem Grammar.Surface.tokens_expr_atom (t : Token) : (atom t).expr.tokens = [t] := by
  simp only [expr]
  split <;> rfl

theorem Reads.length_diagnostics (h : Reads S m a e ds b) : ds.length = e.gaps := by
  induction h with
  | refused => rfl
  | tooLarge => rfl
  | atom => exact (Grammar.Surface.gaps_atom _).symm
  | unary _ _ ih => exact ih
  | group _ _ _ ih => exact ih
  | unclosed => rfl
  | broken _ _ _ _ ih => exact ih
  | binary _ hl _ _ _ ihl ihr => rw [List.length_append, ihl, ihr, Expr.gaps_binary _ _ _ _ hl]

theorem Reads.isMissing_of_nil (h : Reads S m a e [] b) : e.isMissing = false := by
  have hg := h.length_diagnostics
  cases he : e.isMissing with
  | false => rfl
  | true =>
    rw [Expr.gaps_of_isMissing he] at hg
    cases hg

theorem Reads.holes_of_nil (h : Reads S m a e [] b) : e.holes = 0 := by
  rw [← Expr.gaps_of_not_isMissing h.isMissing_of_nil, ← h.length_diagnostics, List.length_nil]

/-- An expression that lacks nothing ends with an atom or with the end of a group. -/
theorem Reads.ends_of_nil (h : Reads S m a e [] b) :
    (S.get b).kind.opening? = some .atom ∨ (S.get b).kind = .closeParen := by
  generalize hd : ([] : List Diagnostic) = ds at h
  induction h with
  | refused => cases hd
  | tooLarge => cases hd
  | atom ho => exact .inl ho
  | unary _ _ ih => exact ih hd
  | group _ _ hk => exact .inr hk
  | unclosed => cases hd
  | broken _ _ _ hn => exact absurd hd.symm hn
  | binary _ _ _ _ _ _ ihr => exact ihr (List.append_eq_nil_iff.mp hd.symm).2.symm

theorem Reads.kind_ne_of_nil (h : Reads S m a e [] b) :
    (S.get b).kind ∉ [Kind.semicolon, .eof] := by
  intro hk
  simp only [List.mem_cons, List.not_mem_nil, or_false] at hk
  rcases h.ends_of_nil with ho | ho <;> rcases hk with hk | hk <;> rw [hk] at ho <;> cases ho

theorem Reads.lt_length_of_nil (h : Reads S m a e [] b) : b < S.ahead.length := by
  apply TokenStream.lt_of_kind_ne_eof
  intro hk
  apply h.kind_ne_of_nil
  rw [hk]
  decide

theorem Reads.le (h : Reads S m a e ds b) : a ≤ b := by
  induction h with
  | refused => exact Nat.le_refl _
  | tooLarge => exact Nat.le_refl _
  | atom => exact Nat.le_refl _
  | unary _ _ ih => omega
  | group _ _ _ ih => omega
  | unclosed _ _ _ _ ih => omega
  | broken _ _ _ _ ih => omega
  | binary _ _ _ _ _ ihl ihr => omega

namespace ParseState

variable {S : TokenStream} {p q r : ParseState}

/-- `q` is `p` moved on to the token `b` of `S`, with `ds` recorded on the way. -/
structure MovesTo (S : TokenStream) (p q : ParseState) (b : Nat) (ds : List Diagnostic) : Prop where
  tokens : q.tokens = S.drop b
  errors : q.errors.toList = p.errors.toList ++ ds

theorem current_eq (h : p.tokens = S.drop a) : p.current = S.get a := by
  rw [current, h, TokenStream.get_drop, Nat.add_zero]

theorem peek_eq (h : p.tokens = S.drop a) : p.peek = S.get (a + 1) := by
  rw [peek, h, TokenStream.get_drop]

namespace MovesTo

theorem refl (h : p.tokens = S.drop a) : MovesTo S p p a [] := ⟨h, (List.append_nil _).symm⟩

theorem trans (h : MovesTo S p q b ds) (h' : MovesTo S q r c ds') :
    MovesTo S p r c (ds ++ ds') := by
  refine ⟨h'.tokens, ?_⟩
  rw [h'.errors, h.errors, List.append_assoc]

theorem advance (h : MovesTo S p q b ds) : MovesTo S p q.advance (b + 1) ds := by
  refine ⟨?_, h.errors⟩
  rw [tokens_advance, h.tokens, TokenStream.drop_drop]

theorem record (h : MovesTo S p q b ds) (d : Diagnostic) :
    MovesTo S p (q.record d) b (ds ++ [d]) := by
  refine ⟨h.tokens, ?_⟩
  rw [errors_record, Array.toList_push, h.errors, List.append_assoc]

theorem size_errors (h : MovesTo S p q b ds) : q.errors.size = p.errors.size + ds.length := by
  have he := congrArg List.length h.errors
  rwa [List.length_append, Array.length_toList, Array.length_toList] at he

theorem size_lt_iff (h : MovesTo S p q b ds) : p.errors.size < q.errors.size ↔ ds ≠ [] := by
  rw [h.size_errors, ← List.length_pos_iff]
  omega

theorem from_advance (hp : p.tokens = S.drop a) (h : MovesTo S p.advance q b ds) :
    MovesTo S p q b ds :=
  (refl hp).advance.trans h

end MovesTo

theorem tokens_advance_eq (h : p.tokens = S.drop a) : p.advance.tokens = S.drop (a + 1) :=
  (MovesTo.refl h).advance.tokens

theorem readOperand_refused (h : p.current.kind.opening? = none) :
    p.readOperand = (.missing, p.record (.noOperand p.current)) := by
  rw [readOperand_eq, h]

theorem readOperand_opening (h : p.current.kind.opening? = some o) :
    p.readOperand = p.readOpening o := by
  rw [readOperand_eq, h]

theorem readAtom_eq (h : p.current.kind.opening? = some .atom) (hr : p.current.InRange) :
    p.readAtom = ((Grammar.Surface.atom p.current).expr, p) := by
  simp only [readAtom, Grammar.Surface.expr]
  cases hk : p.current.kind with
  | integer => exact if_pos (hr hk)
  | identifier => rfl
  | trueWord => rfl
  | falseWord => rfl
  | _ => rw [hk] at h; cases h

theorem readAtom_tooLarge (h : p.current.kind = .integer) (hr : ¬ p.current.InRange) :
    p.readAtom = (.missing, p.record (.integerTooLarge p.current)) := by
  simp only [readAtom, h]
  exact if_neg fun hv => hr fun _ => hv

theorem opening?_eq_atom_of_integer {k : Kind} (h : k = .integer) : k.opening? = some .atom := by
  rw [h]
  rfl

theorem closeGroup_broken {inner : Expr × ParseState} (h : n < inner.2.errors.size) :
    closeGroup n inner = inner := by
  rw [closeGroup, decide_eq_true h, Bool.or_true]
  rfl

theorem closeGroup_complete {inner : Expr × ParseState} (hm : inner.1.isMissing = false)
    (hn : ¬ n < inner.2.errors.size) (hk : inner.2.peek.kind = .closeParen) :
    closeGroup n inner = (inner.1, inner.2.advance) := by
  rw [closeGroup, hm, decide_eq_false hn, expect_eq_ok_iff.mpr ⟨hk, rfl⟩]
  rfl

theorem closeGroup_unclosed {inner : Expr × ParseState} (hm : inner.1.isMissing = false)
    (hn : ¬ n < inner.2.errors.size) (hk : inner.2.peek.kind ≠ .closeParen) :
    closeGroup n inner =
      (.missing, inner.2.record (.unexpected .closeParen inner.2.peek)) := by
  rw [closeGroup, hm, decide_eq_false hn, expect_eq_error_iff.mpr ⟨hk, rfl⟩]
  rfl

structure Follows (S : TokenStream) (m : Power) (a : Nat) (p : ParseState)
    (result : Expr × ParseState) (ds : List Diagnostic) (b : Nat) : Prop where
  reads : Reads S m a result.1 ds b
  moves : MovesTo S p result.2 b ds

theorem follows_readGroup (ho : p.current.kind.opening? = some .group) (hp : p.tokens = S.drop a)
    (h : Follows S .lowest (a + 1) p.advance (p.advance.readExpr .lowest) ds b)
    (hs : Stops S .lowest (p.advance.readExpr .lowest).1 b) (m : Power) :
    ∃ ds b, Follows S m a p p.readGroup ds b := by
  have hm := h.moves.from_advance hp
  have hn := hm.size_lt_iff
  rw [current_eq hp] at ho
  by_cases hd : ds = []
  · subst ds
    have hi := h.reads.isMissing_of_nil
    have hg : ¬ p.errors.size < (p.advance.readExpr .lowest).2.errors.size :=
      fun hlt => hn.mp hlt rfl
    by_cases hk : (S.get (b + 1)).kind = .closeParen
    · have he := closeGroup_complete hi hg (peek_eq h.moves.tokens ▸ hk)
      refine ⟨[], b + 1, ?_, ?_⟩ <;> rw [readGroup, he]
      · exact .group ho h.reads hk
      · exact hm.advance
    · have he := closeGroup_unclosed hi hg (peek_eq h.moves.tokens ▸ hk)
      refine ⟨[.unexpected .closeParen (S.get (b + 1))], b, ?_, ?_⟩ <;> rw [readGroup, he]
      · exact .unclosed ho h.reads hs hk
      · rw [peek_eq h.moves.tokens]
        exact hm.record _
  · refine ⟨ds, b, ?_, ?_⟩ <;> rw [readGroup, closeGroup_broken (hn.mpr hd)]
    · exact .broken ho h.reads hs hd
    · exact hm

/-- Reading an expression follows the rules and leaves no operator that belongs to it. -/
theorem follows_readExpr (p : ParseState) (m : Power) (hp : p.tokens = S.drop a) :
    ∃ ds b, Follows S m a p (p.readExpr m) ds b ∧ Stops S m (p.readExpr m).1 b := by
  refine (reading_induction
    (E := fun m p => ∀ a, p.tokens = S.drop a →
      ∃ ds b, Follows S m a p (p.readExpr m) ds b ∧ Stops S m (p.readExpr m).1 b)
    (O := fun p => ∀ m a, p.tokens = S.drop a → ∃ ds b, Follows S m a p p.readOperand ds b)
    (L := fun m left p => ∀ a ds b, left.isMissing = false → Reads S m a left ds b →
      p.tokens = S.drop b → ∃ ds' c, Reads S m a (p.readOperators m left).1 (ds ++ ds') c ∧
        Stops S m (p.readOperators m left).1 c ∧ MovesTo S p (p.readOperators m left).2 c ds')
    ?expr ?refused ?atom ?unary ?group ?stop ?step p).1 m a hp
  case expr =>
    intro m p hO hL a hp
    obtain ⟨ds, b, hr, hm⟩ := hO m a hp
    rw [readExpr_eq]
    split
    · next he => exact ⟨ds, b, ⟨hr, hm⟩, .inl he⟩
    · next he =>
      rw [Bool.not_eq_true] at he
      obtain ⟨ds', c, hr', hs, hm'⟩ := hL he a ds b he hr hm.tokens
      exact ⟨ds ++ ds', c, ⟨hr', hm.trans hm'⟩, hs⟩
  case refused =>
    intro p ho m a hp
    rw [readOperand_refused ho, current_eq hp]
    rw [current_eq hp] at ho
    exact ⟨_, a, .refused ho, (MovesTo.refl hp).record _⟩
  case atom =>
    intro p ho m a hp
    rw [readOperand_opening ho]
    by_cases hr : p.current.InRange
    · rw [readOpening, readAtom_eq ho hr]
      rw [current_eq hp] at ho hr ⊢
      exact ⟨[], a, .atom ho hr, .refl hp⟩
    · have hi := Token.integer_of_not_inRange hr
      rw [readOpening, readAtom_tooLarge hi hr]
      rw [current_eq hp] at hi hr ⊢
      exact ⟨_, a, .tooLarge hi hr, (MovesTo.refl hp).record _⟩
  case unary =>
    intro p ho ih m a hp
    obtain ⟨ds, b, ⟨hr, hm⟩, -⟩ := ih (a + 1) (tokens_advance_eq hp)
    rw [readOperand_opening ho]
    rw [current_eq hp] at ho
    refine ⟨ds, b, ?_, hm.from_advance hp⟩
    simp only [readOpening, readUnary, current_eq hp]
    exact .unary ho hr
  case group =>
    intro p ho ih m a hp
    obtain ⟨ds, b, h, hs⟩ := ih (a + 1) (tokens_advance_eq hp)
    rw [readOperand_opening ho]
    exact follows_readGroup ho hp h hs m
  case stop =>
    intro m left p hlt a ds b _ hr hp
    rw [readOperators_eq, if_neg hlt]
    refine ⟨[], b, ?_, ?_, .refl hp⟩
    · rwa [List.append_nil]
    · rw [peek_eq hp] at hlt
      exact .inr hlt
  case step =>
    intro m left p hlt hE hL a ds b hl hr hp
    obtain ⟨ds', c, ⟨hr', hm⟩, hs⟩ := hE (b + 2) (tokens_advance_eq (tokens_advance_eq hp))
    rw [readOperators_eq, if_pos hlt]
    rw [peek_eq hp] at hlt hr' hs hL ⊢
    have hb := Reads.binary hr hl hlt hr' hs
    have he : p.advance.readBinary left (S.get (b + 1)).kind.power =
        (.binary (S.get (b + 1)) left (S.get (b + 1)).literal
          (p.advance.advance.readExpr (S.get (b + 1)).kind.power).1,
        (p.advance.advance.readExpr (S.get (b + 1)).kind.power).2) := by
      rw [readBinary, current_eq (tokens_advance_eq hp)]
    rw [peek_eq hp] at hm
    rw [he] at hL ⊢
    obtain ⟨ds'', c', hr'', hs', hm'⟩ := hL a (ds ++ ds') c rfl hb hm.tokens
    refine ⟨ds' ++ ds'', c', ?_, hs', ?_⟩
    · rwa [← List.append_assoc]
    · exact ((hm.from_advance (tokens_advance_eq hp)).from_advance hp).trans hm'

theorem readExpr_of_readOperand (hp : p.readOperand = (e, q)) (m : Power) :
    p.readExpr m = if e.isMissing then (e, q) else q.readOperators m e := by
  rw [readExpr_eq, hp]

theorem readOperators_of_stops (hs : Stops S m e b) (hq : q.tokens = S.drop b) :
    (if e.isMissing then (e, q) else q.readOperators m e) = (e, q) := by
  split
  · rfl
  · next he =>
    have hlt := hs.resolve_left he
    rw [readOperators_eq, peek_eq hq, if_neg hlt]

end ParseState

open ParseState in
/-- Whatever the rules allow is what the reader does; it goes on where the rules stop early. -/
theorem Reads.readExpr {p : ParseState} (h : Reads S m a e ds b) (hp : p.tokens = S.drop a) :
    ∃ q, MovesTo S p q b ds ∧
      p.readExpr m = if e.isMissing then (e, q) else q.readOperators m e := by
  induction h generalizing p with
  | refused ho =>
    rw [← current_eq hp] at ho ⊢
    exact ⟨_, (MovesTo.refl hp).record _, readExpr_of_readOperand (readOperand_refused ho) _⟩
  | tooLarge hi hr =>
    rw [← current_eq hp] at hi hr ⊢
    have he := readOperand_opening (opening?_eq_atom_of_integer hi)
    rw [readOpening, readAtom_tooLarge hi hr] at he
    exact ⟨_, (MovesTo.refl hp).record _, readExpr_of_readOperand he _⟩
  | atom ho hr =>
    rw [← current_eq hp] at ho hr ⊢
    have he := readOperand_opening ho
    rw [readOpening, readAtom_eq ho hr] at he
    exact ⟨p, .refl hp, readExpr_of_readOperand he _⟩
  | unary ho _ ih =>
    obtain ⟨q, hm, he⟩ := ih (tokens_advance_eq hp)
    rw [readOperators_of_stops (Stops.unary _ _ _) hm.tokens] at he
    rw [← current_eq hp] at ho ⊢
    have hu := readOperand_opening ho
    rw [readOpening, readUnary, he] at hu
    exact ⟨q, hm.from_advance hp, readExpr_of_readOperand hu _⟩
  | group ho hr hk ih =>
    obtain ⟨q, hm, he⟩ := ih (tokens_advance_eq hp)
    rw [readOperators_of_stops (Stops.closeParen hk) hm.tokens] at he
    rw [← current_eq hp] at ho
    rw [← peek_eq hm.tokens] at hk
    have hm' := hm.from_advance hp
    have hg := readOperand_opening ho
    rw [readOpening, readGroup, he, closeGroup_complete hr.isMissing_of_nil
      (fun hlt => hm'.size_lt_iff.mp hlt rfl) hk] at hg
    exact ⟨_, hm'.advance, readExpr_of_readOperand hg _⟩
  | unclosed ho hr hs hk ih =>
    obtain ⟨q, hm, he⟩ := ih (tokens_advance_eq hp)
    rw [readOperators_of_stops hs hm.tokens] at he
    rw [← current_eq hp] at ho
    rw [← peek_eq hm.tokens] at hk ⊢
    have hm' := hm.from_advance hp
    have hg := readOperand_opening ho
    rw [readOpening, readGroup, he, closeGroup_unclosed hr.isMissing_of_nil
      (fun hlt => hm'.size_lt_iff.mp hlt rfl) hk] at hg
    exact ⟨_, hm'.record _, readExpr_of_readOperand hg _⟩
  | broken ho hr hs hd ih =>
    obtain ⟨q, hm, he⟩ := ih (tokens_advance_eq hp)
    rw [readOperators_of_stops hs hm.tokens] at he
    rw [← current_eq hp] at ho
    have hm' := hm.from_advance hp
    have hg := readOperand_opening ho
    rw [readOpening, readGroup, he, closeGroup_broken (hm'.size_lt_iff.mpr hd)] at hg
    exact ⟨q, hm', readExpr_of_readOperand hg _⟩
  | binary _ hl hlt _ hs ihl ihr =>
    obtain ⟨q, hm, he⟩ := ihl hp
    obtain ⟨r, hm', he'⟩ := ihr (tokens_advance_eq (tokens_advance_eq hm.tokens))
    rw [readOperators_of_stops hs hm'.tokens] at he'
    refine ⟨r, hm.advance.advance.trans hm', ?_⟩
    rw [he, hl]
    rw [← peek_eq hm.tokens] at hlt he' ⊢
    simp only [Bool.false_eq_true, if_false]
    rw [readOperators_eq, if_pos hlt, readBinary, he', current_advance]
    rfl

open ParseState in
theorem Reads.readExpr_eq {p : ParseState} (h : Reads S m a e ds b) (hs : Stops S m e b)
    (hp : p.tokens = S.drop a) : ∃ q, p.readExpr m = (e, q) ∧ MovesTo S p q b ds := by
  obtain ⟨q, hm, he⟩ := h.readExpr hp
  exact ⟨q, he.trans (readOperators_of_stops hs hm.tokens), hm⟩

end ExprLang
