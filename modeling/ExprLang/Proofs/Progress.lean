import ExprLang.Proofs.Depth

namespace ExprLang

open Grammar

def Diagnostic.IsOverflow (d : Diagnostic) : Prop :=
  ∃ text, d.problem = .integerTooLarge text

theorem Diagnostic.isOverflow (t : Token) : (integerTooLarge t).IsOverflow := ⟨t.literal, rfl⟩

theorem Grammar.Ends.closeParen {t : Token} (h : t.kind = .closeParen) (rest : List Token) :
    Ends (t :: rest) := by
  refine .cons ?_ rest
  rw [h]
  rfl

theorem Stops.isInfix {S : TokenStream} (h : Stops S .lowest e b) (he : e.isMissing = false) :
    (S.get (b + 1)).kind.isInfix = false := by
  have hlt := h.resolve_left (by rw [he]; nofun)
  exact decide_eq_false hlt

theorem group_phrase {S : TokenStream} {u more : List Token} (hu : IsOperand fits u)
    (ho : (S.get a).kind.opening? = some .group) (hd : S.ahead.drop a = u ++ more) :
    ∃ v tail closing, IsOperand fits v ∧ IsTail fits tail ∧ closing.kind = .closeParen ∧
      u = S.get a :: (v ++ tail) ++ [closing] ∧
      S.ahead.drop (a + 1) = v ++ (tail ++ closing :: more) := by
  obtain ⟨t, u, rfl⟩ := List.exists_cons_of_ne_nil hu.ne_nil
  have he := (TokenStream.get_of_drop_eq_cons hd).1
  have hd : S.ahead.drop (a + 1) = u ++ more := (TokenStream.get_of_drop_eq_cons hd).2
  rw [he] at ho ⊢
  obtain ⟨inner, closing, rfl, hi, hc⟩ := hu.of_group ho
  obtain ⟨v, tail, rfl, hv, ht⟩ := hi.split
  refine ⟨v, tail, closing, hv, ht, hc, rfl, ?_⟩
  simpa only [List.append_assoc, List.singleton_append] using hd

theorem Grammar.IsTail.eq_nil {S : TokenStream} (ht : IsTail fits tail)
    (hd : S.ahead.drop b = tail ++ rest) (hi : (S.get b).kind.isInfix = false) : tail = [] := by
  cases ht with
  | nil => rfl
  | cons ho =>
    rw [(TokenStream.get_of_drop_eq_cons hd).1, ho] at hi
    cases hi

theorem Grammar.IsTail.of_isInfix {S : TokenStream} (ht : IsTail fits tail)
    (hd : S.ahead.drop b = tail ++ rest) (hr : Ends rest)
    (hi : (S.get b).kind.isInfix = true) :
    ∃ u tail', tail = S.get b :: (u ++ tail') ∧ IsOperand fits u ∧ IsTail fits tail' ∧
      S.ahead.drop (b + 1) = u ++ (tail' ++ rest) := by
  cases ht with
  | nil =>
    have hne := Kind.ne_eof_of_isInfix hi
    rw [TokenStream.drop_eq_cons hne, List.nil_append] at hd
    have hf := hr (S.get b) (by rw [← hd]; rfl)
    rw [hf] at hi
    cases hi
  | cons _ hu ht =>
    obtain ⟨he, hd⟩ := TokenStream.get_of_drop_eq_cons hd
    rw [he]
    exact ⟨_, _, rfl, hu, ht, hd.trans (List.append_assoc _ _ rest)⟩

/-- Reading has come to the end of the tokens `used`, outside any group that they open; the tokens
`back` and `rest` are still to come. -/
structure Aligned (fits : Token → Prop) (S : TokenStream) (a : Nat) (e : Expr)
    (ds : List Diagnostic) (b : Nat) (used back rest : List Token) : Prop where
  read : IsExpression fits used
  tail : IsTail fits back
  drop : S.ahead.drop (b + 1) = back ++ rest
  shallow : ¬ Buried 0 used
  clean : ds = [] ↔ ∀ t ∈ used, t.InRange
  present : (S.get a).InRange → e.isMissing = false

/-- Reading has left the tokens `ts` with a problem inside a group: that group, and whatever comes
after it, is still to come. -/
structure Stuck (fits : Token → Prop) (S : TokenStream) (ds : List Diagnostic) (b : Nat)
    (ts back : List Token) (closing : Token) (rest : List Token) : Prop where
  tail : IsTail fits back
  closes : closing.kind = .closeParen
  drop : S.ahead.drop (b + 1) = back ++ closing :: rest
  problem : ds ≠ []
  buried : Buried 0 ts

/-- Where the reader can stop in the tokens `ts` of an expression with `rest` after them. -/
inductive Reaches (fits : Token → Prop) (S : TokenStream) (a : Nat) (e : Expr)
    (ds : List Diagnostic) (b : Nat) (ts rest : List Token) : Prop where
  | aligned (used : List Token) : ts = used ++ back → Aligned fits S a e ds b used back rest →
      Reaches fits S a e ds b ts rest
  | stuck (more : List Token) : Stuck fits S ds b ts back closing (more ++ rest) →
      Reaches fits S a e ds b ts rest

namespace Reaches

variable {fits : Token → Prop} {S : TokenStream}

theorem exists_of_ne_nil (h : Reaches fits S a e ds b ts rest) (hd : ds ≠ []) :
    ∃ t ∈ ts, ¬ t.InRange := by
  cases h with
  | aligned used hts hl =>
    have hn := mt hl.clean.mpr hd
    simp only [Classical.not_forall] at hn
    obtain ⟨t, ht, hn⟩ := hn
    rw [hts]
    exact ⟨t, List.mem_append_left _ ht, hn⟩
  | stuck more hs => exact hs.buried.exists

/-- Reading that found no problem and that no operator follows has come to the end. -/
theorem of_nil (h : Reaches fits S a e [] b ts rest)
    (hi : (S.get (b + 1)).kind.isInfix = false) :
    S.ahead.drop (b + 1) = rest ∧ ∀ t ∈ ts, t.InRange := by
  cases h with
  | aligned used hts hl =>
    obtain rfl := hl.tail.eq_nil hl.drop hi
    rw [hts, List.append_nil]
    exact ⟨hl.drop, hl.clean.mp rfl⟩
  | stuck more hs => exact absurd rfl hs.problem

theorem within (h : Reaches fits S a e ds b ts (closing :: (more ++ rest)))
    (hc : closing.kind = .closeParen) (hd : ds' ≠ []) (hb : Buried 0 ts') :
    Reaches fits S a' e' ds' b ts' rest := by
  cases h with
  | aligned _ _ hl => exact .stuck more ⟨hl.tail, hc, hl.drop, hd, hb⟩
  | stuck more' hs =>
    refine .stuck (more' ++ closing :: more) ⟨hs.tail, hs.closes, ?_, hd, hb⟩
    rw [hs.drop, List.append_assoc, List.cons_append]

theorem sign (h : Reaches fits S (a + 1) e ds b ts rest) (ho : op.kind.opening? = some .operator)
    (t : Token) (operator : String) :
    Reaches fits S a (.unary t operator e) ds b (op :: ts) rest := by
  have hf := Kind.isFlat_of_opening? ho nofun
  have hin : op.InRange := by
    intro hk
    rw [hk] at ho
    cases ho
  cases h with
  | aligned used hts hl =>
    refine .aligned (op :: used) (congrArg (op :: ·) hts)
      ⟨hl.read.sign ho, hl.tail, hl.drop, ?_, ?_, fun _ => rfl⟩
    · rw [buried_zero_cons hf]
      exact hl.shallow
    · rw [hl.clean, List.forall_mem_cons, and_iff_right hin]
  | stuck more hs =>
    exact .stuck more ⟨hs.tail, hs.closes, hs.drop, hs.problem, (buried_zero_cons hf).mpr hs.buried⟩

end Reaches

theorem Aligned.binary (h : Aligned fits S a l ds b used (op :: ts) rest)
    (h' : Reaches fits S a' r ds' c ts rest) (ho : op.kind.isInfix = true)
    (t : Token) (operator : String) :
    Reaches fits S a (.binary t l operator r) (ds ++ ds') c (used ++ op :: ts) rest := by
  have hf := Kind.isFlat_of_isInfix ho
  have hin : op.InRange := by
    intro hk
    rw [hk] at ho
    cases ho
  cases h' with
  | aligned used' hts hl =>
    refine .aligned (used ++ op :: used') (by rw [hts, List.append_assoc]; rfl)
      ⟨h.read.append ho hl.read, hl.tail, hl.drop, ?_, ?_, fun _ => rfl⟩
    · rw [h.read.nested.append, buried_zero_cons hf]
      exact not_or.mpr ⟨h.shallow, hl.shallow⟩
    · rw [List.append_eq_nil_iff, h.clean, hl.clean, List.forall_mem_append,
        List.forall_mem_cons, and_iff_right hin]
  | stuck more hs =>
    refine .stuck more ⟨hs.tail, hs.closes, hs.drop, ?_, ?_⟩
    · exact List.append_ne_nil_of_right_ne_nil ds hs.problem
    · rw [h.read.nested.append, buried_zero_cons hf]
      exact .inr hs.buried

theorem Reaches.operand {u : List Token} {S : TokenStream} (hu : IsOperand fits u)
    (ht : IsTail fits tail) (hd : S.ahead.drop (b + 1) = tail ++ rest) (hb : ¬ Buried 0 u)
    (hc : ds = [] ↔ ∀ t ∈ u, t.InRange) (hm : (S.get a).InRange → e.isMissing = false) :
    Reaches fits S a e ds b (u ++ tail) rest :=
  .aligned u rfl ⟨.operand hu, ht, hd, hb, hc, hm⟩

/-- Where the grammar has an operand with operators and their operands after it, the reader finds
no fault but integers out of range. -/
theorem Reads.reaches {u tail rest : List Token} (h : Reads S m a e ds b) (hu : IsOperand fits u)
    (ht : IsTail fits tail) (hd : S.ahead.drop a = u ++ (tail ++ rest)) (hr : Ends rest) :
    (∀ d ∈ ds, d.IsOverflow) ∧ Reaches fits S a e ds b (u ++ tail) rest := by
  induction h generalizing u tail rest with
  | refused ho =>
    obtain ⟨t, u, rfl⟩ := List.exists_cons_of_ne_nil hu.ne_nil
    rw [(TokenStream.get_of_drop_eq_cons hd).1] at ho
    exact absurd ho hu.opening
  | tooLarge hi hn =>
    obtain ⟨t, u, rfl⟩ := List.exists_cons_of_ne_nil hu.ne_nil
    obtain ⟨rfl, hd₁⟩ := TokenStream.get_of_drop_eq_cons hd
    obtain ⟨_, rfl⟩ := hu.of_atom (ParseState.opening?_eq_atom_of_integer hi)
    refine ⟨List.forall_mem_singleton.mpr (Diagnostic.isOverflow _), ?_⟩
    refine .operand hu ht hd₁ (by simp [Buried]) ?_ fun hr => absurd hr hn
    rw [List.forall_mem_singleton]
    exact iff_of_false (List.cons_ne_nil _ _) hn
  | atom ho hin =>
    obtain ⟨t, u, rfl⟩ := List.exists_cons_of_ne_nil hu.ne_nil
    obtain ⟨rfl, hd₁⟩ := TokenStream.get_of_drop_eq_cons hd
    obtain ⟨_, rfl⟩ := hu.of_atom ho
    refine ⟨List.forall_mem_nil _, ?_⟩
    refine .operand hu ht hd₁ (by simp [Buried]) ?_ fun _ => Surface.isMissing_expr _
    rw [List.forall_mem_singleton]
    exact iff_of_true rfl hin
  | unary ho _ ih =>
    obtain ⟨t, u, rfl⟩ := List.exists_cons_of_ne_nil hu.ne_nil
    obtain ⟨rfl, hd₁⟩ := TokenStream.get_of_drop_eq_cons hd
    obtain ⟨hall, hreach⟩ := ih (hu.of_operator ho) ht hd₁ hr
    exact ⟨hall, hreach.sign ho _ _⟩
  | @group a e b m ho hr' hk ih =>
    obtain ⟨v, tail', closing, hv, ht', hc, rfl, hd₁⟩ := group_phrase hu ho hd
    obtain ⟨hall, hreach⟩ := ih hv ht' hd₁ (Ends.closeParen hc _)
    obtain ⟨hd₂, hin⟩ := hreach.of_nil (by rw [hk]; rfl)
    have hn := (hv.append_tail ht').nested
    have hopen : (S.get a).InRange := Token.inRange_of_ne (by rw [Kind.eq_openParen ho]; decide)
    have hclose : closing.InRange := Token.inRange_of_ne (by rw [hc]; decide)
    refine ⟨hall, .operand hu ht (TokenStream.get_of_drop_eq_cons hd₂).2 ?_ ?_
      fun _ => hr'.isMissing_of_nil⟩
    · rw [List.cons_append, hn.buried_group (Kind.eq_openParen ho) hc]
      rintro (⟨t, ht, hn⟩ | hn)
      · exact hn (hin t ht)
      · exact hn
    · refine iff_of_true rfl (List.forall_mem_append.mpr ⟨?_, ?_⟩)
      · exact List.forall_mem_cons.mpr ⟨hopen, hin⟩
      · exact List.forall_mem_singleton.mpr hclose
  | unclosed ho hr' hs hk ih =>
    obtain ⟨v, tail', closing, hv, ht', hc, -, hd₁⟩ := group_phrase hu ho hd
    obtain ⟨-, hreach⟩ := ih hv ht' hd₁ (Ends.closeParen hc _)
    obtain ⟨hd₂, -⟩ := hreach.of_nil (hs.isInfix hr'.isMissing_of_nil)
    rw [(TokenStream.get_of_drop_eq_cons hd₂).1] at hk
    exact absurd hc hk
  | broken ho _ _ hn ih =>
    obtain ⟨v, tail', closing, hv, ht', hc, rfl, hd₁⟩ := group_phrase hu ho hd
    obtain ⟨hall, hreach⟩ := ih hv ht' hd₁ (Ends.closeParen hc _)
    refine ⟨hall, hreach.within hc hn ?_⟩
    rw [List.append_assoc, List.cons_append, List.singleton_append,
      (hv.append_tail ht').nested.buried_group (Kind.eq_openParen ho) hc]
    exact .inl (hreach.exists_of_ne_nil hn)
  | @binary m a l ds b r ds' c _ _ hlt _ _ ihl ihr =>
    obtain ⟨hall, hreach⟩ := ihl hu ht hd hr
    have hi := Kind.isInfix_of_lt_power hlt
    cases hreach with
    | aligned used hts hl =>
      obtain ⟨u', tail', rfl, hu', ht', hd⟩ := hl.tail.of_isInfix hl.drop hr hi
      obtain ⟨hall', hreach'⟩ := ihr hu' ht' hd hr
      rw [hts]
      exact ⟨List.forall_mem_append.mpr ⟨hall, hall'⟩, hl.binary hreach' hi _ _⟩
    | stuck more hs =>
      obtain ⟨u', tail', rfl, hu', ht', hd⟩ :=
        hs.tail.of_isInfix hs.drop (Ends.closeParen hs.closes _) hi
      obtain ⟨hall', hreach'⟩ := ihr hu' ht' hd (Ends.closeParen hs.closes _)
      exact ⟨List.forall_mem_append.mpr ⟨hall, hall'⟩,
        hreach'.within hs.closes (List.append_ne_nil_of_left_ne_nil hs.problem _) hs.buried⟩

theorem Reads.reaches_expression {ts rest : List Token} (h : Reads S m a e ds b)
    (he : IsExpression fits ts) (hd : S.ahead.drop a = ts ++ rest) (hr : Ends rest) :
    (∀ d ∈ ds, d.IsOverflow) ∧ Reaches fits S a e ds b ts rest := by
  obtain ⟨u, tail, rfl, hu, ht⟩ := he.split
  rw [List.append_assoc] at hd
  exact h.reaches hu ht hd hr

end ExprLang
