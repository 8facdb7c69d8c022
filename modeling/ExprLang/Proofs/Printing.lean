import ExprLang.Proofs.Acceptance
import ExprLang.Tree.Marks

namespace ExprLang

theorem Kind.endsBefore_of_break (h : b = ' ' ∨ b = ')' ∨ b = ';') (k : Kind) (rest : List Char) :
    k.EndsBefore (b :: rest) := by
  apply EndsBefore.cons
  rcases h with rfl | rfl | rfl <;> cases k <;> rfl

namespace Expr

theorem Writable.exists_marks {e : Expr} (h : e.Writable) :
    ∃ m ms, e.marks = m :: ms ∧ m.kind.opening? ≠ none := by
  cases e with
  | missing => cases h
  | bool token value => cases value <;> exact ⟨_, _, rfl, nofun⟩
  | _ => exact ⟨_, _, rfl, nofun⟩

theorem Writable.head_marks {e : Expr} (h : e = missing ∨ e.Writable) :
    ∀ m ∈ (e.marks ++ (⟨.closeParen, ")"⟩ :: ms : List Mark)).head?,
      m.kind ≠ .assign ∧ m.kind ≠ .equal := by
  intro m hm
  rcases h with rfl | h
  · cases hm
    exact ⟨nofun, nofun⟩
  · obtain ⟨m', ms', he, ho⟩ := h.exists_marks
    rw [he] at hm
    cases hm
    constructor <;>
    · intro hk
      rw [hk] at ho
      exact ho rfl

/-- The text of an expression consists of its marks, whatever follows that does not belong to the
last of them. -/
theorem Writable.spells {e : Expr} (h : e.Writable) (hr : ∀ k : Kind, k.EndsBefore text)
    (hs : Spells text ms) : Spells (e.render.toList ++ text) (e.marks ++ ms) := by
  have hclose {text ms} (hs : Spells text ms) :
      Spells (')' :: text) (⟨.closeParen, ")"⟩ :: ms) :=
    .token (.symbol rfl) (fun _ _ => rfl) hs
  have hopen {text ms} (hs : Spells text ms) : Spells ('(' :: text) (⟨.openParen, "("⟩ :: ms) :=
    .token (.symbol rfl) (fun _ _ => rfl) hs
  induction e generalizing text ms with
  | missing => cases h
  | ident token name => exact .write (IsName.spelled h) (hr _) hs
  | int token value => exact .write (Text.Decimal.spelled_ofInt h.1) (hr _) hs
  | bool token value =>
    cases value with
    | true => exact .write (Kind.spelled_of_keyword? rfl) (hr _) hs
    | false => exact .write (Kind.spelled_of_keyword? rfl) (hr _) hs
  | unary token operator operand ih =>
    obtain ⟨⟨k, hk, ho⟩, hx⟩ := h
    have hx' : Spells (operand.render.toList ++ ')' :: text)
        (operand.marks ++ ⟨.closeParen, ")"⟩ :: ms) := by
      rcases hx with rfl | hx
      · exact hclose hs
      · exact ih hx (fun k => Kind.endsBefore_of_break (.inr (.inl rfl)) k text) (hclose hs)
    have hop := Spells.write (Kind.spelled_of_ofOperator? hk)
      (hx'.endsBefore_operator (Writable.head_marks hx) ho) hx'
    rw [marks, Mark.operator_eq hk, List.cons_append, List.cons_append, List.append_assoc]
    simp only [render, String.toList_append, List.append_assoc]
    exact hopen hop
  | binary token left operator right ihl ihr =>
    obtain ⟨⟨k, hk, hi⟩, hl, hx⟩ := h
    have hspace (text : List Char) (k : Kind) : k.EndsBefore (' ' :: text) :=
      Kind.endsBefore_of_break (.inl rfl) k text
    have hx' : Spells (right.render.toList ++ ')' :: text)
        (right.marks ++ ⟨.closeParen, ")"⟩ :: ms) := by
      rcases hx with rfl | hx
      · exact hclose hs
      · exact ihr hx (fun k => Kind.endsBefore_of_break (.inr (.inl rfl)) k text) (hclose hs)
    have hop := Spells.write (Kind.spelled_of_ofOperator? hk) (hspace _ _) (.blank rfl hx')
    have hl' := ihl hl (hspace _) (.blank rfl hop)
    rw [marks, Mark.operator_eq hk, List.cons_append, List.append_assoc, List.cons_append,
      List.append_assoc]
    simp only [render, String.toList_append, List.append_assoc]
    exact hopen hl'

end Expr

theorem Token.kind_of_mark {t : Token} (h : t.mark = ⟨k, text⟩) : t.kind = k :=
  congrArg Mark.kind h

theorem Token.literal_of_mark {t : Token} (h : t.mark = ⟨k, text⟩) : t.literal = text :=
  congrArg Mark.literal h

theorem Token.opening?_of_mark {t : Token} (h : t.mark = ⟨.openParen, text⟩) :
    t.kind.opening? = some .group := by
  rw [kind_of_mark h]
  rfl

/-- From the token `a` on the stream goes on with the marks `ms`. -/
def Shows (S : TokenStream) (a : Nat) (ms : List Mark) : Prop :=
  ms <+: (S.ahead.drop a).map Token.mark

namespace Shows

variable {S : TokenStream}

theorem append (h : Shows S a (ms ++ ns)) : Shows S a ms ∧ Shows S (a + ms.length) ns := by
  obtain ⟨rest, hr⟩ := h
  constructor
  · exact ⟨ns ++ rest, by rw [← hr, List.append_assoc]⟩
  · refine ⟨rest, ?_⟩
    rw [← List.drop_drop, List.map_drop, ← hr, List.append_assoc, List.drop_left]

theorem cons (h : Shows S a (m :: ms)) : (S.get a).mark = m ∧ Shows S (a + 1) ms := by
  obtain ⟨hm, hs⟩ := Shows.append (show Shows S a ([m] ++ ms) from h)
  refine ⟨?_, hs⟩
  obtain ⟨rest, hr⟩ := hm
  cases hd : S.ahead.drop a with
  | nil => rw [hd] at hr; cases hr
  | cons t ts =>
    rw [hd] at hr
    rw [(TokenStream.get_of_drop_eq_cons hd).1]
    exact (List.cons.inj hr).1.symm

theorem closed (h : Shows S a (ms ++ [⟨.closeParen, ")"⟩])) :
    Shows S a ms ∧ (S.get (a + ms.length)).kind = .closeParen :=
  ⟨h.append.1, Token.kind_of_mark h.append.2.cons.1⟩

/-- The parts of the text of an operator before its operand. -/
theorem unary {x : Expr} (h : Shows S a (Expr.unary t operator x).marks)
    (hk : Kind.ofOperator? operator = some k) :
    (S.get a).kind.opening? = some .group ∧ (S.get (a + 1)).mark = ⟨k, operator⟩ ∧
      Shows S (a + 2) (x.marks ++ [⟨.closeParen, ")"⟩]) := by
  rw [Expr.marks, Mark.operator_eq hk] at h
  obtain ⟨h₀, h⟩ := h.cons
  obtain ⟨h₁, h⟩ := h.cons
  exact ⟨Token.opening?_of_mark h₀, h₁, h⟩

/-- The parts of the text of an operator between its operands. -/
theorem binary {l r : Expr} (h : Shows S a (Expr.binary t l operator r).marks)
    (hk : Kind.ofOperator? operator = some k) :
    (S.get a).kind.opening? = some .group ∧ Shows S (a + 1) l.marks ∧
      (S.get (a + 1 + l.marks.length)).mark = ⟨k, operator⟩ ∧
      Shows S (a + 1 + l.marks.length + 1) (r.marks ++ [⟨.closeParen, ")"⟩]) := by
  rw [Expr.marks, Mark.operator_eq hk] at h
  obtain ⟨h₀, h⟩ := h.cons
  obtain ⟨h, h₁⟩ := h.append
  exact ⟨Token.opening?_of_mark h₀, h, h₁.cons.1, h₁.cons.2⟩

theorem opening {e : Expr} (hs : Shows S a e.marks) (h : e.Writable) :
    (S.get a).kind.opening? ≠ none := by
  obtain ⟨m, ms', he, ho⟩ := h.exists_marks
  rw [he] at hs
  rwa [← hs.cons.1] at ho

theorem kind_ne {e : Expr} (hs : Shows S a e.marks) (h : e.Writable) (hk : k.opening? = none) :
    (S.get a).kind ≠ k := by
  rintro rfl
  exact hs.opening h hk

end Shows

namespace Expr

theorem complete_unary {x : Expr} (h : (unary t operator x).holes = 0) :
    x.isMissing = false ∧ x.holes = 0 := by
  simp only [holes] at h
  split at h
  · cases h
  · next hm => exact ⟨Bool.eq_false_iff.mpr hm, h⟩

theorem complete_binary {l r : Expr} (h : (binary t l operator r).holes = 0) :
    l.holes = 0 ∧ r.isMissing = false ∧ r.holes = 0 := by
  simp only [holes] at h
  split at h
  · cases h
  · next hm => exact ⟨by omega, Bool.eq_false_iff.mpr hm, by omega⟩

theorem Writable.of_or {x : Expr} (h : x = missing ∨ x.Writable) (hm : x.isMissing = false) :
    x.Writable := by
  rcases h with rfl | h
  · cases hm
  · exact h

/-- A token with the mark of an atom is read as that atom. -/
theorem Writable.atom {e : Expr} {t : Token} (h : e.Writable) (hm : e.marks = [t.mark]) :
    t.kind.opening? = some .atom ∧ t.InRange ∧
      (Grammar.Surface.atom t).expr.eraseTokens = e.eraseTokens := by
  have hkind := congrArg (fun ms => ms.head?.map Mark.kind) hm.symm
  have hliteral := congrArg (fun ms => ms.head?.map Mark.literal) hm.symm
  simp only [List.head?_cons, Option.map_some, Token.mark] at hkind hliteral
  cases e with
  | missing => cases h
  | ident token name =>
    obtain rfl : t.literal = name := Option.some.inj hliteral
    have hk : t.kind = .identifier := Option.some.inj hkind
    have hr : t.InRange := Token.inRange_of_ne (by rw [hk]; decide)
    simp only [Grammar.Surface.expr, hk]
    exact ⟨rfl, hr, rfl⟩
  | int token value =>
    have hl : t.literal = Text.Decimal.ofInt value := Option.some.inj hliteral
    have hk : t.kind = .integer := Option.some.inj hkind
    cases value with
    | ofNat n =>
      have hv : Text.Decimal.value t.literal.toList = n := by
        rw [hl, Text.Decimal.ofInt, Text.Decimal.ofNat, String.toList_ofList,
          Text.Decimal.value_digits]
      have hr : t.InRange := fun _ => hv ▸ Int.ofNat_le.mp h.2
      simp only [Grammar.Surface.expr, hk, hv]
      exact ⟨rfl, hr, rfl⟩
    | negSucc n => exact absurd h.1 (Int.not_le.mpr (Int.negSucc_lt_zero n))
  | bool token value =>
    cases value with
    | true =>
      have hk : t.kind = .trueWord := Option.some.inj hkind
      have hr : t.InRange := Token.inRange_of_ne (by rw [hk]; decide)
      simp only [Grammar.Surface.expr, hk]
      exact ⟨rfl, hr, rfl⟩
    | false =>
      have hk : t.kind = .falseWord := Option.some.inj hkind
      have hr : t.InRange := Token.inRange_of_ne (by rw [hk]; decide)
      simp only [Grammar.Surface.expr, hk]
      exact ⟨rfl, hr, rfl⟩
  | unary => cases (List.cons.inj hm).2
  | binary =>
    have hn := (List.cons.inj hm).2
    rw [List.append_eq_nil_iff] at hn
    cases hn.2

theorem Writable.reads_atom {e : Expr} {S : TokenStream} (h : e.Writable) (he : e.marks = [k])
    (hs : Shows S a e.marks) (m : Power) :
    ∃ e' b, Reads S m a e' [] b ∧ b + 1 = a + e.marks.length ∧
      e'.eraseTokens = e.eraseTokens := by
  rw [he] at hs
  rw [← hs.cons.1] at he
  obtain ⟨ho, hr, hx⟩ := h.atom he
  exact ⟨_, a, .atom ho hr, by rw [he, List.length_singleton], hx⟩

/-- Where a stream shows the marks of an expression that lacks nothing, that expression is read. -/
theorem Writable.reads {e : Expr} {S : TokenStream} (h : e.Writable) (hc : e.holes = 0)
    (hs : Shows S a e.marks) (m : Power) :
    ∃ e' b, Reads S m a e' [] b ∧ b + 1 = a + e.marks.length ∧
      e'.eraseTokens = e.eraseTokens := by
  induction e generalizing a m with
  | missing => cases h
  | ident => exact h.reads_atom rfl hs m
  | int => exact h.reads_atom rfl hs m
  | bool token value => cases value <;> exact h.reads_atom rfl hs m
  | unary token operator operand ih =>
    obtain ⟨⟨k, hk, ho⟩, hx⟩ := h
    obtain ⟨hm, hc⟩ := complete_unary hc
    obtain ⟨hg, h₁, hs⟩ := hs.unary hk
    obtain ⟨hs, hp⟩ := hs.closed
    obtain ⟨x', b, hr, hb, he⟩ := ih (.of_or hx hm) hc hs .unary
    rw [← hb] at hp
    rw [← Token.kind_of_mark h₁] at ho
    have hu := Reads.unary ho hr (m := .lowest)
    refine ⟨_, b + 1, .group hg hu hp, ?_, ?_⟩
    · simp only [marks, List.length_cons, List.length_append, List.length_nil]
      omega
    · rw [Token.literal_of_mark h₁]
      exact congrArg (unary default operator) he
  | binary token left operator right ihl ihr =>
    obtain ⟨⟨k, hk, hi⟩, hl, hx⟩ := h
    obtain ⟨hcl, hm, hcr⟩ := complete_binary hc
    obtain ⟨hg, hs, h₁, hs'⟩ := hs.binary hk
    obtain ⟨l', b, hr, hb, he⟩ := ihl hl hcl hs .lowest
    rw [← hb] at h₁ hs'
    obtain ⟨hs', hp⟩ := hs'.closed
    obtain ⟨r', c, hr', hc, he'⟩ := ihr (.of_or hx hm) hcr hs' (S.get (b + 1)).kind.power
    rw [← hc] at hp
    rw [← Token.kind_of_mark h₁] at hi
    have hb' := Reads.binary hr hr.isMissing_of_nil (Kind.lowest_lt_power hi) hr'
      (.closeParen hp)
    refine ⟨_, c + 1, .group hg hb' hp, ?_, ?_⟩
    · simp only [marks, List.length_cons, List.length_append, List.length_nil]
      omega
    · rw [Token.literal_of_mark h₁]
      exact congrArg₂ (fun l r => binary default l operator r) he he'

end Expr

end ExprLang
