import ExprLang.Proofs.Acceptance
import Mathlib

namespace ExprLang

namespace Grammar.Surface

variable {S : TokenStream} {s : Surface}

/-- No operator outside the groups of an expression is looser than the one that joins its parts. -/
theorem Valid.tighten (h : s.Valid m) (hp : ∀ p, s.power? = some p → m' < p) : s.Valid m' := by
  induction s with
  | atom => exact h
  | unary operator operand ih =>
    obtain ⟨ho, hn, hv⟩ := h
    refine ⟨ho, hn, ih hv ?_⟩
    rw [hn]
    exact nofun
  | binary left operator right ihl ihr =>
    obtain ⟨hi, -, hl, hr, hvl, hvr⟩ := h
    have hlt : m' < operator.kind.power := hp _ rfl
    refine ⟨hi, hlt, hl, hr, ihl hvl ?_, ihr hvr ?_⟩
    · intro p he
      exact Nat.lt_of_lt_of_le hlt (hl p he)
    · intro p he
      exact Nat.lt_trans hlt (hr p he)
  | group => exact h

theorem Valid.lt_power (h : s.Valid m) : ∀ p, s.power? = some p → m < p := by
  cases s with
  | binary =>
    rintro _ ⟨rfl⟩
    exact h.2.1
  | _ => exact nofun

/-- An expression that no operator joins outside its groups stands wherever one can. -/
theorem Valid.of_power?_eq_none (h : s.Valid m) (hp : s.power? = none) : s.Valid m' := by
  apply h.tighten
  rw [hp]
  exact nofun

theorem Valid.power?_eq_none (h : s.Valid .unary) : s.power? = none := by
  cases s with
  | binary _ operator => exact absurd h.2.1 (Kind.not_unary_lt_power operator.kind)
  | _ => rfl

theorem drop_length {ts rest : List Token} (h : S.ahead.drop a = ts ++ rest) :
    S.ahead.drop (a + ts.length) = rest := by
  rw [← List.drop_drop, h, List.drop_left]

/-- The tokens of an expression are read as it says, wherever no operator comes next that binds
tighter than the one that joins its parts. -/
theorem Valid.reads (h : s.Valid m) (hd : S.ahead.drop a = s.tokens ++ rest)
    (hn : ∀ p, s.power? = some p → (S.get (a + s.tokens.length)).kind.power ≤ p) :
    ∃ b, b + 1 = a + s.tokens.length ∧ Reads S m a s.expr [] b := by
  induction s generalizing m a rest with
  | atom token =>
    obtain ⟨rfl, -⟩ := TokenStream.get_of_drop_eq_cons hd
    exact ⟨a, rfl, .atom h.1 h.2⟩
  | unary operator operand ih =>
    obtain ⟨ho, hp, hv⟩ := h
    obtain ⟨rfl, hd₁⟩ := TokenStream.get_of_drop_eq_cons hd
    obtain ⟨b, hb, hr⟩ := ih (hv.of_power?_eq_none hp) hd₁ (by rw [hp]; exact nofun)
    refine ⟨b, ?_, .unary ho hr⟩
    simp only [tokens, List.length_cons]
    omega
  | binary left operator right ihl ihr =>
    obtain ⟨-, hlt, hl, hr, hvl, hvr⟩ := h
    have hd := hd.trans (List.append_assoc _ _ _)
    obtain ⟨he, hd'⟩ := TokenStream.get_of_drop_eq_cons (drop_length hd)
    obtain ⟨b, hb, hrl⟩ := ihl hvl hd (he ▸ hl)
    rw [← hb] at he hd'
    subst he
    have hlen : b + 1 + 1 + right.tokens.length =
        a + (binary left (S.get (b + 1)) right).tokens.length := by
      simp only [tokens, List.length_append, List.length_cons]
      omega
    have hle : (S.get (b + 1 + 1 + right.tokens.length)).kind.power ≤
        (S.get (b + 1)).kind.power := by
      rw [hlen]
      exact hn _ rfl
    obtain ⟨c, hc, hrr⟩ := ihr (hvr.tighten hr) hd' fun p he =>
      Nat.le_trans hle (Nat.le_of_lt (hr p he))
    refine ⟨c, hc.trans hlen, .binary hrl (isMissing_expr left) hlt hrr ?_⟩
    rw [Stops, hc]
    exact .inr (Nat.not_lt.mpr hle)
  | group opening inner closing ih =>
    obtain ⟨ho, hc, hv⟩ := h
    have hd := hd.trans (List.append_assoc (opening :: inner.tokens) [closing] rest)
    obtain ⟨rfl, hd₁⟩ := TokenStream.get_of_drop_eq_cons hd
    have hd₁ : S.ahead.drop (a + 1) = inner.tokens ++ closing :: rest := hd₁
    obtain ⟨he, -⟩ := TokenStream.get_of_drop_eq_cons (drop_length hd₁)
    obtain ⟨b, hb, hr⟩ := ih hv hd₁ fun p _ => by
      rw [he, Kind.power_closeParen hc]
      exact Nat.zero_le _
    rw [← hb] at he
    refine ⟨b + 1, ?_, .group ?_ hr (he ▸ hc)⟩
    · simp only [tokens, List.length_append, List.length_cons, List.length_nil]
      omega
    · rw [ho]
      rfl

/-- The tokens of `s` are those from the current one of `p` on, and the token after them ends an
expression whose operators bind tighter than `m`. -/
structure StandsAt (p : ParseState) (m : Power) (s : Surface) : Prop where
  valid : s.Valid m
  front : s.tokens <+: p.tokens.ahead
  ends : (p.tokens.get s.tokens.length).kind = .semicolon ∨
    (p.tokens.get s.tokens.length).kind.power ≤ m

/-- What is read from `p` on is the expression `s` without its groups, with nothing on record; the
last token of `s` is then the current one. -/
structure IsReadFrom (p : ParseState) (m : Power) (s : Surface) : Prop where
  expr : (p.readExpr m).1 = s.expr
  errors : (p.readExpr m).2.errors = p.errors
  tokens : (p.readExpr m).2.tokens = p.tokens.drop (s.tokens.length - 1)

theorem StandsAt.power_le {p : ParseState} (h : s.StandsAt p m) :
    (p.tokens.get s.tokens.length).kind.power ≤ m := by
  rcases h.ends with hk | hle
  · rw [hk]
    exact Nat.zero_le _
  · exact hle

end Grammar.Surface

open Grammar

/-- What is read with nothing on record is an expression whose groups are those that its operators
need, or more, and no operator comes next that binds tighter than the one that joins its parts. -/
theorem Reads.exists_surface (h : Reads S m a e [] b) :
    ∃ s : Surface, s.Valid m ∧ s.expr = e ∧ Covers S a (b + 1) s.tokens ∧
      ∀ p, s.power? = some p → (S.get (b + 1)).kind.power ≤ p := by
  generalize hd : ([] : List Diagnostic) = ds at h
  induction h with
  | refused => cases hd
  | tooLarge => cases hd
  | @atom a m ho hr =>
    exact ⟨.atom (S.get a), ⟨ho, hr⟩, rfl, .single (Kind.ne_eof_of_opening? ho), nofun⟩
  | @unary a e ds b m ho _ ih =>
    obtain ⟨s, hv, rfl, hc, -⟩ := ih hd
    have hp := hv.power?_eq_none
    exact ⟨.unary (S.get a) s, ⟨ho, hp, hv.of_power?_eq_none hp⟩, rfl,
      hc.cons (Kind.ne_eof_of_opening? ho), nofun⟩
  | @group a e b m ho _ hk ih =>
    obtain ⟨s, hv, rfl, hc, -⟩ := ih rfl
    have hne : (S.get (b + 1)).kind ≠ .eof := by
      rw [hk]
      nofun
    exact ⟨.group (S.get a) s (S.get (b + 1)), ⟨Kind.eq_openParen ho, hk, hv⟩, rfl,
      (hc.concat hne).cons (Kind.ne_eof_of_opening? ho), nofun⟩
  | unclosed => cases hd
  | broken _ _ _ hn => exact absurd hd.symm hn
  | @binary m a l ds b r ds' c _ _ hlt hr hs ihl ihr =>
    obtain ⟨hd, hd'⟩ := List.append_eq_nil_iff.mp hd.symm
    obtain ⟨left, hvl, rfl, hcl, hl⟩ := ihl hd.symm
    obtain ⟨right, hvr, rfl, hcr, -⟩ := ihr hd'.symm
    have hi := Kind.isInfix_of_lt_power hlt
    refine ⟨.binary left (S.get (b + 1)) right, ⟨hi, hlt, hl, hvr.lt_power, hvl, ?_⟩, rfl,
      hcl.trans (hcr.cons (Kind.ne_eof_of_isInfix hi)), ?_⟩
    · exact hvr.tighten fun p hp => Nat.lt_trans hlt (hvr.lt_power p hp)
    · rintro _ ⟨rfl⟩
      have hm := right.isMissing_expr
      exact Nat.not_lt.mp (hs.resolve_left (by rw [hm]; nofun))

/-- Operators bind by their powers, to the left among equals. An expression that stands where the
reader is, with the groups that its operators need or more, is read as it says; and whatever is read
with nothing on record is such an expression. -/
theorem readExpr_precedence (p : ParseState) (m : Power) :
    (∀ s : Surface, s.StandsAt p m → s.IsReadFrom p m) ∧
      ((p.readExpr m).2.errors = p.errors → ∃ s : Surface, s.StandsAt p m ∧ s.IsReadFrom p m) := by
  constructor
  · intro s h
    obtain ⟨rest, hrest⟩ := h.front
    have hle := h.power_le
    rw [← Nat.zero_add s.tokens.length] at hle
    obtain ⟨b, hb, hr⟩ := h.valid.reads (a := 0) hrest.symm fun q hq =>
      Nat.le_trans hle (Nat.le_of_lt (h.valid.lt_power q hq))
    rw [← hb] at hle
    obtain ⟨q, he, hm⟩ := hr.readExpr_eq (.inr (Nat.not_lt.mpr hle)) rfl
    refine ⟨?_, ?_, ?_⟩ <;> rw [he]
    · exact Array.toList_inj.mp (hm.errors.trans (List.append_nil _))
    · rw [hm.tokens, ← Nat.zero_add s.tokens.length, ← hb]
      rfl
  · intro he
    obtain ⟨ds, b, ⟨hr, hm⟩, hs⟩ := p.follows_readExpr (S := p.tokens) (a := 0) m rfl
    have hd := hm.errors
    rw [he] at hd
    obtain rfl := List.self_eq_append_right.mp hd
    obtain ⟨s, hv, hexpr, hc, -⟩ := hr.exists_surface
    have hlt := hr.lt_length_of_nil
    have hlen : s.tokens.length = b + 1 := by
      have hl := congrArg List.length hc
      simp only [List.length_append, List.length_drop] at hl
      omega
    have hle := Nat.not_lt.mp (hs.resolve_left (by rw [hr.isMissing_of_nil]; nofun))
    refine ⟨s, ⟨hv, ⟨_, hc.symm⟩, .inr ?_⟩, hexpr.symm, he, ?_⟩
    · rw [hlen]
      exact hle
    · rw [hlen]
      exact hm.tokens

open Grammar.Surface in
/-- A minus joins what is to its left, and binds less tightly than a star or a group does. -/
theorem group_after_minus : ∃ s : Surface,
    s.StandsAt (.start (tokenize "1 - 2 * !x - (4 == 5);" none)) .lowest ∧
      s.IsReadFrom (.start (tokenize "1 - 2 * !x - (4 == 5);" none)) .lowest ∧
      s.expr.render = "((1 - (2 * (!x))) - (4 == 5))" := by
  refine ⟨(fun t => binary (binary (atom (t 0)) (t 1)
    (binary (atom (t 2)) (t 3) (unary (t 4) (atom (t 5))))) (t 6)
    (group (t 7) (binary (atom (t 8)) (t 9) (atom (t 10))) (t 11)))
    (tokenize "1 - 2 * !x - (4 == 5);" none).get, ?stands, (readExpr_precedence _ _).1 _ ?stands,
    by cbv⟩
  constructor
  · exact of_decide_eq_true (by cbv)
  · exact List.isPrefixOf_iff_prefix.mp (by cbv)
  · exact .inl (by cbv)

end ExprLang
