import ExprLang.Proofs.Phrases
import ExprLang.Proofs.Reads

namespace ExprLang

open Grammar

/-- The number of open groups after a token, where `depth` are open before it. -/
def Kind.depthAfter (depth : Nat) : Kind → Nat
  | openParen => depth + 1
  | closeParen => depth - 1
  | _ => depth

/-- An integer out of range stands inside a group, where `depth` groups are open before the
tokens. -/
def Buried (depth : Nat) : List Token → Prop
  | [] => False
  | t :: ts => 0 < depth ∧ ¬ t.InRange ∨ Buried (t.kind.depthAfter depth) ts

/-- Tokens that close the groups that they open, and no others. -/
structure Nested (ts : List Token) : Prop where
  append : ∀ depth us, Buried depth (ts ++ us) ↔ Buried depth ts ∨ Buried depth us
  inside : ∀ depth, Buried (depth + 1) ts ↔ ∃ t ∈ ts, ¬ t.InRange

theorem Token.inRange_of_ne {t : Token} (h : t.kind ≠ .integer) : t.InRange :=
  fun hk => absurd hk h

theorem Buried.exists {depth : Nat} {ts : List Token} (h : Buried depth ts) :
    ∃ t ∈ ts, ¬ t.InRange := by
  induction ts generalizing depth with
  | nil => cases h
  | cons t ts ih =>
    rcases h with ⟨-, ht⟩ | h
    · exact ⟨t, List.mem_cons_self, ht⟩
    · obtain ⟨t', ht', hn⟩ := ih h
      exact ⟨t', List.mem_cons_of_mem t ht', hn⟩

/-- Tokens that open or close no group do not change the depth. -/
def Kind.IsFlat (k : Kind) : Prop := k ≠ .openParen ∧ k ≠ .closeParen

theorem Kind.IsFlat.depthAfter {k : Kind} (h : k.IsFlat) (depth : Nat) :
    k.depthAfter depth = depth := by
  cases k <;> first | rfl | exact absurd rfl h.1 | exact absurd rfl h.2

theorem Kind.isFlat_of_opening? {k : Kind} (h : k.opening? = some o) (ho : o ≠ .group) :
    k.IsFlat := by
  constructor <;> rintro rfl <;> cases h
  exact ho rfl

theorem Kind.isFlat_of_isInfix {k : Kind} (h : k.isInfix = true) : k.IsFlat := by
  constructor <;> rintro rfl <;> cases h

theorem buried_zero_cons {t : Token} {ts : List Token} (h : t.kind.IsFlat) :
    Buried 0 (t :: ts) ↔ Buried 0 ts := by
  rw [Buried, h.depthAfter]
  exact or_iff_right fun hn => absurd hn.1 (Nat.lt_irrefl 0)

namespace Nested

theorem nil : Nested [] := by
  refine ⟨fun _ _ => (or_iff_right id).symm, fun _ => iff_of_false id ?_⟩
  rintro ⟨t, ht, -⟩
  cases ht

theorem cons (ht : t.kind.IsFlat) (h : Nested ts) : Nested (t :: ts) := by
  constructor
  · intro depth us
    rw [List.cons_append, Buried, Buried, ht.depthAfter, h.append, or_assoc]
  · intro depth
    rw [Buried, ht.depthAfter, h.inside]
    simp only [Nat.succ_pos, true_and, List.mem_cons, exists_eq_or_imp]

theorem concat (h : Nested ts) (h' : Nested us) : Nested (ts ++ us) := by
  constructor
  · intro depth vs
    rw [List.append_assoc, h.append, h'.append, h.append, or_assoc]
  · intro depth
    rw [h.append, h.inside, h'.inside]
    simp only [List.mem_append, or_and_right, exists_or]

variable {opening closing : Token}

theorem buried_group (ho : opening.kind = .openParen) (h : Nested ts)
    (hc : closing.kind = .closeParen) (depth : Nat) (us : List Token) :
    Buried depth (opening :: (ts ++ closing :: us)) ↔
      (∃ t ∈ ts, ¬ t.InRange) ∨ Buried depth us := by
  have hin : opening.InRange := Token.inRange_of_ne (ho ▸ nofun)
  have hin' : closing.InRange := Token.inRange_of_ne (hc ▸ nofun)
  rw [Buried, ho, Kind.depthAfter, h.append, h.inside, Buried, hc, Kind.depthAfter,
    Nat.add_sub_cancel]
  simp only [hin, hin', not_true, and_false, false_or]

theorem group (ho : opening.kind = .openParen) (h : Nested ts)
    (hc : closing.kind = .closeParen) : Nested (opening :: ts ++ [closing]) := by
  have hin : opening.InRange := Token.inRange_of_ne (ho ▸ nofun)
  have hin' : closing.InRange := Token.inRange_of_ne (hc ▸ nofun)
  constructor
  · intro depth us
    simp only [List.cons_append, List.append_assoc, List.nil_append]
    rw [h.buried_group ho hc, h.buried_group ho hc]
    exact or_congr_left (or_iff_left id).symm
  · intro depth
    rw [List.cons_append, h.buried_group ho hc]
    simp [hin, hin', Buried]

end Nested

theorem Grammar.IsExpression.nested (h : IsExpression fits ts) : Nested ts :=
  @IsExpression.rec fits (fun ts _ => Nested ts) (fun ts _ => Nested ts) (fun _ ih => ih)
    (fun _ ho _ ihl ihr => ihl.concat (ihr.cons (Kind.isFlat_of_isInfix ho)))
    (fun ho _ => .cons (Kind.isFlat_of_opening? ho nofun) .nil)
    (fun ho _ ih => ih.cons (Kind.isFlat_of_opening? ho nofun))
    (fun ho _ hc ih => ih.group ho hc) ts h

end ExprLang
