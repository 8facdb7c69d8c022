import ExprLang.Tree.Basic

namespace ExprLang

/-- How tightly an operator binds, from the loosest to the tightest. -/
inductive Power where
  | lowest
  | equality
  | comparison
  | sum
  | product
  | unary
  | call
  deriving DecidableEq, Repr, Inhabited

namespace Power

def rank : Power → Nat
  | lowest => 0
  | equality => 1
  | comparison => 2
  | sum => 3
  | product => 4
  | unary => 5
  | call => 6

instance : LT Power := ⟨fun a b => a.rank < b.rank⟩
instance : LE Power := ⟨fun a b => a.rank ≤ b.rank⟩

theorem lt_iff {a b : Power} : a < b ↔ a.rank < b.rank := Iff.rfl

theorem le_iff {a b : Power} : a ≤ b ↔ a.rank ≤ b.rank := Iff.rfl

instance (a b : Power) : Decidable (a < b) := inferInstanceAs (Decidable (a.rank < b.rank))
instance (a b : Power) : Decidable (a ≤ b) := inferInstanceAs (Decidable (a.rank ≤ b.rank))

theorem rank_injective {a b : Power} (h : a.rank = b.rank) : a = b := by
  cases a <;> cases b <;> first | rfl | cases h

end Power

/-- What a token does at the start of an expression. -/
inductive Opening where
  | atom
  | operator
  | group
  deriving DecidableEq, Repr, Inhabited

namespace Kind

/-- How tightly a token binds the expressions to its left and right, if it joins any. -/
def power : Kind → Power
  | equal | notEqual => .equality
  | less | greater => .comparison
  | plus | minus => .sum
  | star | slash => .product
  | _ => .lowest

def isInfix (k : Kind) : Bool := Power.lowest < k.power

def opening? : Kind → Option Opening
  | integer | identifier | trueWord | falseWord => some .atom
  | bang | minus => some .operator
  | openParen => some .group
  | _ => none

def stmtKind? : Kind → Option StmtKind
  | letWord => some .binding
  | returnWord => some .returning
  | _ => none

theorem ne_eof_of_lt_power {k : Kind} {p : Power} (h : p < k.power) : k ≠ eof := by
  rintro rfl
  exact absurd h (Nat.not_lt_zero p.rank)

theorem ne_eof_of_opening? {k : Kind} {o : Opening} (h : k.opening? = some o) : k ≠ eof := by
  rintro rfl
  cases h

theorem isInfix_of_lt_power {m : Power} {k : Kind} (h : m < k.power) : k.isInfix = true :=
  decide_eq_true (Nat.lt_of_le_of_lt (Nat.zero_le m.rank) h)

theorem lowest_lt_power {k : Kind} (h : k.isInfix = true) : Power.lowest < k.power :=
  of_decide_eq_true h

theorem ne_eof_of_isInfix {k : Kind} (h : k.isInfix = true) : k ≠ .eof :=
  ne_eof_of_lt_power (lowest_lt_power h)

theorem eq_openParen {k : Kind} (h : k.opening? = some .group) : k = .openParen := by
  cases k <;> first | rfl | cases h

end Kind

end ExprLang
