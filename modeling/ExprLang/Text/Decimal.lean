namespace ExprLang.Text.Decimal

/-- The number that a run of ASCII digits writes in base ten. -/
def value (digits : List Char) : Nat :=
  digits.foldl (fun n c => 10 * n + (c.toNat - '0'.toNat)) 0

def digit (n : Nat) : Char := Char.ofNat ('0'.toNat + n)

/-- The digits of a number, without leading zeros. -/
def digits (n : Nat) : List Char :=
  if n < 10 then [digit n] else digits (n / 10) ++ [digit (n % 10)]

def ofNat (n : Nat) : String := String.ofList (digits n)

def ofInt : Int → String
  | .ofNat n => ofNat n
  | .negSucc n => "-" ++ ofNat (n + 1)

theorem value_append_singleton (ds : List Char) (c : Char) :
    value (ds ++ [c]) = 10 * value ds + (c.toNat - '0'.toNat) := by
  simp [value]

theorem toNat_digit {n : Nat} (h : n < 10) : (digit n).toNat = '0'.toNat + n := by
  have hv : ('0'.toNat + n).isValidChar := .inl (by simp; omega)
  rw [digit, Char.ofNat, dif_pos hv]
  rfl

theorem isDigit_digit {n : Nat} (h : n < 10) : (digit n).isDigit = true := by
  have hd := toNat_digit h
  simp only [Char.toNat, Char.reduceVal, UInt32.reduceToNat] at hd
  simp only [Char.isDigit, ge_iff_le, Bool.and_eq_true, decide_eq_true_eq, UInt32.le_iff_toNat_le,
    Char.reduceVal, UInt32.reduceToNat, hd]
  omega

theorem isDigit_of_mem_digits {n : Nat} {c : Char} (h : c ∈ digits n) : c.isDigit = true := by
  induction n using digits.induct with
  | case1 n hn =>
    rw [digits, if_pos hn] at h
    rw [List.mem_singleton.mp h]
    exact isDigit_digit hn
  | case2 n hn ih =>
    rw [digits, if_neg hn] at h
    rcases List.mem_append.mp h with h | h
    · exact ih h
    · rw [List.mem_singleton.mp h]
      exact isDigit_digit (Nat.mod_lt _ (by decide))

theorem digits_ne_nil (n : Nat) : digits n ≠ [] := by
  fun_cases digits n <;> simp

theorem value_digits (n : Nat) : value (digits n) = n := by
  fun_induction digits n with
  | case1 n hn => simp [value, toNat_digit hn]
  | case2 n _ ih =>
    rw [value_append_singleton, ih, toNat_digit (Nat.mod_lt _ (by decide))]
    omega

end ExprLang.Text.Decimal
