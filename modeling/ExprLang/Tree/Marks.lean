import ExprLang.Reading.Expression
import ExprLang.Token.Spelling
import ExprLang.Tree.Holes
import ExprLang.Tree.Tokens

namespace ExprLang

/-- The kind of an operator by its text. -/
def Kind.ofOperator? : String → Option Kind
  | "!" => some bang
  | "-" => some minus
  | "+" => some plus
  | "*" => some star
  | "/" => some slash
  | "<" => some less
  | ">" => some greater
  | "==" => some equal
  | "!=" => some notEqual
  | _ => none

def Mark.operator (text : String) : Mark := ⟨(Kind.ofOperator? text).getD .invalid, text⟩

/-- A word of letters that is not reserved. -/
structure IsName (name : String) : Prop where
  ne_nil : name.toList ≠ []
  letters : ∀ c ∈ name.toList, c.isAlpha = true
  free : Kind.keyword? name = none

namespace Expr

/-- The text of an expression stands for the expression: its names are names, its integers in range
and its operators known. Nothing but a right operand may be missing. -/
def Writable : Expr → Prop
  | missing => False
  | ident _ name => IsName name
  | int _ value => 0 ≤ value ∧ value ≤ maxInteger
  | bool _ _ => True
  | unary _ operator operand =>
    (∃ k, Kind.ofOperator? operator = some k ∧ k.opening? = some .operator) ∧
      (operand = missing ∨ operand.Writable)
  | binary _ left operator right =>
    (∃ k, Kind.ofOperator? operator = some k ∧ k.isInfix = true) ∧ left.Writable ∧
      (right = missing ∨ right.Writable)

/-- The tokens that the text of an expression consists of. -/
def marks : Expr → List Mark
  | missing => []
  | ident _ name => [⟨.identifier, name⟩]
  | int _ value => [⟨.integer, Text.Decimal.ofInt value⟩]
  | bool _ true => [⟨.trueWord, "true"⟩]
  | bool _ false => [⟨.falseWord, "false"⟩]
  | unary _ operator operand =>
    ⟨.openParen, "("⟩ :: .operator operator :: (operand.marks ++ [⟨.closeParen, ")"⟩])
  | binary _ left operator right =>
    ⟨.openParen, "("⟩ ::
      (left.marks ++ .operator operator :: (right.marks ++ [⟨.closeParen, ")"⟩]))

def eraseTokens (e : Expr) : Expr := e.mapTokens fun _ => default

theorem isMissing_eq_of_eraseTokens {e e' : Expr} (h : e.eraseTokens = e'.eraseTokens) :
    e.isMissing = e'.isMissing := by
  have hm (e : Expr) : e.eraseTokens.isMissing = e.isMissing := by
    cases e <;> rfl
  rw [← hm e, h, hm e']

theorem render_eq_of_eraseTokens {e e' : Expr} (h : e.eraseTokens = e'.eraseTokens) :
    e.render = e'.render := by
  rw [← render_mapTokens (fun _ => default) e, ← render_mapTokens (fun _ => default) e']
  exact congrArg render h

theorem Writable.isMissing {e : Expr} (h : e.Writable) : e.isMissing = false := by
  cases e with
  | missing => cases h
  | _ => rfl

end Expr

theorem Mark.operator_eq (h : Kind.ofOperator? text = some k) : operator text = ⟨k, text⟩ := by
  rw [operator, h]
  rfl

theorem Kind.spelled_of_ofOperator? (h : ofOperator? text = some k) : k.Spelled text.toList := by
  simp only [ofOperator?] at h
  split at h <;> cases h <;> first | exact .symbol rfl | exact .equal | exact .notEqual

theorem Kind.goesOn_of_operator {k : Kind} (h : k.opening? = some .operator ∨ k.isInfix = true) :
    k.goesOn 'a' = false := by
  cases k <;> first | rfl | exact absurd h (by decide)

/-- An operator has its text from its kind. -/
theorem Kind.Spelled.ofOperator? (h : Kind.Spelled k w)
    (hk : k.opening? = some .operator ∨ k.isInfix = true) :
    Kind.ofOperator? (String.ofList w) = some k := by
  cases h with
  | word => cases (goesOn_ofWord _ 'a').symm.trans (goesOn_of_operator hk)
  | number => exact absurd hk (by decide)
  | symbol hs =>
    simp only [ofSymbol?] at hs
    split at hs <;> cases hs <;> first | rfl | exact absurd hk (by decide)
  | equal => rfl
  | notEqual => rfl
  | stray => exact absurd hk (by decide)

/-- A reserved word has its text from its kind. -/
theorem Kind.Spelled.eq_keyword {w text : String} (h : Kind.Spelled k text.toList)
    (hk : Kind.keyword? w = some k) : text = w := by
  have hw : ofWord w = k := by
    rw [ofWord, hk]
    rfl
  have ht := (h.word_of_goesOn (hw ▸ goesOn_ofWord w 'a')).2
  rw [String.ofList_toList] at ht
  simp only [ofWord, keyword?] at ht hk
  split at hk <;> cases hk <;> split at ht <;> first | rfl | cases ht

theorem IsName.spelled (h : IsName name) : Kind.identifier.Spelled name.toList := by
  have hw := Kind.Spelled.word h.ne_nil h.letters
  rwa [String.ofList_toList, Kind.ofWord, h.free] at hw

theorem IsName.of_spelled (h : Kind.identifier.Spelled name.toList) : IsName name := by
  obtain ⟨c, v, he⟩ := h.exists_cons
  obtain ⟨hl, hw⟩ := h.word_of_goesOn rfl
  rw [String.ofList_toList] at hw
  refine ⟨by rw [he]; exact List.cons_ne_nil c v, hl, ?_⟩
  cases hk : Kind.keyword? name with
  | none => rfl
  | some k =>
    rw [Kind.ofWord, hk] at hw
    obtain rfl : k = .identifier := hw
    simp only [Kind.keyword?] at hk
    split at hk <;> cases hk

theorem Text.Decimal.spelled_ofInt {value : Int} (h : 0 ≤ value) :
    Kind.integer.Spelled (ofInt value).toList := by
  cases value with
  | ofNat n =>
    rw [ofInt, ofNat, String.toList_ofList]
    exact .number (digits_ne_nil n) fun c hc => isDigit_of_mem_digits hc
  | negSucc n => exact absurd h (Int.not_le.mpr (Int.negSucc_lt_zero n))

namespace Spells

theorem write (h : k.Spelled word.toList) (hr : k.EndsBefore text) (hs : Spells text ms) :
    Spells (word.toList ++ text) (⟨k, word⟩ :: ms) := by
  have ht := Spells.token h hr hs
  rwa [String.ofList_toList] at ht

/-- Nothing but an equals sign makes an exclamation mark another token. -/
theorem endsBefore_operator {k : Kind} (h : Spells text ms)
    (hm : ∀ m ∈ ms.head?, m.kind ≠ .assign ∧ m.kind ≠ .equal) (hk : k.opening? = some .operator) :
    k.EndsBefore text := by
  rintro b hb
  rw [Bool.eq_false_iff]
  intro hg
  obtain rfl : b = '=' := by
    cases k <;> cases hk <;> first | exact of_decide_eq_true hg | cases hg
  cases h with
  | nil => cases hb
  | blank hw =>
    cases hb
    cases hw
  | @token k w text ms hw =>
    obtain ⟨c, v, rfl⟩ := hw.exists_cons
    cases hb
    have hne := hm _ rfl
    generalize hl : '=' :: v = l at hw
    cases hw with
    | word _ hw =>
      subst l
      cases hw '=' List.mem_cons_self
    | number _ hw =>
      subst l
      cases hw '=' List.mem_cons_self
    | symbol hs =>
      cases hl
      cases hs
      exact hne.1 rfl
    | equal => exact hne.2 rfl
    | notEqual => cases hl
    | stray hs =>
      cases hl
      cases hs

end Spells

end ExprLang
