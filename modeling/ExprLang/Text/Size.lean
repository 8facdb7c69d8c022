namespace ExprLang.Text

/-- The number of bytes of a text in UTF-8. -/
def size : List Char → Nat
  | [] => 0
  | c :: text => c.utf8Size + size text

/-- What is left of a text after `n` bytes, if a character starts or the text ends there. -/
def dropBytes? : Nat → List Char → Option (List Char)
  | 0, text => some text
  | _ + 1, [] => none
  | n + 1, c :: text =>
    if c.utf8Size ≤ n + 1 then dropBytes? (n + 1 - c.utf8Size) text else none

/-- The first `n` bytes of a text, if a character starts or the text ends behind them. -/
def takeBytes? : Nat → List Char → Option (List Char)
  | 0, _ => some []
  | _ + 1, [] => none
  | n + 1, c :: text =>
    if c.utf8Size ≤ n + 1 then (takeBytes? (n + 1 - c.utf8Size) text).map (c :: ·) else none

@[simp] theorem size_nil : size [] = 0 := rfl

@[simp] theorem size_cons (c : Char) (text : List Char) :
    size (c :: text) = c.utf8Size + size text := rfl

@[simp] theorem size_append (front back : List Char) :
    size (front ++ back) = size front + size back := by
  induction front with
  | nil => simp
  | cons c front ih => simp only [List.cons_append, size_cons, ih]; omega

theorem utf8Size_of_isWhitespace {c : Char} (h : c.isWhitespace = true) : c.utf8Size = 1 := by
  simp only [Char.isWhitespace, Bool.or_eq_true, decide_eq_true_eq] at h
  rcases h with ((h | h) | h) | h <;> subst h <;> rfl

theorem size_toList (s : String) : size s.toList = s.utf8ByteSize := by
  have h (text : List Char) : (String.ofList text).utf8ByteSize = size text := by
    induction text with
    | nil => rfl
    | cons c text ih =>
      rw [String.ofList_cons, String.utf8ByteSize_append, ih, String.utf8ByteSize_singleton,
        size_cons]
  rw [← h, String.ofList_toList]

/-- A text that starts with a character has bytes, and those of the character among them. -/
theorem exists_size_cons (c : Char) (text : List Char) :
    ∃ n, size (c :: text) = n + 1 ∧ c.utf8Size ≤ n + 1 ∧ n + 1 - c.utf8Size = size text := by
  have hc := c.utf8Size_pos
  refine ⟨c.utf8Size + size text - 1, ?_, ?_, ?_⟩
  · rw [size_cons]
    omega
  · omega
  · omega

theorem dropBytes?_size_append (front back : List Char) :
    dropBytes? (size front) (front ++ back) = some back := by
  induction front with
  | nil => cases back <;> rfl
  | cons c front ih =>
    obtain ⟨n, hn, hc, hs⟩ := exists_size_cons c front
    rw [hn, List.cons_append, dropBytes?, if_pos hc, hs, ih]

theorem takeBytes?_size_append (front back : List Char) :
    takeBytes? (size front) (front ++ back) = some front := by
  induction front with
  | nil => cases back <;> rfl
  | cons c front ih =>
    obtain ⟨n, hn, hc, hs⟩ := exists_size_cons c front
    rw [hn, List.cons_append, takeBytes?, if_pos hc, hs, ih]
    rfl

/-- Dropping `n` bytes succeeds exactly when some beginning of the text is `n` bytes long. -/
theorem dropBytes?_eq_some_iff {n : Nat} {text rest : List Char} :
    dropBytes? n text = some rest ↔ ∃ front, text = front ++ rest ∧ size front = n := by
  constructor
  · intro h
    fun_induction dropBytes? n text with
    | case1 text => cases h; exact ⟨[], rfl, rfl⟩
    | case2 => cases h
    | case3 n c text hc ih =>
      obtain ⟨front, he, hs⟩ := ih h
      exact ⟨c :: front, by rw [he]; rfl, by simp; omega⟩
    | case4 => cases h
  · rintro ⟨front, rfl, rfl⟩
    exact dropBytes?_size_append front rest

/-- No character starts behind `n` bytes where the text is shorter or one of its characters goes
on there. -/
theorem dropBytes?_eq_none_iff {n : Nat} {text : List Char} :
    dropBytes? n text = none ↔ size text < n ∨ ∃ front c back, text = front ++ c :: back ∧
      size front < n ∧ n < size front + c.utf8Size := by
  constructor
  · intro h
    fun_induction dropBytes? n text with
    | case1 => cases h
    | case2 n => exact .inl (Nat.succ_pos n)
    | case3 n c text hc ih =>
      rcases ih h with hs | ⟨front, d, back, rfl, hf, hd⟩
      · exact .inl (by rw [size_cons]; omega)
      · exact .inr ⟨c :: front, d, back, rfl, by rw [size_cons]; omega, by rw [size_cons]; omega⟩
    | case4 n c text hc => exact .inr ⟨[], c, text, rfl, Nat.succ_pos n, by rw [size_nil]; omega⟩
  · intro h
    rw [Option.eq_none_iff_forall_ne_some]
    intro rest hr
    obtain ⟨w, hw, rfl⟩ := dropBytes?_eq_some_iff.mp hr
    rcases h with hs | ⟨front, c, back, he, hf, hc⟩
    · rw [hw, size_append] at hs
      omega
    · rw [hw] at he
      rcases List.append_eq_append_iff.mp he with ⟨v, rfl, hv⟩ | ⟨v, rfl, hv⟩
      · rw [size_append] at hf
        omega
      · rw [size_append] at hf hc
        cases v with
        | nil => exact Nat.lt_irrefl _ hf
        | cons d v =>
          obtain rfl := (List.cons.inj hv).1
          rw [size_cons] at hc
          omega

end ExprLang.Text
