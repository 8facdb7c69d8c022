import ExprLang.Token.Cursor

namespace ExprLang

theorem Char.not_isAlphanum_of_isWhitespace {c : Char} (h : c.isWhitespace = true) :
    c.isAlpha = false ∧ c.isDigit = false ∧ c ≠ '=' := by
  simp only [Char.isWhitespace, Bool.or_eq_true, decide_eq_true_eq] at h
  rcases h with ((h | h) | h) | h <;> subst h <;> decide

namespace Kind

/-- The characters that spell a token of a kind. -/
inductive Spelled : Kind → List Char → Prop where
  | word : w ≠ [] → (∀ c ∈ w, c.isAlpha = true) → Spelled (ofWord (String.ofList w)) w
  | number : w ≠ [] → (∀ c ∈ w, c.isDigit = true) → Spelled .integer w
  | symbol : ofSymbol? c = some k → Spelled k [c]
  | equal : Spelled .equal ['=', '=']
  | notEqual : Spelled .notEqual ['!', '=']
  | stray : ofSymbol? c = none → c.isAlpha = false → c.isDigit = false →
      c.isWhitespace = false → Spelled .invalid [c]

/-- A token of a kind reads on with the character that comes right after it. -/
def goesOn : Kind → Char → Bool
  | integer, c => c.isDigit
  | assign, c | bang, c => c == '='
  | identifier, c | letWord, c | funWord, c | trueWord, c | falseWord, c | returnWord, c =>
    c.isAlpha
  | _, _ => false

def EndsBefore (k : Kind) (rest : List Char) : Prop := ∀ b ∈ rest.head?, k.goesOn b = false

theorem EndsBefore.nil (k : Kind) : k.EndsBefore [] := nofun

theorem EndsBefore.cons {k : Kind} (h : k.goesOn b = false) (rest : List Char) :
    k.EndsBefore (b :: rest) := by
  intro b' hb
  cases hb
  exact h

theorem EndsBefore.append {k : Kind} (h : k.EndsBefore rest)
    (hb : rest = [] → k.EndsBefore back) : k.EndsBefore (rest ++ back) := by
  cases rest with
  | nil => exact hb rfl
  | cons b rest => exact .cons (h b rfl) (rest ++ back)

theorem EndsBefore.semicolon (rest : List Char) : Kind.semicolon.EndsBefore rest :=
  fun _ _ => rfl

theorem goesOn_of_isWhitespace (k : Kind) {c : Char} (h : c.isWhitespace = true) :
    k.goesOn c = false := by
  obtain ⟨ha, hd, he⟩ := Char.not_isAlphanum_of_isWhitespace h
  cases k <;> first | rfl | exact ha | exact hd | exact beq_false_of_ne he

theorem goesOn_ofWord (word : String) (c : Char) : (ofWord word).goesOn c = c.isAlpha := by
  simp only [ofWord, keyword?]
  split <;> rfl

theorem ofSymbol?_eq_none (h : c.isAlpha = true ∨ c.isDigit = true ∨ c.isWhitespace = true) :
    ofSymbol? c = none := by
  simp only [ofSymbol?]
  split <;> first | rfl | exact absurd h (by decide)

theorem EndsBefore.takeWhile {k : Kind} {p : Char → Bool} (hk : ∀ b, k.goesOn b = p b)
    (h : k.EndsBefore rest) (hw : ∀ c ∈ w, p c = true) :
    (w ++ rest).takeWhile p = w ∧ (w ++ rest).dropWhile p = rest := by
  rw [List.takeWhile_append_of_pos hw, List.dropWhile_append_of_pos hw]
  cases rest with
  | nil => exact ⟨List.append_nil w, rfl⟩
  | cons b rest =>
    have hb : ¬ p b = true := by
      rw [← hk, h b rfl]
      nofun
    rw [List.takeWhile_cons_of_neg hb, List.dropWhile_cons_of_neg hb, List.append_nil]
    exact ⟨rfl, rfl⟩

theorem Spelled.not_isWhitespace (h : Spelled k (c :: w)) : c.isWhitespace = false := by
  rw [Bool.eq_false_iff]
  intro hc
  obtain ⟨ha, hd, -⟩ := Char.not_isAlphanum_of_isWhitespace hc
  cases h with
  | word _ hw => exact absurd (hw c List.mem_cons_self) (by rw [ha]; nofun)
  | number _ hw => exact absurd (hw c List.mem_cons_self) (by rw [hd]; nofun)
  | symbol hs => cases (ofSymbol?_eq_none (.inr (.inr hc))).symm.trans hs
  | equal => cases hc
  | notEqual => cases hc
  | stray _ _ _ hn => cases hc.symm.trans hn

theorem Spelled.ne_eof (h : Spelled k w) : k ≠ .eof := by
  cases h with
  | word => exact ofWord_ne_eof _
  | symbol hs => exact ofSymbol?_ne_eof hs
  | _ => nofun

/-- A token that reads on with letters is a word, and its kind is that of the word. -/
theorem Spelled.word_of_goesOn (h : Spelled k w) (hk : k.goesOn 'a' = true) :
    (∀ c ∈ w, c.isAlpha = true) ∧ ofWord (String.ofList w) = k := by
  cases h with
  | word _ hw => exact ⟨hw, rfl⟩
  | symbol hs =>
    simp only [ofSymbol?] at hs
    split at hs <;> cases hs <;> cases hk
  | _ => cases hk

theorem Spelled.exists_cons (h : Spelled k w) : ∃ c v, w = c :: v := by
  cases h with
  | word hn => exact List.exists_cons_of_ne_nil hn
  | number hn => exact List.exists_cons_of_ne_nil hn
  | _ => exact ⟨_, _, rfl⟩

theorem spelled_of_keyword? (h : keyword? word = some k) : k.Spelled word.toList := by
  have hw : word.toList ≠ [] ∧ word.toList.all Char.isAlpha = true := by
    simp only [keyword?] at h
    split at h <;> first | decide | cases h
  have hs := Spelled.word hw.1 (List.all_eq_true.mp hw.2)
  rwa [String.ofList_toList, ofWord, h] at hs

end Kind

theorem Char.not_isAlpha_of_isDigit {c : Char} (h : c.isDigit = true) : ¬ c.isAlpha = true := by
  have hle : c.val ≤ '9'.val := of_decide_eq_true (Bool.and_eq_true_iff.mp h).2
  intro ha
  rcases Bool.or_eq_true_iff.mp ha with hu | hl
  · have hge : 'A'.val ≤ c.val := (of_decide_eq_true hu).1
    exact absurd (UInt32.le_trans hge hle) (by decide)
  · have hge : 'a'.val ≤ c.val := of_decide_eq_true (Bool.and_eq_true_iff.mp hl).1
    exact absurd (UInt32.le_trans hge hle) (by decide)

namespace Lexeme

theorem single_spelled (hc : c.isWhitespace = false) (text : List Char) :
    (single c text).kind.Spelled (single c text).literal := by
  have hall {p : Char → Bool} : ∀ b ∈ (c :: text).takeWhile p, p b = true :=
    List.all_eq_true.mp List.all_takeWhile
  simp only [single]
  cases hs : Kind.ofSymbol? c with
  | some k => exact .symbol hs
  | none =>
    dsimp only
    split
    · next ha => exact .word (by simp [ha]) hall
    split
    · next hd => exact .number (by simp [run, hd]) hall
    · next ha hd => exact .stray hs (Bool.eq_false_iff.mpr ha) (Bool.eq_false_iff.mpr hd) hc

theorem read_eq_single (h : ∀ rest, text = '=' :: rest → c ≠ '=' ∧ c ≠ '!') :
    read c text = single c text := by
  fun_cases read c text with
  | case1 rest => exact absurd rfl (h rest rfl).1
  | case2 rest => exact absurd rfl (h rest rfl).2
  | case3 => rfl

theorem run_endsBefore {p : Char → Bool} {kind : List Char → Kind} {text : List Char}
    (hk : ∀ c, (run kind p text).kind.goesOn c = p c) :
    (run kind p text).kind.EndsBefore (run kind p text).rest := by
  intro c hc
  rw [hk]
  have hd := List.head?_dropWhile_not p text
  rw [show (text.dropWhile p).head? = some c from hc] at hd
  simpa using hd

theorem single_endsBefore {c : Char} (h : ∀ rest, text = '=' :: rest → c ≠ '=' ∧ c ≠ '!') :
    (single c text).kind.EndsBefore (single c text).rest := by
  simp only [single]
  split
  · next kind hs =>
    intro b hb
    cases text with
    | nil => cases hb
    | cons d text =>
      cases hb
      rw [Bool.eq_false_iff]
      intro hg
      simp only [Kind.ofSymbol?] at hs
      split at hs <;> cases hs <;> first
        | cases hg
        | exact absurd rfl (h text (by rw [of_decide_eq_true hg])).1
        | exact absurd rfl (h text (by rw [of_decide_eq_true hg])).2
  split
  · exact run_endsBefore fun _ => Kind.goesOn_ofWord _ _
  split
  · exact run_endsBefore fun _ => rfl
  · intro _ _
    rfl

/-- A token is as long as it can be. -/
theorem read_endsBefore (c : Char) (text : List Char) :
    (read c text).kind.EndsBefore (read c text).rest := by
  fun_cases read c text with
  | case1 rest => exact fun _ _ => rfl
  | case2 rest => exact fun _ _ => rfl
  | case3 c text h₁ h₂ =>
    apply single_endsBefore
    intro rest he
    exact ⟨fun hc => h₁ rest hc he, fun hc => h₂ rest hc he⟩

theorem read_spelled (hc : c.isWhitespace = false) (text : List Char) :
    (read c text).kind.Spelled (read c text).literal := by
  simp only [read]
  split
  · exact .equal
  · exact .notEqual
  · exact single_spelled hc _

/-- Characters that spell a token are read as that token where it does not go on. -/
theorem read_of_spelled (h : Kind.Spelled k (c :: w)) (hr : k.EndsBefore text) :
    read c (w ++ text) = ⟨k, c :: w, text⟩ := by
  cases h with
  | word _ hw =>
    have ha := hw c List.mem_cons_self
    obtain ⟨ht, hd⟩ := hr.takeWhile (Kind.goesOn_ofWord _) hw
    rw [read_eq_single, single, Kind.ofSymbol?_eq_none (.inl ha)]
    · rw [← List.cons_append]
      simp only [if_pos ha, run, ht, hd]
    · rintro _ -
      constructor <;> rintro rfl <;> cases ha
  | number _ hw =>
    have hc := hw c List.mem_cons_self
    have ha := Char.not_isAlpha_of_isDigit hc
    obtain ⟨ht, hd⟩ := hr.takeWhile (p := Char.isDigit) (fun _ => rfl) hw
    rw [read_eq_single, single, Kind.ofSymbol?_eq_none (.inr (.inl hc))]
    · rw [← List.cons_append]
      simp only [if_neg ha, if_pos hc, run, ht, hd]
    · rintro _ -
      constructor <;> rintro rfl <;> cases hc
  | symbol hs =>
    rw [List.nil_append, read_eq_single, single, hs]
    rintro rest rfl
    constructor <;>
    · rintro rfl
      cases hs
      cases hr '=' rfl
  | equal => rfl
  | notEqual => rfl
  | stray hs ha hd =>
    rw [List.nil_append, read_eq_single, single, hs]
    · simp only [ha, hd, Bool.false_eq_true, if_false]
    · rintro _ -
      constructor <;> rintro rfl <;> cases hs

end Lexeme

/-- What a token says, wherever it stands: its kind and its characters. -/
structure Mark where
  kind : Kind
  literal : String
  deriving DecidableEq, Repr, Inhabited

def Token.mark (t : Token) : Mark := ⟨t.kind, t.literal⟩

/-- A text is cut into tokens with blanks between them, none of which reads on with what comes
after it. -/
inductive Spells : List Char → List Mark → Prop where
  | nil : Spells [] []
  | blank : b.isWhitespace = true → Spells text ms → Spells (b :: text) ms
  | token : Kind.Spelled k w → k.EndsBefore text → Spells text ms →
      Spells (w ++ text) (⟨k, String.ofList w⟩ :: ms)

namespace Cursor

theorem next_congr {c d : Cursor} (h : c.skipBlanks = d.skipBlanks) : c.next = d.next := by
  simp only [next, h]

theorem tokens_congr {c d : Cursor} (h : c.next = d.next) : c.tokens = d.tokens := by
  rw [tokens, h]
  exact (tokens.eq_def d).symm

theorem not_isWhitespace_of_skipBlanks {c : Cursor} (h : c.skipBlanks.rest = ch :: text) :
    ch.isWhitespace = false := by
  have hd := List.head?_dropWhile_not Char.isWhitespace c.rest
  rw [show c.rest.dropWhile Char.isWhitespace = _ from h] at hd
  simpa using hd

theorem next_of_spelled {c : Cursor} (h : c.rest = w ++ text) (hw : Kind.Spelled k w)
    (hr : k.EndsBefore text) : c.next.1.mark = ⟨k, String.ofList w⟩ ∧ c.next.2.rest = text := by
  obtain ⟨ch, v, rfl⟩ := hw.exists_cons
  have hb : ¬ ch.isWhitespace = true := by
    rw [hw.not_isWhitespace]
    nofun
  have hs : c.skipBlanks.rest = ch :: (v ++ text) := by
    simp only [skipBlanks, h, List.cons_append, List.dropWhile_cons_of_neg hb]
  simp only [next, hs, Lexeme.read_of_spelled hw hr]
  exact ⟨rfl, rfl⟩

/-- The tokens of a text are those that it is cut into. -/
theorem marks_of_spells {c : Cursor} (h : Spells text ms) (hc : c.rest = text) :
    c.tokens.ahead.map Token.mark = ms := by
  induction h generalizing c with
  | nil =>
    have hk : c.next.1.kind = .eof := by
      simp only [next, skipBlanks, hc, List.dropWhile_nil]
      rfl
    rw [tokens, if_pos hk]
    rfl
  | @blank text ms b hb _ ih =>
    have hs : c.skipBlanks = (⟨c.file, c.offset + b.utf8Size, text⟩ : Cursor).skipBlanks := by
      simp only [skipBlanks, hc, List.takeWhile_cons_of_pos hb, List.dropWhile_cons_of_pos hb,
        Text.size_cons, Nat.add_assoc]
    rw [tokens_congr (next_congr hs)]
    exact ih rfl
  | token hw hr _ ih =>
    obtain ⟨ht, hn⟩ := next_of_spelled hc hw hr
    have hk : c.next.1.kind ≠ .eof := by
      rw [show c.next.1.kind = _ from congrArg Mark.kind ht]
      exact hw.ne_eof
    rw [tokens, if_neg hk, TokenStream.cons, List.map_cons, ht, ih hn]

theorem spelled_next {c : Cursor} (h : c.next.1.kind ≠ .eof) :
    c.next.1.kind.Spelled c.next.1.literal.toList := by
  simp only [next] at h ⊢
  split at h
  · exact absurd rfl h
  · next ch rest hr =>
    simp only [take, String.toList_ofList]
    exact Lexeme.read_spelled (not_isWhitespace_of_skipBlanks hr) rest

theorem spelled_of_mem_tokens {c : Cursor} (h : t ∈ c.tokens.ahead) :
    t.kind.Spelled t.literal.toList := by
  fun_induction tokens c with
  | case1 => cases h
  | case2 c hk ih =>
    rcases List.mem_cons.mp h with rfl | h
    · exact spelled_next hk
    · exact ih h

end Cursor

end ExprLang
