import ExprLang.Token.Basic

namespace ExprLang

/-- The tokens of a text that are still to come, and the place where the text ends.
Past the last token the end of the text is read again and again. -/
structure TokenStream where
  ahead : List Token
  stop : Position
  deriving DecidableEq, Repr, Inhabited

namespace TokenStream

def last (s : TokenStream) : Token := .eof s.stop

def get (s : TokenStream) (i : Nat) : Token := s.ahead.getD i s.last

def cons (t : Token) (s : TokenStream) : TokenStream := { s with ahead := t :: s.ahead }

def prepend (ts : List Token) (s : TokenStream) : TokenStream := { s with ahead := ts ++ s.ahead }

def drop (n : Nat) (s : TokenStream) : TokenStream := { s with ahead := s.ahead.drop n }

def toList (s : TokenStream) : List Token := s.ahead ++ [s.last]

@[simp] theorem last_drop (n : Nat) (s : TokenStream) : (s.drop n).last = s.last := rfl

@[simp] theorem ahead_drop (n : Nat) (s : TokenStream) : (s.drop n).ahead = s.ahead.drop n := rfl

@[simp] theorem drop_drop (m n : Nat) (s : TokenStream) : (s.drop m).drop n = s.drop (m + n) := by
  simp [drop]

@[simp] theorem get_drop (n i : Nat) (s : TokenStream) : (s.drop n).get i = s.get (n + i) := by
  simp [get, List.getD_eq_getElem?_getD]

@[simp] theorem get_prepend_add (ts : List Token) (s : TokenStream) (i : Nat) :
    (s.prepend ts).get (ts.length + i) = s.get i := by
  rw [get, prepend, List.getD_eq_getElem?_getD, List.getElem?_append_right (Nat.le_add_right _ _),
    Nat.add_sub_cancel_left]
  rfl

theorem get_prepend_of_lt {ts : List Token} {i : Nat} (h : i < ts.length) (s : TokenStream) :
    (s.prepend ts).get i = ts[i] := by
  rw [get, prepend, List.getD_eq_getElem?_getD, List.getElem?_append_left h,
    List.getElem?_eq_getElem h, Option.getD_some]

@[simp] theorem get_length (s : TokenStream) : s.get s.ahead.length = s.last := by
  rw [get, List.getD_eq_getElem?_getD, List.getElem?_eq_none (Nat.le_refl _)]
  rfl

theorem toList_prepend (ts : List Token) (s : TokenStream) :
    (s.prepend ts).toList = ts ++ s.toList :=
  List.append_assoc ts s.ahead [s.last]

theorem dropLast_toList (s : TokenStream) : s.toList.dropLast = s.ahead :=
  List.dropLast_concat

theorem get_mem_toList (s : TokenStream) (i : Nat) : s.get i ∈ s.toList := by
  rw [get, List.getD_eq_getElem?_getD, toList]
  cases h : s.ahead[i]? with
  | none => exact List.mem_append_right _ List.mem_cons_self
  | some t => exact List.mem_append_left _ (List.mem_of_getElem? h)

/-- Past the last token there is no token but the closing one. -/
theorem lt_of_kind_ne_eof {s : TokenStream} {i : Nat} (h : (s.get i).kind ≠ .eof) :
    i < s.ahead.length := by
  rw [← Nat.not_le]
  intro hl
  rw [get, List.getD_eq_getElem?_getD, List.getElem?_eq_none hl] at h
  exact h rfl

theorem lt_of_kind_eq {s : TokenStream} {i : Nat} (h : (s.get i).kind = k) (hk : k ≠ .eof) :
    i < s.ahead.length := by
  apply lt_of_kind_ne_eof
  rw [h]
  exact hk

theorem get_of_lt {s : TokenStream} {i : Nat} (h : i < s.ahead.length) :
    s.get i = s.ahead[i] := by
  rw [get, List.getD_eq_getElem?_getD, List.getElem?_eq_getElem h, Option.getD_some]

theorem get_min (s : TokenStream) (i : Nat) : s.get (min i s.ahead.length) = s.get i := by
  rcases Nat.le_total i s.ahead.length with h | h
  · rw [Nat.min_eq_left h]
  · rw [Nat.min_eq_right h, get_length, get, List.getD_eq_getElem?_getD, List.getElem?_eq_none h]
    rfl

theorem drop_min (s : TokenStream) (i : Nat) : s.drop (min i s.ahead.length) = s.drop i := by
  rcases Nat.le_total i s.ahead.length with h | h
  · rw [Nat.min_eq_left h]
  · rw [Nat.min_eq_right h, drop, drop, List.drop_length, List.drop_eq_nil_of_le h]

/-- What is prepended is read in its place. -/
theorem get_prepend_ahead {s : TokenStream} {i : Nat} (h : i < s.ahead.length) (q : TokenStream) :
    (q.prepend s.ahead).get i = s.get i := by
  rw [get_prepend_of_lt h, get_of_lt h]

theorem drop_eq_cons_of_lt {s : TokenStream} {i : Nat} (h : i < s.ahead.length) :
    s.ahead.drop i = s.get i :: s.ahead.drop (i + 1) := by
  rw [List.drop_eq_getElem_cons h, get_of_lt h]

theorem drop_eq_cons {s : TokenStream} {i : Nat} (h : (s.get i).kind ≠ .eof) :
    s.ahead.drop i = s.get i :: s.ahead.drop (i + 1) :=
  drop_eq_cons_of_lt (lt_of_kind_ne_eof h)

theorem get_of_drop_eq_cons {s : TokenStream} {i : Nat} {t : Token} {rest : List Token}
    (h : s.ahead.drop i = t :: rest) : s.get i = t ∧ s.ahead.drop (i + 1) = rest := by
  constructor
  · rw [get, List.getD_eq_getElem?_getD, ← List.head?_drop, h]
    rfl
  · rw [← List.tail_drop, h, List.tail_cons]

theorem kind_of_drop_eq_nil {s : TokenStream} {i : Nat} (h : s.ahead.drop i = []) :
    (s.get i).kind = .eof := by
  rw [get, List.getD_eq_getElem?_getD, ← List.head?_drop, h]
  rfl

/-- Only the closing token of the stream stands for the end of a text. -/
def Closed (s : TokenStream) : Prop := ∀ t ∈ s.ahead, t.kind ≠ .eof

theorem Closed.kind_eq_eof_iff {s : TokenStream} (h : s.Closed) {i : Nat} :
    (s.get i).kind = .eof ↔ s.ahead.length ≤ i := by
  constructor
  · intro hk
    rw [← Nat.not_lt]
    intro hi
    rw [get_of_lt hi] at hk
    exact h _ (List.getElem_mem hi) hk
  · intro hi
    exact kind_of_drop_eq_nil (List.drop_eq_nil_of_le hi)

/-- Where no token stands twice, each is found where it is read. -/
theorem Closed.idxOf_get {s : TokenStream} (h : s.Closed) (hn : s.ahead.Nodup) (i : Nat) :
    s.ahead.idxOf (s.get i) = min i s.ahead.length := by
  rcases Nat.lt_or_ge i s.ahead.length with hi | hi
  · rw [get_of_lt hi, hn.idxOf_getElem, Nat.min_eq_left (Nat.le_of_lt hi)]
  · rw [Nat.min_eq_right hi]
    apply List.idxOf_eq_length
    intro hm
    exact h _ hm (h.kind_eq_eof_iff.mpr hi)

end TokenStream

end ExprLang
