import ExprLang.Grammar.Sentence

namespace ExprLang.Grammar

variable {fits : Token → Prop}

/-- The tokens that follow the first operand of an expression: operators with their operands. -/
inductive IsTail (fits : Token → Prop) : List Token → Prop where
  | nil : IsTail fits []
  | cons : op.kind.isInfix = true → IsOperand fits u → IsTail fits tail →
      IsTail fits (op :: (u ++ tail))

/-- No operator that stands between operands comes next. -/
def Ends (rest : List Token) : Prop := ∀ t ∈ rest.head?, t.kind.isInfix = false

theorem Ends.cons (h : t.kind.isInfix = false) (rest : List Token) : Ends (t :: rest) := by
  intro t' ht
  cases ht
  exact h

theorem IsTail.append (h : IsTail fits tail) (ho : op.kind.isInfix = true)
    (hu : IsOperand fits u) : IsTail fits (tail ++ op :: u) := by
  induction h with
  | nil => simpa only [List.nil_append, List.append_nil] using IsTail.cons ho hu .nil
  | cons ho' hu' _ ih => simpa only [List.cons_append, List.append_assoc] using .cons ho' hu' ih

/-- Induction on the operators between the operands of an expression, not on what is inside them. -/
theorem IsExpression.chain {motive : ∀ ts, IsExpression fits ts → Prop}
    (operand : ∀ {ts} (hu : IsOperand fits ts), motive ts (.operand hu))
    (operator : ∀ {left right op} (hl : IsExpression fits left) (ho : op.kind.isInfix = true)
      (hu : IsOperand fits right), motive left hl →
        motive (left ++ op :: right) (.operator hl ho hu))
    (h : IsExpression fits ts) : motive ts h :=
  @IsExpression.rec fits motive (fun _ _ => True) (fun hu _ => operand hu)
    (fun hl ho hu ih _ => operator hl ho hu ih) (fun _ _ => trivial) (fun _ _ _ => trivial)
    (fun _ _ _ _ => trivial) ts h

theorem IsExpression.split (h : IsExpression fits ts) :
    ∃ u tail, ts = u ++ tail ∧ IsOperand fits u ∧ IsTail fits tail := by
  induction h using IsExpression.chain with
  | operand hu => exact ⟨_, [], (List.append_nil _).symm, hu, .nil⟩
  | operator _ ho hu ih =>
    obtain ⟨u, tail, rfl, hu', ht⟩ := ih
    exact ⟨u, _, List.append_assoc _ _ _, hu', ht.append ho hu⟩

theorem IsExpression.append (hl : IsExpression fits left) (ho : op.kind.isInfix = true)
    (hr : IsExpression fits right) : IsExpression fits (left ++ op :: right) := by
  induction hr using IsExpression.chain with
  | operand hu => exact .operator hl ho hu
  | operator _ ho' hu ih =>
    have he := IsExpression.operator ih ho' hu
    rwa [List.append_assoc, List.cons_append] at he

/-- An operand opens with an atom that stands for itself, with an operator or with a group. -/
theorem IsOperand.inversion (h : IsOperand fits ts) : ∃ t rest, ts = t :: rest ∧
    (t.kind.opening? = some .atom ∧ fits t ∧ rest = [] ∨
      t.kind.opening? = some .operator ∧ IsOperand fits rest ∨
      t.kind.opening? = some .group ∧ ∃ inner closing, rest = inner ++ [closing] ∧
        IsExpression fits inner ∧ closing.kind = .closeParen) := by
  cases h with
  | atom ho hf => exact ⟨_, _, rfl, .inl ⟨ho, hf, rfl⟩⟩
  | operator ho hu => exact ⟨_, _, rfl, .inr (.inl ⟨ho, hu⟩)⟩
  | group ho he hc =>
    refine ⟨_, _, rfl, .inr (.inr ⟨?_, _, _, rfl, he, hc⟩)⟩
    rw [ho]
    rfl

theorem IsOperand.of_atom (h : IsOperand fits (t :: u)) (ho : t.kind.opening? = some .atom) :
    fits t ∧ u = [] := by
  obtain ⟨t', u', he, hc⟩ := h.inversion
  cases he
  rcases hc with ⟨_, hf, hu⟩ | ⟨ho', _⟩ | ⟨ho', _⟩
  · exact ⟨hf, hu⟩
  · rw [ho'] at ho
    cases ho
  · rw [ho'] at ho
    cases ho

theorem IsOperand.of_operator (h : IsOperand fits (t :: u))
    (ho : t.kind.opening? = some .operator) : IsOperand fits u := by
  obtain ⟨t', u', he, hc⟩ := h.inversion
  cases he
  rcases hc with ⟨ho', _⟩ | ⟨_, hu⟩ | ⟨ho', _⟩
  · rw [ho'] at ho
    cases ho
  · exact hu
  · rw [ho'] at ho
    cases ho

theorem IsOperand.of_group (h : IsOperand fits (t :: u)) (ho : t.kind.opening? = some .group) :
    ∃ inner closing, u = inner ++ [closing] ∧ IsExpression fits inner ∧
      closing.kind = .closeParen := by
  obtain ⟨t', u', he, hc⟩ := h.inversion
  cases he
  rcases hc with ⟨ho', _⟩ | ⟨ho', _⟩ | ⟨_, hg⟩
  · rw [ho'] at ho
    cases ho
  · rw [ho'] at ho
    cases ho
  · exact hg

theorem IsOperand.opening (h : IsOperand fits (t :: u)) : t.kind.opening? ≠ none := by
  obtain ⟨t', u', he, hc⟩ := h.inversion
  cases he
  intro hn
  rcases hc with ⟨ho, _⟩ | ⟨ho, _⟩ | ⟨ho, _⟩ <;>
  · rw [hn] at ho
    cases ho

theorem IsExpression.opening (h : IsExpression fits (t :: ts)) : t.kind.opening? ≠ none := by
  obtain ⟨u, tail, he, hu, _⟩ := h.split
  cases u with
  | nil => exact absurd rfl hu.ne_nil
  | cons t' u =>
    cases he
    exact hu.opening

/-- An expression that opens with a minus goes on from any expression before it. -/
theorem IsExpression.append_minus (hl : IsExpression fits left) (hr : IsExpression fits right)
    (hm : right.head?.map Token.kind = some .minus) : IsExpression fits (left ++ right) := by
  induction hr using IsExpression.chain with
  | @operand ts hu =>
    cases ts with
    | nil => cases hm
    | cons op u =>
      have hk : op.kind = .minus := Option.some.inj hm
      refine .operator hl ?_ (hu.of_operator ?_)
      · rw [hk]
        rfl
      · rw [hk]
        rfl
  | operator hl' ho hu ih =>
    obtain ⟨t, ts, rfl⟩ := List.exists_cons_of_ne_nil hl'.ne_nil
    have he := IsExpression.operator (ih hm) ho hu
    rwa [List.append_assoc] at he

/-- The tokens of an operand with operators and their operands after it. -/
theorem IsOperand.append_tail (hu : IsOperand fits u) (ht : IsTail fits tail) :
    IsExpression fits (u ++ tail) := by
  have happend {ts : List Token} (h : IsExpression fits ts) : IsExpression fits (ts ++ tail) := by
    induction ht generalizing ts with
    | nil => rwa [List.append_nil]
    | cons ho hu _ ih =>
      have he := ih (.operator h ho hu)
      rwa [List.append_assoc] at he
  exact happend (.operand hu)

/-- A sign before the first operand of an expression makes an expression. -/
theorem IsExpression.sign (h : IsExpression fits ts) (ho : op.kind.opening? = some .operator) :
    IsExpression fits (op :: ts) := by
  induction h using IsExpression.chain with
  | operand hu => exact .operand (.operator ho hu)
  | operator _ ho' hu ih => exact .operator ih ho' hu

/-- Every token of an expression opens an operand, or stands between two, or closes a group. -/
theorem IsExpression.forall_mem {P : Token → Prop} (h : IsExpression fits ts)
    (hopens : ∀ t : Token, t.kind.opening? ≠ none →
      (t.kind.opening? = some .atom → fits t) → P t)
    (hjoins : ∀ t : Token, t.kind.isInfix = true → P t)
    (hcloses : ∀ t : Token, t.kind = .closeParen → P t) : ∀ t ∈ ts, P t := by
  refine @IsExpression.rec fits (fun ts _ => ∀ t ∈ ts, P t) (fun ts _ => ∀ t ∈ ts, P t)
    ?operand ?chain ?atom ?sign ?group ts h
  case operand =>
    intro ts _ ih
    exact ih
  case chain =>
    intro left right op _ ho _ ihl ihr
    exact List.forall_mem_append.mpr ⟨ihl, List.forall_mem_cons.mpr ⟨hjoins op ho, ihr⟩⟩
  case atom =>
    intro t ho hf
    exact List.forall_mem_singleton.mpr (hopens t (by rw [ho]; nofun) fun _ => hf)
  case sign =>
    intro op ts ho _ ih
    refine List.forall_mem_cons.mpr ⟨hopens op (by rw [ho]; nofun) ?_, ih⟩
    intro ha
    rw [ha] at ho
    cases ho
  case group =>
    intro opening closing ts ho _ hc ih
    refine List.forall_mem_append.mpr ⟨List.forall_mem_cons.mpr ⟨?_, ih⟩,
      List.forall_mem_singleton.mpr (hcloses closing hc)⟩
    refine hopens opening (by rw [ho]; nofun) ?_
    intro ha
    rw [ho] at ha
    cases ha

theorem IsExpression.kind_ne_semicolon (h : IsExpression fits ts) :
    ∀ t ∈ ts, t.kind ≠ .semicolon := by
  refine h.forall_mem ?_ ?_ ?_
  · intro t ho _ hk
    rw [hk] at ho
    exact ho rfl
  · intro t hi hk
    rw [hk] at hi
    cases hi
  · intro t hc hk
    cases hc.symm.trans hk

theorem IsStatement.of_bare (h : IsStatement fits .bare ts) : IsExpression fits ts := by
  cases h with
  | bare h => exact h

/-- The form of a statement lacks its semicolon just in case no semicolon is there. -/
theorem IsStatement.bare_iff (h : IsStatement fits form ts) :
    form = .bare ↔ ∀ t ∈ ts, t.kind ≠ .semicolon := by
  constructor
  · rintro rfl
    exact h.of_bare.kind_ne_semicolon
  · intro hn
    cases h with
    | binding _ _ _ _ hk =>
      exact absurd hk (hn _ (List.mem_append_right _ (List.mem_singleton_self _)))
    | returning _ _ hk =>
      exact absurd hk (hn _ (List.mem_append_right _ (List.mem_singleton_self _)))
    | returningNothing _ hk =>
      exact absurd hk (hn _ (List.mem_cons_of_mem _ (List.mem_singleton_self _)))
    | closed _ hk =>
      exact absurd hk (hn _ (List.mem_append_right _ (List.mem_singleton_self _)))
    | bare => rfl

def Begins (k : Kind) : Prop := k.opening? ≠ none ∨ k.stmtKind? ≠ none

theorem IsExpression.begins (h : IsExpression fits ts) :
    ∃ t rest, ts = t :: rest ∧ t.kind.opening? ≠ none := by
  obtain ⟨t, rest, rfl⟩ := List.exists_cons_of_ne_nil h.ne_nil
  exact ⟨t, rest, rfl, h.opening⟩

theorem Begins.letWord (h : k = .letWord) : Begins k := by
  rw [h]
  exact .inr nofun

theorem Begins.returnWord (h : k = .returnWord) : Begins k := by
  rw [h]
  exact .inr nofun

theorem IsStatement.begins (h : IsStatement fits form ts) :
    ∃ t rest, ts = t :: rest ∧ Begins t.kind := by
  cases h with
  | binding hw => exact ⟨_, _, rfl, .letWord hw⟩
  | returning hw => exact ⟨_, _, rfl, .returnWord hw⟩
  | returningNothing hw => exact ⟨_, _, rfl, .returnWord hw⟩
  | closed he =>
    obtain ⟨t, rest, rfl, ho⟩ := he.begins
    exact ⟨t, _, rfl, .inl ho⟩
  | bare he =>
    obtain ⟨t, rest, rfl, ho⟩ := he.begins
    exact ⟨t, rest, rfl, .inl ho⟩

/-- The one operator between operands that can start a statement as well. -/
theorem Begins.minus_of_isInfix (h : Begins k) (hi : k.isInfix = true) : k = .minus := by
  rcases h with h | h <;> cases k <;> first | rfl | exact absurd rfl h | cases hi

theorem Begins.ne_semicolon (h : Begins k) : k ≠ .semicolon := by
  rintro rfl
  rcases h with h | h <;> exact h rfl

/-- Whatever comes next either begins a statement or is the end of the text. -/
theorem begins_of_parts {parts : List (Form × List Token)}
    (h : ∀ part ∈ parts, IsStatement fits part.1 part.2) :
    ∀ t ∈ (parts.flatMap Prod.snd).head?, Begins t.kind := by
  cases parts with
  | nil => nofun
  | cons part parts =>
    obtain ⟨t, rest, he, hb⟩ := (h part List.mem_cons_self).begins
    rw [List.flatMap_cons, he]
    intro t' ht
    cases ht
    exact hb

theorem IsStatement.append_minus (hl : IsExpression fits left) (hs : IsStatement fits form ts)
    (hm : ts.head?.map Token.kind = some .minus) : IsStatement fits form (left ++ ts) := by
  have hne {k : Kind} (hk : k = .minus) : k.stmtKind? = none := by
    rw [hk]
    rfl
  cases hs with
  | binding hw => exact absurd ((Option.some.inj hm).symm.trans hw) nofun
  | returning hw => exact absurd ((Option.some.inj hm).symm.trans hw) nofun
  | returningNothing hw => exact absurd ((Option.some.inj hm).symm.trans hw) nofun
  | @closed semicolon value he hk =>
    obtain ⟨t, rest, rfl, _⟩ := he.begins
    rw [← List.append_assoc]
    exact .closed (hl.append_minus he hm) hk
  | bare he => exact .bare (hl.append_minus he hm)

/-- Every cut of a text into statements can be made one whose expressions are as long as can be.
What holds of such an expression just in case it holds of its parts is not affected. -/
theorem IsSentence.exists_separated_iff {P : Form × List Token → Prop}
    (hP : ∀ {form left right}, IsExpression fits left → IsStatement fits form right →
      right.head?.map Token.kind = some .minus →
      (P (form, left ++ right) ↔ P (.bare, left) ∧ P (form, right)))
    (h : IsSentence fits parts ts) :
    ∃ parts', IsSentence fits parts' ts ∧ Separated parts' ∧
      ((∀ part ∈ parts, P part) ↔ ∀ part ∈ parts', P part) := by
  induction parts generalizing ts with
  | nil => exact ⟨[], h, trivial, Iff.rfl⟩
  | cons part parts ih =>
    obtain ⟨hp, hps⟩ := List.forall_mem_cons.mp h.statements
    obtain ⟨parts', hs, hsep, hiff⟩ := ih ⟨hps, rfl⟩
    have htokens : part.2 ++ parts'.flatMap Prod.snd = ts := by
      rw [hs.tokens, ← h.tokens, List.flatMap_cons]
    by_cases hm : part.1 = .bare ∧ (parts'.flatMap Prod.snd).head?.map Token.kind = some .minus
    · obtain ⟨hb, hm⟩ := hm
      cases parts' with
      | nil => cases hm
      | cons next parts' =>
        obtain ⟨hn, hns⟩ := List.forall_mem_cons.mp hs.statements
        obtain ⟨t, rest, he, _⟩ := hn.begins
        rw [List.flatMap_cons, he] at hm
        have hm : next.2.head?.map Token.kind = some .minus := by
          rw [he]
          exact hm
        have hl : IsExpression fits part.2 := (hb ▸ hp).of_bare
        refine ⟨(next.1, part.2 ++ next.2) :: parts', ⟨?_, ?_⟩, hsep, ?_⟩
        · exact List.forall_mem_cons.mpr ⟨hn.append_minus hl hm, hns⟩
        · rw [List.flatMap_cons] at htokens ⊢
          rw [← htokens, List.append_assoc]
        · rw [List.forall_mem_cons, hiff, List.forall_mem_cons, List.forall_mem_cons,
            hP hl hn hm, ← hb, and_assoc]
    · rw [not_and] at hm
      refine ⟨part :: parts', ⟨List.forall_mem_cons.mpr ⟨hp, hs.statements⟩, htokens⟩,
        ⟨hm, hsep⟩, ?_⟩
      rw [List.forall_mem_cons, hiff, List.forall_mem_cons]

theorem IsSentence.exists_separated (h : IsSentence fits parts ts) :
    ∃ parts', IsSentence fits parts' ts ∧ Separated parts' := by
  obtain ⟨parts', hs, hsep, -⟩ := exists_separated_iff (P := fun _ => True)
    (fun _ _ _ => (and_iff_left trivial).symm) h
  exact ⟨parts', hs, hsep⟩

theorem Form.eq_of_describes {form form' : Form} {s : Stmt} (h : form.Describes s)
    (h' : form'.Describes s) (hb : form = .bare ↔ form' = .bare) : form = form' := by
  obtain ⟨hk, hn, hv⟩ := h
  obtain ⟨hk', hn', hv'⟩ := h'
  cases form <;> cases form' <;> simp_all [kind]

end ExprLang.Grammar
