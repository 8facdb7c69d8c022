import ExprLang.Proofs.Rounds
import Mathlib

namespace ExprLang

/-- The loop that repeats `step` as long as `again` holds ends with `t`, after `n` times. -/
structure LoopEnds (again : α → Prop) (step : α → α) (s : α) (n : Nat) (t : α) : Prop where
  goesOn : ∀ k < n, again (step^[k] s)
  result : step^[n] s = t
  ends : ¬ again t

namespace LoopEnds

variable {again : α → Prop} {step : α → α}

theorem stop (h : ¬ again s) : LoopEnds again step s 0 s :=
  ⟨fun _ hk => absurd hk (Nat.not_lt_zero _), rfl, h⟩

theorem next (h : again s) (h' : LoopEnds again step (step s) n t) :
    LoopEnds again step s (n + 1) t := by
  refine ⟨?_, h'.result, h'.ends⟩
  intro k hk
  cases k with
  | zero => exact h
  | succ k => exact h'.goesOn k (Nat.lt_of_succ_lt_succ hk)

theorem head (h : LoopEnds again step s (n + 1) t) : again s := h.goesOn 0 (Nat.succ_pos n)

theorem tail (h : LoopEnds again step s (n + 1) t) : LoopEnds again step (step s) n t :=
  ⟨fun k hk => h.goesOn (k + 1) (Nat.succ_lt_succ hk), h.result, h.ends⟩

/-- A function that goes through a loop ends it, as long as each step leaves less to do. -/
theorem exists_of_decreasing {f : α → α} (size : α → Nat) (hstop : ∀ s, ¬ again s → f s = s)
    (hnext : ∀ s, again s → f s = f (step s)) (hlt : ∀ s, again s → size (step s) < size s)
    (s : α) : ∃ n ≤ size s, LoopEnds again step s n (f s) := by
  induction hs : size s using Nat.strongRecOn generalizing s with
  | ind m ih =>
    by_cases h : again s
    · obtain ⟨n, hn, hl⟩ := ih _ (hs ▸ hlt s h) (step s) rfl
      rw [hnext s h]
      exact ⟨n + 1, hs ▸ Nat.lt_of_le_of_lt hn (hlt s h), hl.next h⟩
    · rw [hstop s h]
      exact ⟨0, Nat.zero_le m, .stop h⟩

end LoopEnds

namespace ParseState

mutual

/-- Reads an expression as long as the clock lasts, which ticks with each call and each operator. -/
def expression? : Nat → Power → ParseState → Option (Expr × ParseState)
  | 0, _, _ => none
  | n + 1, min, p => do
    let operand ← operand? n p
    if operand.1.isMissing then return operand
    operators? n min operand.1 operand.2

def operand? : Nat → ParseState → Option (Expr × ParseState)
  | 0, _ => none
  | n + 1, p =>
    match p.current.kind.opening? with
    | none => some (.missing, p.record (.noOperand p.current))
    | some .atom => some p.readAtom
    | some .operator => do
      let operand ← expression? n .unary p.advance
      return (.unary p.current p.current.literal operand.1, operand.2)
    | some .group => do return closeGroup p.errors.size (← expression? n .lowest p.advance)

def operators? : Nat → Power → Expr → ParseState → Option (Expr × ParseState)
  | 0, _, _, _ => none
  | n + 1, min, left, p =>
    if min < p.peek.kind.power then do
      let right ← expression? n p.peek.kind.power p.advance.advance
      operators? n min (.binary p.peek left p.peek.literal right.1) right.2
    else some (left, p)

end

theorem remaining_readBinary_lt (left : Expr) {min : Power} {p : ParseState}
    (h : min < p.peek.kind.power) :
    (p.advance.readBinary left p.peek.kind.power).2.remaining < p.remaining :=
  Nat.lt_of_le_of_lt (remaining_readExpr_le _ _)
    (remaining_advance_advance_lt (Kind.ne_eof_of_lt_power h))

variable {S : TokenStream} {p : ParseState}

theorem round_later (hp : p.tokens = S.drop a) (hk : p.current.kind ≠ .eof) :
    ∃ b ≤ S.ahead.length, a < b ∧ p.nextRound.tokens = S.drop b := by
  obtain ⟨b, ds, hr⟩ := exists_round hp
  have ha : a < S.ahead.length := TokenStream.lt_of_kind_ne_eof (current_eq hp ▸ hk)
  refine ⟨min b S.ahead.length, Nat.min_le_right _ _, Nat.lt_min.mpr ⟨hr.lt, ha⟩, ?_⟩
  rw [hr.moves.tokens, TokenStream.drop_min]

/-- The clock lasts if it ticks twice for each token that is left, and twice more. -/
theorem clock_lasts (n : Nat) :
    (∀ min p, 2 * p.remaining + 2 ≤ n → expression? n min p = some (p.readExpr min)) ∧
    (∀ p, 2 * p.remaining + 1 ≤ n → operand? n p = some p.readOperand) ∧
    ∀ min left p, 2 * p.remaining + 1 ≤ n →
      operators? n min left p = some (p.readOperators min left) := by
  -- By induction on the clock: only an expression calls for its parts with no token read between.
  induction n with
  | zero => exact ⟨nofun, nofun, nofun⟩
  | succ n ih =>
    obtain ⟨hE, hO, hL⟩ := ih
    refine ⟨?expression, ?operand, ?operators⟩
    case expression =>
      intro min p hn
      have hle := p.remaining_readOperand_le
      rw [expression?, readExpr_eq, hO p (by omega)]
      cases he : p.readOperand.1.isMissing with
      | true => simp [he]
      | false => simpa [he] using hL min p.readOperand.1 p.readOperand.2 (by omega)
    case operand =>
      intro p hn
      cases ho : p.current.kind.opening? with
      | none => rw [operand?, ho, readOperand_refused ho]
      | some opening =>
        have hlt := remaining_advance_lt (Kind.ne_eof_of_opening? ho)
        have hE (m : Power) := hE m p.advance (by omega)
        rw [operand?, ho, readOperand_opening ho]
        cases opening with
        | atom => rfl
        | operator =>
          dsimp only
          rw [hE]
          rfl
        | group =>
          dsimp only
          rw [hE]
          rfl
    case operators =>
      intro min left p hn
      by_cases hlt : min < p.peek.kind.power
      · have hr := remaining_advance_advance_lt (Kind.ne_eof_of_lt_power hlt)
        have hb := remaining_readBinary_lt left hlt
        have hL := hL min (p.advance.readBinary left p.peek.kind.power).1
          (p.advance.readBinary left p.peek.kind.power).2 (by omega)
        rw [operators?, readOperators_eq, if_pos hlt, if_pos hlt, hE _ _ (by omega)]
        rw [readBinary, current_advance] at hL ⊢
        exact hL
      · rw [operators?, readOperators_eq, if_neg hlt, if_neg hlt]

theorem loopEnds_synchronize (p : ParseState) :
    ∃ n ≤ p.remaining, LoopEnds (fun q : ParseState => q.current.kind ∉ [Kind.semicolon, .eof] ∧
      q.peek.kind ∉ [Kind.letWord, .returnWord]) advance p n p.synchronize := by
  apply LoopEnds.exists_of_decreasing remaining
  · intro q hq
    rw [synchronize, if_pos]
    simp only [Bool.or_eq_true, Token.isOneOf_iff]
    rwa [not_and_or, not_not, not_not] at hq
  · intro q hq
    rw [synchronize, if_neg]
    simp only [Bool.or_eq_true, Token.isOneOf_iff]
    rwa [not_or]
  · intro q hq
    apply remaining_advance_lt
    intro hk
    rw [hk] at hq
    exact hq.1 (by decide)

theorem loopEnds_readOperators (min : Power) (left : Expr) (p : ParseState) :
    ∃ n ≤ p.remaining, LoopEnds (fun r : Expr × ParseState => min < r.2.peek.kind.power)
      (fun r => r.2.advance.readBinary r.1 r.2.peek.kind.power) (left, p) n
      (p.readOperators min left) := by
  refine LoopEnds.exists_of_decreasing (f := fun r => r.2.readOperators min r.1)
    (fun r => r.2.remaining) ?_ ?_ ?_ (left, p)
  · intro r hr
    rw [readOperators_eq, if_neg hr]
  · intro r hr
    rw [readOperators_eq, if_pos hr]
  · intro r hr
    exact remaining_readBinary_lt r.1 hr

theorem loopEnds_readStatements (p : ParseState) :
    ∃ n ≤ p.remaining,
      LoopEnds (fun q : ParseState => q.current.kind ≠ .eof) nextRound p n p.readStatements.2 := by
  refine LoopEnds.exists_of_decreasing (f := fun q => q.readStatements.2) remaining ?_ ?_ ?_ p
  · intro q hq
    rw [readStatements_of_eof (not_not.mp hq)]
  · intro q hq
    rw [readStatements_eq_round hq]
  · intro q hq
    obtain ⟨b, hb, hlt, ht⟩ := round_later (S := q.tokens) (a := 0) rfl hq
    rw [remaining, ht, TokenStream.ahead_drop, List.length_drop]
    exact Nat.sub_lt (remaining_pos hq) hlt

theorem exists_place (hp : p.tokens = S.drop a) (n : Nat) :
    ∃ b ≤ S.ahead.length, (nextRound^[n] p).tokens = S.drop b := by
  induction n generalizing p a with
  | zero => exact ⟨min a S.ahead.length, Nat.min_le_right _ _, hp.trans (S.drop_min a).symm⟩
  | succ n ih =>
    obtain ⟨b, ds, hr⟩ := exists_round hp
    exact ih hr.moves.tokens

/-- Each round keeps a statement or records the failure of one. -/
theorem counts_rounds (h : LoopEnds (fun q : ParseState => q.current.kind ≠ .eof) nextRound p n q)
    (hp : p.tokens = S.drop a) : ∃ ds, q.errors.toList = p.errors.toList ++ ds ∧
      p.readStatements.1.length + ds.countP Diagnostic.isFailure = n := by
  induction n generalizing p a with
  | zero =>
    obtain rfl : p = q := h.result
    rw [readStatements_of_eof (not_not.mp h.ends)]
    exact ⟨[], (List.append_nil _).symm, rfl⟩
  | succ n ih =>
    obtain ⟨b, ds, hr⟩ := exists_round hp
    obtain ⟨ds', hd, hn⟩ := ih h.tail hr.moves.tokens
    have hc := hr.counts
    refine ⟨ds ++ ds', ?_, ?_⟩
    · rw [hd, hr.moves.errors, List.append_assoc]
    · rw [readStatements_eq_round h.head, List.length_append, List.countP_append]
      omega

end ParseState

open ParseState

theorem TokenStream.countP_toList {S : TokenStream} (hS : S.Closed) :
    S.toList.countP (fun t => t.kind ≠ .eof) = S.ahead.length := by
  rw [toList, List.countP_append, List.countP_eq_length.mpr fun t ht => decide_eq_true (hS t ht)]
  rfl

/-- Parsing ends. Skipping, the operators after an expression and the statements of a text are loops
that end, the nested calls for an expression come to their end by a clock that the number of tokens
sets, and each round over the statements starts at a later token than the one before it. So there
are no more statements and failures than tokens. -/
theorem parsing_ends :
    (∀ p : ParseState, ∃ n ≤ p.remaining,
      LoopEnds (fun q : ParseState => q.current.kind ∉ [Kind.semicolon, .eof] ∧
        q.peek.kind ∉ [Kind.letWord, .returnWord]) advance p n p.synchronize) ∧
    (∀ (p : ParseState) (min : Power) (left : Expr), ∃ n ≤ p.remaining,
      LoopEnds (fun r : Expr × ParseState => min < r.2.peek.kind.power)
        (fun r => r.2.advance.readBinary r.1 r.2.peek.kind.power) (left, p) n
        (p.readOperators min left)) ∧
    (∀ (p : ParseState) (min : Power) (n : Nat), 2 * p.remaining + 2 ≤ n →
      expression? n min p = some (p.readExpr min)) ∧
    ∀ (source : String) (file : Option String), ∃ n,
      LoopEnds (fun q : ParseState => q.current.kind ≠ .eof) nextRound
        (start (tokenize source file)) n (start (tokenize source file)).readStatements.2 ∧
      (∀ k < n, ∃ i j, i < j ∧ j ≤ (tokenize source file).ahead.length ∧
        (nextRound^[k] (start (tokenize source file))).tokens = (tokenize source file).drop i ∧
        (nextRound^[k + 1] (start (tokenize source file))).tokens = (tokenize source file).drop j) ∧
      (parse source file).1.statements.length +
        (parse source file).2.errors.countP Diagnostic.isFailure = n ∧
      n ≤ (tokenize source file).toList.countP (fun t => t.kind ≠ .eof) ∧
      (parse source file).2.current = (tokenize source file).last := by
  refine ⟨loopEnds_synchronize, fun p min left => loopEnds_readOperators min left p,
    fun p min n h => (clock_lasts n).1 min p h, ?_⟩
  intro source file
  have hp : (start (tokenize source file)).tokens = (tokenize source file).drop 0 := rfl
  have hS : (tokenize source file).Closed := Cursor.closed_tokens _
  obtain ⟨n, hn, hl⟩ := loopEnds_readStatements (start (tokenize source file))
  refine ⟨n, hl, ?_, ?_, ?_, ?_⟩
  · intro k hk
    obtain ⟨i, -, hi⟩ := exists_place hp k
    obtain ⟨j, hj, hij, ht⟩ := round_later hi (hl.goesOn k hk)
    refine ⟨i, j, hij, hj, hi, ?_⟩
    rw [Function.iterate_succ_apply', ht]
  · obtain ⟨ds, hd, hc⟩ := counts_rounds hl hp
    rw [← Array.countP_toList, show (parse source file).2.errors.toList = ds from hd]
    exact hc
  · rw [TokenStream.countP_toList hS]
    exact hn
  · obtain ⟨i, -, hi⟩ := exists_place hp n
    rw [hl.result] at hi
    have hk := not_not.mp hl.ends
    rw [current_eq hi, hS.kind_eq_eof_iff] at hk
    rw [show (parse source file).2.current = _ from current_eq hi, ← TokenStream.get_min,
      Nat.min_eq_right hk, TokenStream.get_length]

end ExprLang
