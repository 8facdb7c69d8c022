import ExprLang.Proofs.Layout
import ExprLang.Proofs.Segmentation
import ExprLang.Proofs.Steps

namespace ExprLang

/-- How many tokens beyond the one to blame are in view when a problem is found. -/
def Problem.lookahead : Problem → Nat
  | unexpectedToken .. => 0
  | noOperand _ | integerTooLarge _ => 1
  | statementFailed _ cause => cause.lookahead

namespace Event

/-- The events of one level, in their order. -/
def atLevel (level : Level) (es : List Event) : List Event := es.filter fun e => e.level = level

theorem atLevel_append (level : Level) (es es' : List Event) :
    atLevel level (es ++ es') = atLevel level es ++ atLevel level es' :=
  List.filter_append es es'

/-- Before each problem that is recorded, the tokens up to the one to blame have come into view, and
as many more as the problem looks ahead. -/
def Timely (S : TokenStream) (es : List Event) : Prop :=
  ∀ n d, es[n]? = some (.recorded d) → ∃ (f : Fault) (b : Nat), d = f.on (S.get b) ∧
    atLevel .trace (es.take n) = (S.ahead.take (b + 1 + d.problem.lookahead)).map .lexed

namespace Timely

variable {S : TokenStream} {es : List Event}

theorem of_lexed (S : TokenStream) (ts : List Token) : Timely S (ts.map lexed) := by
  intro n d hn
  rw [List.getElem?_map] at hn
  cases h : ts[n]? with
  | none =>
    rw [h] at hn
    cases hn
  | some t =>
    rw [h] at hn
    cases hn

theorem concat (h : Timely S es) (he : ∀ d, e = .recorded d → ∃ (f : Fault) (b : Nat),
      d = f.on (S.get b) ∧
        atLevel .trace es = (S.ahead.take (b + 1 + d.problem.lookahead)).map .lexed) :
    Timely S (es ++ [e]) := by
  intro n d hn
  rcases Nat.lt_trichotomy n es.length with hlt | rfl | hlt
  · rw [List.getElem?_append_left hlt] at hn
    rw [List.take_append_of_le_length (Nat.le_of_lt hlt)]
    exact h n d hn
  · rw [List.getElem?_concat_length] at hn
    rw [List.take_left]
    exact he d (Option.some.inj hn)
  · rw [List.getElem?_eq_none (by simpa using hlt)] at hn
    cases hn

end Timely

end Event

namespace ParseState

open Event

/-- The state stands at the token `i` of `S`, and the journal has the tokens in view and those
before them. -/
structure InView (S : TokenStream) (i : Nat) (p : ParseState) : Prop where
  tokens : p.tokens = S.drop i
  lexed : atLevel .trace p.journal.toList = (S.ahead.take (i + 2)).map .lexed

/-- All problems on record are in the journal, each at its time. -/
structure Logged (S : TokenStream) (i : Nat) (p : ParseState) : Prop extends InView S i p where
  recorded : atLevel .debug p.journal.toList = p.errors.toList.map .recorded
  timely : Timely S p.journal.toList

variable {S : TokenStream} {p q : ParseState}

theorem journal_advance (h : p.tokens = S.drop i) :
    p.advance.journal.toList = p.journal.toList ++ (S.ahead[i + 2]?.map lexed).toList := by
  simp [advance, h]

theorem journal_record (p : ParseState) (d : Diagnostic) :
    (p.record d).journal.toList = p.journal.toList ++ [.recorded d] :=
  Array.toList_push

theorem atLevel_start (ts : List Token) :
    atLevel .trace (ts.map lexed) = ts.map lexed ∧ atLevel .debug (ts.map lexed) = [] := by
  constructor
  · apply List.filter_eq_self.mpr
    intro e he
    obtain ⟨t, -, rfl⟩ := List.mem_map.mp he
    rfl
  · apply List.filter_eq_nil_iff.mpr
    intro e he
    obtain ⟨t, -, rfl⟩ := List.mem_map.mp he
    nofun

namespace InView

theorem start (S : TokenStream) : InView S 0 (.start S) := by
  refine ⟨rfl, ?_⟩
  exact (atLevel_start (S.ahead.take 2)).1

theorem advance (h : InView S i p) : InView S (i + 1) p.advance := by
  constructor
  · rw [tokens_advance, h.tokens, TokenStream.drop_drop]
  · have ht : S.ahead.take (i + 1 + 2) = S.ahead.take (i + 2) ++ S.ahead[i + 2]?.toList :=
      List.take_add_one
    rw [journal_advance h.tokens, atLevel_append, h.lexed, ht, List.map_append]
    cases S.ahead[i + 2]? <;> rfl

theorem record (h : InView S i p) (d : Diagnostic) : InView S i (p.record d) := by
  refine ⟨h.tokens, ?_⟩
  rw [journal_record, atLevel_append, h.lexed]
  exact List.append_nil _

end InView

namespace Logged

theorem start (S : TokenStream) : Logged S 0 (.start S) := by
  refine ⟨.start S, (atLevel_start (S.ahead.take 2)).2, ?_⟩
  exact .of_lexed S (S.ahead.take 2)

theorem advance (h : Logged S i p) : Logged S (i + 1) p.advance := by
  refine ⟨h.toInView.advance, ?_, ?_⟩
  · rw [journal_advance h.tokens, atLevel_append, h.recorded]
    cases S.ahead[i + 2]? <;> exact List.append_nil _
  · rw [journal_advance h.tokens]
    cases S.ahead[i + 2]? with
    | none =>
      rw [Option.map_none, Option.toList_none, List.append_nil]
      exact h.timely
    | some t => exact h.timely.concat nofun

theorem record (h : Logged S i p) (hd : Finds p d) : Logged S i (p.record d) := by
  refine ⟨h.toInView.record d, ?_, ?_⟩
  · rw [journal_record, atLevel_append, h.recorded, errors_record, Array.toList_push,
      List.map_append]
    rfl
  · rw [journal_record]
    apply h.timely.concat
    rintro _ ⟨rfl⟩
    rw [h.lexed]
    cases hd with
    | noOperand => exact ⟨.noOperand, i, by rw [current_eq h.tokens]; rfl, rfl⟩
    | integerTooLarge => exact ⟨.integerTooLarge, i, by rw [current_eq h.tokens]; rfl, rfl⟩
    | unexpected kind => exact ⟨.unexpected kind, i + 1, by rw [peek_eq h.tokens]; rfl, rfl⟩
    | failed form kind =>
      exact ⟨.failed form (.unexpected kind), i + 1, by rw [peek_eq h.tokens]; rfl, rfl⟩

end Logged

end ParseState

/-- Where all offsets are on record, no other token can be the one that a problem blames. -/
theorem Event.Timely.blamesOnly (h : Timely (tokenize source file) es)
    (hsize : Text.size source.toList ≤ Position.maxOffset) (hn : es[n]? = some (.recorded d)) :
    ∃ b, d.BlamesOnly (tokenize source file) b ∧ atLevel .trace (es.take n) =
      ((tokenize source file).ahead.take (b + 1 + d.problem.lookahead)).map .lexed := by
  obtain ⟨f, b, hd, hl⟩ := h n d hn
  -- Past the last token all places are that of the closing one.
  refine ⟨min b (tokenize source file).ahead.length, ?_, ?_⟩
  · rw [hd, ← TokenStream.get_min]
    exact f.blamesOnly hsize (Nat.min_le_right _ _)
  · rw [hl]
    rcases Nat.le_total b (tokenize source file).ahead.length with hb | hb
    · rw [Nat.min_eq_left hb]
    · rw [Nat.min_eq_right hb, List.take_of_length_le (by omega), List.take_of_length_le (by omega)]

end ExprLang
