import ExprLang.Proofs.Mirror
import ExprLang.Token.Order
import ExprLang.Token.Spelling
import Mathlib

namespace ExprLang

theorem Token.eraseSpan_eq_of_mark {t u : Token} (h : t.mark = u.mark) :
    t.eraseSpan = u.eraseSpan := by
  have hk : t.kind = u.kind := congrArg Mark.kind h
  have hl : t.literal = u.literal := congrArg Mark.literal h
  rw [eraseSpan, hk, hl]
  rfl

namespace TokenStream

theorem mark_get (s : TokenStream) (i : Nat) :
    (s.get i).mark = (s.ahead.map Token.mark).getD i ⟨.eof, ""⟩ := by
  rw [get, List.getD_eq_getElem?_getD, List.getD_eq_getElem?_getD, List.getElem?_map]
  cases s.ahead[i]? <;> rfl

/-- A token of `S` at the place of `S'` that has its number. -/
def relocate (S S' : TokenStream) (t : Token) : Token :=
  { t with span := (S'.get (S.ahead.idxOf t)).span }

theorem faithful_relocate (S S' : TokenStream) : Token.Faithful (relocate S S') :=
  ⟨fun _ => rfl, fun _ => rfl⟩

theorem eraseSpan_relocate (S S' : TokenStream) :
    Token.eraseSpan ∘ relocate S S' = Token.eraseSpan := rfl

/-- The streams `S` and `S'` have the same tokens but for their places. -/
def SameMarks (S S' : TokenStream) : Prop := S.toList.map Token.mark = S'.toList.map Token.mark

namespace SameMarks

variable {S S' : TokenStream}

theorem ahead (h : SameMarks S S') : S.ahead.map Token.mark = S'.ahead.map Token.mark := by
  rw [SameMarks, toList, toList, List.map_append, List.map_append] at h
  exact List.append_cancel_right h

theorem length_eq (h : SameMarks S S') : S.ahead.length = S'.ahead.length := by
  rw [← List.length_map (f := Token.mark), h.ahead, List.length_map]

theorem mark_get_eq (h : SameMarks S S') (i : Nat) : (S.get i).mark = (S'.get i).mark := by
  rw [mark_get, mark_get, h.ahead]

theorem continues (h : SameMarks S S') (hS : S.Closed) (hn : S.ahead.Nodup) :
    Continues (relocate S S') 0 S S' := by
  refine ⟨faithful_relocate S S', ?_⟩
  intro i
  have hk : (S.get i).kind = (S'.get i).kind := congrArg Mark.kind (h.mark_get_eq i)
  have hl : (S.get i).literal = (S'.get i).literal := congrArg Mark.literal (h.mark_get_eq i)
  rw [Nat.zero_add, relocate, hS.idxOf_get hn, h.length_eq, get_min, hk, hl]

end SameMarks

end TokenStream

/-- Of the tokens of `S` the diagnostic blames the one at the place `i`, and no other. -/
def Diagnostic.BlamesOnly (S : TokenStream) (i : Nat) (d : Diagnostic) : Prop :=
  i ≤ S.ahead.length ∧ ∀ j ≤ S.ahead.length, d.Blames (S.get j) ↔ j = i

theorem Fault.blamesOnly (f : Fault) (h : Text.size source.toList ≤ Position.maxOffset)
    (hi : i ≤ (tokenize source file).ahead.length) :
    (f.on ((tokenize source file).get i)).BlamesOnly (tokenize source file) i := by
  refine ⟨hi, ?_⟩
  intro j hj
  constructor
  · rintro ⟨g, hg⟩
    have hp := congrArg Diagnostic.position hg
    rw [position_on, position_on] at hp
    exact (eq_of_start_eq h hi hj hp).symm
  · rintro rfl
    exact ⟨f, rfl⟩

/-- Two diagnostics are the same but for the places in their texts, and blame the same of the tokens
of either. -/
def Diagnostic.Alike (S S' : TokenStream) (d d' : Diagnostic) : Prop :=
  d.eraseSpans = d'.eraseSpans ∧ ∃ i, d.BlamesOnly S i ∧ d'.BlamesOnly S' i

theorem Fault.alike (f : Fault)
    (hm : (tokenize source file).SameMarks (tokenize source' file'))
    (h : Text.size source.toList ≤ Position.maxOffset)
    (h' : Text.size source'.toList ≤ Position.maxOffset) (i : Nat) :
    (f.on ((tokenize source file).get i)).Alike (tokenize source file) (tokenize source' file')
      (f.on ((tokenize source' file').get i)) := by
  constructor
  · rw [eraseSpans_on, eraseSpans_on, Token.eraseSpan_eq_of_mark (hm.mark_get_eq i)]
  · rw [← TokenStream.get_min, ← TokenStream.get_min (tokenize source' file'), ← hm.length_eq]
    exact ⟨_, f.blamesOnly h (Nat.min_le_right _ _),
      f.blamesOnly h' (hm.length_eq ▸ Nat.min_le_right _ _)⟩

/-- Layout and label do not matter. Two texts with the same tokens but for their places have the
same program and the same problems but for them. -/
theorem parse_of_sameMarks (hm : (tokenize source file).SameMarks (tokenize source' file'))
    (h : Text.size source.toList ≤ Position.maxOffset)
    (h' : Text.size source'.toList ≤ Position.maxOffset) :
    ((parse source file).1.mapTokens Token.eraseSpan =
        (parse source' file').1.mapTokens Token.eraseSpan ∧
      (parse source file).1.render = (parse source' file').1.render) ∧
    List.Forall₂ (Diagnostic.Alike (tokenize source file) (tokenize source' file'))
      (parse source file).2.errors.toList (parse source' file').2.errors.toList := by
  have hc := hm.continues (Cursor.closed_tokens _) (nodup_tokenize h)
  obtain ⟨turns, ht⟩ := exists_runs (tokenize source file) 0
  obtain ⟨turns', ht', hs, cs, hd, hd'⟩ := ht.mirror hc
  have hp : (parse source' file').1 = (parse source file).1.mapTokens
      ((tokenize source file).relocate (tokenize source' file')) := by
    rw [Program.mapTokens, (parse_of_runs ht).1, ← hs, ← (parse_of_runs ht').1]
  refine ⟨⟨?_, ?_⟩, ?_⟩
  · rw [hp, Program.mapTokens_mapTokens, TokenStream.eraseSpan_relocate]
  · rw [hp, Program.render_mapTokens hc.faithful.literal]
  · rw [(parse_of_runs ht).2, (parse_of_runs ht').2, hd, hd', List.forall₂_map_left_iff,
      List.forall₂_map_right_iff, List.forall₂_same]
    intro c _
    rw [Nat.zero_add]
    exact c.fault.alike hm h h' c.place

theorem missing_operand_spread_out :
    (tokenize "1+;" none).SameMarks (tokenize " 1\n+ ;" (some "spread")) ∧
      ((parse "1+;" none).1.mapTokens Token.eraseSpan =
          (parse " 1\n+ ;" (some "spread")).1.mapTokens Token.eraseSpan ∧
        (parse "1+;" none).1.render = (parse " 1\n+ ;" (some "spread")).1.render) ∧
      List.Forall₂ (Diagnostic.Alike (tokenize "1+;" none) (tokenize " 1\n+ ;" (some "spread")))
        (parse "1+;" none).2.errors.toList (parse " 1\n+ ;" (some "spread")).2.errors.toList := by
  have hm : (tokenize "1+;" none).SameMarks (tokenize " 1\n+ ;" (some "spread")) := by
    rw [TokenStream.SameMarks]
    cbv
  exact ⟨hm, parse_of_sameMarks hm (by decide) (by decide)⟩

end ExprLang
