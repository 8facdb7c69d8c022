import ExprLang.Diagnostic.Report
import ExprLang.Proofs.Lines
import ExprLang.Proofs.Segmentation
import ExprLang.Proofs.Truth

namespace ExprLang

namespace Text

theorem length_le_size (text : List Char) : text.length ≤ size text := by
  induction text with
  | nil => exact Nat.le_refl _
  | cons c text ih =>
    rw [size_cons, List.length_cons, Nat.add_comm]
    exact Nat.add_le_add c.utf8Size_pos ih

theorem size_eq_length_iff {text : List Char} :
    size text = text.length ↔ ∀ c ∈ text, c.utf8Size = 1 := by
  induction text with
  | nil => simp
  | cons c text ih =>
    rw [List.forall_mem_cons, ← ih, size_cons, List.length_cons]
    have hc := c.utf8Size_pos
    have hl := length_le_size text
    omega

theorem isWhitespace_of_isIndent {c : Char} (h : isIndent c = true) : c.isWhitespace = true := by
  simp only [isIndent, Bool.or_eq_true, beq_iff_eq] at h
  rcases h with rfl | rfl <;> rfl

/-- What opens no indentation ends that of the text before it. -/
theorem indentation_append {x : List Char} (hx : ∀ c ∈ x.head?, isIndent c = false)
    (w : List Char) :
    indentation (w ++ x) = indentation w ∧ dropIndentation (w ++ x) = dropIndentation w ++ x := by
  induction w with
  | nil =>
    cases x with
    | nil => exact ⟨rfl, rfl⟩
    | cons c x =>
      have hc : ¬ isIndent c = true := Bool.eq_false_iff.mp (hx c rfl)
      exact ⟨List.takeWhile_cons_of_neg hc, List.dropWhile_cons_of_neg hc⟩
  | cons c w ih =>
    simp only [indentation, dropIndentation, List.cons_append] at ih ⊢
    by_cases hc : isIndent c = true
    · rw [List.takeWhile_cons_of_pos hc, List.takeWhile_cons_of_pos hc,
        List.dropWhile_cons_of_pos hc, List.dropWhile_cons_of_pos hc, ih.1, ih.2]
      exact ⟨rfl, rfl⟩
    · rw [List.takeWhile_cons_of_neg hc, List.takeWhile_cons_of_neg hc,
        List.dropWhile_cons_of_neg hc, List.dropWhile_cons_of_neg hc]
      exact ⟨rfl, rfl⟩

end Text

/-- A token stands on the line `w ++ x` of a text, in front of the characters `x`. -/
structure Token.StandsOn (source : String) (before : List (List Char)) (w x : List Char)
    (after : List (List Char)) (t : Token) : Prop where
  lined : Text.Lined source.toList (before ++ (w ++ x) :: after)
  inner : '\n' ∉ w
  fits : t.kind.Fits t.literal.toList
  literal : t.literal.toList <+: x ++ after.flatten
  closing : t.kind = .eof → x = [] ∧ after = []
  start : t.span.start =
    .ofOffset (Text.size before.flatten + Text.size w) t.span.start.file

theorem TokenStream.getElem?_toList {s : TokenStream} (hi : i ≤ s.ahead.length) :
    s.toList[i]? = some (s.get i) := by
  rcases Nat.lt_or_eq_of_le hi with hi | rfl
  · rw [toList, List.getElem?_append_left hi, List.getElem?_eq_getElem hi, get_of_lt hi]
  · rw [toList, List.getElem?_append_right (Nat.le_refl _), Nat.sub_self, get_length]
    rfl

/-- Each token is found in its text behind as many bytes as its span says. -/
theorem exists_place {source : String} {file : Option String}
    (hi : i ≤ (tokenize source file).ahead.length) :
    ∃ front back, source.toList = front ++ back ∧
      ((tokenize source file).get i).kind.Fits ((tokenize source file).get i).literal.toList ∧
      ((tokenize source file).get i).literal.toList <+: back ∧
      (((tokenize source file).get i).kind = .eof → back = []) ∧
      ((tokenize source file).get i).span.start =
        .ofOffset (Text.size front) (file.getD Position.defaultFile) := by
  obtain ⟨ps, hs, ht⟩ := Segments.of_tokens (Cursor.start source file)
  have hget := TokenStream.getElem?_toList hi
  rw [tokenize, ← ht, List.getElem?_map, Option.map_eq_some_iff] at hget
  obtain ⟨p, hp, hget⟩ := hget
  obtain ⟨hlt, rfl⟩ := List.getElem?_eq_some_iff.mp hp
  have hps : ps = ps.take i ++ ps[i] :: ps.drop (i + 1) := by
    rw [List.getElem_cons_drop, List.take_append_drop]
  have htext : source.toList = (ps.take i).flatMap Piece.chars ++ ps[i].gap ++
      (ps[i].token.literal.toList ++ (ps.drop (i + 1)).flatMap Piece.chars) := by
    have hl := hs.lossless
    rw [hps, List.flatMap_append, List.flatMap_cons] at hl
    rw [List.append_assoc, ← List.append_assoc ps[i].gap]
    exact hl.symm
  have hstart := congrArg Span.start (hs.placed _ _ _ hps)
  have hfits := hs.fits _ (List.getElem_mem hlt)
  rw [tokenize, ← hget]
  refine ⟨_, _, htext, hfits, List.prefix_append _ _, ?_, ?_⟩
  · intro hk
    have hlen := congrArg List.length ht
    have hlast := (Cursor.start source file).closed_tokens.kind_eq_eof_iff.mp (hget ▸ hk)
    rw [hk, Kind.fits_eof_iff] at hfits
    rw [List.length_map, TokenStream.toList, List.length_append, List.length_singleton] at hlen
    rw [hfits, List.drop_eq_nil_of_le (by omega)]
    rfl
  · rw [hstart, Text.size_append]
    exact congrArg (fun n => Position.ofOffset (n + _) _) (Nat.zero_add _)

theorem exists_standsOn {source : String} {file : Option String}
    (hi : i ≤ (tokenize source file).ahead.length) :
    ∃ before w x after, ((tokenize source file).get i).StandsOn source before w x after := by
  obtain ⟨front, back, hs, hf', hl, hk, hp⟩ := exists_place hi
  obtain ⟨fronts, hf⟩ := Text.exists_lined front
  obtain ⟨backs, hb⟩ := Text.exists_lined back
  obtain ⟨before, w, rfl⟩ := List.eq_nil_or_concat' fronts |>.resolve_left hf.ne_nil
  obtain ⟨x, after, rfl⟩ := List.exists_cons_of_ne_nil hb.ne_nil
  refine ⟨before, w, x, after, hs ▸ hf.append hb, ?_, hf', ?_, ?_, ?_⟩
  · rcases hf.split.2 with ⟨-, h⟩ | ⟨h, -⟩
    · exact h
    · exact absurd rfl h
  · rw [← List.flatten_cons, hb.flatten]
    exact hl
  · intro he
    rw [hk he] at hb
    exact List.cons.inj (hb.unique (.last List.not_mem_nil)).symm
  · rw [hp, ← Text.size_append, ← List.flatten_concat, hf.flatten]
    rfl

namespace Token.StandsOn

variable {source : String} {t : Token}

/-- What the token leaves of its line opens no indentation. -/
theorem isIndent_head (h : t.StandsOn source before w x after) :
    ∀ c ∈ x.head?, Text.isIndent c = false := by
  intro c hc
  obtain ⟨x, rfl⟩ := List.head?_eq_some_iff.mp hc
  have hk : t.kind ≠ .eof := fun hk => List.cons_ne_nil _ _ (h.closing hk).1
  have hs := h.fits.spelled hk
  obtain ⟨d, v, hd⟩ := hs.exists_cons
  have hl := h.literal
  rw [hd] at hs hl
  obtain rfl := (List.cons_prefix_cons.mp hl).1
  rw [Bool.eq_false_iff]
  intro hi
  have hw := hs.not_isWhitespace
  rw [Text.isWhitespace_of_isIndent hi] at hw
  cases hw

/-- The line of the token's place is its own line, and its column the bytes before it there. -/
theorem at?_eq (h : t.StandsOn source before w x after) :
    Line.at? source (Text.size before.flatten + Text.size w) =
      some ⟨before.length + 1, String.ofList (w ++ x), Text.size w⟩ := by
  apply (Line.at?_eq_some_iff h.lined).mpr
  apply Line.IsAt.of_lined h.lined
  cases x with
  | nil =>
    rw [List.append_nil]
    rcases h.lined.split.2 with ⟨ha, -⟩ | ⟨-, body, hb, -⟩
    · exact .inr ⟨ha, rfl⟩
    · refine absurd ?_ h.inner
      rw [List.append_nil] at hb
      rw [hb]
      exact List.mem_append_right _ List.mem_cons_self
  | cons c x =>
    have hc := c.utf8Size_pos
    rw [Text.size_append, Text.size_cons]
    exact .inl (by omega)

end Token.StandsOn

namespace Line

/-- What stands before the caret on its line. -/
def lead (l : Line) : String :=
  l.margin ++ " " ++ String.ofList (List.replicate l.caretColumn '-')

theorem length_lead (l : Line) : l.lead.length = l.label.length + 3 + l.caretColumn := by
  simp only [lead, margin, String.length_append, String.length_ofList, List.length_replicate]
  rfl

/-- What comes before a column of a shown line has as many columns as characters. -/
theorem length_columns (l : Line) (w : List Char) :
    (l.label ++ " | " ++ String.ofList w).length = l.label.length + 3 + w.length := by
  simp only [String.length_append, String.length_ofList]
  rfl

/-- The caret of a column is as many columns behind it as there are more bytes than characters. -/
theorem length_lead_eq {l : Line} (ht : l.text = String.ofList (w ++ x))
    (hc : l.column = Text.size w) (hx : ∀ c ∈ x.head?, Text.isIndent c = false) :
    l.lead.length = (l.label ++ " | " ++ String.ofList (Text.dropIndentation w)).length +
      (Text.size w - w.length) := by
  have hw := Text.indentation_append_dropIndentation w
  have hsize := congrArg Text.size hw
  have hlen := congrArg List.length hw
  have hblank : Text.size (Text.indentation w) = (Text.indentation w).length :=
    Text.size_eq_length_iff.mpr fun c hc =>
      have hi := List.all_eq_true.mp List.all_takeWhile c hc
      Text.utf8Size_of_isWhitespace (Text.isWhitespace_of_isIndent hi)
  have hle := Text.length_le_size w
  have hcut := Text.length_le_size (Text.dropIndentation w)
  rw [Text.size_append] at hsize
  rw [List.length_append] at hlen
  rw [length_lead, length_columns, caretColumn, ht, hc, String.toList_ofList,
    (Text.indentation_append hx w).1]
  omega

end Line

/-- A diagnostic is shown with the line `l`, which is `w ++ x`, and points at the place behind `w`.
The caret is as many columns behind the place as `w` has more bytes than characters. -/
structure Diagnostic.Shows (source : String) (w x : List Char) (l : Line) (d : Diagnostic) :
    Prop where
  report : d.report source = "\n".intercalate
    [d.headline, "-> " ++ d.position.file, l.margin, l.label ++ " | " ++ l.shown, l.lead ++ "^"]
  cut : Text.dropIndentation (w ++ x) = Text.dropIndentation w ++ x
  shown : l.shown = String.ofList (Text.trimEnd (Text.dropIndentation w ++ x))
  behind : l.lead.length =
    (l.label ++ " | " ++ String.ofList (Text.dropIndentation w)).length +
      (Text.size w - w.length)
  aligned_iff :
    l.lead.length = (l.label ++ " | " ++ String.ofList (Text.dropIndentation w)).length ↔
      ∀ c ∈ w, c.utf8Size = 1

theorem Token.StandsOn.shows {source : String} {t : Token} {d : Diagnostic}
    (h : t.StandsOn source before w x after) (hd : d.position = t.span.start)
    (hn : Text.size before.flatten + Text.size w ≤ Position.maxOffset) :
    d.Shows source w x ⟨before.length + 1, String.ofList (w ++ x), Text.size w⟩ := by
  have hcut := (Text.indentation_append h.isIndent_head w).2
  have hat := h.at?_eq
  rw [← Position.offset_ofOffset_of_le hn t.span.start.file, ← h.start, ← hd] at hat
  generalize hl : Line.mk (before.length + 1) (String.ofList (w ++ x)) (Text.size w) = l at hat
  have ht : l.text = String.ofList (w ++ x) := by rw [← hl]
  have hbehind := Line.length_lead_eq ht (by rw [← hl]) h.isIndent_head
  constructor
  · rw [Diagnostic.report, Diagnostic.reportLines, hat]
    rfl
  · exact hcut
  · rw [Line.shown, ht, String.toList_ofList, hcut]
  · exact hbehind
  · have hle := Text.length_le_size w
    rw [hbehind, Nat.add_eq_left, ← Text.size_eq_length_iff]
    omega

/-- The caret of a diagnostic stands under the token that it is told of exactly if each character
before the token on its line is one byte long, as long as the token's offset is on record. -/
theorem caret_under_token_iff (source : String) (file : Option String) :
    ∀ d ∈ (parse source file).2.errors.toList, ∃ i ≤ (tokenize source file).ahead.length,
      d.problem.TrueAt (tokenize source file) i ∧
      d.position = ((tokenize source file).get i).span.start ∧
      ∃ before w x after, ((tokenize source file).get i).StandsOn source before w x after ∧
        (Text.size before.flatten + Text.size w ≤ Position.maxOffset →
          d.Shows source w x ⟨before.length + 1, String.ofList (w ++ x), Text.size w⟩) := by
  intro d hd
  obtain ⟨turns, ht⟩ := exists_runs (tokenize source file) 0
  rw [(parse_of_runs ht).2] at hd
  obtain ⟨i, hi, hpos, htrue⟩ := ht.isTrue d hd
  obtain ⟨before, w, x, after, h⟩ := exists_standsOn hi
  exact ⟨i, hi, htrue, hpos, before, w, x, after, h, h.shows hpos⟩

/-- One character before the closing parenthesis is two bytes long, and the caret stands one column
behind the parenthesis. -/
theorem caret_behind_token :
    ∃ d ∈ (parse "é )" none).2.errors.toList,
      d.report "é )" =
        "Error: NoPrefixParser (`)` cannot start an expression)\n-> shell\n  |\n1 | é )\n  | ---^" ∧
      d.Shows "é )" ['é', ' '] [')'] ⟨1, "é )", 3⟩ := by
  have hs : ReadsStmt (tokenize "é )" none) 0 _ _ 0 :=
    .bare (by cbv) (.refused (by cbv)) (.inl rfl) (of_decide_eq_false (by cbv))
  have hs' : ReadsStmt (tokenize "é )" none) 1 _ _ 1 :=
    .bare (by cbv) (.refused (by cbv)) (.inl rfl) (of_decide_eq_false (by cbv))
  have ht := Runs.keep (of_decide_eq_false (by cbv)) hs
    (.keep (of_decide_eq_false (by cbv)) hs' (.stop (by cbv)))
  have hd : .noOperand ((tokenize "é )" none).get 1) ∈ (parse "é )" none).2.errors.toList := by
    rw [(parse_of_runs ht).2]
    exact List.mem_cons_of_mem _ List.mem_cons_self
  obtain ⟨i, -, -, hpos, before, w, x, after, h, hshow⟩ := caret_under_token_iff _ _ _ hd
  have hlined : Text.Lined "é )".toList [['é', ' ', ')']] := .last (by decide)
  obtain ⟨rfl, hline⟩ :=
    (List.append_eq_singleton_iff.mp (hlined.unique h.lined)).resolve_right (by simp)
  obtain ⟨hwx, rfl⟩ := List.cons.inj hline
  have hsize : Text.size w = 3 := by
    have hthree : (Diagnostic.noOperand ((tokenize "é )" none).get 1)).position.offset = 3 := by cbv
    rw [hpos, h.start] at hthree
    change min (0 + Text.size w) 4294967295 = 3 at hthree
    omega
  have hx := Text.dropBytes?_size_append w x
  rw [hsize, hwx] at hx
  obtain rfl : [')'] = x := Option.some.inj hx
  obtain rfl : w = ['é', ' '] := List.append_cancel_right hwx
  exact ⟨_, hd, by cbv, hshow (by decide)⟩

end ExprLang
