import ExprLang.Text.Line
import Mathlib

namespace ExprLang

namespace Text

/-- The bytes of a text in UTF-8. -/
def bytes (text : List Char) : List UInt8 := text.flatMap String.utf8EncodeChar

theorem toList_toUTF8 (s : String) : s.toUTF8.data.toList = bytes s.toList := by
  rw [String.toUTF8, ← String.utf8Encode_toList]
  exact List.toList_data_toByteArray

theorem bytes_append (front back : List Char) : bytes (front ++ back) = bytes front ++ bytes back :=
  List.flatMap_append

theorem length_bytes (text : List Char) : (bytes text).length = size text := by
  induction text with
  | nil => rfl
  | cons c text ih =>
    rw [bytes, List.flatMap_cons, List.length_append, String.length_utf8EncodeChar, size_cons]
    exact congrArg (c.utf8Size + ·) ih

theorem ofNat_ne_newline {n : Nat} (h : 10 < n) (hn : n < 256) : UInt8.ofNat n ≠ 10 := by
  intro he
  have hv := congrArg UInt8.toNat he
  rw [UInt8.toNat_ofNat_of_lt' hn] at hv
  exact absurd hv (Nat.ne_of_gt h)

/-- No byte of another character is that of a newline. -/
theorem newline_not_mem_encode {c : Char} (h : c ≠ '\n') : 10 ∉ String.utf8EncodeChar c := by
  have hc : c.val.toNat ≠ 10 := fun hv => h (Char.ext (UInt32.toNat_inj.mp hv))
  simp only [String.utf8EncodeChar]
  split
  · next hv =>
    intro hm
    have hn := congrArg UInt8.toNat (List.mem_singleton.mp hm)
    rw [UInt8.toNat_ofNat_of_lt' (Nat.lt_of_le_of_lt hv (by decide))] at hn
    exact hc hn.symm
  split
  · simp only [List.mem_cons, List.not_mem_nil, or_false, not_or]
    refine ⟨?_, ?_⟩ <;> exact (ofNat_ne_newline (by omega) (by omega)).symm
  split
  · simp only [List.mem_cons, List.not_mem_nil, or_false, not_or]
    refine ⟨?_, ?_, ?_⟩ <;> exact (ofNat_ne_newline (by omega) (by omega)).symm
  · simp only [List.mem_cons, List.not_mem_nil, or_false, not_or]
    refine ⟨?_, ?_, ?_, ?_⟩ <;> exact (ofNat_ne_newline (by omega) (by omega)).symm

theorem count_bytes (text : List Char) : (bytes text).count 10 = text.count '\n' := by
  induction text with
  | nil => rfl
  | cons c text ih =>
    rw [bytes, List.flatMap_cons, List.count_append, List.count_cons]
    change _ + (bytes text).count 10 = _
    rw [ih, Nat.add_comm]
    by_cases h : c = '\n'
    · subst h
      rfl
    · rw [List.count_eq_zero.mpr (newline_not_mem_encode h), if_neg (by simpa using h)]

/-- A text is cut into its lines: each but the last ends with its only newline, and the last has
none. -/
inductive Lined : List Char → List (List Char) → Prop where
  | last : '\n' ∉ line → Lined line [line]
  | next : '\n' ∉ body → Lined text ls → Lined (body ++ '\n' :: text) ((body ++ ['\n']) :: ls)

theorem exists_lined (text : List Char) : ∃ ls, Lined text ls := by
  induction text with
  | nil => exact ⟨[[]], .last List.not_mem_nil⟩
  | cons c text ih =>
    obtain ⟨ls, h⟩ := ih
    by_cases hc : c = '\n'
    · subst hc
      exact ⟨_, .next List.not_mem_nil h⟩
    · have hm {body : List Char} (hb : '\n' ∉ body) : '\n' ∉ c :: body :=
        List.not_mem_cons_of_ne_of_not_mem (Ne.symm hc) hb
      cases h with
      | last hl => exact ⟨_, .last (hm hl)⟩
      | next hb h => exact ⟨_, .next (hm hb) h⟩

theorem lines_of_not_mem {line : List Char} (h : '\n' ∉ line) :
    lines line = [line].filter (!·.isEmpty) := by
  induction line with
  | nil => rfl
  | cons c line ih =>
    obtain ⟨hc, hl⟩ := List.ne_and_not_mem_of_not_mem_cons h
    rw [lines, if_neg (Ne.symm hc), ih hl]
    cases line <;> rfl

theorem lines_append_newline {body : List Char} (h : '\n' ∉ body) (text : List Char) :
    lines (body ++ '\n' :: text) = (body ++ ['\n']) :: lines text := by
  induction body with
  | nil => rw [List.nil_append, lines, if_pos rfl, List.nil_append]
  | cons c body ih =>
    obtain ⟨hc, hb⟩ := List.ne_and_not_mem_of_not_mem_cons h
    rw [List.cons_append, lines, if_neg (Ne.symm hc), ih hb]
    rfl

namespace Lined

theorem ne_nil (h : Lined text ls) : ls ≠ [] := by
  cases h <;> exact List.cons_ne_nil _ _

theorem flatten (h : Lined text ls) : ls.flatten = text := by
  induction h with
  | last => exact List.flatten_singleton
  | next _ _ ih => rw [List.flatten_cons, ih, List.append_assoc, List.singleton_append]

/-- The line that holds no character stands at the end, and there is one where the text is empty
or ends with a newline. -/
theorem eq_lines (h : Lined text ls) :
    ls = lines text ++ if text.isEmpty || text.getLast? == some '\n' then [[]] else [] := by
  induction h with
  | @last line hl =>
    rw [lines_of_not_mem hl]
    cases line with
    | nil => rfl
    | cons c line =>
      have hn : ((c :: line).getLast? == some '\n') = false :=
        beq_false_of_ne fun he => hl (List.mem_of_getLast? he)
      rw [hn]
      rfl
  | @next body text ls hb _ ih =>
    have hend : ((body ++ '\n' :: text).getLast? == some '\n') =
        (text.isEmpty || text.getLast? == some '\n') := by
      rw [List.getLast?_append, List.getLast?_cons]
      cases text with
      | nil => rfl
      | cons c text =>
        rw [List.getLast?_cons]
        rfl
    have hne : (body ++ '\n' :: text).isEmpty = false := by
      cases body <;> rfl
    rw [lines_append_newline hb, hend, hne, Bool.false_or, List.cons_append, ← ih]

theorem unique (h : Lined text ls) (h' : Lined text ls') : ls' = ls := by
  rw [h.eq_lines, h'.eq_lines]

/-- The lines before one of the lines of a text end with a newline each, and so does this one
unless it is the last. -/
theorem split (h : Lined text (before ++ line :: after)) :
    before.flatten.count '\n' = before.length ∧
      (after = [] ∧ '\n' ∉ line ∨ after ≠ [] ∧ ∃ body, line = body ++ ['\n'] ∧ '\n' ∉ body) := by
  induction before generalizing text with
  | nil =>
    refine ⟨rfl, ?_⟩
    cases h with
    | last hl => exact .inl ⟨rfl, hl⟩
    | next hb h => exact .inr ⟨h.ne_nil, _, rfl, hb⟩
  | cons first before ih =>
    generalize hls : first :: before ++ line :: after = ls at h
    cases h with
    | last => simp at hls
    | next hb h =>
      obtain ⟨rfl, rfl⟩ := List.cons.inj hls
      obtain ⟨hcount, hline⟩ := ih h
      refine ⟨?_, hline⟩
      rw [List.flatten_cons, List.count_append, List.count_append, List.count_eq_zero.mpr hb,
        hcount, List.length_cons, Nat.zero_add, Nat.add_comm]
      rfl

/-- Between the lines of two texts there is one that holds the end of the first text and the start
of the second one. -/
theorem append (h : Lined front (before ++ [w])) (h' : Lined back (x :: after)) :
    Lined (front ++ back) (before ++ (w ++ x) :: after) := by
  generalize hls : before ++ [w] = ls at h
  induction h generalizing before with
  | last hw =>
    obtain ⟨rfl, hw'⟩ := List.append_eq_singleton_iff.mp hls |>.resolve_right (by simp)
    obtain rfl := List.singleton_inj.mp hw'
    cases h' with
    | last hx => exact .last (List.not_mem_append hw hx)
    | next hb h =>
      rw [← List.append_assoc, ← List.append_assoc]
      exact .next (List.not_mem_append hw hb) h
  | next hb h ih =>
    cases before with
    | nil => exact absurd (List.cons.inj hls).2.symm h.ne_nil
    | cons first before =>
      obtain ⟨rfl, rfl⟩ := List.cons.inj hls
      rw [List.append_assoc]
      exact .next hb (ih rfl)

/-- No newline of a line stands before a byte of the line, or before its end if it is the last. -/
theorem count_take (h : Lined text (before ++ line :: after))
    (hc : column < size line ∨ after = [] ∧ column = size line) :
    ((bytes text).take (size before.flatten + column)).count 10 = before.length := by
  obtain ⟨hcount, hline⟩ := h.split
  have htext : bytes text = bytes before.flatten ++ (bytes line ++ bytes after.flatten) := by
    rw [← h.flatten, List.flatten_append, List.flatten_cons, bytes_append, bytes_append]
  have hle : column ≤ (bytes line).length := by
    rw [length_bytes]
    omega
  have hnone : ((bytes line).take column).count 10 = 0 := by
    apply List.count_eq_zero.mpr
    intro hm
    rcases hline with ⟨-, hl⟩ | ⟨hne, body, rfl, hb⟩
    · have hz : (bytes line).count 10 = 0 := by rw [count_bytes, List.count_eq_zero.mpr hl]
      exact List.count_eq_zero.mp hz (List.mem_of_mem_take hm)
    · have hlt : column ≤ (bytes body).length := by
        rcases hc with hc | ⟨he, -⟩
        · have hs : size (body ++ ['\n']) = size body + 1 := size_append body ['\n']
          rw [length_bytes]
          omega
        · exact absurd he hne
      have hz : (bytes body).count 10 = 0 := by rw [count_bytes, List.count_eq_zero.mpr hb]
      rw [bytes_append, List.take_append_of_le_length hlt] at hm
      exact List.count_eq_zero.mp hz (List.mem_of_mem_take hm)
  rw [htext, ← length_bytes before.flatten, List.take_length_add_append,
    List.take_append_of_le_length hle, List.count_append, hnone, count_bytes, hcount]
  rfl

end Lined

end Text

namespace Line

/-- The search finds the one line whose bytes the offset is among. -/
theorem search_eq (offset number start : Nat) (ls : List (List Char)) (hs : start ≤ offset) :
    (∃ before line after, ls = before ++ line :: after ∧
      search offset number start ls = some ⟨number + before.length, String.ofList line,
        offset - (start + Text.size before.flatten)⟩ ∧
      start + Text.size before.flatten ≤ offset ∧
      offset < start + Text.size before.flatten + Text.size line) ∨
    search offset number start ls = none ∧ start + Text.size ls.flatten ≤ offset := by
  induction ls generalizing number start with
  | nil => exact .inr ⟨rfl, hs⟩
  | cons line rest ih =>
    by_cases hl : offset < start + Text.size line
    · refine .inl ⟨[], line, rest, rfl, ?_, hs, hl⟩
      rw [search, if_pos ⟨hs, hl⟩]
      rfl
    · have hstep : search offset number start (line :: rest) =
          search offset (number + 1) (start + Text.size line) rest := by
        rw [search, if_neg fun h => hl h.2]
      rw [hstep, List.flatten_cons, Text.size_append]
      rcases ih (number + 1) (start + Text.size line) (Nat.not_lt.mp hl) with
        ⟨before, found, after, rfl, he, hle, hlt⟩ | ⟨he, hle⟩
      · refine .inl ⟨line :: before, found, after, rfl, ?_⟩
        rw [Nat.add_assoc start] at he hle hlt
        rw [he, List.flatten_cons, Text.size_append, List.length_cons, Nat.add_right_comm number,
          Nat.add_assoc number]
        exact ⟨rfl, hle, hlt⟩
      · exact .inr ⟨he, by rw [← Nat.add_assoc]; exact hle⟩

/-- The end of a text belongs to its last line, which may hold no character. -/
theorem behind_eq {text : List Char} (h : Text.Lined text ls) :
    ∃ before line, ls = before ++ [line] ∧ behind text (Text.size text) =
      ⟨before.length + 1, String.ofList line, Text.size text - Text.size before.flatten⟩ := by
  have hls := h.eq_lines
  rw [behind]
  split
  · next hb =>
    rw [if_pos hb] at hls
    exact ⟨_, [], hls, by rw [Text.flatten_lines, Nat.sub_self]⟩
  · next hb =>
    rw [if_neg hb, List.append_nil] at hls
    have hne : Text.lines text ≠ [] := hls ▸ h.ne_nil
    refine ⟨_, _, hls.trans (List.dropLast_concat_getLast hne).symm, ?_⟩
    rw [List.getLastD_eq_getLast?, List.getLast?_eq_some_getLast hne, List.length_dropLast,
      Nat.sub_add_cancel (List.length_pos_iff.mpr hne)]
    rfl

/-- The line of an offset in the text is one of its lines, and only at the end of the text does no
byte of that line stand at the offset. -/
theorem exists_at?_eq {source : String} (h : Text.Lined source.toList ls)
    (hp : p ≤ Text.size source.toList) :
    ∃ before line after, ls = before ++ line :: after ∧
      at? source p = some ⟨before.length + 1, String.ofList line, p - Text.size before.flatten⟩ ∧
      Text.size before.flatten ≤ p ∧ (p - Text.size before.flatten < Text.size line ∨
        after = [] ∧ p - Text.size before.flatten = Text.size line) := by
  have hat : at? source p = some ((search p 1 0 (Text.lines source.toList)).getD
      (behind source.toList p)) := by
    rw [at?]
    exact if_neg (Nat.not_lt.mpr hp)
  rcases search_eq p 1 0 (Text.lines source.toList) (Nat.zero_le _) with
    ⟨before, line, after, hl, he, hle, hlt⟩ | ⟨he, hle⟩
  · have hls := h.eq_lines
    rw [hl, List.append_assoc, List.cons_append] at hls
    rw [Nat.zero_add] at he hle hlt
    refine ⟨before, line, _, hls, ?_, hle, .inl (by omega)⟩
    rw [hat, he, Nat.add_comm 1]
    rfl
  · rw [Text.flatten_lines, Nat.zero_add] at hle
    obtain rfl := Nat.le_antisymm hp hle
    obtain ⟨before, line, rfl, hb⟩ := behind_eq h
    have hsize : Text.size before.flatten + Text.size line = Text.size source.toList := by
      rw [← h.flatten, ← Text.size_append, ← List.flatten_concat]
    refine ⟨before, line, [], rfl, ?_, by omega, .inr ⟨rfl, by omega⟩⟩
    rw [hat, he, ← hb]
    rfl

/-- The line `l` is the one of the offset `p`, where the text is cut into the lines `ls`. -/
structure IsAt (source : String) (ls : List (List Char)) (p : Nat) (l : Line) : Prop where
  number : l.number = (source.toUTF8.data.toList.take p).count '\n'.toUInt8 + 1
  text : ls[l.number - 1]? = some l.text.toList
  column : l.column ≤ l.text.utf8ByteSize
  offset : Text.size (ls.take (l.number - 1)).flatten + l.column = p

/-- A column of one of the lines of a text, or of the end of the last one, is a place there. -/
theorem IsAt.of_lined {source : String} (h : Text.Lined source.toList (before ++ line :: after))
    (hc : col < Text.size line ∨ after = [] ∧ col = Text.size line) :
    IsAt source (before ++ line :: after) (Text.size before.flatten + col)
      ⟨before.length + 1, String.ofList line, col⟩ := by
  constructor
  · rw [Text.toList_toUTF8]
    exact congrArg (· + 1) (h.count_take hc).symm
  · rw [Nat.add_sub_cancel, List.getElem?_append_right (Nat.le_refl _), Nat.sub_self,
      String.toList_ofList]
    rfl
  · rw [← Text.size_toList, String.toList_ofList]
    change col ≤ Text.size line
    omega
  · rw [Nat.add_sub_cancel, List.take_left]

theorem IsAt.of_at? {source : String} (h : Text.Lined source.toList ls)
    (hl : at? source p = some l) : IsAt source ls p l := by
  have hp : p ≤ Text.size source.toList := by
    rw [← Nat.not_lt]
    intro hlt
    rw [at?, if_pos hlt] at hl
    cases hl
  obtain ⟨before, line, after, rfl, he, hle, hc⟩ := exists_at?_eq h hp
  obtain rfl := Option.some.inj (he.symm.trans hl)
  have hat := IsAt.of_lined h hc
  rwa [Nat.add_sub_cancel' hle] at hat

theorem IsAt.le {source : String} (h : Text.Lined source.toList ls) (hl : IsAt source ls p l) :
    p ≤ source.utf8ByteSize := by
  have htake : ls.take (l.number - 1 + 1) = ls.take (l.number - 1) ++ [l.text.toList] := by
    rw [List.take_add_one, hl.text]
    rfl
  have hparts := List.take_append_drop (l.number - 1 + 1) ls
  have hsize := congrArg (fun ls => Text.size ls.flatten) hparts
  simp only [List.flatten_append, Text.size_append, htake, h.flatten, List.flatten_singleton,
    Text.size_toList] at hsize
  have ho := hl.offset
  have hc := hl.column
  omega

/-- One line at most is that of an offset. -/
theorem IsAt.unique {source : String} (hl : IsAt source ls p l) (hk : IsAt source ls p k) :
    l = k := by
  have hn : l.number = k.number := hl.number.trans hk.number.symm
  have ht : l.text = k.text := by
    have ht := hl.text.symm.trans (hn ▸ hk.text)
    exact String.toList_injective (Option.some.inj ht)
  have hc : l.column = k.column := by
    have ho := hl.offset.trans hk.offset.symm
    rw [hn] at ho
    exact Nat.add_left_cancel ho
  cases l
  cases k
  simp_all only

theorem at?_eq_none_iff {source : String} : at? source p = none ↔ source.utf8ByteSize < p := by
  rw [at?, ← Text.size_toList]
  by_cases hp : Text.size source.toList < p <;> simp [hp]

theorem at?_eq_some_iff {source : String} (h : Text.Lined source.toList ls) :
    at? source p = some l ↔ IsAt source ls p l := by
  refine ⟨.of_at? h, fun hl => ?_⟩
  cases hk : at? source p with
  | none => exact absurd (at?_eq_none_iff.mp hk) (Nat.not_lt.mpr (hl.le h))
  | some k => rw [hl.unique (.of_at? h hk)]

/-- A later offset is in a later line, or further on in the same one. -/
theorem IsAt.lt {source : String} (hl : IsAt source ls p l) (hk : IsAt source ls q k)
    (h : p < q) : Prod.Lex (· < ·) (· < ·) (l.number, l.column) (k.number, k.column) := by
  have hle : l.number ≤ k.number := by
    rw [hl.number, hk.number]
    exact Nat.succ_le_succ (List.Sublist.count_le _ (List.take_sublist_take_left (Nat.le_of_lt h)))
  rcases Nat.lt_or_eq_of_le hle with hn | hn
  · exact .left _ _ hn
  · rw [hn]
    have ho := hl.offset
    rw [hn] at ho
    exact .right _ (by have := hk.offset; omega)

end Line

/-- Every offset of a text has one line and one column in it, and no other offset has the two. -/
theorem line_of_offset (source : String) :
    ∃ ls, (∀ ls', Text.Lined source.toList ls' ↔ ls' = ls) ∧
      (∀ p, Line.at? source p = none ↔ source.utf8ByteSize < p) ∧
      (∀ p l, Line.at? source p = some l ↔ l.IsAt source ls p) ∧
      ∀ p q l k, Line.at? source p = some l → Line.at? source q = some k →
        ((l.number, l.column) = (k.number, k.column) ↔ p = q) ∧
        (Prod.Lex (· < ·) (· < ·) (l.number, l.column) (k.number, k.column) ↔ p < q) := by
  obtain ⟨ls, h⟩ := Text.exists_lined source.toList
  refine ⟨ls, fun ls' => ⟨h.unique, fun he => he ▸ h⟩, fun _ => Line.at?_eq_none_iff,
    fun _ _ => Line.at?_eq_some_iff h, ?_⟩
  intro p q l k hl hk
  have hl := Line.IsAt.of_at? h hl
  have hk := Line.IsAt.of_at? h hk
  refine ⟨⟨fun he => ?_, fun he => ?_⟩, ⟨fun hx => ?_, hl.lt hk⟩⟩
  · obtain ⟨hn, hc⟩ := Prod.mk.inj he
    rw [← hl.offset, ← hk.offset, hn, hc]
  · subst he
    rw [hl.unique hk]
  · rcases Nat.lt_trichotomy p q with hpq | rfl | hqp
    · exact hpq
    · rw [hl.unique hk] at hx
      exact absurd hx (irrefl _)
    · exact absurd hx (asymm (hk.lt hl hqp))

/-- The offset one stands inside a character of the first line, the offset three before the
character of the second. -/
theorem line_of_two_offsets :
    (Line.mk 1 "é\n" 1).IsAt "é\nb" [['é', '\n'], ['b']] 1 ∧
      (Line.mk 2 "b" 0).IsAt "é\nb" [['é', '\n'], ['b']] 3 ∧
      Line.at? "é\nb" 5 = none ∧ Prod.Lex (· < ·) (· < ·) (1, 1) (2, 0) := by
  obtain ⟨ls, hls, hnone, hat, hlex⟩ := line_of_offset "é\nb"
  have hlined : Text.Lined "é\nb".toList [['é', '\n'], ['b']] :=
    .next (by decide : '\n' ∉ ['é']) (.last (by decide : '\n' ∉ ['b']))
  obtain rfl := (hls _).mp hlined
  have hone : Line.at? "é\nb" 1 = some ⟨1, "é\n", 1⟩ := by cbv
  have hthree : Line.at? "é\nb" 3 = some ⟨2, "b", 0⟩ := by cbv
  exact ⟨(hat 1 _).mp hone, (hat 3 _).mp hthree, (hnone 5).mpr (by decide),
    (hlex 1 3 _ _ hone hthree).2.mpr (by decide)⟩

end ExprLang
