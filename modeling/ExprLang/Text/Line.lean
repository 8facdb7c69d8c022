import ExprLang.Text.Size

namespace ExprLang

namespace Text

/-- The lines of a text that hold a character, each with its newline if it has one. -/
def lines : List Char → List (List Char)
  | [] => []
  | c :: text =>
    if c = '\n' then [c] :: lines text
    else match lines text with
      | [] => [[c]]
      | line :: rest => (c :: line) :: rest

/-- Nothing of the text is lost between its lines. -/
theorem flatten_lines (text : List Char) : (lines text).flatten = text := by
  fun_induction lines text with
  | case1 => rfl
  | case2 text ih => rw [List.flatten_cons, ih, List.singleton_append]
  | case3 c text _ hl ih =>
    rw [hl] at ih
    rw [← ih]
    rfl
  | case4 c text _ line rest hl ih =>
    rw [hl] at ih
    rw [← ih]
    rfl

end Text

/-- A place in a text by line: the line's number from one, its text, and a byte column in it. -/
structure Line where
  number : Nat
  text : String
  column : Nat
  deriving DecidableEq, Repr

namespace Line

/-- Looks for the line that holds the byte at an offset. The first of the lines that are left has
the number `number` and starts at the byte `start`. -/
def search (offset : Nat) : Nat → Nat → List (List Char) → Option Line
  | _, _, [] => none
  | number, start, line :: rest =>
    if start ≤ offset ∧ offset < start + Text.size line then
      some ⟨number, String.ofList line, offset - start⟩
    else search offset (number + 1) (start + Text.size line) rest

/-- The place of an offset where no line holds a byte: an empty line of its own at the start of a
text and after a newline, else the end of the last line. -/
def behind (text : List Char) (offset : Nat) : Line :=
  let lines := Text.lines text
  if text.isEmpty || text.getLast? == some '\n' then ⟨lines.length + 1, "", 0⟩
  else ⟨lines.length, String.ofList (lines.getLastD []),
    offset - Text.size lines.dropLast.flatten⟩

/-- The line that an offset belongs to; the end of the text belongs to its last line. -/
def at? (source : String) (offset : Nat) : Option Line :=
  let text := source.toList
  if Text.size text < offset then none
  else some ((search offset 1 0 (Text.lines text)).getD (behind text offset))

end Line

end ExprLang
