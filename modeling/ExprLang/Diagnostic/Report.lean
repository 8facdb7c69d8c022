import ExprLang.Diagnostic.Basic
import ExprLang.Text.Blank
import ExprLang.Text.Decimal
import ExprLang.Text.Line

namespace ExprLang

namespace Line

def label (line : Line) : String := Text.Decimal.ofNat line.number

/-- The line as a report shows it, without its indentation and without blanks at its end. -/
def shown (line : Line) : String :=
  String.ofList (Text.trimEnd (Text.dropIndentation line.text.toList))

/-- How far the caret stands to the right of the shown line's first column, in bytes. -/
def caretColumn (line : Line) : Nat :=
  line.column - Text.size (Text.indentation line.text.toList)

def margin (line : Line) : String :=
  String.ofList (List.replicate (line.label.length + 1) ' ') ++ "|"

/-- The line between its margins, with a caret below the column. -/
def excerpt (line : Line) : List String :=
  [line.margin,
   line.label ++ " | " ++ line.shown,
   line.margin ++ " " ++ String.ofList (List.replicate line.caretColumn '-') ++ "^"]

end Line

namespace Diagnostic

def headline (d : Diagnostic) : String :=
  match d.problem.tip with
  | .none => "Error: " ++ d.problem.name
  | .suggestion text => "Error: " ++ d.problem.name ++ " (" ++ text ++ ")"

/-- The lines that show a diagnostic against its text. A place outside the text has no excerpt,
and the message stands instead. -/
def reportLines (d : Diagnostic) (source : String) : List String :=
  d.headline :: ("-> " ++ d.position.file) ::
    match Line.at? source d.position.offset with
    | none => ["   " ++ d.message]
    | some line => line.excerpt

def report (d : Diagnostic) (source : String) : String :=
  "\n".intercalate (d.reportLines source)

end Diagnostic

end ExprLang
