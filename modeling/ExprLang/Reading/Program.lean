import ExprLang.Reading.Statement
import ExprLang.Token.Cursor

namespace ExprLang

namespace ParseState

/-- Reads statements up to the end of the text. One that fails is recorded and skipped. -/
def readStatements (p : ParseState) : List Stmt × ParseState :=
  if p.current.kind = .eof then ([], p)
  else match _h : StmtReader.statement p with
    | .ok stmt q =>
      let rest := q.advance.readStatements
      (stmt :: rest.1, rest.2)
    | .error d q => (q.record d).synchronize.advance.readStatements
termination_by p.remaining
decreasing_by
  · have hq := StmtReader.remaining_le_of_statement_ok _h
    have hp := remaining_pos ‹_›
    rw [remaining_advance]
    omega
  · have hq := StmtReader.remaining_le_of_statement_error _h
    have hp := remaining_pos ‹_›
    have hs := (q.record d).remaining_synchronize_le
    rw [remaining_record] at hs
    rw [remaining_advance]
    omega

theorem readStatements_eq (p : ParseState) :
    p.readStatements =
      if p.current.kind = .eof then ([], p)
      else match StmtReader.statement p with
        | .ok stmt q => (stmt :: q.advance.readStatements.1, q.advance.readStatements.2)
        | .error d q => (q.record d).synchronize.advance.readStatements := by
  rw [readStatements]
  split
  · rfl
  · split <;> simp_all

def finish (p : ParseState) (statements : Nat) : ParseState :=
  { p with
    journal := p.journal.push (.finished statements p.errors.size p.tokens.stop.file) }

def readProgram (p : ParseState) : Program × ParseState :=
  let r := p.readStatements
  (⟨r.1⟩, r.2.finish r.1.length)

end ParseState

/-- Reads a whole text. Every statement that could be read is in the program; every problem on the
way is on record in the state at the end. -/
def parse (source : String) (file : Option String) : Program × ParseState :=
  (ParseState.start (tokenize source file)).readProgram

end ExprLang
