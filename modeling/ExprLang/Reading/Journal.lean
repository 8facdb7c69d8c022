import ExprLang.Diagnostic.Basic
import ExprLang.Text.Decimal

namespace ExprLang

inductive Level where
  | trace
  | debug
  deriving DecidableEq, Repr, Inhabited

def Level.label : Level → String
  | trace => "TRACE"
  | debug => "DEBUG"

inductive Event where
  | lexed (token : Token)
  | recorded (diagnostic : Diagnostic)
  | finished (statements errors : Nat) (file : String)
  deriving DecidableEq, Repr, Inhabited

namespace Event

def level : Event → Level
  | lexed _ => .trace
  | recorded _ | finished .. => .debug

open Text.Decimal in
def text : Event → String
  | lexed t =>
    "lexed " ++ t.kind.label ++ " (" ++ t.literal ++ ") at " ++ ofNat t.span.start.offset
  | recorded d => "recorded parse error at " ++ ofNat d.position.offset ++ ": " ++ d.message
  | finished statements errors file =>
    "parsed " ++ ofNat statements ++ " statements with " ++ ofNat errors ++ " errors in " ++ file

end Event

end ExprLang
