import ExprLang.Tree.Basic

namespace ExprLang

/-- What is wrong with a text. -/
inductive Problem where
  | unexpectedToken (expected actual : Kind) (literal : String)
  | noOperand (token : Token)
  | integerTooLarge (literal : String)
  | statementFailed (kind : StmtKind) (cause : Problem)
  deriving DecidableEq, Repr, Inhabited

inductive Tip where
  | none
  | suggestion (text : String)
  deriving DecidableEq, Repr, Inhabited

def Tip.text : Tip → String
  | none => ""
  | suggestion text => text

instance : ToString Tip := ⟨Tip.text⟩

namespace Problem

def name : Problem → String
  | unexpectedToken .. => "UnexpectedToken"
  | noOperand .. => "NoPrefixParser"
  | integerTooLarge .. => "NumberParseError"
  | statementFailed .. => "StatementFailed"

def message : Problem → String
  | unexpectedToken expected actual _ => "expected " ++ expected.label ++ ", got " ++ actual.label
  | noOperand token => "no prefix parser found for token " ++ token.describe
  | integerTooLarge literal => "could not parse " ++ literal ++ " as integer"
  | statementFailed kind cause => "parsing " ++ kind.label ++ " statement failed: " ++ cause.message

/-- The end of the text is named in words, any other token by its characters. -/
def tip : Problem → Tip
  | unexpectedToken expected .eof _ =>
    .suggestion ("Unexpected end of input, expected " ++ expected.label)
  | unexpectedToken expected _ literal =>
    .suggestion ("Unexpected token `" ++ literal ++ "`, expected " ++ expected.label)
  | noOperand token =>
    if token.kind = .eof then .suggestion "Unexpected end of input, expected an expression"
    else .suggestion ("`" ++ token.literal ++ "` cannot start an expression")
  | integerTooLarge literal =>
    .suggestion ("Invalid number: `" ++ literal ++ "`, is it above the integer limit?")
  | statementFailed _ cause => cause.tip

def cause? : Problem → Option Problem
  | statementFailed _ cause => some cause
  | _ => none

/-- The problems below this one, the outermost first. -/
def causes : Problem → List Problem
  | statementFailed _ cause => cause :: cause.causes
  | _ => []

end Problem

/-- A problem with the place where it shows. -/
structure Diagnostic where
  problem : Problem
  position : Position
  deriving DecidableEq, Repr, Inhabited

namespace Diagnostic

def message (d : Diagnostic) : String := d.problem.message

/-- The same diagnostic as the failure of a whole statement. -/
def wrap (d : Diagnostic) (kind : StmtKind) : Diagnostic :=
  { d with problem := .statementFailed kind d.problem }

def blame (t : Token) (problem : Problem) : Diagnostic := ⟨problem, t.span.start⟩

/-- Another kind of token belongs in the place of `t`. -/
def unexpected (expected : Kind) (t : Token) : Diagnostic :=
  blame t (.unexpectedToken expected t.kind t.literal)

def noOperand (t : Token) : Diagnostic := blame t (.noOperand t)

def integerTooLarge (t : Token) : Diagnostic := blame t (.integerTooLarge t.literal)

instance : ToString Diagnostic := ⟨message⟩

theorem tip_wrap (d : Diagnostic) (kind : StmtKind) :
    (d.wrap kind).problem.tip = d.problem.tip := rfl

theorem message_wrap (d : Diagnostic) (kind : StmtKind) :
    (d.wrap kind).message = "parsing " ++ kind.label ++ " statement failed: " ++ d.message := rfl

theorem causes_wrap (d : Diagnostic) (kind : StmtKind) :
    (d.wrap kind).problem.causes = d.problem :: d.problem.causes := rfl

end Diagnostic

end ExprLang
