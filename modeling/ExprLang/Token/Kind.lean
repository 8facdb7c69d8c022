namespace ExprLang

/-- What a token is, as far as the grammar tells tokens apart. -/
inductive Kind where
  | eof
  | invalid
  | integer
  | identifier
  | openCurly
  | closeCurly
  | openParen
  | closeParen
  | assign
  | equal
  | bang
  | notEqual
  | less
  | greater
  | semicolon
  | comma
  | plus
  | minus
  | slash
  | star
  | letWord
  | funWord
  | trueWord
  | falseWord
  | returnWord
  deriving DecidableEq, Repr, Inhabited

namespace Kind

/-- How messages name a kind; a symbol is named by its text. -/
def label : Kind → String
  | eof => "EOF"
  | invalid => "INVALID"
  | integer => "INT"
  | identifier => "IDENTIFIER"
  | openCurly => "\x7b"
  | closeCurly => "\x7d"
  | openParen => "("
  | closeParen => ")"
  | assign => "="
  | equal => "=="
  | bang => "!"
  | notEqual => "!="
  | less => "<"
  | greater => ">"
  | semicolon => ";"
  | comma => ","
  | plus => "+"
  | minus => "-"
  | slash => "/"
  | star => "*"
  | letWord => "LET"
  | funWord => "FUN"
  | trueWord => "TRUE"
  | falseWord => "FALSE"
  | returnWord => "RETURN"

instance : ToString Kind := ⟨label⟩

def keyword? : String → Option Kind
  | "let" => some letWord
  | "fun" => some funWord
  | "true" => some trueWord
  | "false" => some falseWord
  | "return" => some returnWord
  | _ => none

/-- The kind of a word: its own if it is reserved. -/
def ofWord (word : String) : Kind := (keyword? word).getD identifier

def ofSymbol? : Char → Option Kind
  | '=' => some assign
  | '!' => some bang
  | '+' => some plus
  | '-' => some minus
  | '*' => some star
  | '/' => some slash
  | '<' => some less
  | '>' => some greater
  | '(' => some openParen
  | ')' => some closeParen
  | '\x7b' => some openCurly
  | '\x7d' => some closeCurly
  | ',' => some comma
  | ';' => some semicolon
  | _ => none

theorem label_of_ofSymbol? {c : Char} {k : Kind} (h : ofSymbol? c = some k) :
    k.label = String.singleton c := by
  simp only [ofSymbol?] at h
  split at h <;> cases h <;> rfl

theorem ofWord_ne_eof (word : String) : ofWord word ≠ eof := by
  simp only [ofWord, keyword?]
  split <;> simp

theorem ofSymbol?_ne_eof {c : Char} {k : Kind} (h : ofSymbol? c = some k) : k ≠ eof := by
  simp only [ofSymbol?] at h
  split at h <;> cases h <;> simp

end Kind

end ExprLang
