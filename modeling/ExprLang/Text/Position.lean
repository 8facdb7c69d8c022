namespace ExprLang

/-- A byte offset in a text, with the label of that text. -/
structure Position where
  offset : Nat
  file : String
  deriving DecidableEq, Repr, Inhabited

def Position.maxOffset : Nat := 4294967295

/-- Offsets past the largest one are recorded as the largest one. -/
def Position.ofOffset (offset : Nat) (file : String) : Position where
  offset := min offset maxOffset
  file := file

def Position.defaultFile : String := "shell"

def Position.nowhere : Position := ⟨0, "<null>"⟩

/-- The half-open range of a token, from its first byte to the byte after its last. -/
structure Span where
  start : Position
  stop : Position
  deriving DecidableEq, Repr, Inhabited

def Span.ofOffsets (start stop : Nat) (file : String) : Span where
  start := .ofOffset start file
  stop := .ofOffset stop file

@[simp] theorem Position.file_ofOffset (offset : Nat) (file : String) :
    (Position.ofOffset offset file).file = file := rfl

theorem Position.offset_ofOffset_of_le {offset : Nat} (h : offset ≤ maxOffset) (file : String) :
    (Position.ofOffset offset file).offset = offset :=
  Nat.min_eq_left h

theorem Position.offset_ofOffset_le (offset : Nat) (file : String) :
    (Position.ofOffset offset file).offset ≤ maxOffset :=
  Nat.min_le_right _ _

end ExprLang
