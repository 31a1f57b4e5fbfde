import ShellScript.Text.Byte

namespace ShellScript

-- A place in a text: the byte offset, and line and column counted from 1. Line 0 is no place at all.
structure Position where
  offset : Nat := 0
  line : Nat := 0
  column : Nat := 0
deriving Repr, DecidableEq, Inhabited, BEq

namespace Position

def start : Position := ⟨0, 1, 1⟩

def isValid (p : Position) : Bool := p.line > 0

-- The position after one more character.
def step (p : Position) (c : Char) : Position :=
  if c == '\n' then ⟨p.offset + 1, p.line + 1, 1⟩ else ⟨p.offset + 1, p.line, p.column + 1⟩

-- The position after a stretch of text.
def advance (p : Position) (cs : List Char) : Position := cs.foldl step p

theorem advance_append (p : Position) (a b : List Char) : p.advance (a ++ b) = (p.advance a).advance b := by
  simp [advance]

def render (p : Position) : String :=
  if p.isValid then toString p.line ++ ":" ++ toString p.column else "-"

end Position
end ShellScript
