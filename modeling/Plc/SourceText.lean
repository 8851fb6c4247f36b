/-! Places in a text: the line and the column at which a character stands, and the lines
themselves. -/
namespace Plc.SourceText

/-- A line and a column, both counted from 1. -/
structure Location where
  line : Nat
  column : Nat
deriving DecidableEq

def Location.next (l : Location) (c : Char) : Location :=
  if c = '\n' then ⟨l.line + 1, 1⟩ else ⟨l.line, l.column + 1⟩

/-- The location behind the first `index` characters, or behind all of them if there are
fewer. -/
def location (cs : List Char) (index : Nat) : Location :=
  (cs.take index).foldl Location.next ⟨1, 1⟩

def onFirst (c : Char) : List (List Char) → List (List Char)
  | [] => [[c]]
  | line :: lines => (c :: line) :: lines

/-- The lines without their ends. A carriage return belongs to the newline behind it, and behind
the last newline there is no line unless it holds a character. -/
def lines : List Char → List (List Char)
  | [] => []
  | '\n' :: cs => [] :: lines cs
  | '\r' :: '\n' :: cs => [] :: lines cs
  | c :: cs => onFirst c (lines cs)

def line? (cs : List Char) (number : Nat) : Option (List Char) :=
  if number = 0 then none else (lines cs)[number - 1]?

end Plc.SourceText
