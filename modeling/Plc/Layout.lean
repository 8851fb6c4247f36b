/-! Text in lines, each at a depth. Moving lines deeper changes their depth only, so what stands
inside something else is laid out as if it stood alone. -/
namespace Plc

structure Line where
  depth : Nat
  text : String
deriving DecidableEq

namespace Layout

def margin (depth : Nat) : String := String.ofList (List.replicate (4 * depth) ' ')

def renderLine (line : Line) : String := margin line.depth ++ line.text

def render (lines : List Line) : String := "\n".intercalate (lines.map renderLine)

def deepen (lines : List Line) : List Line :=
  lines.map fun line => { line with depth := line.depth + 1 }

def before (text : String) : List Line → List Line
  | [] => [⟨0, text⟩]
  | first :: more => { first with text := text ++ first.text } :: more

def behind (text : String) : List Line → List Line
  | [] => [⟨0, text⟩]
  | [last] => [{ last with text := last.text ++ text }]
  | line :: more => line :: behind text more

/-- Lines joined so that the last of the first and the first of the second are one. -/
def join : List Line → List Line → List Line
  | [], second => second
  | [last], second => before last.text second
  | line :: more, second => line :: join more second

def enclose (opening : String) (inside : List Line) (closing : String) : List Line :=
  ⟨0, opening⟩ :: deepen inside ++ [⟨0, closing⟩]

end Layout
end Plc
