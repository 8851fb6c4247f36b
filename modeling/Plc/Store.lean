import Plc.Scope
import Plc.Value

/-! What a run works on: the names in force, the lists, and the output. -/
namespace Plc

structure Binding where
  name : String
  mutable : Bool
  value : Value
deriving DecidableEq

/-- A function of a run. Every function was defined in the root frame, so it needs no scope of
its own. -/
inductive Callable where
  | print
  | declared (f : Function)

/-- The lines printed so far, how many more are taken, where that is limited, and what is reported
where no more are. -/
structure Output where
  lines : Array String := #[]
  room : Option Nat := none
  report : String

namespace Output

def print (output : Output) (line : String) : Except Fault Output :=
  match output.room with
  | none => .ok { output with lines := output.lines.push line }
  | some 0 => .error (.outputFull output.report)
  | some (room + 1) => .ok { output with lines := output.lines.push line, room := some room }

def textFrom (output : Output) (start : Nat) : String :=
  String.join ((output.lines.toList.drop start).map fun line => line ++ "\n")

def text (output : Output) : String := output.textFrom 0

end Output

structure Store where
  scope : Scope Binding Callable
  heap : Heap
  output : Output

def Store.initial (room : Option Nat) (report : String := "sink full") : Store where
  scope := { root := Frame.ofFunctions [(("print", 1), .print)] }
  heap := {}
  output := { room := room, report := report }

namespace Store

def withInner (store : Store) (inner : List (Frame Binding Callable)) : Store :=
  { store with scope := { store.scope with inner := inner } }

def enter (store : Store) : Store := { store with scope := store.scope.enter {} }

def leave (store : Store) : Store := { store with scope := store.scope.leave }

def bind (store : Store) (name : String) (mutable : Bool) (v : Value) : Except Fault Store :=
  (store.scope.defineVariable name ⟨name, mutable, v⟩).map fun scope =>
    { store with scope := scope }

def defineFunction (store : Store) (f : Function) : Except Fault Store :=
  (store.scope.defineFunction f.name f.parameters.length (.declared f)).map fun scope =>
    { store with scope := scope }

def assign (store : Store) (name : String) (v : Value) : Except Fault Store := do
  let binding ← store.scope.lookupVariable name
  return { store with scope := store.scope.setVariable name { binding with value := v } }

def requireMutable (store : Store) (name : String) : Except Fault Unit := do
  let binding ← store.scope.lookupVariable name
  if !binding.mutable then throw (.immutableAssignment name)

def locate (store : Store) (name : String) (offset : Value) : Except Fault (Nat × Nat) := do
  match (← store.scope.lookupVariable name).value with
  | .list address => return (address, ← offset.index (store.heap.elements address).size)
  | _ => throw (.notAList name)

def readElement (store : Store) (name : String) (offset : Value) : Except Fault Value := do
  let (address, index) ← store.locate name offset
  return (store.heap.elements address).getD index .nil

def assignElement (store : Store) (name : String) (offset v : Value) : Except Fault Store := do
  let (address, index) ← store.locate name offset
  return { store with heap := store.heap.write address index v }

def allocate (store : Store) (elements : List Value) : Value × Store :=
  let (address, heap) := store.heap.allocate elements
  (.list address, { store with heap := heap })

def print (store : Store) (v : Value) : Except Fault Store :=
  (store.output.print (store.heap.text v)).map fun output => { store with output := output }

/-- Prints values in turn. The lines before a fault stay printed. -/
def printAll (store : Store) : List Value → Except Fault Unit × Store
  | [] => (.ok (), store)
  | v :: vs =>
    match store.print v with
    | .error fault => (.error fault, store)
    | .ok store => store.printAll vs

end Store
end Plc
