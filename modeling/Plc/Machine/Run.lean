import Plc.Machine.Step
import Plc.Phrase

/-! Runs of the machine, step after step until nothing is left to do, and what can be asked for:
the value of an expression, the execution of a statement, a definition, a whole program. One
store can serve several such requests in turn. -/
namespace Plc

namespace Machine

/-- The configuration in which the machine stops, if it does so within a number of steps. -/
def run : Nat → Config → Option Config
  | 0, _ => none
  | limit + 1, c =>
    match step? c with
    | none => some c
    | some next => run limit next

def ample : Nat := Nat.pow 2 60

def Config.answer (c : Config) : Except Fault Value :=
  match c.focus with
  | .value v => .ok v
  | .failing fault => .error fault
  | _ => .ok .nil

/-- What has come of a request without a value. A value cannot be returned to anyone here. -/
def Config.completion (c : Config) : Except Fault Unit :=
  match c.focus with
  | .failing fault => .error fault
  | .returning _ => .error .returnOutsideFunction
  | _ => .ok ()

end Machine

namespace Store

open Machine

def evaluate (store : Store) (limit : Nat) (e : Expr) : Option (Except Fault Value × Store) :=
  (run limit ⟨.evaluate e, [], store⟩).map fun c => (c.answer, c.store)

def execute (store : Store) (limit : Nat) (s : Stmt) : Option (Except Fault Unit × Store) :=
  (run limit ⟨.execute s, [], store⟩).map fun c => (c.completion, c.store)

def defineGlobal (store : Store) (limit : Nat) (g : Global) :
    Option (Except Fault Unit × Store) :=
  (run limit ⟨.define g, [], store⟩).map fun c => (c.completion, c.store)

def start (store : Store) (p : Program) : Config :=
  ⟨.load p.globals p.functions (p.functions.any (·.name == "main")), [], store⟩

def runProgram (store : Store) (limit : Nat) (p : Program) :
    Option (Except Fault Value × Store) :=
  (run limit (store.start p)).map fun c => (c.answer, c.store)

def runPhrase (store : Store) (limit : Nat) :
    Phrase → Option (Except Fault (Option Value) × Store)
  | .program p => (store.runProgram limit p).map fun (a, store) => (a.map some, store)
  | .expression e => (store.evaluate limit e).map fun (a, store) => (a.map some, store)
  | .statement s => (store.execute limit s).map fun (a, store) => (a.map fun _ => none, store)
  | .global g => (store.defineGlobal limit g).map fun (a, store) => (a.map fun _ => none, store)
  | .function f =>
    match store.defineFunction f with
    | .ok store => some (.ok none, store)
    | .error fault => some (.error fault, store)

end Store
end Plc
