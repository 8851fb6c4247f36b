import Plc.Phrase
import Plc.Typing.Program

/-! Filling the slots of phrases of any kind, with the scope behind each. -/
namespace Plc

/-- The scope behind a step, which is the one before it if the step failed. -/
def TypeScope.behind {α : Type} (scope : TypeScope) :
    Except Fault (α × TypeScope) → Except Fault α × TypeScope
  | .ok (a, scope) => (.ok a, scope)
  | .error fault => (.error fault, scope)

/-- A phrase on its own is no part of a function, so nothing can be returned in it. -/
def Phrase.annotate (scope : TypeScope) : Phrase → Except Fault Phrase × TypeScope
  | .program p =>
    let (p, scope) := p.annotate scope
    (p.map .program, scope)
  | .global g =>
    let (g, scope) := scope.behind (g.annotate scope)
    (g.map .global, scope)
  | .function f =>
    let (f, scope) := f.annotate scope
    (f.map .function, scope)
  | .statement s =>
    let (s, scope) := scope.behind (s.annotate scope none)
    (s.map .statement, scope)
  | .expression e => ((e.annotate scope).map .expression, scope)

end Plc
