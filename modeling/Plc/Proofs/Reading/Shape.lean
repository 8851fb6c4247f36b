import Plc.Phrase

/-! The shape of trees as they are read: their slots are empty, a list literal is nothing but the
whole value of a global, a function has a type name for each parameter, and a switch ends in its
only case without a value. -/
namespace Plc

mutual

/-- An expression with empty slots and without list literals. -/
def Expr.Bare : Expr → Prop
  | .literal _ ty => ty = none
  | .group inner ty => inner.Bare ∧ ty = none
  | .binary _ left right ty => left.Bare ∧ right.Bare ∧ ty = none
  | .access _ slot => slot = none
  | .element _ offset slot => offset.Bare ∧ slot = none
  | .call _ arguments slot => Expr.AllBare arguments ∧ slot = none
  | .list .. => False

def Expr.AllBare : List Expr → Prop
  | [] => True
  | e :: es => e.Bare ∧ Expr.AllBare es

end

theorem Expr.Bare.isList_eq_false {e : Expr} (bare : e.Bare) : e.isList = false := by
  cases e with
  | list => exact bare.elim
  | _ => rfl

theorem Expr.AllBare.of_mem {es : List Expr} (bare : Expr.AllBare es) {e : Expr}
    (member : e ∈ es) : e.Bare := by
  induction es with
  | nil => cases member
  | cons first es ih =>
    rcases List.mem_cons.mp member with rfl | member
    · exact bare.1
    · exact ih bare.2 member

def Case.EndInDefault : List Case → Prop
  | [] => False
  | [.default _] => True
  | .on .. :: cs => EndInDefault cs
  | .default _ :: _ => False

mutual

def Stmt.Bare : Stmt → Prop
  | .expression value => value.Bare
  | .declare _ _ value slot => (∀ e ∈ value, e.Bare) ∧ slot = none
  | .assign receiver value => receiver.Bare ∧ value.Bare
  | .branch condition thenBody elseBody =>
    condition.Bare ∧ Stmt.AllBare thenBody ∧ Stmt.AllBare elseBody
  | .switch condition cases => condition.Bare ∧ Case.AllBare cases ∧ Case.EndInDefault cases
  | .loop condition body => condition.Bare ∧ Stmt.AllBare body
  | .ret value => value.Bare

def Stmt.AllBare : List Stmt → Prop
  | [] => True
  | s :: ss => s.Bare ∧ Stmt.AllBare ss

def Case.Bare : Case → Prop
  | .on value body => value.Bare ∧ Stmt.AllBare body
  | .default body => Stmt.AllBare body

def Case.AllBare : List Case → Prop
  | [] => True
  | c :: cs => c.Bare ∧ Case.AllBare cs

end

theorem Stmt.AllBare.of_mem {ss : List Stmt} (bare : Stmt.AllBare ss) {s : Stmt}
    (member : s ∈ ss) : s.Bare := by
  induction ss with
  | nil => cases member
  | cons first ss ih =>
    rcases List.mem_cons.mp member with rfl | member
    · exact bare.1
    · exact ih bare.2 member

theorem Case.AllBare.of_mem {cs : List Case} (bare : Case.AllBare cs) {c : Case}
    (member : c ∈ cs) : c.Bare := by
  induction cs with
  | nil => cases member
  | cons first cs ih =>
    rcases List.mem_cons.mp member with rfl | member
    · exact bare.1
    · exact ih bare.2 member

def Global.BareValue (mutable : Bool) : Option Expr → Prop
  | none => mutable = true
  | some (.list elements ty) =>
    elements ≠ [] ∧ Expr.AllBare elements ∧ ty = none ∧ mutable = true
  | some e => e.Bare

structure Global.Bare (g : Global) : Prop where
  value : Global.BareValue g.mutable g.value
  slot : g.slot = none

structure Function.Bare (f : Function) : Prop where
  body : Stmt.AllBare f.body
  arity : f.typeNames.length = f.parameters.length
  slot : f.slot = none

structure Program.Bare (p : Program) : Prop where
  globals : ∀ g ∈ p.globals, g.Bare
  functions : ∀ f ∈ p.functions, f.Bare

def Phrase.Bare : Phrase → Prop
  | .program p => p.Bare
  | .global g => g.Bare
  | .function f => f.Bare
  | .statement s => s.Bare
  | .expression e => e.Bare

theorem Global.bareValue_of_bare {e : Expr} (bare : e.Bare) (mutable : Bool) :
    Global.BareValue mutable (some e) := by
  cases e with
  | list => exact bare.elim
  | _ => exact bare

end Plc
