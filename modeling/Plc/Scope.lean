import Plc.Fault

/-! Scopes: frames of bindings, one inside the other. A name means its binding in the innermost
frame that has one. Functions are told apart by name and number of parameters, and never meet
variables. -/
namespace Plc

/-- The bindings that were made at one level, `V` for variables and `F` for functions. -/
structure Frame (V F : Type) where
  vars : List (String × V) := []
  funs : List ((String × Nat) × F) := []

namespace Frame

variable {V F : Type}

def getVariable? (frame : Frame V F) (name : String) : Option V :=
  frame.vars.lookup name

def getFunction? (frame : Frame V F) (name : String) (arity : Nat) : Option F :=
  frame.funs.lookup (name, arity)

def bindVariable (frame : Frame V F) (name : String) (value : V) : Frame V F :=
  { frame with vars := (name, value) :: frame.vars }

def bindFunction (frame : Frame V F) (name : String) (arity : Nat) (value : F) : Frame V F :=
  { frame with funs := ((name, arity), value) :: frame.funs }

theorem getVariable?_bindVariable (frame : Frame V F) (name other : String) (value : V) :
    (frame.bindVariable name value).getVariable? other =
      if other = name then some value else frame.getVariable? other := by
  simp only [getVariable?, bindVariable, List.lookup_cons]
  split <;> simp_all

theorem getFunction?_bindFunction (frame : Frame V F) (name other : String)
    (arity count : Nat) (value : F) :
    (frame.bindFunction name arity value).getFunction? other count =
      if (other, count) = (name, arity) then some value else frame.getFunction? other count := by
  simp only [getFunction?, bindFunction, List.lookup_cons]
  split <;> simp_all

theorem getVariable?_bindFunction (frame : Frame V F) (name other : String) (arity : Nat)
    (value : F) :
    (frame.bindFunction name arity value).getVariable? other = frame.getVariable? other :=
  rfl

def defineVariable (frame : Frame V F) (name : String) (value : V) :
    Except Fault (Frame V F) :=
  match frame.getVariable? name with
  | some _ => .error (.variableAlreadyDefined name)
  | none => .ok (frame.bindVariable name value)

def defineFunction (frame : Frame V F) (name : String) (arity : Nat) (value : F) :
    Except Fault (Frame V F) :=
  match frame.getFunction? name arity with
  | some _ => .error (.functionAlreadyDefined name arity)
  | none => .ok (frame.bindFunction name arity value)

def defineVariables (frame : Frame V F) : List (String × V) → Except Fault (Frame V F)
  | [] => .ok frame
  | (name, value) :: more =>
    match frame.defineVariable name value with
    | .error fault => .error fault
    | .ok frame => frame.defineVariables more

def setVariable (frame : Frame V F) (name : String) (value : V) : Frame V F :=
  { frame with
    vars := frame.vars.map fun entry =>
      if entry.1 = name then (name, value) else entry }

def setFirst (name : String) (value : V) : List (Frame V F) → List (Frame V F)
  | [] => []
  | frame :: frames =>
    if (frame.getVariable? name).isSome then frame.setVariable name value :: frames
    else frame :: setFirst name value frames

/-- A frame of given functions. Of several with one name and arity the last one counts. -/
def ofFunctions (builtins : List ((String × Nat) × F)) : Frame V F :=
  { funs := builtins.reverse }

end Frame

/-- A root frame and the frames inside it, the innermost first. -/
structure Scope (V F : Type) where
  inner : List (Frame V F) := []
  root : Frame V F

namespace Scope

variable {V F : Type}

def frames (scope : Scope V F) : List (Frame V F) := scope.inner ++ [scope.root]

def getVariable? (scope : Scope V F) (name : String) : Option V :=
  scope.frames.findSome? fun frame => frame.getVariable? name

def getFunction? (scope : Scope V F) (name : String) (arity : Nat) : Option F :=
  scope.frames.findSome? fun frame => frame.getFunction? name arity

def lookupVariable (scope : Scope V F) (name : String) : Except Fault V :=
  match scope.getVariable? name with
  | some value => .ok value
  | none => .error (.undefinedVariable name)

def lookupFunction (scope : Scope V F) (name : String) (arity : Nat) : Except Fault F :=
  match scope.getFunction? name arity with
  | some value => .ok value
  | none => .error (.undefinedFunction name arity)

def current (scope : Scope V F) : Frame V F := scope.inner.headD scope.root

def withCurrent (scope : Scope V F) (frame : Frame V F) : Scope V F :=
  match scope.inner with
  | [] => { scope with root := frame }
  | _ :: outer => { scope with inner := frame :: outer }

def defineVariable (scope : Scope V F) (name : String) (value : V) : Except Fault (Scope V F) :=
  (scope.current.defineVariable name value).map scope.withCurrent

def defineFunction (scope : Scope V F) (name : String) (arity : Nat) (value : F) :
    Except Fault (Scope V F) :=
  (scope.current.defineFunction name arity value).map scope.withCurrent

def setVariable (scope : Scope V F) (name : String) (value : V) : Scope V F :=
  if scope.inner.any fun frame => (frame.getVariable? name).isSome then
    { scope with inner := Frame.setFirst name value scope.inner }
  else { scope with root := scope.root.setVariable name value }

def enter (scope : Scope V F) (frame : Frame V F) : Scope V F :=
  { scope with inner := frame :: scope.inner }

def leave (scope : Scope V F) : Scope V F :=
  { scope with inner := scope.inner.tail }

theorem leave_enter (scope : Scope V F) (frame : Frame V F) :
    (scope.enter frame).leave = scope := rfl

theorem getVariable?_enter (scope : Scope V F) (frame : Frame V F) (name : String) :
    (scope.enter frame).getVariable? name =
      (frame.getVariable? name).or (scope.getVariable? name) := by
  simp only [getVariable?, frames, enter, List.cons_append, List.findSome?_cons]
  cases frame.getVariable? name <;> rfl

theorem getFunction?_enter (scope : Scope V F) (frame : Frame V F) (name : String)
    (arity : Nat) :
    (scope.enter frame).getFunction? name arity =
      (frame.getFunction? name arity).or (scope.getFunction? name arity) := by
  simp only [getFunction?, frames, enter, List.cons_append, List.findSome?_cons]
  cases frame.getFunction? name arity <;> rfl

end Scope
end Plc
