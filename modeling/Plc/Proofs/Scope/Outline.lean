import Plc.Proofs.Scope
import Plc.Store

/-! What is bound in each frame of a scope, whatever the variables hold. Assignments leave it as it
is, and a declaration adds to it in one place. -/
namespace Plc

variable {V F : Type}

namespace Frame

variable (frame : Frame V F) (name : String) (value : V)

def outline : Frame Unit F := ⟨frame.vars.map fun entry => (entry.1, ()), frame.funs⟩

theorem getVariable?_outline :
    frame.outline.getVariable? name = (frame.getVariable? name).map fun _ => () := by
  simp only [getVariable?, outline]
  induction frame.vars with
  | nil => rfl
  | cons entry entries ih =>
    obtain ⟨bound, old⟩ := entry
    simp only [List.map_cons, List.lookup_cons, ih]
    split <;> rfl

theorem outline_setVariable : (frame.setVariable name value).outline = frame.outline := by
  simp only [outline, setVariable, List.map_map]
  congr 1
  refine List.map_congr_left fun entry _ => ?_
  rw [Function.comp_apply]
  split
  · rename_i same
    rw [same]
  · rfl

theorem map_outline_setFirst (frames : List (Frame V F)) :
    (setFirst name value frames).map outline = frames.map outline := by
  induction frames with
  | nil => rfl
  | cons frame frames ih =>
    rw [setFirst]
    split
    · rw [List.map_cons, List.map_cons, outline_setVariable]
    · rw [List.map_cons, List.map_cons, ih]

end Frame

namespace Scope

variable (scope : Scope V F) (name : String)

def outline : Scope Unit F := ⟨scope.inner.map Frame.outline, scope.root.outline⟩

theorem outline_setVariable (value : V) :
    (scope.setVariable name value).outline = scope.outline := by
  rw [setVariable]
  split
  · simp only [outline, Frame.map_outline_setFirst]
  · simp only [outline, Frame.outline_setVariable]

theorem outline_bindVariable (value : V) :
    (scope.bindVariable name value).outline = scope.outline.bindVariable name () := by
  obtain ⟨_ | ⟨frame, inner⟩, root⟩ := scope <;> rfl

theorem outline_bindFunction (arity : Nat) (value : F) :
    (scope.bindFunction name arity value).outline =
      scope.outline.bindFunction name arity value := by
  obtain ⟨_ | ⟨frame, inner⟩, root⟩ := scope <;> rfl

theorem getVariable?_current_outline :
    scope.outline.current.getVariable? name =
      (scope.current.getVariable? name).map fun _ => () := by
  obtain ⟨_ | ⟨frame, inner⟩, root⟩ := scope <;> exact Frame.getVariable?_outline _ name

theorem inner_eq_nil_of_outline {s t : Scope V F} (same : t.outline = s.outline)
    (alone : s.inner = []) : t.inner = [] := by
  have inner := congrArg Scope.inner same
  rw [outline, outline, alone] at inner
  exact List.map_eq_nil_iff.mp inner

end Scope

namespace Store

variable {s t : Store} {name : String} {v : Value}

theorem bind_ok_iff {mutable : Bool} : s.bind name mutable v = .ok t ↔
    s.scope.current.getVariable? name = none ∧
      t = { s with scope := s.scope.bindVariable name ⟨name, mutable, v⟩ } := by
  simp only [bind, map_eq_ok, Scope.defineVariable_eq_ok]
  constructor
  · rintro ⟨_, ⟨free, rfl⟩, rfl⟩
    exact ⟨free, rfl⟩
  · rintro ⟨free, rfl⟩
    exact ⟨_, ⟨free, rfl⟩, rfl⟩

theorem defineFunction_ok_iff {f : Function} : s.defineFunction f = .ok t ↔
    s.scope.current.getFunction? f.name f.parameters.length = none ∧
      t = { s with scope := s.scope.bindFunction f.name f.parameters.length (.declared f) } := by
  simp only [defineFunction, map_eq_ok, Scope.defineFunction_eq_ok]
  constructor
  · rintro ⟨_, ⟨free, rfl⟩, rfl⟩
    exact ⟨free, rfl⟩
  · rintro ⟨free, rfl⟩
    exact ⟨_, ⟨free, rfl⟩, rfl⟩

theorem outline_assign (assigned : s.assign name v = .ok t) :
    t.scope.outline = s.scope.outline := by
  obtain ⟨_, _, same⟩ := bind_eq_ok.mp assigned
  rw [← pure_eq_ok.mp same]
  exact s.scope.outline_setVariable name _

theorem scope_assignElement {offset : Value} (assigned : s.assignElement name offset v = .ok t) :
    t.scope = s.scope := by
  obtain ⟨_, _, same⟩ := bind_eq_ok.mp assigned
  rw [← pure_eq_ok.mp same]

end Store
end Plc
