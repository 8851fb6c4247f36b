import Plc.Proofs.Scope

/-! The image of a scope in which each function is replaced by another that belongs to it. Every
operation on the image does what it does on the scope itself. -/
namespace Plc

variable {V F G : Type}

namespace Frame

variable (g : F → G) (frame : Frame V F)

def image : Frame V G := ⟨frame.vars, frame.funs.map fun entry => (entry.1, g entry.2)⟩

theorem getVariable?_image (name : String) :
    (frame.image g).getVariable? name = frame.getVariable? name := rfl

theorem getFunction?_image (name : String) (arity : Nat) :
    (frame.image g).getFunction? name arity = (frame.getFunction? name arity).map g := by
  simp only [getFunction?, image]
  induction frame.funs with
  | nil => rfl
  | cons entry entries ih =>
    obtain ⟨key, f⟩ := entry
    simp only [List.map_cons, List.lookup_cons, ih]
    split <;> rfl

theorem defineVariable_image (name : String) (value : V) :
    (frame.image g).defineVariable name value =
      (frame.defineVariable name value).map (image g) := by
  rw [defineVariable, defineVariable, getVariable?_image]
  split <;> rfl

theorem defineFunction_image (name : String) (arity : Nat) (f : F) :
    (frame.image g).defineFunction name arity (g f) =
      (frame.defineFunction name arity f).map (image g) := by
  rw [defineFunction, defineFunction, getFunction?_image]
  cases frame.getFunction? name arity <;> rfl

theorem defineVariables_image (entries : List (String × V)) :
    (frame.image g).defineVariables entries = (frame.defineVariables entries).map (image g) := by
  induction entries generalizing frame with
  | nil => rfl
  | cons entry entries ih =>
    obtain ⟨name, value⟩ := entry
    rw [defineVariables, defineVariables, defineVariable_image]
    cases frame.defineVariable name value with
    | error fault => rfl
    | ok frame => exact ih frame

theorem setFirst_image (name : String) (value : V) (frames : List (Frame V F)) :
    setFirst name value (frames.map (image g)) = (setFirst name value frames).map (image g) := by
  induction frames with
  | nil => rfl
  | cons frame frames ih =>
    rw [List.map_cons, setFirst, setFirst, getVariable?_image]
    split
    · rfl
    · rw [ih, List.map_cons]

end Frame

namespace Scope

variable (g : F → G) (scope : Scope V F)

def image : Scope V G := ⟨scope.inner.map (Frame.image g), scope.root.image g⟩

theorem frames_image : (scope.image g).frames = scope.frames.map (Frame.image g) := by
  rw [frames, frames, List.map_append]
  rfl

theorem lookupVariable_image (name : String) :
    (scope.image g).lookupVariable name = scope.lookupVariable name := by
  rw [lookupVariable, lookupVariable, getVariable?, getVariable?, frames_image, List.findSome?_map]
  rfl

theorem getFunction?_image (name : String) (arity : Nat) :
    (scope.image g).getFunction? name arity = (scope.getFunction? name arity).map g := by
  rw [getFunction?, getFunction?, frames_image, List.findSome?_map, List.map_findSome?]
  congr 1
  funext frame
  exact frame.getFunction?_image g name arity

theorem lookupFunction_image (name : String) (arity : Nat) :
    (scope.image g).lookupFunction name arity = (scope.lookupFunction name arity).map g := by
  rw [lookupFunction, lookupFunction, getFunction?_image]
  cases scope.getFunction? name arity <;> rfl

theorem current_image : (scope.image g).current = scope.current.image g := by
  obtain ⟨_ | ⟨frame, inner⟩, root⟩ := scope <;> rfl

theorem withCurrent_image (frame : Frame V F) :
    (scope.image g).withCurrent (frame.image g) = (scope.withCurrent frame).image g := by
  obtain ⟨_ | ⟨_, inner⟩, root⟩ := scope <;> rfl

theorem map_withCurrent_image (made : Except Fault (Frame V F)) :
    (made.map (Frame.image g)).map (scope.image g).withCurrent =
      (made.map scope.withCurrent).map (image g) := by
  cases made with
  | error fault => rfl
  | ok frame => exact congrArg _ (scope.withCurrent_image g frame)

theorem defineVariable_image (name : String) (value : V) :
    (scope.image g).defineVariable name value =
      (scope.defineVariable name value).map (image g) := by
  rw [defineVariable, defineVariable, current_image, Frame.defineVariable_image,
    map_withCurrent_image]

theorem defineFunction_image (name : String) (arity : Nat) (f : F) :
    (scope.image g).defineFunction name arity (g f) =
      (scope.defineFunction name arity f).map (image g) := by
  rw [defineFunction, defineFunction, current_image, Frame.defineFunction_image,
    map_withCurrent_image]

theorem setVariable_image (name : String) (value : V) :
    (scope.image g).setVariable name value = (scope.setVariable name value).image g := by
  have found : ((scope.image g).inner.any fun frame => (frame.getVariable? name).isSome) =
      scope.inner.any fun frame => (frame.getVariable? name).isSome := by
    rw [image, List.any_map]
    rfl
  rw [setVariable, setVariable, found]
  split
  · simp only [image, Frame.setFirst_image]
  · rfl

theorem leave_image : (scope.image g).leave = scope.leave.image g := by
  obtain ⟨_ | ⟨_, inner⟩, root⟩ := scope <;> rfl

end Scope
end Plc
