import Plc.Proofs.Outcome
import Plc.Scope

/-! What the operations on scopes do to the meaning of names. -/
namespace Plc

variable {V F : Type}

namespace Frame

theorem defineVariable_eq_ok {frame frame' : Frame V F} {name : String} {value : V} :
    frame.defineVariable name value = .ok frame' ↔
      frame.getVariable? name = none ∧ frame.bindVariable name value = frame' := by
  rw [defineVariable]
  cases frame.getVariable? name with
  | some other => simp
  | none => simp

theorem defineFunction_eq_ok {frame frame' : Frame V F} {name : String} {arity : Nat}
    {value : F} :
    frame.defineFunction name arity value = .ok frame' ↔
      frame.getFunction? name arity = none ∧ frame.bindFunction name arity value = frame' := by
  rw [defineFunction]
  cases frame.getFunction? name arity with
  | some other => simp
  | none => simp

def bindVariables (frame : Frame V F) (entries : List (String × V)) : Frame V F :=
  entries.foldl (fun frame entry => frame.bindVariable entry.1 entry.2) frame

theorem defineVariables_cons_eq_ok {frame frame' : Frame V F} {name : String} {value : V}
    {entries : List (String × V)} :
    frame.defineVariables ((name, value) :: entries) = .ok frame' ↔
      frame.getVariable? name = none ∧
        (frame.bindVariable name value).defineVariables entries = .ok frame' := by
  rw [defineVariables]
  cases first : frame.defineVariable name value with
  | error fault =>
    constructor
    · intro failed
      cases failed
    · rintro ⟨free, _⟩
      cases first.symm.trans (defineVariable_eq_ok.mpr ⟨free, rfl⟩)
  | ok next =>
    obtain ⟨free, rfl⟩ := defineVariable_eq_ok.mp first
    exact (and_iff_right free).symm

theorem eq_bindVariables_of_defineVariables {frame frame' : Frame V F}
    {entries : List (String × V)} (defined : frame.defineVariables entries = .ok frame') :
    frame' = frame.bindVariables entries := by
  induction entries generalizing frame with
  | nil => exact (Except.ok.inj defined).symm
  | cons entry entries ih =>
    obtain ⟨_, defined⟩ := defineVariables_cons_eq_ok.mp defined
    exact ih defined

theorem mem_of_getVariable?_bindVariables {frame : Frame V F} {entries : List (String × V)}
    {name : String} {value : V}
    (found : (frame.bindVariables entries).getVariable? name = some value) :
    (name, value) ∈ entries ∨ frame.getVariable? name = some value := by
  induction entries generalizing frame with
  | nil => exact .inr found
  | cons entry entries ih =>
    rcases ih found with member | here
    · exact .inl (List.mem_cons_of_mem _ member)
    · rw [getVariable?_bindVariable] at here
      split at here
      · rename_i same
        obtain rfl := Option.some.inj here
        exact .inl (same ▸ List.mem_cons_self)
      · exact .inr here

theorem getVariable?_bindVariables_isSome {frame : Frame V F} {entries : List (String × V)}
    {name : String} (bound : name ∈ entries.map (·.1) ∨ (frame.getVariable? name).isSome) :
    ((frame.bindVariables entries).getVariable? name).isSome := by
  induction entries generalizing frame with
  | nil => exact bound.resolve_left List.not_mem_nil
  | cons entry entries ih =>
    apply ih
    rw [getVariable?_bindVariable]
    split
    · exact .inr rfl
    · rename_i differs
      exact bound.imp_left fun member => (List.mem_cons.mp member).resolve_left differs

/-- Names that can be defined one after the other are free, and differ from each other. -/
theorem free_of_defineVariables {frame frame' : Frame V F} {entries : List (String × V)}
    (defined : frame.defineVariables entries = .ok frame') :
    (entries.map (·.1)).Nodup ∧ ∀ name ∈ entries.map (·.1), frame.getVariable? name = none := by
  induction entries generalizing frame with
  | nil => exact ⟨.nil, nofun⟩
  | cons entry entries ih =>
    obtain ⟨name, value⟩ := entry
    obtain ⟨free, defined⟩ := defineVariables_cons_eq_ok.mp defined
    obtain ⟨nodup, others⟩ := ih defined
    have apart : ∀ other ∈ entries.map (·.1), other ≠ name ∧ frame.getVariable? other = none := by
      intro other member
      have none := others other member
      rw [getVariable?_bindVariable] at none
      split at none
      · cases none
      · rename_i differs
        exact ⟨differs, none⟩
    refine ⟨List.nodup_cons.mpr ⟨fun member => (apart name member).1 rfl, nodup⟩, ?_⟩
    exact List.forall_mem_cons.mpr ⟨free, fun other member => (apart other member).2⟩

theorem funs_bindVariables (frame : Frame V F) (entries : List (String × V)) :
    (frame.bindVariables entries).funs = frame.funs := by
  induction entries generalizing frame with
  | nil => rfl
  | cons entry entries ih => exact ih _

theorem getVariable?_setVariable (frame : Frame V F) (name other : String) (value : V) :
    (frame.setVariable name value).getVariable? other =
      if other = name then (frame.getVariable? name).map fun _ => value
      else frame.getVariable? other := by
  simp only [getVariable?, setVariable]
  induction frame.vars with
  | nil => simp
  | cons entry entries ih =>
    obtain ⟨bound, old⟩ := entry
    by_cases same : bound = name
    · subst same
      by_cases sought : other = bound
      · simp [sought]
      · have differs : (other == bound) = false := by simpa using sought
        simpa [List.lookup_cons, sought, differs] using ih
    · by_cases sought : other = name
      · subst sought
        have differs : (other == bound) = false := by simpa using fun h => same h.symm
        simpa [List.lookup_cons, same, differs] using ih
      · simp only [List.map_cons, same, sought, if_false, List.lookup_cons] at ih ⊢
        rw [ih]

theorem eq_or_of_getVariable?_bindVariable {frame : Frame V F} {name other : String}
    {value found : V} (here : (frame.bindVariable name value).getVariable? other = some found) :
    (other = name ∧ found = value) ∨ frame.getVariable? other = some found := by
  rw [getVariable?_bindVariable] at here
  split at here
  · rename_i same
    exact .inl ⟨same, (Option.some.inj here).symm⟩
  · exact .inr here

end Frame

namespace Scope

/-- Binds a name in the innermost frame, whether or not it has the name. -/
def bindVariable (scope : Scope V F) (name : String) (value : V) : Scope V F :=
  scope.withCurrent (scope.current.bindVariable name value)

def bindFunction (scope : Scope V F) (name : String) (arity : Nat) (value : F) : Scope V F :=
  scope.withCurrent (scope.current.bindFunction name arity value)

theorem current_withCurrent (scope : Scope V F) (frame : Frame V F) :
    (scope.withCurrent frame).current = frame := by
  obtain ⟨inner, root⟩ := scope
  cases inner <;> rfl

theorem withCurrent_withCurrent (scope : Scope V F) (frame frame' : Frame V F) :
    (scope.withCurrent frame).withCurrent frame' = scope.withCurrent frame' := by
  obtain ⟨inner, root⟩ := scope
  cases inner <;> rfl

theorem withCurrent_current (scope : Scope V F) : scope.withCurrent scope.current = scope := by
  obtain ⟨inner, root⟩ := scope
  cases inner <;> rfl

theorem lookupVariable_eq_ok {scope : Scope V F} {name : String} {value : V} :
    scope.lookupVariable name = .ok value ↔ scope.getVariable? name = some value := by
  rw [lookupVariable]
  cases scope.getVariable? name with
  | none => simp
  | some other => simp

theorem lookupFunction_eq_ok {scope : Scope V F} {name : String} {arity : Nat} {value : F} :
    scope.lookupFunction name arity = .ok value ↔ scope.getFunction? name arity = some value := by
  rw [lookupFunction]
  cases scope.getFunction? name arity with
  | none => simp
  | some other => simp

theorem defineVariable_eq_ok {scope scope' : Scope V F} {name : String} {value : V} :
    scope.defineVariable name value = .ok scope' ↔
      scope.current.getVariable? name = none ∧ scope.bindVariable name value = scope' := by
  simp only [defineVariable, map_eq_ok, Frame.defineVariable_eq_ok, bindVariable]
  constructor
  · rintro ⟨frame, ⟨free, rfl⟩, rfl⟩
    exact ⟨free, rfl⟩
  · rintro ⟨free, rfl⟩
    exact ⟨_, ⟨free, rfl⟩, rfl⟩

theorem defineFunction_eq_ok {scope scope' : Scope V F} {name : String} {arity : Nat}
    {value : F} :
    scope.defineFunction name arity value = .ok scope' ↔
      scope.current.getFunction? name arity = none ∧
        scope.bindFunction name arity value = scope' := by
  simp only [defineFunction, map_eq_ok, Frame.defineFunction_eq_ok, bindFunction]
  constructor
  · rintro ⟨frame, ⟨free, rfl⟩, rfl⟩
    exact ⟨free, rfl⟩
  · rintro ⟨free, rfl⟩
    exact ⟨_, ⟨free, rfl⟩, rfl⟩

theorem getVariable?_nil (root : Frame V F) (name : String) :
    Scope.getVariable? ⟨[], root⟩ name = root.getVariable? name := by
  simp only [getVariable?, frames, List.nil_append, List.findSome?_cons, List.findSome?_nil]
  cases root.getVariable? name <;> rfl

theorem getVariable?_cons (frame : Frame V F) (inner : List (Frame V F)) (root : Frame V F)
    (name : String) :
    Scope.getVariable? ⟨frame :: inner, root⟩ name =
      (frame.getVariable? name).or (Scope.getVariable? ⟨inner, root⟩ name) :=
  getVariable?_enter ⟨inner, root⟩ frame name

theorem getFunction?_nil (root : Frame V F) (name : String) (arity : Nat) :
    Scope.getFunction? ⟨[], root⟩ name arity = root.getFunction? name arity := by
  simp only [getFunction?, frames, List.nil_append, List.findSome?_cons, List.findSome?_nil]
  cases root.getFunction? name arity <;> rfl

theorem getFunction?_cons (frame : Frame V F) (inner : List (Frame V F)) (root : Frame V F)
    (name : String) (arity : Nat) :
    Scope.getFunction? ⟨frame :: inner, root⟩ name arity =
      (frame.getFunction? name arity).or (Scope.getFunction? ⟨inner, root⟩ name arity) :=
  getFunction?_enter ⟨inner, root⟩ frame name arity

theorem getVariable?_bindVariable (scope : Scope V F) (name other : String) (value : V) :
    (scope.bindVariable name value).getVariable? other =
      if other = name then some value else scope.getVariable? other := by
  obtain ⟨inner, root⟩ := scope
  cases inner with
  | nil =>
    show Scope.getVariable? ⟨[], root.bindVariable name value⟩ other = _
    rw [getVariable?_nil, getVariable?_nil, Frame.getVariable?_bindVariable]
  | cons frame inner =>
    show Scope.getVariable? ⟨frame.bindVariable name value :: inner, root⟩ other = _
    rw [getVariable?_cons, getVariable?_cons, Frame.getVariable?_bindVariable]
    split
    · rfl
    · rfl

theorem getFunction?_bindVariable (scope : Scope V F) (name other : String) (value : V)
    (arity : Nat) :
    (scope.bindVariable name value).getFunction? other arity = scope.getFunction? other arity := by
  obtain ⟨inner, root⟩ := scope
  cases inner with
  | nil => rfl
  | cons frame inner => rfl

theorem getFunction?_bindFunction (scope : Scope V F) (name other : String) (arity count : Nat)
    (value : F) :
    (scope.bindFunction name arity value).getFunction? other count =
      if (other, count) = (name, arity) then some value else scope.getFunction? other count := by
  obtain ⟨inner, root⟩ := scope
  cases inner with
  | nil =>
    show Scope.getFunction? ⟨[], root.bindFunction name arity value⟩ other count = _
    rw [getFunction?_nil, getFunction?_nil, Frame.getFunction?_bindFunction]
  | cons frame inner =>
    show Scope.getFunction? ⟨frame.bindFunction name arity value :: inner, root⟩ other count = _
    rw [getFunction?_cons, getFunction?_cons, Frame.getFunction?_bindFunction]
    split
    · rfl
    · rfl

theorem getVariable?_bindFunction (scope : Scope V F) (name other : String) (arity : Nat)
    (value : F) :
    (scope.bindFunction name arity value).getVariable? other = scope.getVariable? other := by
  obtain ⟨inner, root⟩ := scope
  cases inner with
  | nil => rfl
  | cons frame inner => rfl

theorem setVariable_cons (frame : Frame V F) (inner : List (Frame V F)) (root : Frame V F)
    (name : String) (value : V) :
    Scope.setVariable ⟨frame :: inner, root⟩ name value =
      if (frame.getVariable? name).isSome then ⟨frame.setVariable name value :: inner, root⟩
      else (Scope.setVariable ⟨inner, root⟩ name value).enter frame := by
  cases here : frame.getVariable? name with
  | some old => simp [setVariable, Frame.setFirst, here]
  | none =>
    simp only [setVariable, List.any_cons, Frame.setFirst, here, Option.isSome_none,
      Bool.false_or, Bool.false_eq_true, if_false]
    split
    · rfl
    · rfl

end Scope
end Plc
