import Mathlib.Data.List.Forall2
import Plc.Proofs.Growth
import Plc.Proofs.Typing.Places

/-! The names of the analysis against the names of a run. Frame by frame the same names are bound,
and what the run has for a name is as the analysis has it. -/
namespace Plc

/-- A variable of a run is as the variable of the analysis says. What fits a type is left open. -/
structure Cell (fits : Ty → Value → Prop) (name : String) (v : Variable) (b : Binding) :
    Prop where
  variable_name : v.name = name
  binding_name : b.name = name
  mutable : b.mutable = v.mutable
  single : v.list = false → fits v.ty b.value
  list : v.list = true → ∃ a, b.value = .list a

def Callee (p : Program) (name : String) (arity : Nat) (s : Signature) (callable : Callable) :
    Prop :=
  s.arity = arity ∧
    if (name, arity) = ("print", 1) then callable = .print ∧ s = TypeScope.printSignature
    else ∃ f ∈ p.functions, callable = .declared f ∧ f.name = name ∧
      f.parameters.length = arity ∧ f.slot = some s

structure FrameAgrees (fits : Ty → Value → Prop) (p : Program)
    (types : Frame Variable Signature) (frame : Frame Binding Callable) : Prop where
  vars : ∀ name, Option.Rel (Cell fits name) (types.getVariable? name) (frame.getVariable? name)
  funs : ∀ name arity, Option.Rel (Callee p name arity) (types.getFunction? name arity)
    (frame.getFunction? name arity)

structure InnerAgrees (fits : Ty → Value → Prop) (p : Program)
    (types : Frame Variable Signature) (frame : Frame Binding Callable) : Prop
    extends FrameAgrees fits p types frame where
  single : ∀ name v, types.getVariable? name = some v → v.list = false

def Program.Declares (p : Program) (name : String) (v : Variable) : Prop :=
  ∃ g ∈ p.globals, g.name = name ∧ g.slot = some v

structure RootAgrees (fits : Ty → Value → Prop) (p : Program)
    (types : Frame Variable Signature) (frame : Frame Binding Callable) : Prop
    extends FrameAgrees fits p types frame where
  declared : ∀ name v, types.getVariable? name = some v → p.Declares name v

structure Agrees (fits : Ty → Value → Prop) (p : Program) (types : TypeScope)
    (scope : Scope Binding Callable) : Prop where
  inner : List.Forall₂ (InnerAgrees fits p) types.inner scope.inner
  root : RootAgrees fits p types.root scope.root

section

variable {α β : Type} {r : α → β → Prop}

theorem rel_imp {s : α → β → Prop} {a : Option α} {b : Option β} (related : Option.Rel r a b)
    (weaker : ∀ x y, a = some x → b = some y → r x y → s x y) : Option.Rel s a b := by
  cases related with
  | some holds => exact .some (weaker _ _ rfl rfl holds)
  | none => exact .none

theorem rel_or {a c : Option α} {b d : Option β} (first : Option.Rel r a b)
    (second : Option.Rel r c d) : Option.Rel r (a.or c) (b.or d) := by
  cases first with
  | some related => exact .some related
  | none => exact second

theorem exists_of_rel {a : Option α} {b : Option β} {x : α} (related : Option.Rel r a b)
    (found : a = some x) : ∃ y, b = some y ∧ r x y := by
  cases related with
  | some related =>
    cases found
    exact ⟨_, rfl, related⟩
  | none => cases found

theorem eq_none_of_rel {a : Option α} {b : Option β} (related : Option.Rel r a b)
    (free : a = none) : b = none := by
  cases related with
  | some related => cases free
  | none => rfl

end

variable {fits : Ty → Value → Prop} {p : Program}

namespace FrameAgrees

variable {types : Frame Variable Signature} {frame : Frame Binding Callable}

theorem empty : FrameAgrees fits p {} {} :=
  ⟨fun _ => .none, fun _ _ => .none⟩

theorem bindVariable (agrees : FrameAgrees fits p types frame) {name : String} {v : Variable}
    {b : Binding} (cell : Cell fits name v b) :
    FrameAgrees fits p (types.bindVariable name v) (frame.bindVariable name b) := by
  refine ⟨?_, agrees.funs⟩
  intro other
  rw [Frame.getVariable?_bindVariable, Frame.getVariable?_bindVariable]
  split
  · rename_i same
    subst same
    exact .some cell
  · exact agrees.vars other

theorem bindFunction (agrees : FrameAgrees fits p types frame) {name : String} {arity : Nat}
    {s : Signature} {callable : Callable} (callee : Callee p name arity s callable) :
    FrameAgrees fits p (types.bindFunction name arity s)
      (frame.bindFunction name arity callable) := by
  refine ⟨agrees.vars, ?_⟩
  intro other count
  rw [Frame.getFunction?_bindFunction, Frame.getFunction?_bindFunction]
  split
  · rename_i same
    cases same
    exact .some callee
  · exact agrees.funs other count

theorem setVariable (agrees : FrameAgrees fits p types frame) {name : String} {v : Variable}
    {b : Binding} (typed : types.getVariable? name = some v) (cell : Cell fits name v b) :
    FrameAgrees fits p types (frame.setVariable name b) := by
  refine ⟨?_, agrees.funs⟩
  intro other
  rw [Frame.getVariable?_setVariable]
  split
  · rename_i same
    subst same
    obtain ⟨old, found, _⟩ := exists_of_rel (agrees.vars other) typed
    rw [typed, found]
    exact .some cell
  · exact agrees.vars other

end FrameAgrees

/-- A new frame for both: the names can be bound in the one if they can in the other. -/
theorem InnerAgrees.defineVariables {types types' : Frame Variable Signature}
    {frame : Frame Binding Callable} (agrees : InnerAgrees fits p types frame)
    {typed : List (String × Variable)} {bound : List (String × Binding)}
    (cells : List.Forall₂
      (fun t b => t.1 = b.1 ∧ t.2.list = false ∧ Cell fits b.1 t.2 b.2) typed bound)
    (defined : types.defineVariables typed = .ok types') :
    ∃ frame', frame.defineVariables bound = .ok frame' ∧ InnerAgrees fits p types' frame' := by
  -- By induction on the pairs: what is free for the analysis is free in the run.
  induction cells generalizing types frame with
  | nil =>
    obtain rfl := Except.ok.inj defined
    exact ⟨frame, rfl, agrees⟩
  | @cons t b typed bound cell _ ih =>
    obtain ⟨name, v⟩ := t
    obtain ⟨_, c⟩ := b
    obtain ⟨rfl, single, cell⟩ := cell
    obtain ⟨free, defined⟩ := Frame.defineVariables_cons_eq_ok.mp defined
    have freeToo := eq_none_of_rel (agrees.vars name) free
    have nextAgrees : InnerAgrees fits p (types.bindVariable name v)
        (frame.bindVariable name c) := by
      refine ⟨agrees.bindVariable cell, ?_⟩
      intro other w found
      rcases Frame.eq_or_of_getVariable?_bindVariable found with ⟨rfl, rfl⟩ | found
      · exact single
      · exact agrees.single other w found
    obtain ⟨frame', boundAll, last⟩ := ih nextAgrees defined
    exact ⟨frame', Frame.defineVariables_cons_eq_ok.mpr ⟨freeToo, boundAll⟩, last⟩

namespace Agrees

variable {types : TypeScope} {scope : Scope Binding Callable}

theorem getVariable? (agrees : Agrees fits p types scope) (name : String) :
    Option.Rel (Cell fits name) (types.getVariable? name) (scope.getVariable? name) := by
  obtain ⟨typeFrames, typeRoot⟩ := types
  obtain ⟨frames, root⟩ := scope
  obtain ⟨inner, rootAgrees⟩ := agrees
  change List.Forall₂ _ typeFrames frames at inner
  induction inner with
  | nil =>
    rw [Scope.getVariable?_nil, Scope.getVariable?_nil]
    exact rootAgrees.vars name
  | cons first _ ih =>
    rw [Scope.getVariable?_cons, Scope.getVariable?_cons]
    exact rel_or (first.vars name) (ih rootAgrees)

theorem getFunction? (agrees : Agrees fits p types scope) (name : String) (arity : Nat) :
    Option.Rel (Callee p name arity) (types.getFunction? name arity)
      (scope.getFunction? name arity) := by
  obtain ⟨typeFrames, typeRoot⟩ := types
  obtain ⟨frames, root⟩ := scope
  obtain ⟨inner, rootAgrees⟩ := agrees
  change List.Forall₂ _ typeFrames frames at inner
  induction inner with
  | nil =>
    rw [Scope.getFunction?_nil, Scope.getFunction?_nil]
    exact rootAgrees.funs name arity
  | cons first _ ih =>
    rw [Scope.getFunction?_cons, Scope.getFunction?_cons]
    exact rel_or (first.funs name arity) (ih rootAgrees)

theorem getVariable?_list (agrees : Agrees fits p types scope) {name : String} {v : Variable}
    (found : types.getVariable? name = some v) (list : v.list = true) :
    types.root.getVariable? name = some v ∧
      scope.getVariable? name = scope.root.getVariable? name := by
  obtain ⟨typeFrames, typeRoot⟩ := types
  obtain ⟨frames, root⟩ := scope
  obtain ⟨inner, rootAgrees⟩ := agrees
  change List.Forall₂ _ typeFrames frames at inner
  induction inner with
  | nil =>
    rw [Scope.getVariable?_nil] at found ⊢
    exact ⟨found, rfl⟩
  | @cons typeFrame frame _ _ first _ ih =>
    rw [Scope.getVariable?_cons] at found ⊢
    cases here : typeFrame.getVariable? name with
    | some w =>
      rw [here, Option.some_or] at found
      cases found
      rw [first.single name v here] at list
      cases list
    | none =>
      rw [here, Option.none_or] at found
      rw [eq_none_of_rel (first.vars name) here, Option.none_or]
      exact ih found rootAgrees

theorem enter (agrees : Agrees fits p types scope) {typeFrame : Frame Variable Signature}
    {frame : Frame Binding Callable} (frameAgrees : InnerAgrees fits p typeFrame frame) :
    Agrees fits p (types.enter typeFrame) (scope.enter frame) :=
  ⟨.cons frameAgrees agrees.inner, agrees.root⟩

theorem leave (agrees : Agrees fits p types scope) : Agrees fits p types.leave scope.leave := by
  obtain ⟨typeFrames, typeRoot⟩ := types
  obtain ⟨frames, root⟩ := scope
  obtain ⟨inner, rootAgrees⟩ := agrees
  cases inner with
  | nil => exact ⟨.nil, rootAgrees⟩
  | cons _ others => exact ⟨others, rootAgrees⟩

theorem withInner (agrees : Agrees fits p types scope)
    {typeFrames : List (Frame Variable Signature)} {frames : List (Frame Binding Callable)}
    (inner : List.Forall₂ (InnerAgrees fits p) typeFrames frames) :
    Agrees fits p { types with inner := typeFrames } { scope with inner := frames } :=
  ⟨inner, agrees.root⟩

theorem current_eq_none (agrees : Agrees fits p types scope) {name : String}
    (free : types.current.getVariable? name = none) :
    scope.current.getVariable? name = none := by
  obtain ⟨typeFrames, typeRoot⟩ := types
  obtain ⟨frames, root⟩ := scope
  obtain ⟨inner, rootAgrees⟩ := agrees
  cases inner with
  | nil => exact eq_none_of_rel (rootAgrees.vars name) free
  | cons first _ => exact eq_none_of_rel (first.vars name) free

theorem bindVariable (agrees : Agrees fits p types scope) {name : String} {v : Variable}
    {b : Binding} (cell : Cell fits name v b) (outside : types.inner = [] → p.Declares name v)
    (inside : types.inner ≠ [] → v.list = false) :
    Agrees fits p (types.bindVariable name v) (scope.bindVariable name b) := by
  obtain ⟨typeFrames, typeRoot⟩ := types
  obtain ⟨frames, root⟩ := scope
  obtain ⟨inner, rootAgrees⟩ := agrees
  cases inner with
  | nil =>
    refine ⟨.nil, rootAgrees.bindVariable cell, ?_⟩
    intro other w found
    rcases Frame.eq_or_of_getVariable?_bindVariable found with ⟨rfl, rfl⟩ | found
    · exact outside rfl
    · exact rootAgrees.declared other w found
  | cons first others =>
    refine ⟨.cons ⟨first.bindVariable cell, ?_⟩ others, rootAgrees⟩
    intro other w found
    rcases Frame.eq_or_of_getVariable?_bindVariable found with ⟨rfl, rfl⟩ | found
    · exact inside (List.cons_ne_nil _ _)
    · exact first.single other w found

theorem bindFunction (agrees : Agrees fits p types scope) {name : String} {arity : Nat}
    {s : Signature} {callable : Callable} (callee : Callee p name arity s callable)
    (outside : types.inner = []) :
    Agrees fits p (types.bindFunction name arity s) (scope.bindFunction name arity callable) := by
  obtain ⟨typeFrames, typeRoot⟩ := types
  obtain ⟨frames, root⟩ := scope
  obtain ⟨inner, rootAgrees⟩ := agrees
  obtain rfl : typeFrames = [] := outside
  cases inner
  exact ⟨.nil, rootAgrees.bindFunction callee, rootAgrees.declared⟩

theorem setVariable (agrees : Agrees fits p types scope) {name : String} {v : Variable}
    {b : Binding} (found : types.getVariable? name = some v) (cell : Cell fits name v b) :
    Agrees fits p types (scope.setVariable name b) := by
  obtain ⟨typeFrames, typeRoot⟩ := types
  obtain ⟨frames, root⟩ := scope
  obtain ⟨inner, rootAgrees⟩ := agrees
  change List.Forall₂ _ typeFrames frames at inner
  induction inner with
  | nil =>
    rw [Scope.getVariable?_nil] at found
    exact ⟨.nil, rootAgrees.setVariable found cell, rootAgrees.declared⟩
  | @cons typeFrame frame _ _ first others ih =>
    rw [Scope.getVariable?_cons] at found
    rw [Scope.setVariable_cons]
    cases here : typeFrame.getVariable? name with
    | some w =>
      rw [here, Option.some_or] at found
      cases found
      obtain ⟨old, bound, _⟩ := exists_of_rel (first.vars name) here
      rw [bound, Option.isSome_some, if_pos rfl]
      exact ⟨.cons ⟨first.setVariable here cell, first.single⟩ others, rootAgrees⟩
    | none =>
      rw [here, Option.none_or] at found
      rw [eq_none_of_rel (first.vars name) here, Option.isSome_none, if_neg Bool.false_ne_true]
      exact (ih found rootAgrees).enter first

theorem root_setVariable_list (agrees : Agrees fits p types scope) {name other : String}
    {v w : Variable} (found : types.getVariable? name = some v) (single : v.list = false)
    (b : Binding) (typed : types.root.getVariable? other = some w) (list : w.list = true) :
    (scope.setVariable name b).root.getVariable? other = scope.root.getVariable? other := by
  obtain ⟨typeFrames, typeRoot⟩ := types
  obtain ⟨frames, root⟩ := scope
  obtain ⟨inner, rootAgrees⟩ := agrees
  change List.Forall₂ _ typeFrames frames at inner
  induction inner with
  | nil =>
    show (root.setVariable name b).getVariable? other = root.getVariable? other
    rw [Frame.getVariable?_setVariable, if_neg]
    rintro rfl
    rw [Scope.getVariable?_nil] at found
    cases found.symm.trans typed
    rw [single] at list
    cases list
  | @cons typeFrame frame _ _ first others ih =>
    rw [Scope.getVariable?_cons] at found
    rw [Scope.setVariable_cons]
    cases here : typeFrame.getVariable? name with
    | some u =>
      obtain ⟨old, bound, _⟩ := exists_of_rel (first.vars name) here
      rw [bound, Option.isSome_some, if_pos rfl]
    | none =>
      rw [here, Option.none_or] at found
      rw [eq_none_of_rel (first.vars name) here, Option.isSome_none, if_neg Bool.false_ne_true]
      exact ih found typed rootAgrees

end Agrees

def ListAt (types : Frame Variable Signature) (root : Frame Binding Callable) (name : String)
    (v : Variable) (a : Nat) : Prop :=
  types.getVariable? name = some v ∧ v.list = true ∧
    ∃ b, root.getVariable? name = some b ∧ b.value = .list a

/-- Each list variable has a list of its own, whose elements fit the type of the variable. -/
structure Lists (fits : Ty → Value → Prop) (types : Frame Variable Signature)
    (root : Frame Binding Callable) (heap : Heap) : Prop where
  bound : ∀ name v a, ListAt types root name v a → a < heap.lists.size
  fit : ∀ name v a, ListAt types root name v a → ∀ x ∈ heap.elements a, fits v.ty x
  apart : ∀ name v other w a, ListAt types root name v a → ListAt types root other w a →
    name = other

namespace Lists

variable {types types' : Frame Variable Signature} {root root' : Frame Binding Callable}
  {heap : Heap}

theorem of_listAt (lists : Lists fits types root heap)
    (old : ∀ name v a, ListAt types' root' name v a → ListAt types root name v a) :
    Lists fits types' root' heap where
  bound name v a here := lists.bound name v a (old name v a here)
  fit name v a here := lists.fit name v a (old name v a here)
  apart name v other w a here there :=
    lists.apart name v other w a (old name v a here) (old other w a there)

theorem allocate (lists : Lists fits types root heap) (values : List Value) :
    Lists fits types root (heap.allocate values).2 where
  bound name v a here := by
    have bound := lists.bound name v a here
    show a < (heap.lists.push values.toArray).size
    rw [Array.size_push]
    omega
  fit name v a here := by
    rw [Heap.elements_allocate, if_neg (Nat.ne_of_lt (lists.bound name v a here))]
    exact lists.fit name v a here
  apart := lists.apart

/-- What is written to a list fits every list variable that has the list. -/
theorem write (lists : Lists fits types root heap) {a : Nat} {x : Value}
    (fit : ∀ name v, ListAt types root name v a → fits v.ty x) (i : Nat) :
    Lists fits types root (heap.write a i x) where
  bound name v b here := by
    rw [Heap.size_write]
    exact lists.bound name v b here
  fit name v b here y member := by
    rw [Heap.elements_write] at member
    split at member
    · rename_i same
      subst same
      rcases Array.mem_or_eq_of_mem_setIfInBounds member with member | rfl
      · exact lists.fit name v a here y member
      · exact fit name v here
    · exact lists.fit name v b here y member
  apart := lists.apart

theorem bindSingle (lists : Lists fits types root heap) {name : String} {v : Variable}
    (single : v.list = false) (b : Binding) :
    Lists fits (types.bindVariable name v) (root.bindVariable name b) heap := by
  apply lists.of_listAt
  rintro other w a ⟨typed, list, c, found, holds⟩
  rw [Frame.getVariable?_bindVariable] at typed found
  split at typed
  · cases typed
    rw [single] at list
    cases list
  · rename_i differs
    rw [if_neg differs] at found
    exact ⟨typed, list, c, found, holds⟩

/-- A variable bound in a scope, wherever that is, is no new list variable. -/
theorem bindScope {types : TypeScope} {scope : Scope Binding Callable}
    (agrees : Agrees fits p types scope) (lists : Lists fits types.root scope.root heap)
    {name : String} {v : Variable} (single : v.list = false) (b : Binding) :
    Lists fits (types.bindVariable name v).root (scope.bindVariable name b).root heap := by
  obtain ⟨typeFrames, typeRoot⟩ := types
  obtain ⟨frames, root⟩ := scope
  obtain ⟨inner, rootAgrees⟩ := agrees
  cases inner with
  | nil => exact lists.bindSingle single b
  | cons _ _ => exact lists

theorem bindFunction {types : TypeScope} {scope : Scope Binding Callable}
    (lists : Lists fits types.root scope.root heap) (name : String) (arity : Nat) (s : Signature)
    (callable : Callable) :
    Lists fits (types.bindFunction name arity s).root
      (scope.bindFunction name arity callable).root heap := by
  obtain ⟨typeFrames, typeRoot⟩ := types
  obtain ⟨frames, root⟩ := scope
  cases typeFrames with
  | nil =>
    cases frames with
    | nil => exact ⟨lists.bound, lists.fit, lists.apart⟩
    | cons _ _ => exact ⟨lists.bound, lists.fit, lists.apart⟩
  | cons _ _ =>
    cases frames with
    | nil => exact ⟨lists.bound, lists.fit, lists.apart⟩
    | cons _ _ => exact lists

theorem bindList (lists : Lists fits types root heap) {name : String} {v : Variable}
    {b : Binding} {a : Nat} (holds : b.value = .list a) (bound : a < heap.lists.size)
    (fit : ∀ x ∈ heap.elements a, fits v.ty x)
    (fresh : ∀ other w, ¬ ListAt types root other w a) :
    Lists fits (types.bindVariable name v) (root.bindVariable name b) heap := by
  -- A list variable that has the list is the new one, or it was there before.
  have old : ∀ other w c,
      ListAt (types.bindVariable name v) (root.bindVariable name b) other w c →
      (other = name ∧ w = v ∧ c = a) ∨ (other ≠ name ∧ ListAt types root other w c) := by
    rintro other w c ⟨typed, list, d, found, value⟩
    rw [Frame.getVariable?_bindVariable] at typed found
    split at typed
    · rename_i same
      rw [if_pos same] at found
      cases typed
      cases found
      rw [holds] at value
      cases value
      exact .inl ⟨same, rfl, rfl⟩
    · rename_i differs
      rw [if_neg differs] at found
      exact .inr ⟨differs, typed, list, d, found, value⟩
  refine ⟨?_, ?_, ?_⟩
  · intro other w c here
    rcases old other w c here with ⟨_, rfl, rfl⟩ | ⟨_, here⟩
    · exact bound
    · exact lists.bound other w c here
  · intro other w c here
    rcases old other w c here with ⟨_, rfl, rfl⟩ | ⟨_, here⟩
    · exact fit
    · exact lists.fit other w c here
  · intro first u second w c here there
    rcases old first u c here with ⟨isName, _, isNew⟩ | ⟨_, hereOld⟩
    · rcases old second w c there with ⟨isName', _, _⟩ | ⟨_, thereOld⟩
      · exact isName.trans isName'.symm
      · exact absurd (isNew ▸ thereOld) (fresh second w)
    · rcases old second w c there with ⟨_, _, isNew⟩ | ⟨_, thereOld⟩
      · exact absurd (isNew ▸ hereOld) (fresh first u)
      · exact lists.apart first u second w c hereOld thereOld

end Lists
end Plc
