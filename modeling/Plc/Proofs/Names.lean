import Plc.Proofs.Machine.Soundness
import Plc.Proofs.Operation
import Plc.Proofs.Typing.WellTyped

/-! Names in a run of a compiled program. Every name that the run looks up is bound as the analysis
has it, and every name that it binds is free. -/
namespace Plc

/-- Faults that say that a name is not bound, or is bound already, or that something else stands
in the place of a name. -/
def Fault.isNaming : Fault → Bool
  | undefinedVariable _ | variableAlreadyDefined _ | undefinedFunction .. |
    functionAlreadyDefined .. | assignmentReceiver | mainArity => true
  | _ => false

def Discipline.naming : Discipline where
  fits _ _ := True
  fault fault := fault.isNaming = false

namespace Discipline

theorem naming_of_isOfValues {fault : Fault} (ofValues : fault.isOfValues = true) :
    naming.fault fault := by
  cases fault <;> first | rfl | cases ofValues

theorem keeps_naming (p : Program) : naming.Keeps p where
  any _ := trivial
  nil := trivial
  boolean _ := trivial
  accepts _ _ := trivial
  literal _ := trivial
  listed _ _ := trivial
  truth {v} _ := ends_allow v.truth_ofValues fun _ => naming_of_isOfValues
  index {v} _ length := ends_allow (v.index_ofValues length) fun _ => naming_of_isOfValues
  full _ := rfl
  operate {_ op _ _ _ _ _} _ _ _ heap x y _ _ :=
    ends_allow (op.apply_ofValues heap x y) fun _ => naming_of_isOfValues
  element _ _ := rfl
  immutable _ _ _ := rfl
  declared _ := trivial
  global _ _ _ := trivial
  ends _ _ _ := trivial

end Discipline

namespace Machine

/-- The variable that a configuration is about to look up, with the slot of the phrase that names
it: at the beginning of an access or an assignment, and again when the offset and the value are
there. -/
inductive Config.Uses : Config → String → Option Variable → Prop
  | access {name slot pending store} :
      Uses ⟨.evaluate (.access name slot), pending, store⟩ name slot
  | element {name offset slot pending store} :
      Uses ⟨.evaluate (.element name offset slot), pending, store⟩ name slot
  | read {v name slot pending store} :
      Uses ⟨.value v, .element name slot :: pending, store⟩ name slot
  | assign {name slot value pending store} :
      Uses ⟨.execute (.assign (.access name slot) value), pending, store⟩ name slot
  | assignElement {name offset slot value pending store} :
      Uses ⟨.execute (.assign (.element name offset slot) value), pending, store⟩ name slot
  | write {v name slot pending store} :
      Uses ⟨.value v, .assign name slot :: pending, store⟩ name slot
  | writeElement {v name slot offset pending store} :
      Uses ⟨.value v, .assignElement name slot offset :: pending, store⟩ name slot

/-- The function that a configuration calls: at the beginning of a call, when the last argument is
there, and behind the definitions of the program. -/
inductive Config.Calls : Config → String → Nat → Prop
  | begin {name arguments slot pending store} :
      Calls ⟨.evaluate (.call name arguments slot), pending, store⟩ name arguments.length
  | last {v name found pending store} :
      Calls ⟨.value v, .gather (.call name) found [] :: pending, store⟩ name (found.length + 1)
  | main {mainNamed pending store} : Calls ⟨.load [] [] mainNamed, pending, store⟩ "main" 0

/-- What a name and an arity mean in a program: the builtin, or else the one function that has
them. -/
def Meant (p : Program) (name : String) (arity : Nat) : Callable → Prop
  | .print => (name, arity) = ("print", 1)
  | .declared f => (name, arity) ≠ ("print", 1) ∧
      (p.functions.filter fun g => g.name = name ∧ g.parameters.length = arity) = [f]

structure NamesAgree (p : Program) (c : Config) : Prop where
  uses : ∀ name slot, c.Uses name slot → ∃ v b, slot = some v ∧
    c.store.scope.lookupVariable name = .ok b ∧ b.name = v.name ∧ b.mutable = v.mutable
  calls : ∀ name arity, c.Calls name arity → ∃ callable,
    c.store.scope.lookupFunction name arity = .ok callable ∧ Meant p name arity callable
  binds : ∀ v name mutable slot pending, c.focus = .value v →
    c.pending = .bind name mutable slot :: pending →
    ∃ store, c.store.bind name mutable v = .ok store
  parameters : ∀ f arguments, c.focus = .call f arguments →
    ∃ frame : Frame Binding Callable,
      Frame.defineVariables {} (parameterBindings f arguments) = .ok frame
  definitions : ∀ f fs mainNamed, c.focus = .load [] (f :: fs) mainNamed →
    ∃ store, c.store.defineFunction f = .ok store
  faults : ∀ fault, c.focus = .failing fault → fault.isNaming = false

variable {d : Discipline} {p : Program} {base : Ty} {x : Point}

theorem Callee.meant (typed : p.WellTyped) {name : String} {arity : Nat} {s : Signature}
    {callable : Callable} (callee : Callee p name arity s callable) :
    Meant p name arity callable := by
  obtain ⟨_, callee⟩ := callee
  split at callee
  · rename_i same
    obtain ⟨rfl, _⟩ := callee
    exact same
  · rename_i differs
    obtain ⟨f, member, rfl, rfl, rfl, _⟩ := callee
    exact ⟨differs, typed.filter_functions_eq member⟩

theorem Kept.agrees_variable {view : View} {store : Store} {pending : List Pending}
    (kept : Kept d p view store pending) {name : String} {v : Variable}
    (known : view.scope.getVariable? name = some v) :
    ∃ w b, some v = some w ∧ store.scope.lookupVariable name = .ok b ∧ Cell d.fits name w b := by
  obtain ⟨b, _, looked, cell⟩ := kept.variable known
  exact ⟨v, b, rfl, looked, cell⟩

/-- What stands in front of an assignment is a variable, or an element of one, and is in scope. -/
theorem variable_of_assign (typed : p.WellTyped) {scope : TypeScope} {result : Ty}
    {receiver value : Expr} {ss : List Stmt}
    (place : p.BlockAt scope result (.assign receiver value :: ss)) : receiver.Rule scope := by
  have here : receiver ∈ (Stmt.assign receiver value).parts := List.mem_cons_self
  exact typed.exprs (.stmt place here)

theorem Sound.uses (typed : p.WellTyped) (sound : Sound d p base x) {name : String}
    {slot : Option Variable} (uses : x.config.Uses name slot) : ∃ v b, slot = some v ∧
    x.config.store.scope.lookupVariable name = .ok b ∧ Cell d.fits name v b := by
  obtain ⟨⟨scope, callers⟩, c⟩ := x
  obtain ⟨kept, task⟩ := sound
  cases uses with
  | access =>
    cases task with
    | evaluate place =>
      obtain ⟨v, known, rfl⟩ := typed.exprs place
      exact kept.agrees_variable known
  | element =>
    cases task with
    | evaluate place =>
      obtain ⟨_, v, known, rfl⟩ := typed.exprs place
      exact kept.agrees_variable known
  | read =>
    obtain ⟨_, _, stack⟩ := task.exists_fits rfl
    cases stack with
    | element place =>
      obtain ⟨_, v, known, same⟩ := typed.exprs place
      rw [same]
      exact kept.agrees_variable known
  | assign =>
    cases task with
    | execute place =>
      obtain ⟨v, known, rfl⟩ := variable_of_assign typed place
      exact kept.agrees_variable known
  | assignElement =>
    cases task with
    | execute place =>
      obtain ⟨_, v, known, rfl⟩ := variable_of_assign typed place
      exact kept.agrees_variable known
  | write =>
    obtain ⟨_, _, stack⟩ := task.exists_fits rfl
    cases stack with
    | assign place =>
      obtain ⟨v, known, same⟩ := variable_of_assign typed place
      rw [same]
      exact kept.agrees_variable known
  | writeElement =>
    obtain ⟨_, _, stack⟩ := task.exists_fits rfl
    cases stack with
    | assignElement place =>
      obtain ⟨_, v, known, same⟩ := variable_of_assign typed place
      rw [same]
      exact kept.agrees_variable known

theorem Sound.calls (typed : p.WellTyped) (sound : Sound d p base x) {name : String}
    {arity : Nat} (calls : x.config.Calls name arity) : ∃ callable,
    x.config.store.scope.lookupFunction name arity = .ok callable ∧
      Meant p name arity callable := by
  obtain ⟨⟨scope, callers⟩, c⟩ := x
  obtain ⟨kept, task⟩ := sound
  suffices known : ∃ s, scope.getFunction? name arity = some s by
    obtain ⟨s, known⟩ := known
    obtain ⟨callable, looked, callee⟩ := kept.function known
    exact ⟨callable, looked, Callee.meant typed callee⟩
  cases calls with
  | begin =>
    cases task with
    | evaluate place =>
      obtain ⟨s, known, _⟩ := typed.exprs place
      exact ⟨s, known⟩
  | last =>
    obtain ⟨_, _, stack⟩ := task.exists_fits rfl
    cases stack with
    | argument place length =>
      obtain ⟨s, known, _⟩ := typed.exprs place
      rw [length] at known
      exact ⟨s, known⟩
  | main =>
    obtain ⟨s, known, _⟩ := typed.main
    have here : scope = p.scope := task.functionsAt.eq_scope
    exact ⟨s, here ▸ known⟩

theorem Sound.binds (typed : p.WellTyped) (sound : Sound d p base x) {v : Value} {name : String}
    {mutable : Bool} {slot : Option Variable} {pending : List Pending}
    (focus : x.config.focus = .value v)
    (top : x.config.pending = .bind name mutable slot :: pending) :
    ∃ store, x.config.store.bind name mutable v = .ok store := by
  obtain ⟨⟨scope, callers⟩, ⟨_, _, store⟩⟩ := x
  obtain ⟨kept, task⟩ := sound
  cases focus
  cases top
  cases task with
  | fresh _ _ _ stack =>
    cases stack with
    | defineList place =>
      obtain ⟨_, _, _, _, _, free, _⟩ := typed.globals place
      exact ⟨_, kept.bind_eq free _ _⟩
  | value _ stack =>
    cases stack with
    | declare place =>
      obtain ⟨_, _, free, _⟩ := typed.stmts place
      exact ⟨_, kept.bind_eq free _ _⟩
    | defineSingle place =>
      obtain ⟨_, _, _, _, _, free, _⟩ := typed.globals place
      exact ⟨_, kept.bind_eq free _ _⟩

theorem Sound.namesAgree (typed : p.WellTyped) (sound : Sound .naming p base x) :
    NamesAgree p x.config where
  uses _ _ uses := by
    obtain ⟨v, b, slot, looked, cell⟩ := sound.uses typed uses
    exact ⟨v, b, slot, looked, cell.binding_name.trans cell.variable_name.symm, cell.mutable⟩
  calls _ _ := sound.calls typed
  binds _ _ _ _ _ := sound.binds typed
  parameters f arguments focus := by
    obtain ⟨⟨scope, callers⟩, ⟨_, pending, store⟩⟩ := x
    obtain ⟨_, task⟩ := sound
    cases focus
    cases task with
    | call member slot fit =>
      obtain ⟨frame, bound, _⟩ := exists_parameterFrame typed member slot fit
      exact ⟨frame, bound⟩
  definitions f fs mainNamed focus := by
    obtain ⟨⟨scope, callers⟩, ⟨_, pending, store⟩⟩ := x
    obtain ⟨kept, task⟩ := sound
    cases focus
    obtain ⟨_, _, defined⟩ := kept.defineFunction_eq typed task.functionsAt
    exact ⟨_, defined⟩
  faults fault focus := by
    obtain ⟨⟨scope, callers⟩, ⟨_, pending, store⟩⟩ := x
    obtain ⟨_, task⟩ := sound
    cases focus
    cases task with
    | failing allowed => exact allowed

theorem Sound.naming_after (typed : p.WellTyped) (sound : Sound .naming p base x) (n : Nat) :
    Sound .naming p base (x.after n) :=
  sound.after (Discipline.keeps_naming p) typed n fun _ _ _ _ _ _ _ _ _ _ => trivial

/-- The names of a run of a compiled program agree with the analysis at every point of the run, so
the run does not end in a fault about names. -/
theorem names_agree {text : String} {p : Program} (compiled : compile text = .ok p)
    (room : Option Nat) (report : String) :
    (∀ n, NamesAgree p (((Store.initial room report).start p).after n)) ∧
      ∀ limit fault store,
        (Store.initial room report).runProgram limit p = some (.error fault, store) →
        fault.isNaming = false := by
  have typed := Program.wellTyped_of_compile compiled
  have agree (n : Nat) : NamesAgree p (((Store.initial room report).start p).after n) := by
    have sound := (sound_start .naming p room report).naming_after typed n
    have here := sound.namesAgree typed
    rw [Point.config_after] at here
    exact here
  refine ⟨agree, ?_⟩
  intro limit fault store ran
  obtain ⟨c, ran, answer⟩ := Option.map_eq_some_iff.mp ran
  obtain ⟨⟨n, rfl⟩, _⟩ := exists_after_of_run ran
  have answered : (((Store.initial room report).start p).after n).answer = .error fault :=
    (Prod.mk.inj answer).1
  apply (agree n).faults fault
  rw [Config.answer] at answered
  split at answered
  · cases answered
  · rename_i fault' focus
    rw [focus, Except.error.inj answered]
  · cases answered

def powers : String :=
  "VAL base = 1;
  FUN power(n: Integer): Integer DO
    IF n < 1 DO RETURN base; END
    RETURN 2 * power(n - 1); END
  FUN main(): Integer DO LET n = 0;
    WHILE n < 2 DO LET base = power(n); n = n + base; END
    RETURN n; END"

theorem names_agree_powers : ∃ p, compile powers = .ok p ∧
    (∀ n, NamesAgree p (((Store.initial none).start p).after n)) ∧
    ((Store.initial none).runProgram 400 p).map Prod.fst = some (.ok (.integer 3)) := by
  have runs : ∃ p, compile powers = .ok p ∧
      ((Store.initial none).runProgram 400 p).map Prod.fst = some (.ok (.integer 3)) := by
    decide +kernel
  obtain ⟨p, compiled, ran⟩ := runs
  exact ⟨p, compiled, (names_agree compiled none _).1, ran⟩

end Machine
end Plc
