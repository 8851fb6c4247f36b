import Plc.Proofs.Machine.Step
import Plc.Proofs.Operation

/-! Where faults about the variable behind a name come from: that it may not be assigned to when an
assignment begins, and that it has no list when an element is read or written. -/
namespace Plc

def Fault.isGuard : Fault → Bool
  | immutableAssignment _ | notAList _ => true
  | _ => false

def Unguarded {α : Type} (result : Except Fault α) : Prop :=
  Ends (·.isGuard = false) (fun _ => True) result

theorem unguarded_ofValues {α : Type} {result : Except Fault α}
    (ends : Ends (·.isOfValues = true) (fun _ => True) result) : Unguarded result := by
  apply ends_allow ends
  intro fault ofValues
  cases fault <;> first | rfl | cases ofValues

theorem Unguarded.elim {α : Type} {result : Except Fault α} (unguarded : Unguarded result)
    {fault : Fault} (failed : result = .error fault) (guard : fault.isGuard = true) : False := by
  subst failed
  exact Bool.false_ne_true (unguarded.symm.trans guard)

theorem guard_of_unguarded {α : Type} {result : Except Fault α} (unguarded : Unguarded result)
    (expected : Fault) :
    Ends (fun fault => fault.isGuard = true → fault = expected) (fun _ => True) result := by
  apply ends_allow unguarded
  intro fault other guard
  exact absurd (other.symm.trans guard) Bool.false_ne_true

section Names

variable {V F : Type}

theorem unguarded_map {α β : Type} {result : Except Fault α} (unguarded : Unguarded result)
    (f : α → β) : Unguarded (result.map f) := by
  cases result with
  | error fault => exact unguarded
  | ok a => trivial

theorem Frame.unguarded_defineVariable (frame : Frame V F) (name : String) (value : V) :
    Unguarded (frame.defineVariable name value) := by
  rw [defineVariable]
  split
  · rfl
  · trivial

theorem Frame.unguarded_defineFunction (frame : Frame V F) (name : String) (arity : Nat)
    (value : F) : Unguarded (frame.defineFunction name arity value) := by
  rw [defineFunction]
  split
  · rfl
  · trivial

theorem Frame.unguarded_defineVariables (frame : Frame V F) (entries : List (String × V)) :
    Unguarded (frame.defineVariables entries) := by
  induction entries generalizing frame with
  | nil => trivial
  | cons entry entries ih =>
    have first := frame.unguarded_defineVariable entry.1 entry.2
    rw [defineVariables]
    split
    · rename_i failed
      rw [failed] at first
      exact first
    · exact ih _

theorem Scope.unguarded_lookupVariable (scope : Scope V F) (name : String) :
    Unguarded (scope.lookupVariable name) := by
  rw [lookupVariable]
  split
  · trivial
  · rfl

theorem Scope.unguarded_lookupFunction (scope : Scope V F) (name : String) (arity : Nat) :
    Unguarded (scope.lookupFunction name arity) := by
  rw [lookupFunction]
  split
  · trivial
  · rfl

end Names

namespace Store

theorem unguarded_bind (store : Store) (name : String) (mutable : Bool) (v : Value) :
    Unguarded (store.bind name mutable v) :=
  unguarded_map (unguarded_map (Frame.unguarded_defineVariable _ _ _) _) _

theorem unguarded_defineFunction (store : Store) (f : Function) :
    Unguarded (store.defineFunction f) :=
  unguarded_map (unguarded_map (Frame.unguarded_defineFunction _ _ _ _) _) _

theorem unguarded_assign (store : Store) (name : String) (v : Value) :
    Unguarded (store.assign name v) :=
  ends_bind (store.scope.unguarded_lookupVariable name) fun _ _ => trivial

theorem unguarded_print (store : Store) (v : Value) : Unguarded (store.print v) := by
  apply unguarded_map
  rw [Output.print]
  split
  · trivial
  · rfl
  · trivial

theorem unguarded_printAll (store : Store) (vs : List Value) :
    Unguarded (store.printAll vs).1 := by
  induction vs generalizing store with
  | nil => trivial
  | cons v vs ih =>
    have first := store.unguarded_print v
    rw [printAll]
    split
    · rename_i failed
      rw [failed] at first
      exact first
    · exact ih _

/-- Of the faults of a check, no other than this one comes of the variable. -/
theorem guard_of_requireMutable (store : Store) (name : String) :
    Ends (fun fault => fault.isGuard = true → fault = .immutableAssignment name) (fun _ => True)
      (store.requireMutable name) := by
  refine ends_bind (guard_of_unguarded (store.scope.unguarded_lookupVariable name) _) ?_
  intro binding _
  split
  · exact fun _ => rfl
  · trivial

theorem guard_of_locate (store : Store) (name : String) (offset : Value) :
    Ends (fun fault => fault.isGuard = true → fault = .notAList name) (fun _ => True)
      (store.locate name offset) := by
  refine ends_bind (guard_of_unguarded (store.scope.unguarded_lookupVariable name) _) ?_
  intro binding _
  split
  · rename_i a _
    have found := unguarded_ofValues (offset.index_ofValues (store.heap.elements a).size)
    exact ends_bind (guard_of_unguarded found _) fun _ _ => trivial
  · exact fun _ => rfl

theorem guard_of_readElement (store : Store) (name : String) (offset : Value) :
    Ends (fun fault => fault.isGuard = true → fault = .notAList name) (fun _ => True)
      (store.readElement name offset) :=
  ends_bind (store.guard_of_locate name offset) fun _ _ => trivial

theorem guard_of_assignElement (store : Store) (name : String) (offset v : Value) :
    Ends (fun fault => fault.isGuard = true → fault = .notAList name) (fun _ => True)
      (store.assignElement name offset v) :=
  ends_bind (store.guard_of_locate name offset) fun _ _ => trivial

end Store

namespace Machine

inductive Config.Offsets : Config → String → Option Variable → Prop
  | read {v name slot pending store} :
      Offsets ⟨.value v, .element name slot :: pending, store⟩ name slot
  | write {v name slot offset pending store} :
      Offsets ⟨.value v, .assignElement name slot offset :: pending, store⟩ name slot

/-- The check of a variable that a configuration is about to make, and how it fails. -/
def Config.Checks (c : Config) (fault : Fault) : Prop :=
  ∃ name slot, c.Assigns name slot ∧ fault = .immutableAssignment name ∨
    c.Offsets name slot ∧ fault = .notAList name

section Checks

variable {c : Config} {pending : List Pending} {fault : Fault}

theorem Settles.checks {made : Except Fault Value} (settles : Settles c made pending)
    (failed : made = .error fault) (guard : fault.isGuard = true) : c.Checks fault := by
  cases settles with
  | access =>
    exact ((unguarded_map (Scope.unguarded_lookupVariable _ _) _).elim failed guard).elim
  | @operate op left v _ store =>
    exact ((unguarded_ofValues (op.apply_ofValues store.heap left v)).elim failed guard).elim
  | @element name slot v _ store =>
    have ends := store.guard_of_readElement name v
    rw [failed] at ends
    exact ⟨name, slot, .inr ⟨.read, ends guard⟩⟩

theorem Changes.checks {made : Except Fault Store} (changes : Changes c made pending)
    (failed : made = .error fault) (guard : fault.isGuard = true) : c.Checks fault := by
  cases changes with
  | bind => exact ((Store.unguarded_bind _ _ _ _).elim failed guard).elim
  | assign => exact ((Store.unguarded_assign _ _ _).elim failed guard).elim
  | @assignElement name slot offset v _ store =>
    have ends := store.guard_of_assignElement name offset v
    rw [failed] at ends
    exact ⟨name, slot, .inr ⟨.write, ends guard⟩⟩

theorem Fails.checks (fails : Fails c fault pending) (guard : fault.isGuard = true) :
    c.Checks fault := by
  cases fails with
  | settle settles failed => exact settles.checks failed guard
  | change changes failed => exact changes.checks failed guard
  | truth tests failed =>
    exact ((unguarded_ofValues (Value.truth_ofValues _)).elim failed guard).elim
  | offset missing => exact ((Scope.unguarded_lookupVariable _ _).elim missing guard).elim
  | call gathers missing => exact ((Scope.unguarded_lookupFunction _ _ _).elim missing guard).elim
  | @main mainNamed _ _ _ missing =>
    cases mainNamed with
    | true => cases guard
    | false => exact ((Scope.unguarded_lookupFunction _ _ _).elim missing guard).elim
  | body failed => exact ((Frame.unguarded_defineVariables _ _).elim failed guard).elim
  | @immutable _ name slot _ assigns fixed =>
    have ends := c.store.guard_of_requireMutable name
    rw [fixed] at ends
    exact ⟨name, slot, .inl ⟨assigns, ends guard⟩⟩
  | receiver => cases guard
  | define failed => exact ((Store.unguarded_defineFunction _ _).elim failed guard).elim

end Checks

/-- The fault of a check comes where the check is made. -/
theorem Config.checks_of_step {c next : Config} (stepped : step? c = some next)
    (going : ∀ earlier, c.focus ≠ .failing earlier) {fault : Fault}
    (failing : next.focus = .failing fault) (guard : fault.isGuard = true) : c.Checks fault := by
  cases step?_eq_some_iff.mp stepped with
  | evaluate evaluates =>
    cases failing
    cases evaluates
  | execute executes =>
    cases failing
    cases executes
  | drop | leaveBlock => exact absurd failing (going fault)
  | fail fails =>
    cases failing
    exact fails.checks guard
  | print =>
    have failed := printed_eq_failing_iff.mp failing
    exact ((Store.unguarded_printAll _ _).elim failed guard).elim
  | leaveCall answers =>
    cases failing
    cases answers
    exact absurd rfl (going fault)
  | _ => cases failing

end Machine
end Plc
