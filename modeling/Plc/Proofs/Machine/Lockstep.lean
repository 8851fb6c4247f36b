import Plc.Proofs.Machine.Ending
import Plc.Proofs.Scope

/-! Two runs side by side. Stores that differ in the order of their functions and in their outputs
only are told apart by nothing but printing. -/
namespace Plc

/-- Both have come to values that are related, or both to the same fault. -/
inductive Likewise {α β : Type} (r : α → β → Prop) : Except Fault α → Except Fault β → Prop
  | ok {a b} : r a b → Likewise r (.ok a) (.ok b)
  | error {fault} : Likewise r (.error fault) (.error fault)

namespace Likewise

variable {α β : Type} {r : α → β → Prop} {x : Except Fault α} {y : Except Fault β}

theorem eq_error (likewise : Likewise r x y) {fault : Fault} (failed : x = .error fault) :
    y = .error fault := by
  subst failed
  cases likewise with
  | error => rfl

theorem exists_ok (likewise : Likewise r x y) {a : α} (made : x = .ok a) :
    ∃ b, y = .ok b ∧ r a b := by
  subst made
  cases likewise with
  | ok related => exact ⟨_, rfl, related⟩

end Likewise

/-- The second store differs from the first in the order of its functions and in its output only,
and the outputs are related. -/
inductive Store.Alike (r : Output → Output → Prop) : Store → Store → Prop
  | mk {inner vars funs funs' heap output output'} :
      (∀ key : String × Nat, funs'.lookup key = funs.lookup key) → r output output' →
      Alike r ⟨⟨inner, ⟨vars, funs⟩⟩, heap, output⟩ ⟨⟨inner, ⟨vars, funs'⟩⟩, heap, output'⟩

namespace Store.Alike

variable {r : Output → Output → Prop} {s t : Store} (alike : s.Alike r t)
include alike

theorem heap : t.heap = s.heap := by
  cases alike
  rfl

theorem inner : t.scope.inner = s.scope.inner := by
  cases alike
  rfl

theorem getVariable? (name : String) : t.scope.getVariable? name = s.scope.getVariable? name := by
  cases alike
  simp only [Scope.getVariable?, Scope.frames, List.findSome?_append]
  rfl

theorem getFunction? (name : String) (arity : Nat) :
    t.scope.getFunction? name arity = s.scope.getFunction? name arity := by
  cases alike with
  | mk same _ =>
    simp only [Scope.getFunction?, Scope.frames, List.findSome?_append, List.findSome?_cons,
      Frame.getFunction?, same]

theorem lookupVariable (name : String) :
    t.scope.lookupVariable name = s.scope.lookupVariable name := by
  rw [Scope.lookupVariable, Scope.lookupVariable, alike.getVariable?]

theorem lookupFunction (name : String) (arity : Nat) :
    t.scope.lookupFunction name arity = s.scope.lookupFunction name arity := by
  rw [Scope.lookupFunction, Scope.lookupFunction, alike.getFunction?]

theorem requireMutable (name : String) : t.requireMutable name = s.requireMutable name := by
  rw [Store.requireMutable, Store.requireMutable, alike.lookupVariable]

theorem locate (name : String) (offset : Value) : t.locate name offset = s.locate name offset := by
  rw [Store.locate, Store.locate, alike.lookupVariable, alike.heap]

theorem readElement (name : String) (offset : Value) :
    t.readElement name offset = s.readElement name offset := by
  rw [Store.readElement, Store.readElement, alike.locate, alike.heap]

theorem enter : s.enter.Alike r t.enter := by
  cases alike with
  | mk same related => exact .mk same related

theorem leave : s.leave.Alike r t.leave := by
  cases alike with
  | mk same related => exact .mk same related

theorem withInner (inner : List (Frame Binding Callable)) :
    (s.withInner inner).Alike r (t.withInner inner) := by
  cases alike with
  | mk same related => exact .mk same related

theorem bind (name : String) (mutable : Bool) (v : Value) :
    Likewise (Alike r) (s.bind name mutable v) (t.bind name mutable v) := by
  cases alike with
  | @mk inner vars funs funs' heap output output' same related =>
    cases inner with
    | nil =>
      simp only [Store.bind, Scope.defineVariable, Scope.current, List.headD_nil,
        Frame.defineVariable, Frame.getVariable?]
      cases vars.lookup name with
      | some b => exact .error
      | none => exact .ok (.mk same related)
    | cons f inner =>
      simp only [Store.bind, Scope.defineVariable, Scope.current, List.headD_cons,
        Frame.defineVariable]
      cases f.getVariable? name with
      | some b => exact .error
      | none => exact .ok (.mk same related)

theorem defineFunction (f : Function) :
    Likewise (Alike r) (s.defineFunction f) (t.defineFunction f) := by
  cases alike with
  | @mk inner vars funs funs' heap output output' same related =>
    cases inner with
    | nil =>
      simp only [Store.defineFunction, Scope.defineFunction, Scope.current, List.headD_nil,
        Frame.defineFunction, Frame.getFunction?, same]
      cases funs.lookup (f.name, f.parameters.length) with
      | some callable => exact .error
      | none =>
        refine .ok (.mk (fun key => ?_) related)
        rw [List.lookup_cons, List.lookup_cons, same]
    | cons frame inner =>
      simp only [Store.defineFunction, Scope.defineFunction, Scope.current, List.headD_cons,
        Frame.defineFunction]
      cases frame.getFunction? f.name f.parameters.length with
      | some callable => exact .error
      | none => exact .ok (.mk same related)

theorem assign (name : String) (v : Value) :
    Likewise (Alike r) (s.assign name v) (t.assign name v) := by
  have looked := alike.lookupVariable name
  rw [Store.assign, Store.assign, looked]
  cases s.scope.lookupVariable name with
  | error fault => exact .error
  | ok b =>
    cases alike with
    | mk same related =>
      simp only [Scope.setVariable]
      split
      · exact .ok (.mk same related)
      · exact .ok (.mk same related)

theorem assignElement (name : String) (offset v : Value) :
    Likewise (Alike r) (s.assignElement name offset v) (t.assignElement name offset v) := by
  rw [Store.assignElement, Store.assignElement, alike.locate]
  cases s.locate name offset with
  | error fault => exact .error
  | ok place =>
    cases alike with
    | mk same related => exact .ok (.mk same related)

end Store.Alike

theorem Likewise.trans {α : Type} {r : α → α → Prop} {x y z : Except Fault α}
    (transitive : ∀ {a b c}, r a b → r b c → r a c) (first : Likewise r x y)
    (second : Likewise r y z) : Likewise r x z := by
  cases first with
  | error => exact second
  | ok ab =>
    cases second with
    | ok bc => exact .ok (transitive ab bc)

namespace Store.Alike

variable {s t u : Store}

theorem refl (s : Store) : s.Alike Eq s := .mk (fun _ => rfl) rfl

theorem trans (first : s.Alike Eq t) (second : t.Alike Eq u) : s.Alike Eq u := by
  cases first with
  | mk same output =>
    cases second with
    | mk same' output' =>
      exact .mk (fun key => (same' key).trans (same key)) (output.trans output')

theorem output (alike : s.Alike Eq t) : t.output = s.output := by
  cases alike with
  | mk _ output => exact output.symm

end Store.Alike

namespace Machine

/-- Of two related configurations either both have stopped, or both make a step to related ones. -/
def Lockstep (r : Config → Config → Prop) : Prop :=
  ∀ {a b : Config}, r a b → Option.Rel r (step? a) (step? b)

namespace Lockstep

variable {r : Config → Config → Prop} {a b : Config} (lockstep : Lockstep r)
include lockstep

theorem after (related : r a b) (n : Nat) : r (a.after n) (b.after n) := by
  induction n with
  | zero => exact related
  | succ n ih =>
    have stepped := lockstep ih
    rw [Config.after, Config.after, Config.next, Config.next]
    generalize step? (a.after n) = x at stepped ⊢
    generalize step? (b.after n) = y at stepped ⊢
    cases stepped with
    | none => exact ih
    | some behind => exact behind

theorem run (related : r a b) (limit : Nat) :
    Option.Rel (fun u v => r u v ∧ step? u = none ∧ step? v = none) (run limit a)
      (run limit b) := by
  induction limit generalizing a b with
  | zero => exact .none
  | succ limit ih =>
    have stepped := lockstep related
    rw [Machine.run, Machine.run]
    generalize first : step? a = x at stepped ⊢
    generalize second : step? b = y at stepped ⊢
    cases stepped with
    | none => exact .some ⟨related, first, second⟩
    | some behind => exact ih behind

end Lockstep

inductive Config.Alike (r : Output → Output → Prop) : Config → Config → Prop
  | mk {focus pending s t} : s.Alike r t → Alike r ⟨focus, pending, s⟩ ⟨focus, pending, t⟩

/-- What comes of a step on each of two stores that are alike: the configurations are alike again,
or both have printed. -/
inductive Alongside (r : Output → Output → Prop) (s t : Store) : Config → Config → Prop
  | alike {a b} : a.Alike r b → Alongside r s t a b
  | print {pending values} :
      Alongside r s t (invoke s pending values .print) (invoke t pending values .print)

section Steps

variable {r : Output → Output → Prop} {a b : Config} {pending : List Pending}

theorem Gathers.alike {purpose : Purpose} {found : List Value} {more : List Expr}
    (gathers : Gathers a purpose found more pending) (alike : a.Alike r b) :
    Gathers b purpose found more pending := by
  cases alike
  cases gathers <;> constructor

theorem Calls.alike {name : String} {found : List Value} (calls : Calls a name found pending)
    (alike : a.Alike r b) : Calls b name found pending := by
  cases calls with
  | gathered gathers => exact .gathered (gathers.alike alike)
  | main =>
    cases alike
    exact .main

theorem Selects.alike {subject : Value} {cases : List Case}
    (selects : Selects a subject cases pending) (alike : a.Alike r b) :
    Selects b subject cases pending := by
  cases alike with
  | mk stores =>
    cases selects with
    | first => exact .first
    | next other => exact .next (stores.heap ▸ other)

theorem Initializes.alike {name : String} {mutable : Bool} {slot : Option Variable}
    {value : Option Expr} (initializes : Initializes a name mutable slot value pending)
    (alike : a.Alike r b) : Initializes b name mutable slot value pending := by
  cases alike
  cases initializes <;> constructor

theorem Settles.alike {made : Except Fault Value} (settles : Settles a made pending)
    (alike : a.Alike r b) : Settles b made pending := by
  cases alike with
  | mk stores =>
    cases settles with
    | access =>
      rw [← stores.lookupVariable]
      exact .access
    | operate =>
      rw [← stores.heap]
      exact .operate
    | element =>
      rw [← stores.readElement]
      exact .element

theorem Changes.alike {made : Except Fault Store} (changes : Changes a made pending)
    (alike : a.Alike r b) :
    ∃ made', Changes b made' pending ∧ Likewise (Store.Alike r) made made' := by
  cases alike with
  | mk stores =>
    cases changes with
    | bind => exact ⟨_, .bind, stores.bind _ _ _⟩
    | assign => exact ⟨_, .assign, stores.assign _ _⟩
    | assignElement => exact ⟨_, .assignElement, stores.assignElement _ _ _⟩

theorem Tests.alike {v : Value} (tests : Tests a v pending) (alike : a.Alike r b) :
    Tests b v pending := by
  cases alike
  cases tests with
  | right decisive => exact .right decisive
  | choose => exact .choose
  | whether => exact .whether

theorem Evaluates.alike {focus : Focus} (evaluates : Evaluates a focus pending)
    (alike : a.Alike r b) : Evaluates b focus pending := by
  cases alike with
  | mk stores =>
    cases evaluates with
    | settle settles result => exact .settle (settles.alike (.mk stores)) result
    | gather gathers => exact .gather (gathers.alike (.mk stores))
    | call calls looked =>
      exact .call (calls.alike (.mk stores)) ((stores.lookupFunction _ _).trans looked)
    | offset looked => exact .offset ((stores.lookupVariable _).trans looked)
    | right onward => exact .right onward
    | decided decisive known => exact .decided decisive known
    | _ => constructor

theorem Executes.alike {focus : Focus} (executes : Executes a focus pending)
    (alike : a.Alike r b) : Executes b focus pending := by
  cases alike with
  | mk stores =>
    cases executes with
    | initial initializes => exact .initial (initializes.alike (.mk stores))
    | unset initializes => exact .unset (initializes.alike (.mk stores))
    | noCase selects => exact .noCase (selects.alike (.mk stores))
    | case selects => exact .case (selects.alike (.mk stores))
    | default selects => exact .default (selects.alike (.mk stores))
    | assign may => exact .assign ((stores.requireMutable _).trans may)
    | assignOffset may => exact .assignOffset ((stores.requireMutable _).trans may)
    | equal same => exact .equal (stores.heap ▸ same)
    | choose known => exact .choose known
    | repeated known => exact .repeated known
    | ended known => exact .ended known
    | empty => exact .empty
    | _ => constructor

theorem Fails.alike {fault : Fault} (fails : Fails a fault pending) (alike : a.Alike r b) :
    Fails b fault pending := by
  cases alike with
  | mk stores =>
    cases fails with
    | settle settles result => exact .settle (settles.alike (.mk stores)) result
    | change changes result =>
      obtain ⟨_, changes, likewise⟩ := changes.alike (.mk stores)
      exact .change changes (likewise.eq_error result)
    | truth tests failed => exact .truth (tests.alike (.mk stores)) failed
    | call gathers missing =>
      exact .call (gathers.alike (.mk stores)) ((stores.lookupFunction _ _).trans missing)
    | immutable assigns fixed =>
      cases assigns with
      | access => exact .immutable .access ((stores.requireMutable _).trans fixed)
      | element => exact .immutable .element ((stores.requireMutable _).trans fixed)
    | offset missing => exact .offset ((stores.lookupVariable _).trans missing)
    | main missing => exact .main ((stores.lookupFunction _ _).trans missing)
    | body failed => exact .body failed
    | receiver other => exact .receiver other
    | define failed => exact .define ((stores.defineFunction _).eq_error failed)

/-- The rule that applies to the one applies to the other. -/
theorem Step.alongside {next : Config} (step : Step a next) (alike : a.Alike r b) :
    ∃ other, Step b other ∧ Alongside r a.store b.store next other := by
  cases alike with
  | mk stores =>
    cases step with
    | evaluate evaluates => exact ⟨_, .evaluate (evaluates.alike (.mk stores)), .alike (.mk stores)⟩
    | execute executes => exact ⟨_, .execute (executes.alike (.mk stores)), .alike (.mk stores)⟩
    | drop drops => exact ⟨_, .drop drops, .alike (.mk stores)⟩
    | fail fails => exact ⟨_, .fail (fails.alike (.mk stores)), .alike (.mk stores)⟩
    | allocate gathers =>
      refine ⟨_, .allocate (gathers.alike (.mk stores)), .alike ?_⟩
      cases stores with
      | mk same related => exact .mk (.mk same related)
    | print calls looked =>
      have looked := (stores.lookupFunction _ _).trans looked
      refine ⟨_, .print (calls.alike (.mk stores)) looked, ?_⟩
      rw [← invoke_print, ← invoke_print]
      exact .print
    | change changes result =>
      obtain ⟨_, changes, likewise⟩ := changes.alike (.mk stores)
      obtain ⟨_, result, stores⟩ := likewise.exists_ok result
      exact ⟨_, .change changes result, .alike (.mk stores)⟩
    | define defined =>
      obtain ⟨_, defined, stores⟩ := (stores.defineFunction _).exists_ok defined
      exact ⟨_, .define defined, .alike (.mk stores)⟩
    | enter => exact ⟨_, .enter, .alike (.mk stores.enter)⟩
    | leaveBlock settled => exact ⟨_, .leaveBlock settled, .alike (.mk stores.leave)⟩
    | call bound => exact ⟨_, .call bound, .alike (stores.inner ▸ .mk (stores.withInner _))⟩
    | leaveCall answers => exact ⟨_, .leaveCall answers, .alike (.mk (stores.withInner _))⟩

end Steps

theorem alongside_step {r : Output → Output → Prop} {a b : Config} (alike : a.Alike r b) :
    Option.Rel (Alongside r a.store b.store) (step? a) (step? b) := by
  cases stepped : step? a with
  | some next =>
    obtain ⟨other, step, beside⟩ := (step_of_eq stepped).alongside alike
    rw [step?_eq_some_iff.mpr step]
    exact .some beside
  | none =>
    have ended := step?_eq_none_iff.mp stepped
    have stopped : step? b = none := by
      cases alike
      exact step?_eq_none_iff.mpr ended
    rw [stopped]
    exact .none

/-- With the same output before, the same is printed. -/
theorem alike_print {s t : Store} (alike : s.Alike Eq t) (pending : List Pending)
    (values : List Value) :
    Config.Alike Eq (invoke s pending values .print) (invoke t pending values .print) := by
  cases alike with
  | mk same related =>
    obtain rfl := related
    rw [invoke, invoke]
    rename_i output
    induction values generalizing output with
    | nil => exact .mk (.mk same rfl)
    | cons v values ih =>
      rw [Store.printAll, Store.printAll, Store.print, Store.print]
      cases output.print _ with
      | error fault => exact .mk (.mk same rfl)
      | ok output => exact ih

/-- On stores that differ in the order of their functions only, runs are alike. -/
theorem lockstep_alike : Lockstep (Config.Alike Eq) := by
  intro a b alike
  have stepped := alongside_step alike
  have stores : a.store.Alike Eq b.store := by
    cases alike with
    | mk stores => exact stores
  generalize step? a = x at stepped ⊢
  generalize step? b = y at stepped ⊢
  cases stepped with
  | none => exact .none
  | some alongside =>
    cases alongside with
    | alike same => exact .some same
    | print => exact .some (alike_print stores _ _)

end Machine
end Plc
