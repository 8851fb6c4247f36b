import Plc.Compile
import Plc.Machine.Run
import Plc.Proofs.Machine.Step
import Plc.Proofs.Scope.Image
import Plc.Proofs.Typing.Erasure

/-! The machine does not look at slots. It takes the same steps on what is left of a configuration
when all slots in it are erased, those in the functions of the store and of the callers as well. -/
namespace Plc

def Callable.erase : Callable → Callable
  | .print => .print
  | .declared f => .declared f.erase

namespace Store

def erase (store : Store) : Store := { store with scope := store.scope.image Callable.erase }

variable (store : Store) (name : String) (offset v : Value)

@[simp] theorem heap_erase : store.erase.heap = store.heap := rfl

@[simp] theorem output_erase : store.erase.output = store.output := rfl

@[simp] theorem leave_erase : store.erase.leave = store.leave.erase := by
  rw [leave, erase, Scope.leave_image]
  rfl

@[simp] theorem lookupVariable_erase :
    store.erase.scope.lookupVariable name = store.scope.lookupVariable name :=
  store.scope.lookupVariable_image Callable.erase name

theorem lookupFunction_erase (arity : Nat) : store.erase.scope.lookupFunction name arity =
    (store.scope.lookupFunction name arity).map Callable.erase :=
  store.scope.lookupFunction_image Callable.erase name arity

@[simp] theorem requireMutable_erase :
    store.erase.requireMutable name = store.requireMutable name := by
  rw [requireMutable, lookupVariable_erase]
  rfl

@[simp] theorem readElement_erase :
    store.erase.readElement name offset = store.readElement name offset := by
  rw [readElement, readElement, locate, lookupVariable_erase]
  rfl

theorem bind_erase (mutable : Bool) :
    store.erase.bind name mutable v = (store.bind name mutable v).map erase := by
  rw [bind, bind, erase, Scope.defineVariable_image]
  cases store.scope.defineVariable name ⟨name, mutable, v⟩ <;> rfl

theorem defineFunction_erase (f : Function) :
    store.erase.defineFunction f.erase = (store.defineFunction f).map erase := by
  have made : store.erase.scope.defineFunction f.name f.parameters.length (.declared f.erase) =
      (store.scope.defineFunction f.name f.parameters.length (.declared f)).map
        (Scope.image Callable.erase) :=
    store.scope.defineFunction_image Callable.erase f.name f.parameters.length (.declared f)
  rw [defineFunction, defineFunction]
  show Except.map _ (store.erase.scope.defineFunction f.name f.parameters.length _) = _
  rw [made]
  cases store.scope.defineFunction f.name f.parameters.length (.declared f) <;> rfl

theorem assign_erase : store.erase.assign name v = (store.assign name v).map erase := by
  rw [assign, assign, lookupVariable_erase]
  cases store.scope.lookupVariable name with
  | error fault => rfl
  | ok binding =>
    simp only [erase, Scope.setVariable_image]
    rfl

theorem assignElement_erase :
    store.erase.assignElement name offset v = (store.assignElement name offset v).map erase := by
  have located : store.erase.locate name offset = store.locate name offset := by
    rw [locate, locate, lookupVariable_erase]
    rfl
  rw [assignElement, assignElement, located]
  cases store.locate name offset <;> rfl

theorem print_erase : store.erase.print v = (store.print v).map erase := by
  rw [print, print, heap_erase, output_erase]
  cases store.output.print (store.heap.text v) <;> rfl

theorem printAll_erase (values : List Value) :
    store.erase.printAll values = ((store.printAll values).1, (store.printAll values).2.erase) := by
  induction values generalizing store with
  | nil => rfl
  | cons v values ih =>
    rw [printAll, printAll, print_erase]
    cases store.print v with
    | error fault => rfl
    | ok next => exact ih next

end Store

namespace Machine

def Pending.erase : Pending → Pending
  | .right op operand => .right op operand.erase
  | .operate op left => .operate op left
  | .element name _ => .element name none
  | .gather purpose found more => .gather purpose found (Expr.eraseAll more)
  | .bind name mutable _ => .bind name mutable none
  | .assign name _ => .assign name none
  | .assignOffset name _ value => .assignOffset name none value.erase
  | .assignElement name _ offset => .assignElement name none offset
  | .choose thenBody elseBody => .choose (Stmt.eraseAll thenBody) (Stmt.eraseAll elseBody)
  | .whether condition body => .whether condition.erase (Stmt.eraseAll body)
  | .select cases => .select (Case.eraseAll cases)
  | .compare subject body cases => .compare subject (Stmt.eraseAll body) (Case.eraseAll cases)
  | .discard => .discard
  | .giveBack => .giveBack
  | .rest statements => .rest (Stmt.eraseAll statements)
  | .again condition body => .again condition.erase (Stmt.eraseAll body)
  | .leaveBlock => .leaveBlock
  | .leaveCall inner => .leaveCall (inner.map (Frame.image Callable.erase))
  | .load globals functions mainNamed =>
    .load (globals.map Global.erase) (functions.map Function.erase) mainNamed

def Focus.erase : Focus → Focus
  | .evaluate e => .evaluate e.erase
  | .execute s => .execute s.erase
  | .block statements => .block (Stmt.eraseAll statements)
  | .enter statements => .enter (Stmt.eraseAll statements)
  | .call f arguments => .call f.erase arguments
  | .define g => .define g.erase
  | .load globals functions mainNamed =>
    .load (globals.map Global.erase) (functions.map Function.erase) mainNamed
  | .value v => .value v
  | .done => .done
  | .returning v => .returning v
  | .failing fault => .failing fault

def Config.erase (c : Config) : Config :=
  ⟨c.focus.erase, c.pending.map Pending.erase, c.store.erase⟩

section Steps

variable {c : Config} {focus : Focus} {pending : List Pending}

theorem Gathers.erase {purpose : Purpose} {found : List Value} {more : List Expr}
    (gathers : Gathers c purpose found more pending) :
    Gathers c.erase purpose found (Expr.eraseAll more) (pending.map Pending.erase) := by
  cases gathers with
  | call => exact .call
  | list => exact .list
  | next => exact .next

theorem Calls.erase {name : String} {found : List Value} (calls : Calls c name found pending) :
    Calls c.erase name found (pending.map Pending.erase) := by
  cases calls with
  | gathered gathers => exact .gathered gathers.erase
  | main => exact .main

theorem Selects.erase {subject : Value} {cases : List Case}
    (selects : Selects c subject cases pending) :
    Selects c.erase subject (Case.eraseAll cases) (pending.map Pending.erase) := by
  cases selects with
  | first => exact .first
  | next other => exact .next other

theorem Initializes.erase {name : String} {mutable : Bool} {slot : Option Variable}
    {value : Option Expr} (initializes : Initializes c name mutable slot value pending) :
    Initializes c.erase name mutable none (value.map Expr.erase)
      (pending.map Pending.erase) := by
  cases initializes with
  | declare => exact .declare
  | define => exact .define

theorem Settles.erase {made : Except Fault Value} (settles : Settles c made pending) :
    Settles c.erase made (pending.map Pending.erase) := by
  cases settles with
  | access =>
    rw [← Store.lookupVariable_erase]
    exact .access
  | operate => exact .operate
  | element =>
    rw [← Store.readElement_erase]
    exact .element

theorem Changes.erase {made : Except Fault Store} (changes : Changes c made pending) :
    Changes c.erase (made.map Store.erase) (pending.map Pending.erase) := by
  cases changes with
  | bind =>
    rw [← Store.bind_erase]
    exact .bind
  | assign =>
    rw [← Store.assign_erase]
    exact .assign
  | assignElement =>
    rw [← Store.assignElement_erase]
    exact .assignElement

theorem Tests.erase {v : Value} (tests : Tests c v pending) :
    Tests c.erase v (pending.map Pending.erase) := by
  cases tests with
  | right decisive => exact .right decisive
  | choose => exact .choose
  | whether => exact .whether

/-- What is called is found under the same name. -/
theorem lookupFunction_erase_eq {store : Store} {name : String} {arity : Nat}
    {found : Except Fault Callable} (looked : store.scope.lookupFunction name arity = found) :
    store.erase.scope.lookupFunction name arity = found.map Callable.erase := by
  rw [Store.lookupFunction_erase, looked]

theorem Evaluates.erase (evaluates : Evaluates c focus pending) :
    Evaluates c.erase focus.erase (pending.map Pending.erase) := by
  cases evaluates with
  | literal => exact .literal
  | group => exact .group
  | left => exact .left
  | right onward => exact .right onward
  | decided decisive known => exact .decided decisive known
  | offset looked => exact .offset ((Store.lookupVariable_erase _ _).trans looked)
  | settle settles result => exact .settle settles.erase result
  | gather gathers => exact .gather gathers.erase
  | call calls looked => exact .call calls.erase (lookupFunction_erase_eq looked)

theorem Executes.erase (executes : Executes c focus pending) :
    Executes c.erase focus.erase (pending.map Pending.erase) := by
  cases executes with
  | expression => exact .expression
  | discard => exact .discard
  | initial initializes => exact .initial initializes.erase
  | unset initializes => exact .unset initializes.erase
  | assign may => exact .assign ((Store.requireMutable_erase _ _).trans may)
  | assignOffset may => exact .assignOffset ((Store.requireMutable_erase _ _).trans may)
  | assignElement => exact .assignElement
  | branch => exact .branch
  | @choose thenBody elseBody v b _ _ known =>
    cases b with
    | true => exact .choose known
    | false => exact .choose known
  | switch => exact .switch
  | noCase selects => exact .noCase selects.erase
  | case selects => exact .case selects.erase
  | default selects => exact .default selects.erase
  | equal same => exact .equal same
  | loop => exact .loop
  | repeated known => exact .repeated known
  | ended known => exact .ended known
  | again => exact .again
  | ret => exact .ret
  | giveBack => exact .giveBack
  | empty => exact .empty
  | first => exact .first
  | rest => exact .rest
  | define => exact .define
  | defined => exact .defined

theorem Pending.takes_erase (p : Pending) : p.erase.takes = p.takes := by
  cases p <;> rfl

theorem Pending.leaves_erase (p : Pending) : p.erase.leaves = p.leaves := by
  cases p <;> rfl

theorem Focus.settled_erase (focus : Focus) : focus.erase.settled = focus.settled := by
  cases focus <;> rfl

theorem printed_erase (made : Except Fault Unit) : (printed made).erase = printed made := by
  cases made <;> rfl

theorem Drops.erase {p : Pending} (drops : Drops focus p) : Drops focus.erase p.erase := by
  cases drops with
  | value takes stays => exact .value (p.takes_erase.trans takes) (p.leaves_erase.trans stays)
  | done takes => exact .done (p.takes_erase.trans takes)
  | returning stays => exact .returning (p.leaves_erase.trans stays)
  | failing stays => exact .failing (p.leaves_erase.trans stays)

theorem Answers.erase {answer : Focus} (answers : Answers focus answer) :
    Answers focus.erase answer.erase := by
  cases answers with
  | value => exact .value
  | done => exact .done
  | returning => exact .returning
  | failing => exact .failing

theorem defineVariables_erase {f : Function} {arguments : List Value}
    {made : Except Fault (Frame Binding Callable)}
    (bound : Frame.defineVariables {} (parameterBindings f arguments) = made) :
    Frame.defineVariables {} (parameterBindings f.erase arguments) =
      made.map (Frame.image Callable.erase) :=
  bound ▸ Frame.defineVariables_image Callable.erase {} (parameterBindings f arguments)

theorem Fails.erase {fault : Fault} (fails : Fails c fault pending) :
    Fails c.erase fault (pending.map Pending.erase) := by
  cases fails with
  | settle settles result => exact .settle settles.erase result
  | change changes result => exact .change changes.erase (congrArg _ result)
  | truth tests failed => exact .truth tests.erase failed
  | offset missing => exact .offset ((Store.lookupVariable_erase _ _).trans missing)
  | call gathers missing => exact .call gathers.erase (lookupFunction_erase_eq missing)
  | main missing => exact .main (lookupFunction_erase_eq missing)
  | body failed => exact .body (defineVariables_erase failed)
  | immutable assigns fixed =>
    have fixed := (Store.requireMutable_erase _ _).trans fixed
    cases assigns with
    | access => exact .immutable .access fixed
    | element => exact .immutable .element fixed
  | @receiver receiver _ _ _ other =>
    refine .receiver ?_
    cases receiver with
    | access | element => cases other
    | _ => rfl
  | define failed => exact .define ((Store.defineFunction_erase _ _).trans (congrArg _ failed))

/-- The same rule applies without slots. -/
theorem Step.erase {next : Config} (step : Step c next) : Step c.erase next.erase := by
  cases step with
  | evaluate evaluates => exact .evaluate evaluates.erase
  | execute executes => exact .execute executes.erase
  | drop drops => exact .drop drops.erase
  | fail fails => exact .fail fails.erase
  | allocate gathers => exact .allocate gathers.erase
  | @print _ _ found pending calls looked =>
    have step : Step c.erase _ := .print calls.erase (lookupFunction_erase_eq looked)
    change Step c.erase ⟨printed (c.store.erase.printAll found).1, _,
      (c.store.erase.printAll found).2⟩ at step
    rw [Store.printAll_erase, ← printed_erase] at step
    exact step
  | change changes result => exact .change changes.erase (congrArg _ result)
  | define defined => exact .define ((Store.defineFunction_erase _ _).trans (congrArg _ defined))
  | enter => exact .enter
  | @leaveBlock focus pending store settled =>
    have step : Step (Config.erase ⟨focus, .leaveBlock :: pending, store⟩)
        ⟨focus.erase, pending.map Pending.erase, store.erase.leave⟩ :=
      .leaveBlock (focus.settled_erase.trans settled)
    rwa [Store.leave_erase] at step
  | call bound => exact .call (defineVariables_erase bound)
  | leaveCall answers => exact .leaveCall answers.erase

end Steps

theorem step?_erase (c : Config) : step? c.erase = (step? c).map Config.erase := by
  cases stepped : step? c with
  | some next => exact step?_eq_some_iff.mpr (step?_eq_some_iff.mp stepped).erase
  | none =>
    obtain ⟨settled, empty⟩ := step?_eq_none_iff.mp stepped
    exact step?_eq_none_iff.mpr
      ⟨c.focus.settled_erase.trans settled, congrArg (List.map Pending.erase) empty⟩

theorem run_erase (limit : Nat) (c : Config) :
    run limit c.erase = (run limit c).map Config.erase := by
  induction limit generalizing c with
  | zero => rfl
  | succ limit ih =>
    rw [run, run, step?_erase]
    cases step? c with
    | none => rfl
    | some next => exact ih next

@[simp] theorem Config.answer_erase (c : Config) : c.erase.answer = c.answer := by
  obtain ⟨focus, pending, store⟩ := c
  cases focus <;> rfl

end Machine

namespace Store

open Machine

theorem start_erase (store : Store) (p : Program) :
    store.erase.start p.erase = (store.start p).erase := by
  have named : (p.erase.functions.any (·.name == "main")) =
      p.functions.any (·.name == "main") := by
    rw [Program.erase, List.any_map]
    rfl
  rw [start, start, named]
  rfl

/-- A run on what is left of a program and a store without slots comes to the same answer. -/
theorem runProgram_erase (store : Store) (limit : Nat) (p : Program) :
    store.erase.runProgram limit p.erase =
      (store.runProgram limit p).map fun (answer, store) => (answer, store.erase) := by
  rw [runProgram, runProgram, start_erase, run_erase, Option.map_map, Option.map_map]
  congr 1
  funext c
  simp only [Function.comp_apply, Config.answer_erase]
  rfl

/-- What a run of a program shows: its answer, the lists to which the answer may lead, and what was
printed. A run that takes too many steps shows nothing. -/
def shown (room : Option Nat) (limit : Nat) (p : Program) (report : String := "sink full") :
    Option (Except Fault Value × Heap × Output) :=
  ((Store.initial room report).runProgram limit p).map
    fun (answer, store) => (answer, store.heap, store.output)

theorem shown_erase (room : Option Nat) (report : String) (limit : Nat) (p : Program) :
    shown room limit p.erase report = shown room limit p report := by
  have initial : (Store.initial room report).erase = Store.initial room report := rfl
  rw [shown, ← initial, runProgram_erase, Option.map_map]
  rfl

/-- Programs that differ in nothing but slots run alike, and so it does not matter to a run whether
a program was analysed after it was read. -/
theorem slots_are_not_looked_at :
    (∀ p q : Program, p.erase = q.erase →
      ∀ room report limit, shown room limit p report = shown room limit q report) ∧
    ∀ text p, compile text = .ok p → ∃ tokens raw, Token.lex text = .ok tokens ∧
      Reading.readProgram tokens = .ok raw ∧
      ∀ room report limit, shown room limit p report = shown room limit raw report := by
  have alike : ∀ p q : Program, p.erase = q.erase →
      ∀ room report limit, shown room limit p report = shown room limit q report := by
    intro p q same room report limit
    rw [← shown_erase, same, shown_erase]
  refine ⟨alike, fun text p compiled => ?_⟩
  simp only [compile, compileTokens, bind_eq_ok, mapError_eq_ok] at compiled
  obtain ⟨tokens, lexed, raw, read, annotated⟩ := compiled
  exact ⟨tokens, raw, lexed, read, alike p raw (Program.erase_of_annotate annotated)⟩

def mistaken : Program where
  globals := []
  functions :=
    [{ name := "main"
       parameters := []
       typeNames := []
       resultName := none
       body :=
        [.declare "x" none (some (.literal (.integer 1) (some .string))) none,
          .ret (.access "x" (some ⟨"y", "y", .string, false, true⟩))]
       slot := some ⟨"main", "main", [.string], .nil⟩ }]

def twice : String :=
  "FUN twice(x: Integer): Integer DO print(x); RETURN x * 2; END
  FUN main(): Integer DO LET y: Integer = twice(21); RETURN y; END"

theorem slots_are_not_looked_at_mistaken :
    mistaken.erase.erase = mistaken.erase ∧
    shown none 20 mistaken.erase = shown none 20 mistaken ∧
    (shown none 20 mistaken).map (·.1.toOption) = some (some (.integer 1)) ∧
    ∃ p raw, compile twice = .ok p ∧ shown none 100 p = shown none 100 raw ∧
      (shown none 100 raw).map (fun (answer, _, output) => (answer.toOption, output.text)) =
        some (some (.integer 42), "21\n") := by
  have runs : ∃ p, compile twice = .ok p ∧
      (shown none 100 p).map (fun (answer, _, output) => (answer.toOption, output.text)) =
        some (some (.integer 42), "21\n") := by
    decide +kernel
  obtain ⟨p, compiled, ran⟩ := runs
  obtain ⟨_, raw, _, _, same⟩ := slots_are_not_looked_at.2 twice p compiled
  refine ⟨rfl, ?_, by decide +kernel, p, raw, compiled, same none _ 100, ?_⟩
  · exact slots_are_not_looked_at.1 mistaken.erase mistaken rfl none _ 20
  · rw [← same]
    exact ran

end Store
end Plc
