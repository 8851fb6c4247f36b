import Plc.Machine.Step

/-! What one step can do, with a rule for each way to go on. What is said of steps is read off these
rules. -/
namespace Plc.Machine

inductive Outcome where
  | value
  | flow

def Pending.takes : Pending → Outcome
  | .rest _ | .again .. | .leaveBlock | .leaveCall _ | .load .. => .flow
  | _ => .value

def Pending.leaves : Pending → Bool
  | .leaveBlock | .leaveCall _ => true
  | _ => false

def Focus.settled : Focus → Bool
  | .value _ | .done | .returning _ | .failing _ => true
  | _ => false

inductive Config.Assigns : Config → String → Option Variable → Prop
  | access {name slot value pending store} :
      Assigns ⟨.execute (.assign (.access name slot) value), pending, store⟩ name slot
  | element {name offset slot value pending store} :
      Assigns ⟨.execute (.assign (.element name offset slot) value), pending, store⟩ name slot

inductive Gathers : Config → Purpose → List Value → List Expr → List Pending → Prop
  | call {name arguments slot pending store} :
      Gathers ⟨.evaluate (.call name arguments slot), pending, store⟩ (.call name) [] arguments
        pending
  | list {elements ty pending store} :
      Gathers ⟨.evaluate (.list elements ty), pending, store⟩ .list [] elements pending
  | next {v purpose found more pending store} :
      Gathers ⟨.value v, .gather purpose found more :: pending, store⟩ purpose (found ++ [v]) more
        pending

inductive Calls : Config → String → List Value → List Pending → Prop
  | gathered {c name found pending} : Gathers c (.call name) found [] pending →
      Calls c name found pending
  | main {mainNamed pending store} : Calls ⟨.load [] [] mainNamed, pending, store⟩ "main" [] pending

inductive Selects : Config → Value → List Case → List Pending → Prop
  | first {v cases pending store} :
      Selects ⟨.value v, .select cases :: pending, store⟩ v cases pending
  | next {v subject body cases pending store} : store.heap.equal v subject = false →
      Selects ⟨.value v, .compare subject body cases :: pending, store⟩ subject cases pending

inductive Initializes :
    Config → String → Bool → Option Variable → Option Expr → List Pending → Prop
  | declare {name typeName value slot pending store} :
      Initializes ⟨.execute (.declare name typeName value slot), pending, store⟩ name true slot
        value pending
  | define {g pending store} :
      Initializes ⟨.define g, pending, store⟩ g.name g.mutable g.slot g.value pending

inductive Settles : Config → Except Fault Value → List Pending → Prop
  | access {name slot pending store} :
      Settles ⟨.evaluate (.access name slot), pending, store⟩
        ((store.scope.lookupVariable name).map (·.value)) pending
  | operate {op left v pending store} :
      Settles ⟨.value v, .operate op left :: pending, store⟩ (op.apply store.heap left v) pending
  | element {name slot v pending store} :
      Settles ⟨.value v, .element name slot :: pending, store⟩ (store.readElement name v) pending

inductive Changes : Config → Except Fault Store → List Pending → Prop
  | bind {name mutable slot v pending store} :
      Changes ⟨.value v, .bind name mutable slot :: pending, store⟩ (store.bind name mutable v)
        pending
  | assign {name slot v pending store} :
      Changes ⟨.value v, .assign name slot :: pending, store⟩ (store.assign name v) pending
  | assignElement {name slot offset v pending store} :
      Changes ⟨.value v, .assignElement name slot offset :: pending, store⟩
        (store.assignElement name offset v) pending

inductive Tests : Config → Value → List Pending → Prop
  | right {op right v b pending store} : op.decisive? = some b →
      Tests ⟨.value v, .right op right :: pending, store⟩ v pending
  | choose {thenBody elseBody v pending store} :
      Tests ⟨.value v, .choose thenBody elseBody :: pending, store⟩ v pending
  | whether {condition body v pending store} :
      Tests ⟨.value v, .whether condition body :: pending, store⟩ v pending

/-- How an expression goes on. The store stays as it is. -/
inductive Evaluates : Config → Focus → List Pending → Prop
  | literal {value ty pending store} :
      Evaluates ⟨.evaluate (.literal value ty), pending, store⟩ (.value (.ofLiteral value)) pending
  | group {inner ty pending store} :
      Evaluates ⟨.evaluate (.group inner ty), pending, store⟩ (.evaluate inner) pending
  | left {op left right ty pending store} :
      Evaluates ⟨.evaluate (.binary op left right ty), pending, store⟩ (.evaluate left)
        (.right op right :: pending)
  | right {op right v pending store} : (∀ b, op.decisive? = some b → v.truth = .ok !b) →
      Evaluates ⟨.value v, .right op right :: pending, store⟩ (.evaluate right)
        (.operate op v :: pending)
  | decided {op right v b pending store} : op.decisive? = some b → v.truth = .ok b →
      Evaluates ⟨.value v, .right op right :: pending, store⟩ (.value (.boolean b)) pending
  | offset {name offset slot b pending store} : store.scope.lookupVariable name = .ok b →
      Evaluates ⟨.evaluate (.element name offset slot), pending, store⟩ (.evaluate offset)
        (.element name slot :: pending)
  | settle {c made v pending} : Settles c made pending → made = .ok v →
      Evaluates c (.value v) pending
  | gather {c purpose found e more pending} : Gathers c purpose found (e :: more) pending →
      Evaluates c (.evaluate e) (.gather purpose found more :: pending)
  | call {c name found f pending} : Calls c name found pending →
      c.store.scope.lookupFunction name found.length = .ok (.declared f) →
      Evaluates c (.call f found) pending

inductive Executes : Config → Focus → List Pending → Prop
  | expression {value pending store} :
      Executes ⟨.execute (.expression value), pending, store⟩ (.evaluate value)
        (.discard :: pending)
  | discard {v pending store} : Executes ⟨.value v, .discard :: pending, store⟩ .done pending
  | initial {c name mutable slot e pending} : Initializes c name mutable slot (some e) pending →
      Executes c (.evaluate e) (.bind name mutable slot :: pending)
  | unset {c name mutable slot pending} : Initializes c name mutable slot none pending →
      Executes c (.value .nil) (.bind name mutable slot :: pending)
  | assign {name slot value pending store} : store.requireMutable name = .ok () →
      Executes ⟨.execute (.assign (.access name slot) value), pending, store⟩ (.evaluate value)
        (.assign name slot :: pending)
  | assignOffset {name offset slot value pending store} : store.requireMutable name = .ok () →
      Executes ⟨.execute (.assign (.element name offset slot) value), pending, store⟩
        (.evaluate offset) (.assignOffset name slot value :: pending)
  | assignElement {name slot value v pending store} :
      Executes ⟨.value v, .assignOffset name slot value :: pending, store⟩ (.evaluate value)
        (.assignElement name slot v :: pending)
  | branch {condition thenBody elseBody pending store} :
      Executes ⟨.execute (.branch condition thenBody elseBody), pending, store⟩
        (.evaluate condition) (.choose thenBody elseBody :: pending)
  | choose {thenBody elseBody v b pending store} : v.truth = .ok b →
      Executes ⟨.value v, .choose thenBody elseBody :: pending, store⟩
        (.enter (if b then thenBody else elseBody)) pending
  | switch {condition cases pending store} :
      Executes ⟨.execute (.switch condition cases), pending, store⟩ (.evaluate condition)
        (.select cases :: pending)
  | noCase {c subject pending} : Selects c subject [] pending → Executes c .done pending
  | case {c subject value body cases pending} :
      Selects c subject (.on value body :: cases) pending →
      Executes c (.evaluate value) (.compare subject body cases :: pending)
  | default {c subject body cases pending} : Selects c subject (.default body :: cases) pending →
      Executes c (.enter body) pending
  | equal {subject body cases v pending store} : store.heap.equal v subject = true →
      Executes ⟨.value v, .compare subject body cases :: pending, store⟩ (.enter body) pending
  | loop {condition body pending store} :
      Executes ⟨.execute (.loop condition body), pending, store⟩ (.evaluate condition)
        (.whether condition body :: pending)
  | repeated {condition body v pending store} : v.truth = .ok true →
      Executes ⟨.value v, .whether condition body :: pending, store⟩ (.enter body)
        (.again condition body :: pending)
  | ended {condition body v pending store} : v.truth = .ok false →
      Executes ⟨.value v, .whether condition body :: pending, store⟩ .done pending
  | again {condition body pending store} :
      Executes ⟨.done, .again condition body :: pending, store⟩ (.evaluate condition)
        (.whether condition body :: pending)
  | ret {value pending store} :
      Executes ⟨.execute (.ret value), pending, store⟩ (.evaluate value) (.giveBack :: pending)
  | giveBack {v pending store} :
      Executes ⟨.value v, .giveBack :: pending, store⟩ (.returning v) pending
  | empty {pending store} : Executes ⟨.block [], pending, store⟩ .done pending
  | first {s ss pending store} :
      Executes ⟨.block (s :: ss), pending, store⟩ (.execute s) (.rest ss :: pending)
  | rest {ss pending store} : Executes ⟨.done, .rest ss :: pending, store⟩ (.block ss) pending
  | define {g globals functions mainNamed pending store} :
      Executes ⟨.load (g :: globals) functions mainNamed, pending, store⟩ (.define g)
        (.load globals functions mainNamed :: pending)
  | defined {globals functions mainNamed pending store} :
      Executes ⟨.done, .load globals functions mainNamed :: pending, store⟩
        (.load globals functions mainNamed) pending

/-- What does not fit what is pending goes on to what is pending behind that. -/
inductive Drops : Focus → Pending → Prop
  | value {v p} : p.takes = .flow → p.leaves = false → Drops (.value v) p
  | done {p} : p.takes = .value → Drops .done p
  | returning {v p} : p.leaves = false → Drops (.returning v) p
  | failing {fault p} : p.leaves = false → Drops (.failing fault) p

inductive Answers : Focus → Focus → Prop
  | value {v} : Answers (.value v) (.value v)
  | done : Answers .done (.value .nil)
  | returning {v} : Answers (.returning v) (.value v)
  | failing {fault} : Answers (.failing fault) (.failing fault)

inductive Fails : Config → Fault → List Pending → Prop
  | settle {c made fault pending} : Settles c made pending → made = .error fault →
      Fails c fault pending
  | change {c made fault pending} : Changes c made pending → made = .error fault →
      Fails c fault pending
  | truth {c v fault pending} : Tests c v pending → v.truth = .error fault → Fails c fault pending
  | offset {name offset slot fault pending store} :
      store.scope.lookupVariable name = .error fault →
      Fails ⟨.evaluate (.element name offset slot), pending, store⟩ fault pending
  | call {c name found fault pending} : Gathers c (.call name) found [] pending →
      c.store.scope.lookupFunction name found.length = .error fault → Fails c fault pending
  | main {mainNamed fault pending store} : store.scope.lookupFunction "main" 0 = .error fault →
      Fails ⟨.load [] [] mainNamed, pending, store⟩ (if mainNamed then .mainArity else fault)
        pending
  | body {f arguments fault pending store} :
      Frame.defineVariables (F := Callable) {} (parameterBindings f arguments) = .error fault →
      Fails ⟨.call f arguments, pending, store⟩ fault pending
  | immutable {c name slot fault} : c.Assigns name slot →
      c.store.requireMutable name = .error fault → Fails c fault c.pending
  | receiver {receiver value pending store} : receiver.isPlace = false →
      Fails ⟨.execute (.assign receiver value), pending, store⟩ .assignmentReceiver pending
  | define {f functions mainNamed fault pending store} : store.defineFunction f = .error fault →
      Fails ⟨.load [] (f :: functions) mainNamed, pending, store⟩ fault pending

def printed : Except Fault Unit → Focus
  | .ok _ => .value .nil
  | .error fault => .failing fault

inductive Step : Config → Config → Prop
  | evaluate {c focus pending} : Evaluates c focus pending → Step c ⟨focus, pending, c.store⟩
  | execute {c focus pending} : Executes c focus pending → Step c ⟨focus, pending, c.store⟩
  | drop {focus p pending store} : Drops focus p →
      Step ⟨focus, p :: pending, store⟩ ⟨focus, pending, store⟩
  | fail {c fault pending} : Fails c fault pending → Step c ⟨.failing fault, pending, c.store⟩
  | allocate {c found pending} : Gathers c .list found [] pending →
      Step c ⟨.value (c.store.allocate found).1, pending, (c.store.allocate found).2⟩
  | print {c name found pending} : Calls c name found pending →
      c.store.scope.lookupFunction name found.length = .ok .print →
      Step c ⟨printed (c.store.printAll found).1, pending, (c.store.printAll found).2⟩
  | change {c made store pending} : Changes c made pending → made = .ok store →
      Step c ⟨.done, pending, store⟩
  | define {f functions mainNamed pending store t} : store.defineFunction f = .ok t →
      Step ⟨.load [] (f :: functions) mainNamed, pending, store⟩
        ⟨.load [] functions mainNamed, pending, t⟩
  | enter {body pending store} :
      Step ⟨.enter body, pending, store⟩ ⟨.block body, .leaveBlock :: pending, store.enter⟩
  | leaveBlock {focus pending store} : focus.settled = true →
      Step ⟨focus, .leaveBlock :: pending, store⟩ ⟨focus, pending, store.leave⟩
  | call {f arguments frame pending store} :
      Frame.defineVariables {} (parameterBindings f arguments) = .ok frame →
      Step ⟨.call f arguments, pending, store⟩
        ⟨.block f.body, .leaveCall store.scope.inner :: pending, store.withInner [frame]⟩
  | leaveCall {focus answer inner pending store} : Answers focus answer →
      Step ⟨focus, .leaveCall inner :: pending, store⟩ ⟨answer, pending, store.withInner inner⟩

/-- This is pending, perhaps below something else. No frame ends with that. -/
inductive Config.Over : Config → List Pending → Prop
  | all {c} : Over c c.pending
  | below {focus p pending store} : p.leaves = false → Over ⟨focus, p :: pending, store⟩ pending

section Over

variable {c : Config} {pending : List Pending}

theorem Gathers.over {purpose : Purpose} {found : List Value} {more : List Expr}
    (gathers : Gathers c purpose found more pending) : c.Over pending := by
  cases gathers with
  | call | list => exact .all
  | next => exact .below rfl

theorem Calls.over {name : String} {found : List Value} (calls : Calls c name found pending) :
    c.Over pending := by
  cases calls with
  | gathered gathers => exact gathers.over
  | main => exact .all

theorem Selects.over {subject : Value} {cases : List Case}
    (selects : Selects c subject cases pending) : c.Over pending := by
  cases selects <;> exact .below rfl

theorem Initializes.over {name : String} {mutable : Bool} {slot : Option Variable}
    {value : Option Expr} (initializes : Initializes c name mutable slot value pending) :
    c.Over pending := by
  cases initializes <;> exact .all

theorem Settles.over {made : Except Fault Value} (settles : Settles c made pending) :
    c.Over pending := by
  cases settles with
  | access => exact .all
  | operate | element => exact .below rfl

theorem Changes.over {made : Except Fault Store} (changes : Changes c made pending) :
    c.Over pending := by
  cases changes <;> exact .below rfl

theorem Tests.over {v : Value} (tests : Tests c v pending) : c.Over pending := by
  cases tests <;> exact .below rfl

theorem Fails.over {fault : Fault} (fails : Fails c fault pending) : c.Over pending := by
  cases fails with
  | settle settles => exact settles.over
  | change changes => exact changes.over
  | truth tests => exact tests.over
  | call gathers => exact gathers.over
  | _ => exact .all

theorem Evaluates.over {focus : Focus} (evaluates : Evaluates c focus pending) :
    c.Over pending ∨ ∃ p rest, p.leaves = false ∧ c.Over rest ∧ pending = p :: rest := by
  cases evaluates with
  | literal | group => exact .inl .all
  | left | offset => exact .inr ⟨_, _, rfl, .all, rfl⟩
  | right => exact .inr ⟨_, _, rfl, .below rfl, rfl⟩
  | decided => exact .inl (.below rfl)
  | settle settles => exact .inl settles.over
  | gather gathers => exact .inr ⟨_, _, rfl, gathers.over, rfl⟩
  | call calls => exact .inl calls.over

theorem Executes.over {focus : Focus} (executes : Executes c focus pending) :
    c.Over pending ∨ ∃ p rest, p.leaves = false ∧ c.Over rest ∧ pending = p :: rest := by
  cases executes with
  | initial initializes | unset initializes => exact .inr ⟨_, _, rfl, initializes.over, rfl⟩
  | noCase selects | default selects => exact .inl selects.over
  | case selects => exact .inr ⟨_, _, rfl, selects.over, rfl⟩
  | empty => exact .inl .all
  | assignElement | repeated | again => exact .inr ⟨_, _, rfl, .below rfl, rfl⟩
  | discard | choose | equal | ended | giveBack | rest | defined => exact .inl (.below rfl)
  | _ => exact .inr ⟨_, _, rfl, .all, rfl⟩

theorem Drops.leaves {focus : Focus} {p : Pending} (drops : Drops focus p) : p.leaves = false := by
  cases drops with
  | value _ stays | returning stays | failing stays => exact stays
  | done takes =>
    cases p with
    | leaveBlock | leaveCall => cases takes
    | _ => rfl

end Over

theorem Drops.settled {focus : Focus} {p : Pending} (drops : Drops focus p) :
    focus.settled = true := by
  cases drops <;> rfl

theorem Answers.settled {focus answer : Focus} (answers : Answers focus answer) :
    answer.settled = true := by
  cases answers <;> rfl

theorem printed_eq_failing_iff {made : Except Fault Unit} {fault : Fault} :
    printed made = .failing fault ↔ made = .error fault := by
  cases made <;> simp [printed]

theorem settled_printed (made : Except Fault Unit) : (printed made).settled = true := by
  cases made <;> rfl

end Plc.Machine
