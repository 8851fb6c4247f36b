import Plc.Machine
import Plc.Value.Operation

/-! One step of the machine. Operands, arguments and elements are evaluated from left to right;
a value returned and a fault both drop what is pending, but no frame is left without its scope
being restored. -/
namespace Plc.Machine

def settle (store : Store) (pending : List Pending) : Except Fault Value → Config
  | .ok v => ⟨.value v, pending, store⟩
  | .error fault => ⟨.failing fault, pending, store⟩

def change (store : Store) (pending : List Pending) : Except Fault Store → Config
  | .ok store => ⟨.done, pending, store⟩
  | .error fault => ⟨.failing fault, pending, store⟩

def parameterBindings (f : Function) (arguments : List Value) : List (String × Binding) :=
  (f.parameters.zip arguments).map fun (name, v) => (name, ⟨name, true, v⟩)

/-- Runs the body of a function. It sees the root frame and the frame of its parameters, and the
frames of the caller come back behind it. -/
def callBody (store : Store) (pending : List Pending) (f : Function) (arguments : List Value) :
    Config :=
  match Frame.defineVariables {} (parameterBindings f arguments) with
  | .error fault => ⟨.failing fault, pending, store⟩
  | .ok frame =>
    ⟨.block f.body, .leaveCall store.scope.inner :: pending, store.withInner [frame]⟩

def invoke (store : Store) (pending : List Pending) (arguments : List Value) : Callable → Config
  | .print =>
    match store.printAll arguments with
    | (.ok _, store) => ⟨.value .nil, pending, store⟩
    | (.error fault, store) => ⟨.failing fault, pending, store⟩
  | .declared f => ⟨.call f arguments, pending, store⟩

def finish (store : Store) (pending : List Pending) (found : List Value) : Purpose → Config
  | .list =>
    let (v, store) := store.allocate found
    ⟨.value v, pending, store⟩
  | .call name =>
    match store.scope.lookupFunction name found.length with
    | .error fault => ⟨.failing fault, pending, store⟩
    | .ok callable => invoke store pending found callable

def gather (store : Store) (pending : List Pending) (purpose : Purpose) (found : List Value) :
    List Expr → Config
  | [] => finish store pending found purpose
  | e :: es => ⟨.evaluate e, .gather purpose found es :: pending, store⟩

def evaluate (store : Store) (pending : List Pending) : Expr → Config
  | .literal value _ => ⟨.value (.ofLiteral value), pending, store⟩
  | .group inner _ => ⟨.evaluate inner, pending, store⟩
  | .binary op left right _ => ⟨.evaluate left, .right op right :: pending, store⟩
  | .access name _ => settle store pending ((store.scope.lookupVariable name).map (·.value))
  | .element name offset slot =>
    match store.scope.lookupVariable name with
    | .error fault => ⟨.failing fault, pending, store⟩
    | .ok _ => ⟨.evaluate offset, .element name slot :: pending, store⟩
  | .call name arguments _ => gather store pending (.call name) [] arguments
  | .list elements _ => gather store pending .list [] elements

/-- An assignment looks at the variable before anything is evaluated. -/
def beginAssign (store : Store) (pending : List Pending) (value : Expr) : Expr → Config
  | .access name slot =>
    match store.requireMutable name with
    | .error fault => ⟨.failing fault, pending, store⟩
    | .ok _ => ⟨.evaluate value, .assign name slot :: pending, store⟩
  | .element name offset slot =>
    match store.requireMutable name with
    | .error fault => ⟨.failing fault, pending, store⟩
    | .ok _ => ⟨.evaluate offset, .assignOffset name slot value :: pending, store⟩
  | _ => ⟨.failing .assignmentReceiver, pending, store⟩

def beginBind (store : Store) (pending : List Pending) (name : String) (mutable : Bool)
    (slot : Option Variable) : Option Expr → Config
  | some value => ⟨.evaluate value, .bind name mutable slot :: pending, store⟩
  | none => ⟨.value .nil, .bind name mutable slot :: pending, store⟩

def execute (store : Store) (pending : List Pending) : Stmt → Config
  | .expression value => ⟨.evaluate value, .discard :: pending, store⟩
  | .declare name _ value slot => beginBind store pending name true slot value
  | .assign receiver value => beginAssign store pending value receiver
  | .branch condition thenBody elseBody =>
    ⟨.evaluate condition, .choose thenBody elseBody :: pending, store⟩
  | .switch condition cases => ⟨.evaluate condition, .select cases :: pending, store⟩
  | .loop condition body => ⟨.evaluate condition, .whether condition body :: pending, store⟩
  | .ret value => ⟨.evaluate value, .giveBack :: pending, store⟩

def select (store : Store) (pending : List Pending) (subject : Value) : List Case → Config
  | [] => ⟨.done, pending, store⟩
  | .on value body :: cases => ⟨.evaluate value, .compare subject body cases :: pending, store⟩
  | .default body :: _ => ⟨.enter body, pending, store⟩

def load (store : Store) (pending : List Pending) (mainNamed : Bool) :
    List Global → List Function → Config
  | g :: globals, functions =>
    ⟨.define g, .load globals functions mainNamed :: pending, store⟩
  | [], f :: functions =>
    match store.defineFunction f with
    | .error fault => ⟨.failing fault, pending, store⟩
    | .ok store => ⟨.load [] functions mainNamed, pending, store⟩
  | [], [] =>
    match store.scope.lookupFunction "main" 0 with
    | .ok main => invoke store pending [] main
    | .error fault => ⟨.failing (if mainNamed then .mainArity else fault), pending, store⟩

def unwind (focus : Focus) (store : Store) (pending : List Pending) : Pending → Config
  | .leaveBlock => ⟨focus, pending, store.leave⟩
  | .leaveCall inner => ⟨focus, pending, store.withInner inner⟩
  | _ => ⟨focus, pending, store⟩

def continueRight (store : Store) (pending : List Pending) (op : Operator) (right : Expr)
    (left : Value) : Config :=
  let onward : Config := ⟨.evaluate right, .operate op left :: pending, store⟩
  match op.decisive? with
  | none => onward
  | some decisive =>
    match left.truth with
    | .error fault => ⟨.failing fault, pending, store⟩
    | .ok b => if b = decisive then ⟨.value (.boolean b), pending, store⟩ else onward

def byTruth (store : Store) (pending : List Pending) (v : Value) (whenTrue whenFalse : Config) :
    Config :=
  match v.truth with
  | .error fault => ⟨.failing fault, pending, store⟩
  | .ok b => if b then whenTrue else whenFalse

def withValue (v : Value) (store : Store) (pending : List Pending) : Pending → Config
  | .right op right => continueRight store pending op right v
  | .operate op left => settle store pending (op.apply store.heap left v)
  | .element name _ => settle store pending (store.readElement name v)
  | .gather purpose found more => gather store pending purpose (found ++ [v]) more
  | .bind name mutable _ => change store pending (store.bind name mutable v)
  | .assign name _ => change store pending (store.assign name v)
  | .assignOffset name slot value =>
    ⟨.evaluate value, .assignElement name slot v :: pending, store⟩
  | .assignElement name _ offset => change store pending (store.assignElement name offset v)
  | .choose thenBody elseBody =>
    byTruth store pending v ⟨.enter thenBody, pending, store⟩ ⟨.enter elseBody, pending, store⟩
  | .whether condition body =>
    byTruth store pending v ⟨.enter body, .again condition body :: pending, store⟩
      ⟨.done, pending, store⟩
  | .select cases => select store pending v cases
  | .compare subject body cases =>
    if store.heap.equal v subject then ⟨.enter body, pending, store⟩
    else select store pending subject cases
  | .discard => ⟨.done, pending, store⟩
  | .giveBack => ⟨.returning v, pending, store⟩
  | p => unwind (.value v) store pending p

/-- Goes on behind a statement or a definition. A call whose body ends without a `RETURN` gives
nil. -/
def afterDone (store : Store) (pending : List Pending) : Pending → Config
  | .rest statements => ⟨.block statements, pending, store⟩
  | .again condition body => ⟨.evaluate condition, .whether condition body :: pending, store⟩
  | .leaveCall inner => ⟨.value .nil, pending, store.withInner inner⟩
  | .load globals functions mainNamed => ⟨.load globals functions mainNamed, pending, store⟩
  | p => unwind .done store pending p

def withReturn (v : Value) (store : Store) (pending : List Pending) : Pending → Config
  | .leaveCall inner => ⟨.value v, pending, store.withInner inner⟩
  | p => unwind (.returning v) store pending p

def step? : Config → Option Config
  | ⟨.evaluate e, pending, store⟩ => some (evaluate store pending e)
  | ⟨.execute s, pending, store⟩ => some (execute store pending s)
  | ⟨.block [], pending, store⟩ => some ⟨.done, pending, store⟩
  | ⟨.block (s :: ss), pending, store⟩ => some ⟨.execute s, .rest ss :: pending, store⟩
  | ⟨.enter ss, pending, store⟩ => some ⟨.block ss, .leaveBlock :: pending, store.enter⟩
  | ⟨.call f arguments, pending, store⟩ => some (callBody store pending f arguments)
  | ⟨.define g, pending, store⟩ => some (beginBind store pending g.name g.mutable g.slot g.value)
  | ⟨.load globals functions mainNamed, pending, store⟩ =>
    some (load store pending mainNamed globals functions)
  | ⟨.value v, p :: pending, store⟩ => some (withValue v store pending p)
  | ⟨.done, p :: pending, store⟩ => some (afterDone store pending p)
  | ⟨.returning v, p :: pending, store⟩ => some (withReturn v store pending p)
  | ⟨.failing fault, p :: pending, store⟩ => some (unwind (.failing fault) store pending p)
  | ⟨.value _, [], _⟩ => none
  | ⟨.done, [], _⟩ => none
  | ⟨.returning _, [], _⟩ => none
  | ⟨.failing _, [], _⟩ => none

end Plc.Machine
