import Plc.Proofs.Scope.Tree
import Plc.Typing.Phrase

/-! The analysis as it goes along on a tree of frames, which it changes in place. It stands in one
of the frames, goes into new ones and comes back, and what it has bound stays bound if it fails. It
makes the same of every phrase as the analysis that is given a scope. -/
namespace Plc

/-- Where an analysis stands: all frames there are, the number of the one in force, and the type of
what may be returned, if anything may. -/
structure Analyzer where
  tree : ScopeTree Variable Signature
  current : Nat
  result : Option Ty

namespace Analyzer

def scope (a : Analyzer) : TypeScope := a.tree.scope a.current

def initial : Analyzer :=
  ⟨.ofFunctions [(("print", 1), TypeScope.printSignature)], 0, none⟩

def child (a : Analyzer) : Analyzer :=
  let (fresh, tree) := a.tree.child a.current
  { a with tree, current := fresh }

structure Formed (a : Analyzer) : Prop where
  tree : a.tree.Formed
  there : a.current < a.tree.frames.size

end Analyzer

/-- A step of an analysis. What it has done to the state is not undone by a failure. -/
abbrev Analysis := ExceptT Fault (StateM Analyzer)

namespace Analysis

variable {α β : Type}

def on (step : Analysis α) (a : Analyzer) : Except Fault α × Analyzer :=
  StateT.run (ExceptT.run step) a

def lookupVariable (name : String) : Analysis Variable := do
  let a ← get
  a.tree.lookupVariable a.current name

def lookupFunction (name : String) (arity : Nat) : Analysis Signature := do
  let a ← get
  a.tree.lookupFunction a.current name arity

def define (d : Definition Variable Signature) : Analysis Unit := do
  let a ← get
  let tree ← a.tree.define a.current d
  set { a with tree }

/-- Takes a step in a new frame below the one in force, and comes back whether or not it fails. -/
def inChild (step : Analysis α) : Analysis α := ExceptT.mk fun a =>
  let (answer, behind) := step.on a.child
  (answer, { behind with current := a.current })

def returning (ty : Ty) (step : Analysis α) : Analysis α := ExceptT.mk fun a =>
  let (answer, behind) := step.on { a with result := some ty }
  (answer, { behind with result := a.result })

end Analysis

section Visits

open Analysis

mutual

def Expr.visit : Expr → Analysis Expr
  | .literal value _ => do
    return .literal value (some (← value.type))
  | .group inner _ =>
    if inner.isBinary then do
      let inner ← inner.visit
      return .group inner (some (← inner.valueType))
    else throw .groupedPrimary
  | .binary op left right _ => do
    let left ← left.visit
    let right ← right.visit
    let leftType ← left.valueType
    let rightType ← right.valueType
    return .binary op left right (some (← op.type leftType rightType))
  | .access name _ => do
    return .access name (some (← lookupVariable name))
  | .element name offset _ => do
    let offset ← offset.visit
    Ty.integer.requireAccepts (← offset.valueType)
    return .element name offset (some (← lookupVariable name))
  | .call name arguments _ => do
    let arguments ← Expr.visitAll arguments
    let f ← lookupFunction name arguments.length
    requireAllFit f.parameters arguments
    return .call name arguments (some f)
  | .list elements _ => do
    let elements ← Expr.visitAll elements
    return .list elements (some (← elementType none elements))

def Expr.visitAll : List Expr → Analysis (List Expr)
  | [] => return []
  | e :: es => do
    let e ← e.visit
    return e :: (← Expr.visitAll es)

end

def Expr.visitCondition (e : Expr) : Analysis Expr := do
  let e ← e.visit
  Ty.boolean.requireAccepts (← e.valueType)
  return e

mutual

def Stmt.visit : Stmt → Analysis Stmt
  | .expression value =>
    if value.isCall then do
      return .expression (← value.visit)
    else throw .idleExpression
  | .declare name typeName value _ => do
    let declared ← (typeName.mapM Ty.resolve : Except Fault (Option Ty))
    let value ← value.mapM Expr.visit
    let v := Variable.plain name (← declarationType name declared value) true
    define (.ofVariable name v)
    return .declare name typeName value (some v)
  | .assign receiver value =>
    if receiver.isPlace then do
      let receiver ← receiver.visit
      let value ← value.visit
      value.requireFits (← receiver.valueType)
      return .assign receiver value
    else throw .assignmentReceiver
  | .branch condition thenBody elseBody => do
    let condition ← condition.visitCondition
    if thenBody.isEmpty then throw .emptyThen
    let thenBody ← inChild (Stmt.visitBlock thenBody)
    let elseBody ← inChild (Stmt.visitBlock elseBody)
    return .branch condition thenBody elseBody
  | .switch condition cases => do
    let condition ← condition.visit
    let ty ← condition.valueType
    return .switch condition (← Case.visitAll ty cases)
  | .loop condition body => do
    let condition ← condition.visitCondition
    return .loop condition (← inChild (Stmt.visitBlock body))
  | .ret value => do
    match (← get).result with
    | none => throw .returnOutsideFunction
    | some ty => do
      let value ← value.visit
      value.requireFits ty
      return .ret value

def Stmt.visitBlock : List Stmt → Analysis (List Stmt)
  | [] => return []
  | s :: ss => do
    let s ← s.visit
    return s :: (← Stmt.visitBlock ss)

def Case.visit (ty : Ty) (last : Bool) : Case → Analysis Case
  | .on value body =>
    if last then throw .missingDefault
    else do
      let value ← value.visit
      ty.requireSame (← value.valueType)
      return .on value (← inChild (Stmt.visitBlock body))
  | .default body =>
    if last then do
      return .default (← inChild (Stmt.visitBlock body))
    else throw .earlyDefault

def Case.visitAll (ty : Ty) : List Case → Analysis (List Case)
  | [] => throw .missingDefault
  | c :: cs => do
    let c ← c.visit ty cs.isEmpty
    if cs.isEmpty then return [c]
    else return c :: (← Case.visitAll ty cs)

end

def Global.visitValue (declared : Option Ty) : Expr → Analysis Expr
  | .list elements _ => do
    let elements ← Expr.visitAll elements
    return .list elements (some (← Expr.elementType declared elements))
  | value => value.visit

def Global.visit (g : Global) : Analysis Global := do
  let declared ← (g.typeName.mapM Ty.resolve : Except Fault (Option Ty))
  let value ← g.value.mapM (Global.visitValue declared)
  let ty ← declarationType g.name declared value
  let v : Variable := ⟨g.name, g.name, ty, g.mutable, g.isList⟩
  define (.ofVariable g.name v)
  return { g with value := value, slot := some v }

def Analysis.defineAll : List (String × Variable) → Analysis Unit
  | [] => return ()
  | (name, v) :: more => do
    define (.ofVariable name v)
    Analysis.defineAll more

def Function.visit (f : Function) : Analysis Function := do
  let s ← f.signature
  define (.ofFunction f.name s.arity s)
  returning s.result <| inChild do
    defineAll (f.parameterVariables s)
    let body ← Stmt.visitBlock f.body
    return { f with body := body, slot := some s }

def Program.visitGlobals : List Global → Analysis (List Global)
  | [] => return []
  | g :: gs => do
    let g ← g.visit
    return g :: (← Program.visitGlobals gs)

def Program.visitFunctions : List Function → Analysis (List Function)
  | [] => return []
  | f :: fs => do
    let f ← f.visit
    return f :: (← Program.visitFunctions fs)

def Program.visit (p : Program) : Analysis Program := do
  let globals ← Program.visitGlobals p.globals
  let functions ← Program.visitFunctions p.functions
  let main ← lookupFunction "main" 0
  Ty.integer.requireAccepts main.result
  return ⟨globals, functions⟩

end Visits

namespace Analyzer

structure Returns (a b : Analyzer) : Prop where
  formed : b.Formed
  current : b.current = a.current
  result : b.result = a.result
  size : a.tree.frames.size ≤ b.tree.frames.size
  path : ∀ i < a.tree.frames.size, b.tree.path i = a.tree.path i
  others : ∀ i < a.tree.frames.size, i ≠ a.current → b.tree.frame i = a.tree.frame i

/-- The analysis is back where it stood. What it has left there is a definition of something that
was not defined in that frame before, or nothing. -/
structure Leaves (a : Analyzer) (made : Option (Definition Variable Signature)) (b : Analyzer) :
    Prop extends a.Returns b where
  free : ∀ d ∈ made, (a.tree.frame a.current).get? d.key = none
  here : b.tree.frame a.current =
    made.elim (a.tree.frame a.current) (a.tree.frame a.current).bind

variable {a b c : Analyzer} {made : Option (Definition Variable Signature)}

theorem Returns.trans (first : a.Returns b) (second : b.Returns c) : a.Returns c where
  formed := second.formed
  current := second.current.trans first.current
  result := second.result.trans first.result
  size := Nat.le_trans first.size second.size
  path i there :=
    (second.path i (Nat.lt_of_lt_of_le there first.size)).trans (first.path i there)
  others i there other :=
    (second.others i (Nat.lt_of_lt_of_le there first.size) (first.current ▸ other)).trans
      (first.others i there other)

theorem leaves_self (formed : a.Formed) : a.Leaves none a where
  formed := formed
  current := rfl
  result := rfl
  size := Nat.le_refl _
  path _ _ := rfl
  others _ _ _ := rfl
  free := nofun
  here := rfl

theorem Leaves.trans (first : a.Leaves none b) (second : b.Leaves made c) : a.Leaves made c where
  toReturns := first.toReturns.trans second.toReturns
  free d member := by
    have free := second.free d member
    rwa [first.current, first.here] at free
  here := by
    have here := second.here
    rwa [first.current, first.here] at here

theorem Leaves.trans_none (first : a.Leaves made b) (second : b.Leaves none c) :
    a.Leaves made c where
  toReturns := first.toReturns.trans second.toReturns
  free := first.free
  here := by
    have here := second.here
    rw [first.current] at here
    exact here.trans first.here

/-- The scope is that of before, with what was defined in its innermost frame. -/
theorem Leaves.scope_eq (leaves : a.Leaves made b) (formed : a.Formed) :
    b.scope = made.elim a.scope fun d => a.scope.withCurrent (a.scope.current.bind d) := by
  have there := Nat.lt_of_lt_of_le formed.there leaves.size
  have changed := formed.tree.scope_withCurrent formed.there leaves.formed.tree there
    (fun j below => leaves.path j (Nat.lt_of_le_of_lt below formed.there))
    fun j below => leaves.others j (Nat.lt_trans below formed.there) (Nat.ne_of_lt below)
  rw [scope, leaves.current, changed, leaves.here, scope]
  cases made with
  | none =>
    show (a.tree.scope a.current).withCurrent (a.tree.frame a.current) = a.tree.scope a.current
    rw [← formed.tree.current_scope formed.there, Scope.withCurrent_current]
  | some d =>
    show (a.tree.scope a.current).withCurrent ((a.tree.frame a.current).bind d) = _
    rw [← formed.tree.current_scope formed.there]
    rfl

theorem initial_formed : initial.Formed := ⟨.ofFunctions _, Nat.one_pos⟩

theorem Formed.child (formed : a.Formed) : a.child.Formed where
  tree := formed.tree.child formed.there
  there := by
    show a.tree.frames.size < (a.tree.frames.push _).size
    rw [Array.size_push]
    exact Nat.lt_succ_self _

theorem Formed.scope_child (formed : a.Formed) : a.child.scope = a.scope.enter {} :=
  formed.tree.scope_child formed.there

/-- A new frame is below those there were, and it is left behind. -/
theorem leaves_of_child (formed : a.Formed) (returns : a.child.Returns b) :
    a.Leaves none { b with current := a.current } := by
  have grown : a.tree.frames.size < b.tree.frames.size := by
    have size := returns.size
    rw [show a.child.tree.frames = a.tree.frames.push _ from rfl, Array.size_push] at size
    exact size
  have frames : ∀ i < a.tree.frames.size, b.tree.frame i = a.tree.frame i := by
    intro i there
    have kept := returns.others i (Nat.lt_trans there formed.child.there) (Nat.ne_of_lt there)
    exact kept.trans (a.tree.frame_child a.current i)
  exact
    { formed := ⟨returns.formed.tree, Nat.lt_trans formed.there grown⟩
      current := rfl
      result := returns.result
      size := Nat.le_of_lt grown
      path := by
        intro i there
        have kept := returns.path i (Nat.lt_trans there formed.child.there)
        rw [show a.child.tree = (a.tree.child a.current).2 from rfl, formed.tree.path_child,
          if_neg (Nat.ne_of_lt there)] at kept
        exact kept
      others := fun i there _ => frames i there
      free := nofun
      here := frames a.current formed.there }

theorem leaves_of_bind (formed : a.Formed) {d : Definition Variable Signature}
    (free : (a.tree.frame a.current).get? d.key = none) :
    a.Leaves (some d) { a with tree := a.tree.bind a.current d } where
  formed :=
    { tree := formed.tree.bind a.current d
      there := Nat.lt_of_lt_of_eq formed.there Array.size_setIfInBounds.symm }
  current := rfl
  result := rfl
  size := Nat.le_of_eq Array.size_setIfInBounds.symm
  path _ _ := rfl
  others i _ other := by
    show (a.tree.bind a.current d).frame i = _
    rw [ScopeTree.frame_bind formed.there, if_neg other]
  free := by
    rintro _ ⟨⟩
    exact free
  here := by
    show (a.tree.bind a.current d).frame a.current = _
    rw [ScopeTree.frame_bind formed.there, if_pos rfl]
    rfl

end Analyzer

namespace Analysis

variable {α β : Type} {a : Analyzer}

@[simp] theorem on_get (a : Analyzer) : (get : Analysis Analyzer).on a = (.ok a, a) := rfl

@[simp] theorem on_lift (x : Except Fault α) (a : Analyzer) :
    (liftM x : Analysis α).on a = (x, a) := rfl

theorem on_bind (step : Analysis α) (next : α → Analysis β) (a : Analyzer) :
    (step >>= next).on a =
      match step.on a with
      | (.ok v, behind) => (next v).on behind
      | (.error fault, behind) => (.error fault, behind) := by
  show StateT.run (ExceptT.run step >>= ExceptT.bindCont next) a = _
  unfold on
  rw [StateT.run_bind]
  rcases StateT.run (ExceptT.run step) a with ⟨_ | _, _⟩ <;> rfl

theorem on_define (formed : a.Formed) (d : Definition Variable Signature) :
    (define d).on a =
      match (a.tree.frame a.current).get? d.key with
      | some _ => (.error d.key.alreadyDefined, a)
      | none => (.ok (), { a with tree := a.tree.bind a.current d }) := by
  simp only [define, on_bind, on_get, on_lift, formed.tree.define_eq formed.there]
  cases (a.tree.frame a.current).get? d.key with
  | some old => rfl
  | none => rfl

end Analysis

end Plc
