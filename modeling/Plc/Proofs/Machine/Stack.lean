import Plc.Proofs.Machine.Agreement
import Plc.Proofs.Machine.Trace
import Plc.Proofs.Typing.Rules

/-! The points of a run that fit a program. What is pending is typed from the bottom up: each entry
stands behind a phrase of the program, takes what this phrase can give, and hands on to the entry
below what that one takes. Which values fit a type, and which faults may come, is left open. -/
namespace Plc

/-- The type of what comes of an expression. Of a whole list nothing more is known. -/
def Expr.outcome? (e : Expr) : Option Ty :=
  if e.wholeList?.isSome then some .any else e.ty

theorem Expr.outcome?_eq_ty {e : Expr} (single : e.wholeList? = none) : e.outcome? = e.ty := by
  rw [outcome?, single, Option.isSome_none, if_neg Bool.false_ne_true]

theorem Expr.outcome?_of_valueType {e : Expr} {ty : Ty} (typed : e.valueType = .ok ty) :
    e.outcome? = some ty := by
  obtain ⟨single, known⟩ := valueType_eq_ok.mp typed
  rw [outcome?_eq_ty single, known]

theorem Expr.outcome?_of_requireFits {e : Expr} {target : Ty} {u : Unit}
    (fits : e.requireFits target = .ok u) :
    ∃ ty, e.outcome? = some ty ∧ target.accepts ty = true := by
  rcases requireFits_eq_ok.mp fits with ⟨rfl, whole⟩ | ⟨ty, typed, accepted⟩
  · exact ⟨.any, by rw [outcome?, if_pos whole], Ty.accepts_self .any⟩
  · exact ⟨ty, outcome?_of_valueType typed, accepted⟩

theorem Expr.forall₂_of_requireAllFit {targets : List Ty} {es : List Expr}
    (length : targets.length = es.length) (fits : Expr.requireAllFit targets es = .ok ()) :
    List.Forall₂ (fun ty e => e.requireFits ty = .ok ()) targets es := by
  induction targets generalizing es with
  | nil =>
    cases es with
    | nil => exact .nil
    | cons e es => cases length
  | cons target targets ih =>
    cases es with
    | nil => cases length
    | cons e es =>
      obtain ⟨_, first, others⟩ := bind_eq_ok.mp fits
      exact .cons first (ih (Nat.succ.inj length) others)

def Expr.variable? : Expr → Option (String × Variable)
  | .access name slot => slot.map (name, ·)
  | .element name _ slot => slot.map (name, ·)
  | _ => none

def Stmt.isRet : Stmt → Bool
  | .ret _ => true
  | _ => false

mutual

/-- Whether a statement may end without having returned. Loops may, whatever stands in them. -/
def Stmt.falls : Stmt → Bool
  | .ret _ => false
  | .branch _ thenBody elseBody => Stmt.fallsThrough thenBody || Stmt.fallsThrough elseBody
  | .switch _ cases => Case.fallsThrough cases
  | _ => true

def Stmt.fallsThrough : List Stmt → Bool
  | [] => true
  | s :: ss => s.falls && Stmt.fallsThrough ss

def Case.fallsThrough : List Case → Bool
  | [] => true
  | .on _ body :: cases => Stmt.fallsThrough body || Case.fallsThrough cases
  | .default body :: _ => Stmt.fallsThrough body

end

/-- Which values fit a type, and which faults a run may end in. -/
structure Discipline where
  fits : Ty → Value → Prop
  fault : Fault → Prop

/-- What a discipline must allow so that it can be kept by the runs of a program, as long as they
take no list as a whole and no function falls off its end. The last five say it of phrases of the
program, the others of types and values. -/
structure Discipline.KeepsWithin (d : Discipline) (p : Program) : Prop where
  nil : d.fits .nil .nil
  boolean : ∀ b, d.fits .boolean (.boolean b)
  accepts : ∀ {target source v}, target.accepts source = true → d.fits source v → d.fits target v
  literal : ∀ {value : Literal} {ty}, value.type = .ok ty → d.fits ty (.ofLiteral value)
  listed : ∀ {ty a}, d.fits ty (.list a) → ∀ v, d.fits ty v
  truth : ∀ {v}, d.fits .boolean v → Ends d.fault (fun _ => True) v.truth
  index : ∀ {v}, d.fits .integer v → ∀ length, Ends d.fault (fun _ => True) (v.index length)
  full : ∀ report, d.fault (.outputFull report)
  operate : ∀ {scope op left right t a b}, p.ExprAt scope (.binary op left right (some t)) →
    left.ty = some a → right.ty = some b → ∀ heap x y, d.fits a x → d.fits b y →
    Ends d.fault (d.fits t) (op.apply heap x y)
  element : ∀ {scope name offset v}, p.ExprAt scope (.element name offset (some v)) →
    v.list = false → d.fault (.notAList name)
  immutable : ∀ {scope result receiver value ss name v},
    p.BlockAt scope result (.assign receiver value :: ss) → receiver.variable? = some (name, v) →
    v.mutable = false → d.fault (.immutableAssignment name)
  declared : ∀ {scope result name typeName v ss},
    p.BlockAt scope result (.declare name typeName none (some v) :: ss) → d.fits v.ty .nil
  global : ∀ {scope g gs v}, p.GlobalsAt scope (g :: gs) → g.value = none → g.slot = some v →
    d.fits v.ty .nil

/-- A function may fall off its end, besides, if its body lets it. -/
structure Discipline.KeepsSingle (d : Discipline) (p : Program) : Prop extends
    d.KeepsWithin p where
  ends : ∀ {f s}, f ∈ p.functions → f.slot = some s → Stmt.fallsThrough f.body = true →
    d.fits s.result .nil

structure Discipline.Keeps (d : Discipline) (p : Program) : Prop extends d.KeepsSingle p where
  any : ∀ v, d.fits .any v

namespace Machine

/-- What the first of what is pending takes: a value of a type, a list that nothing holds yet, the
end of a statement, where that can come, or a returned value, or the end of a definition. -/
inductive Hole where
  | value (ty : Ty)
  | fresh (ty : Ty)
  | behind (falls : Bool) (result : Ty)
  | loaded

/-- Pending work that fits a program, with the scope in which it goes on, those of the callers, and
the type of what comes out at the bottom. -/
inductive Stack (d : Discipline) (p : Program) (base : Ty) :
    Hole → TypeScope → List (List (Frame Variable Signature)) → List Pending → Prop
  | nil {scope} : Stack d p base (.value base) scope [] []
  | right {scope callers pending op left right t a target} :
      p.ExprAt scope (.binary op left right (some t)) → left.ty = some a →
      target.accepts t = true → Stack d p base (.value target) scope callers pending →
      Stack d p base (.value a) scope callers (.right op right :: pending)
  | operate {scope callers pending op left right t a b x target} :
      p.ExprAt scope (.binary op left right (some t)) → left.ty = some a → right.ty = some b →
      d.fits a x → target.accepts t = true →
      Stack d p base (.value target) scope callers pending →
      Stack d p base (.value b) scope callers (.operate op x :: pending)
  | element {scope callers pending name offset v target} :
      p.ExprAt scope (.element name offset (some v)) → target.accepts v.ty = true →
      Stack d p base (.value target) scope callers pending →
      Stack d p base (.value .integer) scope callers (.element name (some v) :: pending)
  | argument {scope callers pending name arguments s before ty after found more target} :
      p.ExprAt scope (.call name arguments (some s)) →
      arguments.length = found.length + 1 + more.length → (∀ e ∈ more, e ∈ arguments) →
      s.parameters = before ++ ty :: after → List.Forall₂ d.fits before found →
      List.Forall₂ (fun ty e => e.requireFits ty = .ok ()) after more →
      target.accepts s.result = true → Stack d p base (.value target) scope callers pending →
      Stack d p base (.value ty) scope callers (.gather (.call name) found more :: pending)
  | item {scope callers pending elements ty found more} :
      p.ExprAt scope (.list elements (some ty)) → (∀ e ∈ more, e ∈ elements) →
      (∀ x ∈ found, d.fits ty x) → Stack d p base (.fresh ty) scope callers pending →
      Stack d p base (.value ty) scope callers (.gather .list found more :: pending)
  | declare {scope callers pending result name typeName value v ss} :
      p.BlockAt scope result (.declare name typeName value (some v) :: ss) →
      Stack d p base (.behind true result) (scope.bindVariable name v) callers pending →
      Stack d p base (.value v.ty) scope callers (.bind name true (some v) :: pending)
  | defineSingle {scope pending g gs v} :
      p.GlobalsAt scope (g :: gs) → g.slot = some v → v.list = false →
      Stack d p base .loaded (scope.bindVariable g.name v) [] pending →
      Stack d p base (.value v.ty) scope [] (.bind g.name g.mutable (some v) :: pending)
  | defineList {scope pending g gs v} :
      p.GlobalsAt scope (g :: gs) → g.slot = some v → v.list = true →
      Stack d p base .loaded (scope.bindVariable g.name v) [] pending →
      Stack d p base (.fresh v.ty) scope [] (.bind g.name g.mutable (some v) :: pending)
  | assign {scope callers pending result name v value ss} :
      p.BlockAt scope result (.assign (.access name (some v)) value :: ss) →
      Stack d p base (.behind true result) scope callers pending →
      Stack d p base (.value v.ty) scope callers (.assign name (some v) :: pending)
  | assignOffset {scope callers pending result name offset v value ss} :
      p.BlockAt scope result (.assign (.element name offset (some v)) value :: ss) →
      Stack d p base (.behind true result) scope callers pending →
      Stack d p base (.value .integer) scope callers (.assignOffset name (some v) value :: pending)
  | assignElement {scope callers pending result name offset v value ss x} :
      p.BlockAt scope result (.assign (.element name offset (some v)) value :: ss) →
      d.fits .integer x → Stack d p base (.behind true result) scope callers pending →
      Stack d p base (.value v.ty) scope callers (.assignElement name (some v) x :: pending)
  | choose {scope callers pending result condition thenBody elseBody ss} :
      p.BlockAt scope result (.branch condition thenBody elseBody :: ss) →
      Stack d p base (.behind (Stmt.falls (.branch condition thenBody elseBody)) result) scope
        callers pending →
      Stack d p base (.value .boolean) scope callers (.choose thenBody elseBody :: pending)
  | whether {scope callers pending result condition body ss} :
      p.BlockAt scope result (.loop condition body :: ss) →
      Stack d p base (.behind true result) scope callers pending →
      Stack d p base (.value .boolean) scope callers (.whether condition body :: pending)
  | select {scope callers pending result condition cases ss ty} :
      p.BlockAt scope result (.switch condition cases :: ss) →
      Stack d p base (.behind (Case.fallsThrough cases) result) scope callers pending →
      Stack d p base (.value ty) scope callers (.select cases :: pending)
  | compare {scope callers pending falls result condition all body cases subject ss ty} :
      p.BlockAt scope result (.switch condition all :: ss) → body ∈ all.map Case.body →
      (∀ c ∈ cases, c ∈ all) →
      ((Stmt.fallsThrough body || Case.fallsThrough cases) = true → falls = true) →
      Stack d p base (.behind falls result) scope callers pending →
      Stack d p base (.value ty) scope callers (.compare subject body cases :: pending)
  | discard {scope callers pending result ty} :
      Stack d p base (.behind true result) scope callers pending →
      Stack d p base (.value ty) scope callers (.discard :: pending)
  | giveBack {scope callers pending falls result} :
      Stack d p base (.behind falls result) scope callers pending →
      Stack d p base (.value result) scope callers (.giveBack :: pending)
  | rest {scope callers pending falls result ss} :
      p.BlockAt scope result ss →
      Stack d p base (.behind (falls && Stmt.fallsThrough ss) result)
        (Stmt.scopeBehindAll scope ss) callers pending →
      Stack d p base (.behind falls result) scope callers (.rest ss :: pending)
  | again {scope callers pending falls result condition body ss} :
      p.BlockAt scope result (.loop condition body :: ss) →
      Stack d p base (.behind true result) scope callers pending →
      Stack d p base (.behind falls result) scope callers (.again condition body :: pending)
  | leaveBlock {scope frame callers pending falls outer result} :
      (falls = true → outer = true) → Stack d p base (.behind outer result) scope callers pending →
      Stack d p base (.behind falls result) (scope.enter frame) callers (.leaveBlock :: pending)
  | leaveCall {scope outer callers pending falls f s frames target} :
      f ∈ p.functions → f.slot = some s → (falls = true → Stmt.fallsThrough f.body = true) →
      scope.root = p.scope.root → target.accepts s.result = true →
      Stack d p base (.value target) { scope with inner := outer } callers pending →
      Stack d p base (.behind falls s.result) scope (outer :: callers)
        (.leaveCall frames :: pending)
  | globals {scope pending gs mainNamed} :
      p.GlobalsAt scope gs → Stack d p base (.value .integer) p.scope [] pending →
      Stack d p base .loaded scope [] (.load gs p.functions mainNamed :: pending)

inductive Task (d : Discipline) (p : Program) (base : Ty) (view : View) (store : Store) :
    Focus → List Pending → Prop
  | evaluate {e ty target pending} : p.ExprAt view.scope e → e.isList = false →
      e.outcome? = some ty → target.accepts ty = true →
      Stack d p base (.value target) view.scope view.callers pending →
      Task d p base view store (.evaluate e) pending
  | list {elements ty pending} : p.ExprAt view.scope (.list elements (some ty)) →
      Stack d p base (.fresh ty) view.scope view.callers pending →
      Task d p base view store (.evaluate (.list elements (some ty))) pending
  | execute {result s ss pending} : p.BlockAt view.scope result (s :: ss) →
      Stack d p base (.behind s.falls result) (s.scopeBehind view.scope) view.callers pending →
      Task d p base view store (.execute s) pending
  | block {result ss pending} : p.BlockAt view.scope result ss →
      Stack d p base (.behind (Stmt.fallsThrough ss) result) (Stmt.scopeBehindAll view.scope ss)
        view.callers pending →
      Task d p base view store (.block ss) pending
  | enter {falls result body pending} : p.BlockAt (view.scope.enter {}) result body →
      (Stmt.fallsThrough body = true → falls = true) →
      Stack d p base (.behind falls result) view.scope view.callers pending →
      Task d p base view store (.enter body) pending
  | call {f s arguments target pending} : f ∈ p.functions → f.slot = some s →
      List.Forall₂ d.fits s.parameters arguments → view.scope.root = p.scope.root →
      target.accepts s.result = true →
      Stack d p base (.value target) view.scope view.callers pending →
      Task d p base view store (.call f arguments) pending
  | define {g gs pending} : p.GlobalsAt view.scope (g :: gs) → view.callers = [] →
      Stack d p base .loaded (g.scopeBehind view.scope) [] pending →
      Task d p base view store (.define g) pending
  | globals {gs fs mainNamed pending} : p.GlobalsAt view.scope gs → fs = p.functions →
      view.callers = [] → Stack d p base (.value .integer) p.scope [] pending →
      Task d p base view store (.load gs fs mainNamed) pending
  | functions {fs mainNamed pending} : p.FunctionsAt view.scope fs → view.callers = [] →
      Stack d p base (.value .integer) p.scope [] pending →
      Task d p base view store (.load [] fs mainNamed) pending
  | value {ty v pending} : d.fits ty v →
      Stack d p base (.value ty) view.scope view.callers pending →
      Task d p base view store (.value v) pending
  | fresh {ty a pending} : a < store.heap.lists.size → (∀ x ∈ store.heap.elements a, d.fits ty x) →
      (∀ name v, ¬ ListAt view.scope.root store.scope.root name v a) →
      Stack d p base (.fresh ty) view.scope view.callers pending →
      Task d p base view store (.value (.list a)) pending
  | done {result pending} : Stack d p base (.behind true result) view.scope view.callers pending →
      Task d p base view store .done pending
  | loaded {pending} : Stack d p base .loaded view.scope view.callers pending →
      Task d p base view store .done pending
  | returning {scope falls result v pending} : d.fits result v → scope.leave = view.scope.leave →
      Stack d p base (.behind falls result) scope view.callers pending →
      Task d p base view store (.returning v) pending
  | failing {fault pending} : d.fault fault → Task d p base view store (.failing fault) pending

def saved : List Pending → List (List (Frame Binding Callable))
  | [] => []
  | .leaveCall inner :: pending => inner :: saved pending
  | _ :: pending => saved pending

theorem saved_cons {p : Pending} (stays : p.leaves = false) (pending : List Pending) :
    saved (p :: pending) = saved pending := by
  cases p with
  | leaveBlock | leaveCall => cases stays
  | _ => rfl

theorem Config.Over.saved_eq {c : Config} {pending : List Pending} (lies : c.Over pending) :
    saved c.pending = saved pending := by
  cases lies with
  | all => rfl
  | below stays => exact saved_cons stays pending

theorem Evaluates.saved_eq {c : Config} {focus : Focus} {pending : List Pending}
    (evaluates : Evaluates c focus pending) : saved c.pending = saved pending := by
  rcases evaluates.over with lies | ⟨p, rest, stays, lies, rfl⟩
  · exact lies.saved_eq
  · rw [saved_cons stays, lies.saved_eq]

theorem Executes.saved_eq {c : Config} {focus : Focus} {pending : List Pending}
    (executes : Executes c focus pending) : saved c.pending = saved pending := by
  rcases executes.over with lies | ⟨p, rest, stays, lies, rfl⟩
  · exact lies.saved_eq
  · rw [saved_cons stays, lies.saved_eq]

structure Kept (d : Discipline) (p : Program) (view : View) (store : Store)
    (pending : List Pending) : Prop where
  names : Agrees d.fits p view.scope store.scope
  callers : List.Forall₂ (List.Forall₂ (InnerAgrees d.fits p)) view.callers (saved pending)
  lists : Lists d.fits view.scope.root store.scope.root store.heap

structure Sound (d : Discipline) (p : Program) (base : Ty) (x : Point) : Prop where
  kept : Kept d p x.view x.config.store x.config.pending
  task : Task d p base x.view x.config.store x.config.focus x.config.pending

end Machine
end Plc
