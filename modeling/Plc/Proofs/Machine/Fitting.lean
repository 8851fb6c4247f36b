import Plc.Proofs.Machine.Kept

/-! What is known of the parts of a step at a point that fits the program: what is gathered, called,
selected, computed or tested fits as well. -/
namespace Plc.Machine

variable {d : Discipline} {p : Program} {base : Ty} {view : View} {store : Store} {c : Config}
  {focus : Focus} {pending : List Pending}

theorem Task.of_requireFits {e : Expr} {target : Ty} (place : p.ExprAt view.scope e)
    (single : e.isList = false) (fits : e.requireFits target = .ok ())
    (stack : Stack d p base (.value target) view.scope view.callers pending) :
    Task d p base view store (.evaluate e) pending := by
  obtain ⟨ty, outcome, accepted⟩ := Expr.outcome?_of_requireFits fits
  exact .evaluate place single outcome accepted stack

theorem Task.of_valueType {e : Expr} {ty target : Ty} (place : p.ExprAt view.scope e)
    (single : e.isList = false) (known : e.valueType = .ok ty) (accepted : target.accepts ty = true)
    (stack : Stack d p base (.value target) view.scope view.callers pending) :
    Task d p base view store (.evaluate e) pending :=
  .evaluate place single (Expr.outcome?_of_valueType known) accepted stack

section Parts

variable (typed : p.WellTyped) {e : Expr} {ty target : Ty}
include typed

theorem Task.of_part {whole : Expr} (place : p.ExprAt view.scope whole) (part : e ∈ whole.parts)
    (known : e.valueType = .ok ty) (accepted : target.accepts ty = true)
    (stack : Stack d p base (.value target) view.scope view.callers pending) :
    Task d p base view store (.evaluate e) pending :=
  .of_valueType (place.part part) (typed.exprParts place e part) known accepted stack

theorem Task.of_stmt {result : Ty} {s : Stmt} {ss : List Stmt}
    (place : p.BlockAt view.scope result (s :: ss)) (part : e ∈ s.parts)
    (known : e.valueType = .ok ty)
    (stack : Stack d p base (.value ty) view.scope view.callers pending) :
    Task d p base view store (.evaluate e) pending :=
  .of_valueType (.stmt place part) (typed.stmtParts place e part) known (Ty.accepts_self ty) stack

theorem Task.of_stmt_fits {result : Ty} {s : Stmt} {ss : List Stmt}
    (place : p.BlockAt view.scope result (s :: ss)) (part : e ∈ s.parts)
    (fits : e.requireFits target = .ok ())
    (stack : Stack d p base (.value target) view.scope view.callers pending) :
    Task d p base view store (.evaluate e) pending :=
  .of_requireFits (.stmt place part) (typed.stmtParts place e part) fits stack

end Parts

theorem Task.functionsAt {fs : List Function} {mainNamed : Bool}
    (task : Task d p base view store (.load [] fs mainNamed) pending) :
    p.FunctionsAt view.scope fs := by
  cases task with
  | globals place same =>
    rw [same]
    exact .first place
  | functions place => exact place

def Pending.isBinding : Pending → Bool
  | bind .. => true
  | _ => false

/-- Nothing but a binding takes a list that nothing holds yet. -/
theorem Task.exists_fits {v : Value} {q : Pending}
    (task : Task d p base view store (.value v) (q :: pending)) (other : q.isBinding = false) :
    ∃ ty, d.fits ty v ∧ Stack d p base (.value ty) view.scope view.callers (q :: pending) := by
  obtain ⟨scope, callers⟩ := view
  cases task with
  | value fit stack => exact ⟨_, fit, stack⟩
  | fresh _ _ _ stack =>
    cases stack with
    | defineList => cases other

/-- What is called and what is to come of it: nothing from `print`, and what the signature says from
a function of the program. -/
inductive Called (d : Discipline) (p : Program) (base : Ty) (view : View) (store : Store)
    (found : List Value) (pending : List Pending) : Callable → Prop
  | print {target} : target.accepts .nil = true →
      Stack d p base (.value target) view.scope view.callers pending →
      Called d p base view store found pending .print
  | declared {f} : Task d p base view store (.call f found) pending →
      Called d p base view store found pending (.declared f)

inductive Gathered (d : Discipline) (p : Program) (base : Ty) (view : View) :
    Purpose → List Value → List Expr → List Pending → Prop
  | call {name arguments s before after found more target pending} :
      p.ExprAt view.scope (.call name arguments (some s)) →
      arguments.length = found.length + more.length → (∀ e ∈ more, e ∈ arguments) →
      s.parameters = before ++ after → List.Forall₂ d.fits before found →
      List.Forall₂ (fun ty e => e.requireFits ty = .ok ()) after more →
      target.accepts s.result = true →
      Stack d p base (.value target) view.scope view.callers pending →
      Gathered d p base view (.call name) found more pending
  | list {elements ty found more pending} :
      p.ExprAt view.scope (.list elements (some ty)) → (∀ e ∈ more, e ∈ elements) →
      (∀ x ∈ found, d.fits ty x) → Stack d p base (.fresh ty) view.scope view.callers pending →
      Gathered d p base view .list found more pending

inductive Selected (d : Discipline) (p : Program) (base : Ty) (view : View) (cases : List Case)
    (pending : List Pending) : Prop
  | mk {result condition all ss falls} :
      p.BlockAt view.scope result (.switch condition all :: ss) → (∀ c ∈ cases, c ∈ all) →
      (Case.fallsThrough cases = true → falls = true) →
      Stack d p base (.behind falls result) view.scope view.callers pending →
      Selected d p base view cases pending

theorem Gathers.gathered (typed : p.WellTyped) (kept : Kept d p view c.store c.pending)
    (task : Task d p base view c.store c.focus c.pending) {purpose : Purpose} {found : List Value}
    {more : List Expr} (gathers : Gathers c purpose found more pending) :
    Gathered d p base view purpose found more pending := by
  cases gathers with
  | call =>
    cases task with
    | evaluate place _ outcome accepted stack =>
      obtain ⟨s, found, fits, rfl⟩ := typed.exprs place
      cases outcome
      obtain ⟨_, _, arity, _⟩ := exists_of_rel (kept.names.getFunction? _ _) found
      exact .call place (Nat.zero_add _).symm (fun _ here => here) (List.nil_append _).symm .nil
        (Expr.forall₂_of_requireAllFit arity fits) accepted stack
  | list =>
    cases task with
    | evaluate _ single => cases single
    | list place stack => exact .list place (fun _ here => here) (fun _ => nofun) stack
  | next =>
    obtain ⟨ty, fit, stack⟩ := task.exists_fits rfl
    obtain ⟨scope, callers⟩ := view
    cases stack with
    | argument place length part parameters fitFound fits accepted stack =>
      refine .call place ?_ part ?_ (List.rel_append fitFound (.cons fit .nil)) fits accepted stack
      · rw [length, List.length_append, List.length_singleton]
      · rw [parameters, List.append_assoc, List.singleton_append]
    | item place part fitFound stack =>
      exact .list place part
        (List.forall_mem_append.mpr ⟨fitFound, List.forall_mem_singleton.mpr fit⟩) stack

theorem Gathered.task (typed : p.WellTyped) {purpose : Purpose} {found : List Value} {e : Expr}
    {more : List Expr} (gathered : Gathered d p base view purpose found (e :: more) pending) :
    Task d p base view store (.evaluate e) (.gather purpose found more :: pending) := by
  cases gathered with
  | call place length part parameters fit fits accepted stack =>
    have member := part e List.mem_cons_self
    cases fits with
    | cons first others =>
      refine .of_requireFits (place.part member) (typed.exprParts place e member) first
        (.argument place ?_ (fun x here => part x (List.mem_cons_of_mem _ here)) parameters fit
          others accepted stack)
      rw [length, List.length_cons]
      omega
  | list place part fit stack =>
    have member := part e List.mem_cons_self
    obtain ⟨_, same, accepts⟩ := typed.exprs place
    obtain rfl := Option.some.inj same
    obtain ⟨a, known, accepted⟩ := accepts e member
    exact .of_part typed place member known accepted
      (.item place (fun x here => part x (List.mem_cons_of_mem _ here)) fit stack)

theorem Gathered.sound_allocate (kept : Kept d p view store pending) {found : List Value}
    (gathered : Gathered d p base view .list found [] pending) :
    Sound d p base
      ⟨view, ⟨.value (store.allocate found).1, pending, (store.allocate found).2⟩⟩ := by
  cases gathered with
  | list place part fit stack =>
    refine ⟨⟨kept.names, kept.callers, kept.lists.allocate found⟩, .fresh ?_ ?_ ?_ stack⟩
    · show store.heap.lists.size < (store.heap.lists.push found.toArray).size
      rw [Array.size_push]
      omega
    · intro x member
      have here : x ∈ (store.heap.allocate found).2.elements store.heap.lists.size := member
      rw [Heap.elements_allocate, if_pos rfl] at here
      exact fit x (by simpa using here)
    · intro name v here
      exact absurd (kept.lists.bound name v _ here) (Nat.lt_irrefl _)

theorem called_of_getFunction? (kept : Kept d p view c.store c.pending) {name : String}
    {found : List Value} {s : Signature} {target : Ty}
    (known : view.scope.getFunction? name s.parameters.length = some s)
    (fit : List.Forall₂ d.fits s.parameters found)
    (root : (name, s.parameters.length) ≠ ("print", 1) → view.scope.root = p.scope.root)
    (accepted : target.accepts s.result = true)
    (stack : Stack d p base (.value target) view.scope view.callers pending) :
    Ends (fun _ => False) (Called d p base view c.store found pending)
      (c.store.scope.lookupFunction name found.length) := by
  obtain ⟨callable, looked, _, callee⟩ := kept.function known
  rw [← fit.length_eq, looked]
  split at callee
  · obtain ⟨rfl, rfl⟩ := callee
    exact .print accepted stack
  · rename_i other
    obtain ⟨f, member, rfl, _, _, slot⟩ := callee
    exact .declared (.call member slot fit (root other) accepted stack)

theorem sound_print (keeps : d.KeepsWithin p) (kept : Kept d p view store pending)
    (values : List Value) {target : Ty} (accepted : target.accepts .nil = true)
    (stack : Stack d p base (.value target) view.scope view.callers pending) :
    Sound d p base
      ⟨view, ⟨printed (store.printAll values).1, pending, (store.printAll values).2⟩⟩ := by
  refine ⟨kept.print values, ?_⟩
  have ends := (printAll_spec store values).2.2
  cases made : (store.printAll values).1 with
  | ok => exact .value (keeps.accepts accepted keeps.nil) stack
  | error fault =>
    rw [made] at ends
    obtain rfl : fault = .outputFull store.output.report := ends
    exact .failing (keeps.full _)

/-- What is called is there and takes the values. -/
theorem Calls.called (typed : p.WellTyped) (kept : Kept d p view c.store c.pending)
    (task : Task d p base view c.store c.focus c.pending) {name : String} {found : List Value}
    (calls : Calls c name found pending) :
    Ends (fun _ => False) (Called d p base view c.store found pending)
      (c.store.scope.lookupFunction name found.length) := by
  cases calls with
  | gathered gathers =>
    cases gathers.gathered typed kept task with
    | call place length part parameters fit fits accepted stack =>
      cases fits
      obtain ⟨s, known, _, slot⟩ := typed.exprs place
      obtain rfl := Option.some.inj slot
      rw [List.append_nil] at parameters
      subst parameters
      rw [length, ← fit.length_eq, List.length_nil, Nat.add_zero] at known
      exact called_of_getFunction? kept known fit (place.root_eq known) accepted stack
  | main =>
    have scopeEq : view.scope = p.scope := task.functionsAt.eq_scope
    obtain ⟨s, known, result⟩ := typed.main
    rw [← scopeEq] at known
    obtain ⟨_, _, arity, _⟩ := kept.function known
    have none : s.parameters = [] := List.length_eq_zero_iff.mp arity
    have stack : Stack d p base (.value .integer) view.scope view.callers pending := by
      cases task with
      | globals _ _ top stack | functions _ top stack => rwa [scopeEq, top]
    exact called_of_getFunction? kept (arity.symm ▸ known) (none ▸ .nil)
      (fun _ => congrArg _ scopeEq) (result ▸ Ty.accepts_self .integer) stack

theorem Selects.selected (task : Task d p base view c.store c.focus c.pending) {subject : Value}
    {cases : List Case} (selects : Selects c subject cases pending) :
    Selected d p base view cases pending := by
  cases selects with
  | first =>
    obtain ⟨ty, _, stack⟩ := task.exists_fits rfl
    obtain ⟨scope, callers⟩ := view
    cases stack with
    | select place stack => exact .mk place (fun _ here => here) id stack
  | next =>
    obtain ⟨ty, _, stack⟩ := task.exists_fits rfl
    obtain ⟨scope, callers⟩ := view
    cases stack with
    | compare place _ part through stack =>
      exact .mk place part (fun falls => through (Bool.or_eq_true_iff.mpr (.inr falls))) stack

theorem value_mem_of_on_mem {value : Expr} {body : List Stmt} {all : List Case}
    (member : .on value body ∈ all) : value ∈ all.filterMap Case.value? :=
  List.mem_filterMap.mpr ⟨_, member, rfl⟩

theorem Selected.task_on (typed : p.WellTyped) {subject : Value} {value : Expr} {body : List Stmt}
    {cases : List Case} (selected : Selected d p base view (.on value body :: cases) pending) :
    Task d p base view store (.evaluate value) (.compare subject body cases :: pending) := by
  obtain ⟨place, part, through, stack⟩ := selected
  have here := part _ List.mem_cons_self
  have among := value_mem_of_on_mem here
  obtain ⟨ty, _, known⟩ := typed.stmts place
  exact .of_stmt typed place (List.mem_cons_of_mem _ among) (known value among)
    (.compare place (List.mem_map.mpr ⟨_, here, rfl⟩)
      (fun c later => part c (List.mem_cons_of_mem _ later)) through stack)

theorem Selected.task_default {body : List Stmt} {cases : List Case}
    (selected : Selected d p base view (.default body :: cases) pending) :
    Task d p base view store (.enter body) pending := by
  obtain ⟨place, part, through, stack⟩ := selected
  exact .enter (place.inner (List.mem_map.mpr ⟨_, part _ List.mem_cons_self, rfl⟩)) through stack

/-- Where a variable begins, its first value is evaluated, or it may be nil. -/
theorem Initializes.task (keeps : d.KeepsWithin p) (typed : p.WellTyped)
    (task : Task d p base view c.store c.focus c.pending) {name : String} {mutable : Bool}
    {slot : Option Variable} {value : Option Expr}
    (initializes : Initializes c name mutable slot value pending) :
    (∀ e, value = some e →
      Task d p base view c.store (.evaluate e) (.bind name mutable slot :: pending)) ∧
    (value = none →
      Task d p base view c.store (.value .nil) (.bind name mutable slot :: pending)) := by
  cases initializes with
  | declare =>
    cases task with
    | execute place stack =>
      obtain ⟨ty, rfl, _, fits⟩ := typed.stmts place
      refine ⟨?_, ?_⟩
      · rintro e rfl
        exact .of_stmt_fits typed place List.mem_cons_self (fits e rfl) (.declare place stack)
      · rintro rfl
        exact .value (keeps.declared place) (.declare place stack)
  | @define g _ _ =>
    cases task with
    | define place top stack =>
      obtain ⟨v, slot, _, _, list, _, fits⟩ := typed.globals place
      rw [Global.scopeBehind, slot] at stack
      rw [slot]
      have single (isSingle : v.list = false) : Stack d p base (.value v.ty) view.scope
          view.callers (.bind g.name g.mutable (some v) :: pending) :=
        top ▸ .defineSingle place slot isSingle stack
      refine ⟨fun e given => ?_, fun given => ?_⟩
      · have listEq : v.list = e.isList := by rw [list, Global.isList, given, Option.any_some]
        have fits := fits e given
        cases isList : e.isList with
        | false =>
          rw [isList, if_neg Bool.false_ne_true] at fits
          exact .of_requireFits (.global place given) isList fits (single (listEq.trans isList))
        | true =>
          rw [isList, if_pos rfl] at fits
          have fresh : Stack d p base (.fresh v.ty) view.scope view.callers
              (.bind g.name g.mutable (some v) :: pending) :=
            top ▸ .defineList place slot (listEq.trans isList) stack
          cases e with
          | list elements ty =>
            obtain rfl : ty = some v.ty := fits
            exact .list (.global place given) fresh
          | _ => cases isList
      · have isSingle : v.list = false := by rw [list, Global.isList, given, Option.any_none]
        exact .value (keeps.global place given slot) (single isSingle)

/-- A value that is computed or looked up fits. That of a list variable must fit anything. -/
theorem Settles.ends (keeps : d.KeepsWithin p) (typed : p.WellTyped)
    (kept : Kept d p view c.store c.pending) (task : Task d p base view c.store c.focus c.pending)
    (whole : (∀ e, c.focus = .evaluate e → e.wholeList? = none) ∨ ∀ v, d.fits .any v)
    {made : Except Fault Value} (settles : Settles c made pending) :
    ∃ target, Stack d p base (.value target) view.scope view.callers pending ∧
      Ends d.fault (d.fits target) made := by
  cases settles with
  | access =>
    cases task with
    | @evaluate _ ty target _ place _ outcome accepted stack =>
      obtain ⟨v, known, rfl⟩ := typed.exprs place
      obtain ⟨b, _, looked, cell⟩ := kept.variable known
      refine ⟨target, stack, ?_⟩
      rw [looked]
      refine keeps.accepts accepted ?_
      cases list : v.list with
      | false =>
        rw [Expr.outcome?_eq_ty (by simp [Expr.wholeList?, list])] at outcome
        cases outcome
        exact cell.single list
      | true =>
        rcases whole with none | any
        · have none := none _ rfl
          simp [Expr.wholeList?, list] at none
        · rw [Expr.outcome?, if_pos (by simp [Expr.wholeList?, list])] at outcome
          cases outcome
          exact any b.value
  | operate =>
    obtain ⟨ty, fit, stack⟩ := task.exists_fits rfl
    obtain ⟨scope, callers⟩ := view
    cases stack with
    | operate place leftKnown rightKnown fitLeft accepted stack =>
      exact ⟨_, stack, ends_mono (keeps.operate place leftKnown rightKnown _ _ _ fitLeft fit)
        fun _ => keeps.accepts accepted⟩
  | element =>
    obtain ⟨ty, fit, stack⟩ := task.exists_fits rfl
    obtain ⟨scope, callers⟩ := view
    cases stack with
    | element place accepted stack =>
      obtain ⟨_, w, known, same⟩ := typed.exprs place
      obtain rfl := Option.some.inj same
      exact ⟨_, stack, ends_mono (kept.readElement keeps known fit (keeps.element place))
        fun _ => keeps.accepts accepted⟩

theorem Tests.fits (typed : p.WellTyped) (task : Task d p base view c.store c.focus c.pending)
    {v : Value} (tests : Tests c v pending) : d.fits .boolean v := by
  cases tests with
  | right decisive =>
    obtain ⟨ty, fit, stack⟩ := task.exists_fits rfl
    obtain ⟨scope, callers⟩ := view
    cases stack with
    | right place known =>
      obtain ⟨_, b, _, _, rightTyped, _, _⟩ := typed.exprs place
      have rightKnown := (Expr.valueType_eq_ok.mp rightTyped).2
      obtain ⟨rfl, rfl⟩ := (typed.takes place known rightKnown).boolean_of_decisive decisive
      exact fit
  | choose | whether =>
    obtain ⟨ty, fit, stack⟩ := task.exists_fits rfl
    obtain ⟨scope, callers⟩ := view
    cases stack
    exact fit

end Plc.Machine
