import Plc.Proofs.Machine.Stack

/-! What the store keeps: as long as the names and the lists are as the analysis has them, what is
looked up is there and fits, and what is bound or written leaves them so. -/
namespace Plc.Machine

variable {d : Discipline} {p : Program} {view : View} {store : Store} {pending : List Pending}

theorem Kept.of_saved (kept : Kept d p view store pending) {others : List Pending}
    (same : saved others = saved pending) : Kept d p view store others :=
  ⟨kept.names, same ▸ kept.callers, kept.lists⟩

theorem Kept.over {c : Config} (kept : Kept d p view c.store c.pending) (lies : c.Over pending) :
    Kept d p view c.store pending :=
  kept.of_saved lies.saved_eq.symm

theorem Kept.variable (kept : Kept d p view store pending) {name : String} {v : Variable}
    (typed : view.scope.getVariable? name = some v) :
    ∃ b, store.scope.getVariable? name = some b ∧ store.scope.lookupVariable name = .ok b ∧
      Cell d.fits name v b := by
  obtain ⟨b, found, cell⟩ := exists_of_rel (kept.names.getVariable? name) typed
  exact ⟨b, found, Scope.lookupVariable_eq_ok.mpr found, cell⟩

theorem Kept.function (kept : Kept d p view store pending) {name : String} {arity : Nat}
    {s : Signature} (typed : view.scope.getFunction? name arity = some s) :
    ∃ callable, store.scope.lookupFunction name arity = .ok callable ∧
      Callee p name arity s callable := by
  obtain ⟨callable, found, callee⟩ := exists_of_rel (kept.names.getFunction? name arity) typed
  exact ⟨callable, Scope.lookupFunction_eq_ok.mpr found, callee⟩

/-- Printing changes nothing but the output, and fails only when that is full. -/
theorem printAll_spec (store : Store) (vs : List Value) :
    (store.printAll vs).2.scope = store.scope ∧ (store.printAll vs).2.heap = store.heap ∧
      Ends (· = .outputFull store.output.report) (fun _ => True) (store.printAll vs).1 := by
  induction vs generalizing store with
  | nil => exact ⟨rfl, rfl, trivial⟩
  | cons v vs ih =>
    rw [Store.printAll]
    cases printed : store.print v with
    | error fault =>
      refine ⟨rfl, rfl, ?_⟩
      rw [Store.print, Output.print] at printed
      split at printed
      · cases printed
      · exact (Except.error.inj printed).symm
      · cases printed
    | ok next =>
      obtain ⟨output, taken, rfl⟩ := map_eq_ok.mp printed
      obtain ⟨scope, heap, ends⟩ := ih { store with output := output }
      have same : output.report = store.output.report := by
        rw [Output.print] at taken
        split at taken
        · exact Except.ok.inj taken ▸ rfl
        · cases taken
        · exact Except.ok.inj taken ▸ rfl
      exact ⟨scope, heap, same ▸ ends⟩

theorem Kept.print (kept : Kept d p view store pending) (values : List Value) :
    Kept d p view (store.printAll values).2 pending := by
  obtain ⟨scope, heap, _⟩ := printAll_spec store values
  refine ⟨?_, kept.callers, ?_⟩
  · rw [scope]
    exact kept.names
  · rw [scope, heap]
    exact kept.lists

theorem Kept.requireMutable (kept : Kept d p view store pending) {name : String} {v : Variable}
    (known : view.scope.getVariable? name = some v) :
    Ends (fun fault => fault = .immutableAssignment name ∧ v.mutable = false) (fun _ => True)
      (store.requireMutable name) := by
  obtain ⟨b, _, looked, cell⟩ := kept.variable known
  have same : b.mutable = v.mutable := cell.mutable
  rw [Store.requireMutable, looked]
  show Ends _ _ (if !b.mutable then .error (Fault.immutableAssignment name) else .ok ())
  rw [same]
  cases mutable : v.mutable with
  | true => trivial
  | false => exact ⟨rfl, rfl⟩

theorem index_lt {length i : Nat} {v : Value} (found : v.index length = .ok i) : i < length := by
  cases v with
  | integer n =>
    rw [Value.index] at found
    split at found
    · rename_i inside
      obtain rfl := Except.ok.inj found
      omega
    · cases found
  | _ => cases found

theorem locate_eq_ok {name : String} {offset : Value} {a i : Nat}
    (located : store.locate name offset = .ok (a, i)) :
    ∃ b, store.scope.getVariable? name = some b ∧ b.value = .list a ∧
      i < (store.heap.elements a).size := by
  obtain ⟨b, looked, located⟩ := bind_eq_ok.mp located
  split at located
  · rename_i address holds
    simp only [bind_eq_ok, pure_eq_ok, Prod.mk.injEq] at located
    obtain ⟨index, found, rfl, rfl⟩ := located
    exact ⟨b, Scope.lookupVariable_eq_ok.mp looked, holds, index_lt found⟩
  · cases located

theorem Kept.locate (keeps : d.KeepsWithin p) (kept : Kept d p view store pending) {name : String}
    {v : Variable} {offset : Value} (known : view.scope.getVariable? name = some v)
    (fit : d.fits .integer offset) (single : v.list = false → d.fault (.notAList name)) :
    Ends d.fault (fun _ => True) (store.locate name offset) := by
  obtain ⟨b, _, looked, cell⟩ := kept.variable known
  rw [Store.locate, looked]
  dsimp only [bind, Except.bind]
  split
  · exact ends_bind (keeps.index fit _) fun _ _ => trivial
  · rename_i other
    cases list : v.list with
    | false => exact single list
    | true =>
      obtain ⟨a, holds⟩ := cell.list list
      exact absurd holds (other a)

theorem Kept.listAt (kept : Kept d p view store pending) {name : String} {v : Variable}
    {b : Binding} {a : Nat} (known : view.scope.getVariable? name = some v)
    (list : v.list = true) (found : store.scope.getVariable? name = some b)
    (holds : b.value = .list a) : ListAt view.scope.root store.scope.root name v a := by
  obtain ⟨typed, same⟩ := kept.names.getVariable?_list known list
  exact ⟨typed, list, b, same ▸ found, holds⟩

theorem Kept.readElement (keeps : d.KeepsWithin p) (kept : Kept d p view store pending)
    {name : String} {v : Variable} {offset : Value}
    (known : view.scope.getVariable? name = some v) (fit : d.fits .integer offset)
    (single : v.list = false → d.fault (.notAList name)) :
    Ends d.fault (d.fits v.ty) (store.readElement name offset) := by
  have ends := kept.locate keeps known fit single
  rw [Store.readElement]
  cases located : store.locate name offset with
  | error fault =>
    rw [located] at ends
    exact ends
  | ok place =>
    obtain ⟨a, i⟩ := place
    obtain ⟨b, found, holds, inside⟩ := locate_eq_ok located
    obtain ⟨b', found', _, cell⟩ := kept.variable known
    obtain rfl := Option.some.inj (found.symm.trans found')
    show d.fits v.ty ((store.heap.elements a).getD i .nil)
    cases list : v.list with
    | false => exact keeps.listed (holds ▸ cell.single list) _
    | true =>
      apply kept.lists.fit name v a (kept.listAt known list found holds)
      rw [Array.getD_eq_getD_getElem?, Array.getElem?_eq_getElem inside, Option.getD_some]
      exact Array.getElem_mem inside

theorem Kept.bind_eq (kept : Kept d p view store pending) {name : String}
    (free : view.scope.current.getVariable? name = none) (mutable : Bool) (v : Value) :
    store.bind name mutable v =
      .ok { store with scope := store.scope.bindVariable name ⟨name, mutable, v⟩ } := by
  have freeToo := kept.names.current_eq_none free
  exact map_eq_ok.mpr ⟨_, Scope.defineVariable_eq_ok.mpr ⟨freeToo, rfl⟩, rfl⟩

theorem Kept.bindSingle (kept : Kept d p view store pending) {name : String} {w : Variable}
    {b : Binding} (cell : Cell d.fits name w b) (single : w.list = false)
    (outside : view.scope.inner = [] → p.Declares name w) :
    Kept d p { view with scope := view.scope.bindVariable name w }
      { store with scope := store.scope.bindVariable name b } pending :=
  ⟨kept.names.bindVariable cell outside fun _ => single, kept.callers,
    kept.lists.bindScope kept.names single b⟩

/-- A list that nothing holds yet may be bound as the whole value of a global. -/
theorem Kept.bindList (kept : Kept d p view store pending) {name : String} {w : Variable}
    {b : Binding} {a : Nat} (cell : Cell d.fits name w b) (outside : view.scope.inner = [])
    (declared : p.Declares name w) (holds : b.value = .list a) (bound : a < store.heap.lists.size)
    (fit : ∀ x ∈ store.heap.elements a, d.fits w.ty x)
    (fresh : ∀ other u, ¬ ListAt view.scope.root store.scope.root other u a) :
    Kept d p { view with scope := view.scope.bindVariable name w }
      { store with scope := store.scope.bindVariable name b } pending := by
  refine ⟨kept.names.bindVariable cell (fun _ => declared) (absurd outside), kept.callers, ?_⟩
  obtain ⟨⟨typeFrames, typeRoot⟩, callers⟩ := view
  obtain ⟨⟨frames, root⟩, heap, output⟩ := store
  obtain rfl : typeFrames = [] := outside
  obtain rfl : frames = [] := List.forall₂_nil_left_iff.mp kept.names.inner
  exact kept.lists.bindList holds bound fit fresh

theorem Kept.assign (kept : Kept d p view store pending) {name : String} {w : Variable} {v : Value}
    (known : view.scope.getVariable? name = some w) (single : w.list = false)
    (fit : d.fits w.ty v) : Ends d.fault (Kept d p view · pending) (store.assign name v) := by
  obtain ⟨b, _, looked, cell⟩ := kept.variable known
  have next : Cell d.fits name w { b with value := v } :=
    ⟨cell.variable_name, cell.binding_name, cell.mutable, fun _ => fit,
      fun list => absurd (single.symm.trans list) Bool.false_ne_true⟩
  have lists : Lists d.fits view.scope.root
      (store.scope.setVariable name { b with value := v }).root store.heap := by
    apply kept.lists.of_listAt
    rintro other u a ⟨typed, list, c, found, holds⟩
    rw [kept.names.root_setVariable_list known single _ typed list] at found
    exact ⟨typed, list, c, found, holds⟩
  rw [Store.assign, looked]
  exact ⟨kept.names.setVariable known next, kept.callers, lists⟩

/-- What is written through a list variable fits. Through another variable it must fit all list
variables that have the list. -/
theorem Kept.assignElement (keeps : d.KeepsWithin p) (kept : Kept d p view store pending)
    {name : String} {w : Variable} {x offset : Value}
    (known : view.scope.getVariable? name = some w) (index : d.fits .integer offset)
    (fit : d.fits w.ty x) (single : w.list = false → d.fault (.notAList name))
    (harmless : ∀ a i, w.list = false → store.locate name offset = .ok (a, i) →
      ∀ other v, ListAt view.scope.root store.scope.root other v a → d.fits v.ty x) :
    Ends d.fault (Kept d p view · pending) (store.assignElement name offset x) := by
  have ends := kept.locate keeps known index single
  rw [Store.assignElement]
  cases located : store.locate name offset with
  | error fault =>
    rw [located] at ends
    exact ends
  | ok place =>
    obtain ⟨a, i⟩ := place
    refine ⟨kept.names, kept.callers, kept.lists.write ?_ i⟩
    intro other v here
    cases list : w.list with
    | false => exact harmless a i list located other v here
    | true =>
      obtain ⟨b, found, holds, _⟩ := locate_eq_ok located
      have own := kept.listAt known list found holds
      obtain rfl := kept.lists.apart other v name w a here own
      obtain rfl := Option.some.inj (here.1.symm.trans own.1)
      exact fit

theorem Kept.enter (kept : Kept d p view store pending) :
    Kept d p { view with scope := view.scope.enter {} } store.enter (.leaveBlock :: pending) := by
  have empty : InnerAgrees d.fits p {} {} := ⟨.empty, fun _ _ found => by cases found⟩
  exact ⟨kept.names.enter empty, kept.callers, kept.lists⟩

theorem Kept.leaveBlock (kept : Kept d p view store (.leaveBlock :: pending)) :
    Kept d p { view with scope := view.scope.leave } store.leave pending :=
  ⟨kept.names.leave, kept.callers, kept.lists⟩

theorem parameterCells (f : Function) {s : Signature} {arguments : List Value}
    (fit : List.Forall₂ d.fits s.parameters arguments) :
    List.Forall₂ (fun t b => t.1 = b.1 ∧ t.2.list = false ∧ Cell d.fits b.1 t.2 b.2)
      (f.parameterVariables s) (parameterBindings f arguments) := by
  rw [Function.parameterVariables, parameterBindings]
  generalize s.parameters = types at fit
  induction f.parameters generalizing types arguments with
  | nil => exact .nil
  | cons name names ih =>
    cases fit with
    | nil => exact .nil
    | cons first others =>
      exact .cons ⟨rfl, rfl, rfl, rfl, rfl, fun _ => first, fun list => by cases list⟩ (ih _ others)

theorem exists_parameterFrame (typed : p.WellTyped) {f : Function} {s : Signature}
    {arguments : List Value} (member : f ∈ p.functions) (slot : f.slot = some s)
    (fit : List.Forall₂ d.fits s.parameters arguments) :
    ∃ frame, Frame.defineVariables {} (parameterBindings f arguments) = .ok frame ∧
      InnerAgrees d.fits p (f.frame s) frame := by
  obtain ⟨scope, fs, place⟩ := Program.exists_functionsAt member
  obtain ⟨s', slot', _, _, defined⟩ := typed.functions place
  obtain rfl := Option.some.inj (slot.symm.trans slot')
  have empty : InnerAgrees d.fits p {} {} := ⟨.empty, fun _ _ found => by cases found⟩
  exact empty.defineVariables (parameterCells f fit) defined

theorem Kept.call (kept : Kept d p view store pending) {types : Frame Variable Signature}
    {frame : Frame Binding Callable} (agrees : InnerAgrees d.fits p types frame) :
    Kept d p ⟨{ view.scope with inner := [types] }, view.scope.inner :: view.callers⟩
      (store.withInner [frame]) (.leaveCall store.scope.inner :: pending) :=
  ⟨kept.names.withInner (.cons agrees .nil), .cons kept.names.inner kept.callers, kept.lists⟩

theorem Kept.leaveCall {scope : TypeScope} {outer : List (Frame Variable Signature)}
    {callers : List (List (Frame Variable Signature))} {frames : List (Frame Binding Callable)}
    (kept : Kept d p ⟨scope, outer :: callers⟩ store (.leaveCall frames :: pending)) :
    Kept d p ⟨{ scope with inner := outer }, callers⟩ (store.withInner frames) pending := by
  obtain ⟨names, callersAgree, lists⟩ := kept
  cases callersAgree with
  | cons first others => exact ⟨names.withInner first, others, lists⟩

theorem Kept.defineFunction_eq (typed : p.WellTyped) (kept : Kept d p view store pending)
    {f : Function} {fs : List Function} (place : p.FunctionsAt view.scope (f :: fs)) :
    ∃ s, f.slot = some s ∧ store.defineFunction f = .ok { store with
      scope := store.scope.bindFunction f.name s.arity (.declared f) } := by
  obtain ⟨s, slot, length, free, _⟩ := typed.getFunction?_scopeBehind place
  refine ⟨s, slot, ?_⟩
  obtain ⟨scope, heap, output⟩ := store
  obtain ⟨frames, root⟩ := scope
  have inner := kept.names.inner
  rw [place.inner_eq] at inner
  obtain rfl : frames = [] := List.forall₂_nil_left_iff.mp inner
  have freeToo := eq_none_of_rel (kept.names.root.funs f.name s.arity) free
  have defined : Scope.defineFunction ⟨[], root⟩ f.name s.arity (.declared f) =
      .ok (Scope.bindFunction ⟨[], root⟩ f.name s.arity (.declared f)) :=
    Scope.defineFunction_eq_ok.mpr ⟨freeToo, rfl⟩
  exact map_eq_ok.mpr ⟨_, length ▸ defined, rfl⟩

theorem callee_declared (typed : p.WellTyped) {scope : TypeScope} {f : Function}
    {fs : List Function} (place : p.FunctionsAt scope (f :: fs)) {s : Signature}
    (slot : f.slot = some s) (member : f ∈ p.functions) :
    Callee p f.name s.arity s (.declared f) := by
  obtain ⟨s', slot', length, free, _⟩ := typed.getFunction?_scopeBehind place
  obtain rfl := Option.some.inj (slot.symm.trans slot')
  refine ⟨rfl, ?_⟩
  rw [if_neg]
  · exact ⟨f, member, rfl, rfl, length.symm, slot⟩
  · intro same
    obtain ⟨name, arity⟩ := Prod.mk.inj same
    rw [name, arity, typed.print_eq place] at free
    cases free

theorem Kept.defineFunction (typed : p.WellTyped) (kept : Kept d p view store pending)
    {f : Function} {fs : List Function} (place : p.FunctionsAt view.scope (f :: fs)) :
    Ends (fun _ => False) (Kept d p { view with scope := f.scopeBehind view.scope } · pending)
      (store.defineFunction f) := by
  obtain ⟨s, slot, defined⟩ := kept.defineFunction_eq typed place
  have behind : f.scopeBehind view.scope = view.scope.bindFunction f.name s.arity s := by
    rw [Function.scopeBehind, slot]
  have names := kept.names.bindFunction
    (callee_declared typed place slot (place.mem List.mem_cons_self)) place.inner_eq
  rw [defined, behind]
  exact ⟨names, kept.callers, kept.lists.bindFunction f.name s.arity s (.declared f)⟩

end Plc.Machine
