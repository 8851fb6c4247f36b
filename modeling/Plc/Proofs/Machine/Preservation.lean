import Plc.Proofs.Machine.Tasks

/-! A step from a point that fits the program comes to such a point again, and it fails only as it
may. There is one lemma for each group of rules. -/
namespace Plc.Machine

variable {d : Discipline} {p : Program} {base : Ty} {view : View} {store : Store} {c : Config}
  {focus : Focus} {pending : List Pending}

/-- What a configuration writes to an element of a list, if it is about to do so through a variable
that is no list variable. -/
def Config.AliasWrite (c : Config) (a i : Nat) (x : Value) : Prop :=
  ∃ name w offset pending, c.focus = .value x ∧
    c.pending = .assignElement name (some w) offset :: pending ∧ w.list = false ∧
    c.store.locate name offset = .ok (a, i)

def Point.Harmless (fits : Ty → Value → Prop) (point : Point) : Prop :=
  ∀ a i x, point.config.AliasWrite a i x → ∀ name v,
    ListAt point.view.scope.root point.config.store.scope.root name v a → fits v.ty x

def Config.FallsOff (c : Config) : Prop :=
  c.focus = .done ∧ ∃ frames pending, c.pending = .leaveCall frames :: pending

theorem Gathers.view_next {purpose : Purpose} {found : List Value} {more : List Expr}
    (gathers : Gathers c purpose found more pending) : view.next c = view := by
  cases gathers <;> rfl

theorem Calls.view_next {name : String} {found : List Value}
    (calls : Calls c name found pending) : view.next c = view := by
  cases calls with
  | gathered gathers => exact gathers.view_next
  | main => rfl

theorem Selects.view_next {subject : Value} {cases : List Case}
    (selects : Selects c subject cases pending) : view.next c = view := by
  cases selects <;> rfl

theorem Initializes.view_next {name : String} {mutable : Bool} {slot : Option Variable}
    {value : Option Expr} (initializes : Initializes c name mutable slot value pending) :
    view.next c = view := by
  cases initializes <;> rfl

theorem Settles.view_next {made : Except Fault Value} (settles : Settles c made pending) :
    view.next c = view := by
  cases settles <;> rfl

theorem Tests.view_next {v : Value} (tests : Tests c v pending) : view.next c = view := by
  cases tests <;> rfl

theorem Evaluates.view_next (evaluates : Evaluates c focus pending) : view.next c = view := by
  cases evaluates with
  | settle settles => exact settles.view_next
  | gather gathers => exact gathers.view_next
  | call calls => exact calls.view_next
  | _ => rfl

theorem Executes.view_next (executes : Executes c focus pending) : view.next c = view := by
  cases executes with
  | initial initializes | unset initializes => exact initializes.view_next
  | noCase selects | case selects | default selects => exact selects.view_next
  | _ => rfl

theorem Drops.view_next {q : Pending} (drops : Drops focus q) :
    view.next ⟨focus, q :: pending, store⟩ = view := by
  have unwind : view.unwind q = view := by
    have stays := drops.leaves
    cases q with
    | leaveBlock | leaveCall => cases stays
    | _ => rfl
  cases drops with
  | value takes =>
    cases q with
    | rest | again | leaveBlock | leaveCall | load => exact unwind
    | _ => cases takes
  | done | returning | failing => exact unwind

theorem Changes.sound (keeps : d.KeepsWithin p) (typed : p.WellTyped)
    (kept : Kept d p view c.store c.pending) (task : Task d p base view c.store c.focus c.pending)
    (harmless : Point.Harmless d.fits ⟨view, c⟩) {made : Except Fault Store}
    (changes : Changes c made pending) :
    Ends (fun fault => d.fault fault ∧ view.next c = view)
      (fun store => Sound d p base ⟨view.next c, ⟨.done, pending, store⟩⟩) made := by
  replace kept := kept.over changes.over
  cases changes with
  | @bind name mutable slot v =>
    obtain ⟨scope, callers⟩ := view
    cases task with
    | value fit stack =>
      cases stack with
      | declare place stack =>
        obtain ⟨ty, same, free, _⟩ := typed.stmts place
        obtain rfl := Option.some.inj same
        rw [kept.bind_eq free]
        refine ⟨kept.bindSingle ?_ rfl fun outside => absurd outside place.root_eq.2, .done stack⟩
        exact ⟨rfl, rfl, rfl, fun _ => fit, fun list => by cases list⟩
      | @defineSingle _ _ g _ w place slot single stack =>
        have declared : p.Declares g.name w := ⟨g, place.mem List.mem_cons_self, rfl, slot⟩
        obtain ⟨w, slot', name, mutable, _, free, _⟩ := typed.globals place
        obtain rfl := Option.some.inj (slot.symm.trans slot')
        rw [kept.bind_eq free]
        refine ⟨kept.bindSingle ?_ single fun _ => declared, .loaded stack⟩
        exact ⟨name, rfl, mutable.symm, fun _ => fit,
          fun list => absurd (single.symm.trans list) Bool.false_ne_true⟩
    | @fresh _ a _ bound fit fresh stack =>
      cases stack with
      | @defineList _ _ g gs w place slot list stack =>
        obtain ⟨w', slot', name, mutable, _, free, _⟩ := typed.globals place
        obtain rfl := Option.some.inj (slot.symm.trans slot')
        have cell : Cell d.fits g.name w ⟨g.name, g.mutable, .list a⟩ :=
          ⟨name, rfl, mutable.symm,
            fun single => absurd (single.symm.trans list) Bool.false_ne_true, fun _ => ⟨a, rfl⟩⟩
        have declared : p.Declares g.name w := ⟨g, place.mem List.mem_cons_self, rfl, slot⟩
        rw [kept.bind_eq free]
        exact ⟨kept.bindList cell place.inner_eq declared rfl bound fit fresh, .loaded stack⟩
  | assign =>
    obtain ⟨ty, fit, stack⟩ := task.exists_fits rfl
    obtain ⟨scope, callers⟩ := view
    cases stack with
    | @assign _ _ _ _ name w value ss place stack =>
      obtain ⟨_, _, known, _⟩ := typed.stmts place
      obtain ⟨w', found, same⟩ := typed.exprs (.stmt place List.mem_cons_self)
      obtain rfl := Option.some.inj same
      have single : w.list = false := by
        have whole := (Expr.valueType_eq_ok.mp known).1
        cases list : w.list with
        | false => rfl
        | true => simp [Expr.wholeList?, list] at whole
      exact ends_allow (ends_mono (kept.assign found single fit) fun _ kept => ⟨kept, .done stack⟩)
        fun _ allowed => ⟨allowed, rfl⟩
  | assignElement =>
    obtain ⟨ty, fit, stack⟩ := task.exists_fits rfl
    obtain ⟨scope, callers⟩ := view
    cases stack with
    | @assignElement _ _ _ _ name offset w value ss index place fitIndex stack =>
      obtain ⟨_, w', found, same⟩ := typed.exprs (.stmt place List.mem_cons_self)
      obtain rfl := Option.some.inj same
      have ends := kept.assignElement keeps found fitIndex fit
        (keeps.element (.stmt place List.mem_cons_self)) fun a i single located =>
          harmless a i _ ⟨_, _, _, _, rfl, rfl, single, located⟩
      exact ends_allow (ends_mono ends fun _ kept => ⟨kept, .done stack⟩)
        fun _ allowed => ⟨allowed, rfl⟩

/-- The variable that is assigned to is there, so it can only be a constant. -/
theorem Config.Assigns.allowed (keeps : d.KeepsWithin p) (typed : p.WellTyped)
    (kept : Kept d p view c.store c.pending) (task : Task d p base view c.store c.focus c.pending)
    {name : String} {slot : Option Variable} (assigns : c.Assigns name slot) :
    Plc.Ends d.fault (fun _ => True) (c.store.requireMutable name) := by
  cases assigns with
  | access =>
    cases task with
    | execute place =>
      obtain ⟨v, found, rfl⟩ := typed.exprs (.stmt place List.mem_cons_self)
      refine ends_allow (kept.requireMutable found) ?_
      rintro _ ⟨rfl, fixed⟩
      exact keeps.immutable place rfl fixed
  | element =>
    cases task with
    | execute place =>
      obtain ⟨_, v, found, rfl⟩ := typed.exprs (.stmt place List.mem_cons_self)
      refine ends_allow (kept.requireMutable found) ?_
      rintro _ ⟨rfl, fixed⟩
      exact keeps.immutable place rfl fixed

/-- A step fails only as it may. -/
theorem Fails.allowed (keeps : d.KeepsWithin p) (typed : p.WellTyped)
    (kept : Kept d p view c.store c.pending) (task : Task d p base view c.store c.focus c.pending)
    (harmless : Point.Harmless d.fits ⟨view, c⟩)
    (whole : (∀ e, c.focus = .evaluate e → e.wholeList? = none) ∨ ∀ v, d.fits .any v)
    {fault : Fault} (fails : Fails c fault pending) : d.fault fault ∧ view.next c = view := by
  cases fails with
  | settle settles failed =>
    obtain ⟨_, _, ends⟩ := settles.ends keeps typed kept task whole
    rw [failed] at ends
    exact ⟨ends, settles.view_next⟩
  | change changes failed =>
    have ends := changes.sound keeps typed kept task harmless
    rwa [failed] at ends
  | truth tests failed =>
    have ends := keeps.truth (tests.fits typed task)
    rw [failed] at ends
    exact ⟨ends, tests.view_next⟩
  | offset missing =>
    cases task with
    | evaluate place =>
      obtain ⟨_, v, found, rfl⟩ := typed.exprs place
      obtain ⟨_, _, looked, _⟩ := kept.variable found
      cases looked.symm.trans missing
  | call gathers missing =>
    have called := (Calls.gathered gathers).called typed kept task
    rw [missing] at called
    exact called.elim
  | main missing =>
    have called := Calls.main.called typed kept task
    rw [List.length_nil, missing] at called
    exact called.elim
  | body failed =>
    cases task with
    | call member slot fit =>
      obtain ⟨_, bound, _⟩ := exists_parameterFrame typed member slot fit
      cases bound.symm.trans failed
  | immutable assigns fixed =>
    have ends := assigns.allowed keeps typed kept task
    rw [fixed] at ends
    refine ⟨ends, ?_⟩
    cases assigns <;> rfl
  | receiver other =>
    cases task with
    | execute place => cases other.symm.trans (typed.stmts place).1
  | define failed =>
    have ends := kept.defineFunction typed task.functionsAt
    rw [failed] at ends
    exact ends.elim

theorem Task.enter_block {body : List Stmt}
    (task : Task d p base view store (.enter body) pending) :
    Task d p base { view with scope := view.scope.enter {} } store.enter (.block body)
      (.leaveBlock :: pending) := by
  cases task with
  | enter place through stack =>
    obtain ⟨frame, behind⟩ := Program.scopeBehindAll_of_inner place.root_eq.2 body
    refine .block place ?_
    rw [behind]
    exact .leaveBlock through stack

theorem Task.leaveBlock (task : Task d p base view store focus (.leaveBlock :: pending))
    (settled : focus.settled = true) :
    Task d p base { view with scope := view.scope.leave } store.leave focus pending := by
  obtain ⟨scope, callers⟩ := view
  cases task with
  | value _ stack | fresh _ _ _ stack | loaded stack => cases stack
  | done stack =>
    cases stack with
    | leaveBlock through stack =>
      obtain rfl := through rfl
      exact .done stack
  | returning fit same stack =>
    cases stack with
    | leaveBlock _ stack =>
      rw [Scope.leave_enter] at same
      exact .returning fit (congrArg Scope.leave same) stack
  | failing allowed => exact .failing allowed
  | _ => cases settled

theorem sound_call (typed : p.WellTyped) {f : Function} {arguments : List Value}
    (kept : Kept d p view store pending)
    (task : Task d p base view store (.call f arguments) pending)
    {frame : Frame Binding Callable}
    (bound : Frame.defineVariables {} (parameterBindings f arguments) = .ok frame) :
    Sound d p base ⟨view.next ⟨.call f arguments, pending, store⟩,
      ⟨.block f.body, .leaveCall store.scope.inner :: pending, store.withInner [frame]⟩⟩ := by
  cases task with
  | @call _ s _ _ _ member slot fit root accepted stack =>
    obtain ⟨frame', bound', agrees⟩ := exists_parameterFrame typed member slot fit
    obtain rfl := Except.ok.inj (bound'.symm.trans bound)
    have next : view.next ⟨.call f arguments, pending, store⟩ =
        ⟨{ view.scope with inner := [f.frame s] }, view.scope.inner :: view.callers⟩ := by
      simp only [View.next, slot]
    have scopeEq : { view.scope with inner := [f.frame s] } = p.scope.enter (f.frame s) := by
      rw [Scope.enter, p.inner_scope, ← root]
    have body : p.BlockAt { view.scope with inner := [f.frame s] } s.result f.body :=
      scopeEq ▸ .body member slot
    obtain ⟨last, behind⟩ := Program.scopeBehindAll_of_inner body.root_eq.2 f.body
    rw [next]
    refine ⟨kept.call agrees, .block body ?_⟩
    rw [behind]
    exact .leaveCall member slot id body.root_eq.1 accepted stack

/-- A returned value leaves the frames of the blocks that it comes through. What these have bound
does not matter any more. -/
theorem sound_leaveCall (keeps : d.KeepsWithin p) {inner : List (Frame Binding Callable)}
    {answer : Focus} (answers : Answers focus answer)
    (kept : Kept d p view store (.leaveCall inner :: pending))
    (task : Task d p base view store focus (.leaveCall inner :: pending))
    (falls : focus = .done → d.KeepsSingle p) :
    Sound d p base ⟨view.unwind (.leaveCall inner), ⟨answer, pending, store.withInner inner⟩⟩ := by
  obtain ⟨scope, callers⟩ := view
  cases answers with
  | value =>
    cases task with
    | value _ stack | fresh _ _ _ stack => cases stack
  | done =>
    cases task with
    | done stack =>
      cases stack with
      | leaveCall member slot through _ accepted stack =>
        have ends := (falls rfl).ends member slot (through rfl)
        exact ⟨kept.leaveCall, .value (keeps.accepts accepted ends) stack⟩
    | loaded stack => cases stack
  | returning =>
    cases task with
    | @returning inside _ _ _ _ fit same stack =>
      cases stack with
      | leaveCall _ _ _ _ accepted stack =>
        -- The call may end in inner frames, but below the same root.
        have root : inside.leave.root = scope.leave.root := by rw [same]
        change inside.root = scope.root at root
        rw [root] at stack
        exact ⟨kept.leaveCall, .value (keeps.accepts accepted fit) stack⟩
  | failing =>
    cases task with
    | failing allowed =>
      cases callers with
      | nil => cases kept.callers
      | cons outer callers => exact ⟨kept.leaveCall, .failing allowed⟩

/-- A step from a point that fits comes to one that fits, unless it spoils a list. If it takes a
list as a whole, lists must fit anything, and nil must fit where a function falls off its end. -/
theorem Step.sound (keeps : d.KeepsWithin p) (typed : p.WellTyped)
    (sound : Sound d p base ⟨view, c⟩) (harmless : Point.Harmless d.fits ⟨view, c⟩)
    (whole : (∀ e, c.focus = .evaluate e → e.wholeList? = none) ∨ ∀ v, d.fits .any v)
    (falls : c.FallsOff → d.KeepsSingle p) {next : Config} (step : Step c next) :
    Sound d p base ⟨view.next c, next⟩ := by
  obtain ⟨kept, task⟩ := sound
  cases step with
  | evaluate evaluates =>
    have behind := evaluates.task keeps typed kept task whole
    rw [evaluates.view_next]
    exact ⟨kept.of_saved evaluates.saved_eq.symm, behind⟩
  | execute executes =>
    have behind := executes.task keeps typed task
    rw [executes.view_next]
    exact ⟨kept.of_saved executes.saved_eq.symm, behind⟩
  | drop drops =>
    rw [drops.view_next]
    exact ⟨kept.of_saved (saved_cons drops.leaves _).symm, drops.task task⟩
  | fail fails =>
    obtain ⟨allowed, same⟩ := fails.allowed keeps typed kept task harmless whole
    rw [same]
    exact ⟨kept.over fails.over, .failing allowed⟩
  | allocate gathers =>
    rw [gathers.view_next]
    exact (gathers.gathered typed kept task).sound_allocate (kept.over gathers.over)
  | print calls looked =>
    have called := calls.called typed kept task
    rw [looked] at called
    cases called with
    | print accepted stack =>
      rw [calls.view_next]
      exact sound_print keeps (kept.over calls.over) _ accepted stack
  | change changes result =>
    have ends := changes.sound keeps typed kept task harmless
    rwa [result] at ends
  | @define f functions mainNamed pending store t defined =>
    have place := task.functionsAt
    have ends := kept.defineFunction typed place
    rw [defined] at ends
    cases task with
    | globals _ _ top stack | functions _ top stack => exact ⟨ends, .functions place.next top stack⟩
  | enter => exact ⟨kept.enter, task.enter_block⟩
  | @leaveBlock focus pending store settled =>
    have next : view.next ⟨focus, .leaveBlock :: pending, store⟩ =
        { view with scope := view.scope.leave } := by
      cases focus with
      | value | done | returning | failing => rfl
      | _ => cases settled
    rw [next]
    exact ⟨kept.leaveBlock, task.leaveBlock settled⟩
  | call bound => exact sound_call typed kept task bound
  | @leaveCall focus answer inner pending store answers =>
    have next : view.next ⟨focus, .leaveCall inner :: pending, store⟩ =
        view.unwind (.leaveCall inner) := by
      cases answers <;> rfl
    rw [next]
    refine sound_leaveCall keeps answers kept task fun done => falls ⟨done, inner, pending, rfl⟩

end Plc.Machine
