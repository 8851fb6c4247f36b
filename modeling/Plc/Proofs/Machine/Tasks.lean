import Plc.Proofs.Machine.Fitting

/-! What is left to do behind a step that evaluates or executes something, or drops what is pending.
It stands in the program again and fits what is pending below. -/
namespace Plc.Machine

variable {d : Discipline} {p : Program} {base : Ty} {view : View} {store : Store} {c : Config}
  {focus : Focus} {pending : List Pending}

theorem Evaluates.task (keeps : d.KeepsWithin p) (typed : p.WellTyped)
    (kept : Kept d p view c.store c.pending) (task : Task d p base view c.store c.focus c.pending)
    (whole : (∀ e, c.focus = .evaluate e → e.wholeList? = none) ∨ ∀ v, d.fits .any v)
    (evaluates : Evaluates c focus pending) : Task d p base view c.store focus pending := by
  cases evaluates with
  | literal =>
    cases task with
    | evaluate place _ outcome accepted stack =>
      obtain ⟨ty, known, rfl⟩ := typed.exprs place
      cases outcome
      exact .value (keeps.accepts accepted (keeps.literal known)) stack
  | group =>
    cases task with
    | evaluate place _ outcome accepted stack =>
      obtain ⟨_, ty, known, rfl⟩ := typed.exprs place
      cases outcome
      exact .of_part typed place List.mem_cons_self known accepted stack
  | left =>
    cases task with
    | evaluate place _ outcome accepted stack =>
      obtain ⟨a, b, ty, known, _, _, rfl⟩ := typed.exprs place
      cases outcome
      exact .of_part typed place List.mem_cons_self known (Ty.accepts_self a)
        (.right place (Expr.valueType_eq_ok.mp known).2 accepted stack)
  | @right op right v =>
    obtain ⟨a, fit, stack⟩ := task.exists_fits rfl
    obtain ⟨scope, callers⟩ := view
    cases stack with
    | right place known accepted stack =>
      obtain ⟨_, b, _, _, rightKnown, _, _⟩ := typed.exprs place
      exact .of_part typed place (List.mem_cons_of_mem _ (List.mem_singleton_self right))
        rightKnown (Ty.accepts_self b)
        (.operate place known (Expr.valueType_eq_ok.mp rightKnown).2 fit accepted stack)
  | decided decisive known =>
    obtain ⟨a, fit, stack⟩ := task.exists_fits rfl
    obtain ⟨scope, callers⟩ := view
    cases stack with
    | right place leftKnown accepted stack =>
      obtain ⟨_, b, _, _, rightKnown, _, _⟩ := typed.exprs place
      have takes := typed.takes place leftKnown (Expr.valueType_eq_ok.mp rightKnown).2
      obtain ⟨rfl, rfl⟩ := takes.boolean_of_decisive decisive
      exact .value (keeps.accepts accepted (keeps.boolean _)) stack
  | offset =>
    cases task with
    | evaluate place _ outcome accepted stack =>
      obtain ⟨known, v, found, rfl⟩ := typed.exprs place
      cases outcome
      exact .of_part typed place List.mem_cons_self known (Ty.accepts_self .integer)
        (.element place accepted stack)
  | settle settles result =>
    obtain ⟨target, stack, ends⟩ := settles.ends keeps typed kept task whole
    rw [result] at ends
    exact .value ends stack
  | gather gathers => exact (gathers.gathered typed kept task).task typed
  | call calls looked =>
    have called := calls.called typed kept task
    rw [looked] at called
    cases called with
    | declared task => exact task

/-- What a statement begins with stands in the program. -/
theorem Executes.task (keeps : d.KeepsWithin p) (typed : p.WellTyped)
    (task : Task d p base view c.store c.focus c.pending) (executes : Executes c focus pending) :
    Task d p base view c.store focus pending := by
  cases executes with
  | @expression value =>
    cases task with
    | execute place stack =>
      have isCall := typed.stmts place
      cases value with
      | call name arguments slot =>
        obtain ⟨s, _, _, rfl⟩ := typed.exprs (.stmt place List.mem_cons_self)
        exact .evaluate (.stmt place List.mem_cons_self) rfl rfl (Ty.accepts_self s.result)
          (.discard stack)
      | _ => cases isCall
  | initial initializes => exact (initializes.task keeps typed task).1 _ rfl
  | unset initializes => exact (initializes.task keeps typed task).2 rfl
  | assign =>
    cases task with
    | execute place stack =>
      obtain ⟨_, ty, known, fits⟩ := typed.stmts place
      obtain ⟨v, found, rfl⟩ := typed.exprs (.stmt place List.mem_cons_self)
      cases (Expr.valueType_eq_ok.mp known).2
      exact .of_stmt_fits typed place (List.mem_cons_of_mem _ List.mem_cons_self) fits
        (.assign place stack)
  | assignOffset =>
    cases task with
    | execute place stack =>
      obtain ⟨known, v, found, rfl⟩ := typed.exprs (.stmt place List.mem_cons_self)
      exact .of_part typed (.stmt place List.mem_cons_self) List.mem_cons_self known
        (Ty.accepts_self .integer) (.assignOffset place stack)
  | assignElement =>
    obtain ⟨ty, fit, stack⟩ := task.exists_fits rfl
    obtain ⟨scope, callers⟩ := view
    cases stack with
    | assignOffset place stack =>
      obtain ⟨_, ty, known, fits⟩ := typed.stmts place
      obtain rfl := Option.some.inj (Expr.valueType_eq_ok.mp known).2
      exact .of_stmt_fits typed place (List.mem_cons_of_mem _ List.mem_cons_self) fits
        (.assignElement place fit stack)
  | branch =>
    cases task with
    | execute place stack =>
      exact .of_stmt typed place List.mem_cons_self (typed.stmts place) (.choose place stack)
  | switch =>
    cases task with
    | execute place stack =>
      obtain ⟨ty, known, _⟩ := typed.stmts place
      exact .of_stmt typed place List.mem_cons_self known (.select place stack)
  | loop =>
    cases task with
    | execute place stack =>
      exact .of_stmt typed place List.mem_cons_self (typed.stmts place) (.whether place stack)
  | ret =>
    cases task with
    | execute place stack =>
      exact .of_stmt_fits typed place List.mem_cons_self (typed.stmts place) (.giveBack stack)
  | @choose thenBody elseBody v b =>
    obtain ⟨ty, fit, stack⟩ := task.exists_fits rfl
    obtain ⟨scope, callers⟩ := view
    cases stack with
    | choose place stack =>
      cases b with
      | true =>
        exact .enter (place.inner List.mem_cons_self)
          (fun falls => Bool.or_eq_true_iff.mpr (.inl falls)) stack
      | false =>
        exact .enter (place.inner (List.mem_cons_of_mem _ List.mem_cons_self))
          (fun falls => Bool.or_eq_true_iff.mpr (.inr falls)) stack
  | noCase selects =>
    obtain ⟨place, part, through, stack⟩ := selects.selected task
    obtain rfl := through rfl
    exact .done stack
  | case selects => exact (selects.selected task).task_on typed
  | default selects => exact (selects.selected task).task_default
  | equal =>
    obtain ⟨ty, _, stack⟩ := task.exists_fits rfl
    obtain ⟨scope, callers⟩ := view
    cases stack with
    | compare place body _ through stack =>
      exact .enter (place.inner body)
        (fun falls => through (Bool.or_eq_true_iff.mpr (.inl falls))) stack
  | repeated =>
    obtain ⟨ty, _, stack⟩ := task.exists_fits rfl
    obtain ⟨scope, callers⟩ := view
    cases stack with
    | whether place stack =>
      exact .enter (place.inner List.mem_cons_self) id (.again place stack)
  | ended =>
    obtain ⟨ty, _, stack⟩ := task.exists_fits rfl
    obtain ⟨scope, callers⟩ := view
    cases stack with
    | whether _ stack => exact .done stack
  | discard =>
    obtain ⟨ty, _, stack⟩ := task.exists_fits rfl
    obtain ⟨scope, callers⟩ := view
    cases stack with
    | discard stack => exact .done stack
  | giveBack =>
    obtain ⟨ty, fit, stack⟩ := task.exists_fits rfl
    obtain ⟨scope, callers⟩ := view
    cases stack with
    | giveBack stack => exact .returning fit rfl stack
  | again =>
    obtain ⟨scope, callers⟩ := view
    cases task with
    | done stack =>
      cases stack with
      | again place stack =>
        exact .of_stmt typed place List.mem_cons_self (typed.stmts place) (.whether place stack)
    | loaded stack => cases stack
  | empty =>
    cases task with
    | block place stack => exact .done stack
  | first =>
    cases task with
    | block place stack => exact .execute place (.rest place.next stack)
  | rest =>
    obtain ⟨scope, callers⟩ := view
    cases task with
    | done stack =>
      cases stack with
      | rest place stack => exact .block place stack
    | loaded stack => cases stack
  | define =>
    cases task with
    | globals place same top stack =>
      subst same
      exact .define place top (.globals place.next stack)
  | defined =>
    obtain ⟨scope, callers⟩ := view
    cases task with
    | done stack => cases stack
    | loaded stack =>
      cases stack with
      | globals place stack => exact .globals place rfl rfl stack

/-- What a returned value drops is left as it would be behind its end. -/
theorem Drops.task {q : Pending} (drops : Drops focus q)
    (task : Task d p base view store focus (q :: pending)) :
    Task d p base view store focus pending := by
  obtain ⟨scope, callers⟩ := view
  cases drops with
  | value takes =>
    cases task with
    | value _ stack | fresh _ _ _ stack => cases stack <;> cases takes
  | done takes =>
    cases task with
    | done stack | loaded stack => cases stack <;> cases takes
  | returning stays =>
    cases task with
    | @returning inside _ _ _ _ fit same stack =>
      cases stack with
      | @rest _ _ _ _ _ ss place stack =>
        obtain ⟨frame, behind⟩ := Program.scopeBehindAll_of_inner place.root_eq.2 ss
        have sameBehind : (Stmt.scopeBehindAll inside ss).leave = scope.leave := by
          rw [behind]
          exact same
        exact .returning fit sameBehind stack
      | again place stack => exact .returning fit same stack
      | leaveBlock | leaveCall => cases stays
  | failing =>
    cases task with
    | failing allowed => exact .failing allowed

end Plc.Machine
