import Plc.Proofs.Machine.Rules

/-! The rules say what a step does. A change of the step changes the rules and what stands here. -/
namespace Plc.Machine

theorem invoke_print (store : Store) (pending : List Pending) (arguments : List Value) :
    invoke store pending arguments .print =
      ⟨printed (store.printAll arguments).1, pending, (store.printAll arguments).2⟩ := by
  rw [invoke]
  split
  · rename_i made
    rw [made, printed]
  · rename_i made
    rw [made, printed]

section Of

variable {c : Config} {store : Store} {pending : List Pending}

theorem step_settle {made : Except Fault Value} (settles : Settles c made pending) :
    Step c (settle c.store pending made) := by
  cases result : made with
  | ok v => exact .evaluate (.settle settles result)
  | error fault => exact .fail (.settle settles result)

theorem step_change {made : Except Fault Store} (changes : Changes c made pending) :
    Step c (change c.store pending made) := by
  cases result : made with
  | ok t => exact .change changes result
  | error fault => exact .fail (.change changes result)

theorem step_invoke {name : String} {found : List Value} {callable : Callable}
    (calls : Calls c name found pending)
    (looked : c.store.scope.lookupFunction name found.length = .ok callable) :
    Step c (invoke c.store pending found callable) := by
  cases callable with
  | print =>
    rw [invoke_print]
    exact .print calls looked
  | declared f => exact .evaluate (.call calls looked)

theorem step_gather {purpose : Purpose} {found : List Value} {more : List Expr}
    (gathers : Gathers c purpose found more pending) :
    Step c (gather c.store pending purpose found more) := by
  cases more with
  | cons e more => exact .evaluate (.gather gathers)
  | nil =>
    cases purpose with
    | list => exact .allocate gathers
    | call name =>
      rw [gather, finish]
      split
      · rename_i missing
        exact .fail (.call gathers missing)
      · rename_i looked
        exact step_invoke (.gathered gathers) looked

theorem step_evaluate (e : Expr) :
    Step ⟨.evaluate e, pending, store⟩ (evaluate store pending e) := by
  cases e with
  | literal value ty => exact .evaluate .literal
  | group inner ty => exact .evaluate .group
  | binary op left right ty => exact .evaluate .left
  | access name slot => exact step_settle .access
  | element name offset slot =>
    rw [evaluate]
    split
    · rename_i missing
      exact .fail (.offset missing)
    · rename_i looked
      exact .evaluate (.offset looked)
  | call name arguments slot => exact step_gather .call
  | list elements ty => exact step_gather .list

theorem step_beginBind {name : String} {mutable : Bool} {slot : Option Variable}
    {value : Option Expr} (initializes : Initializes c name mutable slot value pending) :
    Step c (beginBind c.store pending name mutable slot value) := by
  cases value with
  | some e => exact .execute (.initial initializes)
  | none => exact .execute (.unset initializes)

theorem step_beginAssign (receiver value : Expr) :
    Step ⟨.execute (.assign receiver value), pending, store⟩
      (beginAssign store pending value receiver) := by
  cases receiver with
  | access name slot =>
    rw [beginAssign]
    split
    · rename_i fixed
      exact .fail (.immutable .access fixed)
    · rename_i may
      exact .execute (.assign may)
  | element name offset slot =>
    rw [beginAssign]
    split
    · rename_i fixed
      exact .fail (.immutable .element fixed)
    · rename_i may
      exact .execute (.assignOffset may)
  | _ => exact .fail (.receiver rfl)

theorem step_execute (s : Stmt) :
    Step ⟨.execute s, pending, store⟩ (execute store pending s) := by
  cases s with
  | expression value => exact .execute .expression
  | declare name typeName value slot => exact step_beginBind .declare
  | assign receiver value => exact step_beginAssign receiver value
  | branch condition thenBody elseBody => exact .execute .branch
  | switch condition cases => exact .execute .switch
  | loop condition body => exact .execute .loop
  | ret value => exact .execute .ret

theorem step_callBody (f : Function) (arguments : List Value) :
    Step ⟨.call f arguments, pending, store⟩ (callBody store pending f arguments) := by
  rw [callBody]
  split
  · rename_i failed
    exact .fail (.body failed)
  · rename_i bound
    exact .call bound

theorem step_load (mainNamed : Bool) (globals : List Global) (functions : List Function) :
    Step ⟨.load globals functions mainNamed, pending, store⟩
      (load store pending mainNamed globals functions) := by
  rcases globals with _ | ⟨g, globals⟩
  · rcases functions with _ | ⟨f, functions⟩
    · rw [load]
      split
      · rename_i looked
        exact step_invoke .main looked
      · rename_i missing
        exact .fail (.main missing)
    · rw [load]
      split
      · rename_i failed
        exact .fail (.define failed)
      · rename_i defined
        exact .define defined
  · exact .execute .define

theorem step_continueRight (op : Operator) (right : Expr) (v : Value) :
    Step ⟨.value v, .right op right :: pending, store⟩
      (continueRight store pending op right v) := by
  rw [continueRight]
  split
  · rename_i open_
    exact .evaluate (.right fun b decisive => nomatch open_.symm.trans decisive)
  · rename_i b decisive
    split
    · rename_i failed
      exact .fail (.truth (.right decisive) failed)
    · rename_i found known
      split
      · rename_i same
        subst same
        exact .evaluate (.decided decisive known)
      · rename_i other
        refine .evaluate (.right fun d settles => ?_)
        obtain rfl := Option.some.inj (decisive.symm.trans settles)
        rw [known, Bool.eq_not.mpr other]

theorem step_select {subject : Value} {cases : List Case}
    (selects : Selects c subject cases pending) :
    Step c (select c.store pending subject cases) := by
  rcases cases with _ | ⟨⟨value, body⟩ | ⟨body⟩, cases⟩
  · exact .execute (.noCase selects)
  · exact .execute (.case selects)
  · exact .execute (.default selects)

theorem step_value (v : Value) (p : Pending) :
    Step ⟨.value v, p :: pending, store⟩ (withValue v store pending p) := by
  cases p with
  | right op right => exact step_continueRight op right v
  | operate op left => exact step_settle .operate
  | element name slot => exact step_settle .element
  | gather purpose found more => exact step_gather .next
  | bind name mutable slot => exact step_change .bind
  | assign name slot => exact step_change .assign
  | assignOffset name slot value => exact .execute .assignElement
  | assignElement name slot offset => exact step_change .assignElement
  | choose thenBody elseBody =>
    rw [withValue, byTruth]
    split
    · rename_i failed
      exact .fail (.truth .choose failed)
    · rename_i b known
      cases b with
      | true => exact .execute (.choose known)
      | false => exact .execute (.choose known)
  | whether condition body =>
    rw [withValue, byTruth]
    split
    · rename_i failed
      exact .fail (.truth .whether failed)
    · rename_i b known
      cases b with
      | true => exact .execute (.repeated known)
      | false => exact .execute (.ended known)
  | select cases => exact step_select .first
  | compare subject body cases =>
    rw [withValue]
    split
    · rename_i same
      exact .execute (.equal same)
    · rename_i other
      exact step_select (.next (Bool.not_eq_true _ ▸ other))
  | discard => exact .execute .discard
  | giveBack => exact .execute .giveBack
  | leaveBlock => exact .leaveBlock rfl
  | leaveCall inner => exact .leaveCall .value
  | _ => exact .drop (.value rfl rfl)

theorem step_done (p : Pending) :
    Step ⟨.done, p :: pending, store⟩ (afterDone store pending p) := by
  cases p with
  | rest statements => exact .execute .rest
  | again condition body => exact .execute .again
  | leaveBlock => exact .leaveBlock rfl
  | leaveCall inner => exact .leaveCall .done
  | load globals functions mainNamed => exact .execute .defined
  | _ => exact .drop (.done rfl)

theorem step_returning (v : Value) (p : Pending) :
    Step ⟨.returning v, p :: pending, store⟩ (withReturn v store pending p) := by
  cases p with
  | leaveBlock => exact .leaveBlock rfl
  | leaveCall inner => exact .leaveCall .returning
  | _ => exact .drop (.returning rfl)

theorem step_failing (fault : Fault) (p : Pending) :
    Step ⟨.failing fault, p :: pending, store⟩ (unwind (.failing fault) store pending p) := by
  cases p with
  | leaveBlock => exact .leaveBlock rfl
  | leaveCall inner => exact .leaveCall .failing
  | _ => exact .drop (.failing rfl)

end Of

theorem step_of_eq {c next : Config} (stepped : step? c = some next) : Step c next := by
  obtain ⟨focus, pending, store⟩ := c
  cases focus with
  | evaluate e => exact Option.some.inj stepped ▸ step_evaluate e
  | execute s => exact Option.some.inj stepped ▸ step_execute s
  | block ss =>
    cases ss with
    | nil => exact Option.some.inj stepped ▸ .execute .empty
    | cons s ss => exact Option.some.inj stepped ▸ .execute .first
  | enter body => exact Option.some.inj stepped ▸ .enter
  | call f arguments => exact Option.some.inj stepped ▸ step_callBody f arguments
  | define g => exact Option.some.inj stepped ▸ step_beginBind .define
  | load globals functions mainNamed =>
    exact Option.some.inj stepped ▸ step_load mainNamed globals functions
  | value v =>
    cases pending with
    | nil => cases stepped
    | cons p pending => exact Option.some.inj stepped ▸ step_value v p
  | done =>
    cases pending with
    | nil => cases stepped
    | cons p pending => exact Option.some.inj stepped ▸ step_done p
  | returning v =>
    cases pending with
    | nil => cases stepped
    | cons p pending => exact Option.some.inj stepped ▸ step_returning v p
  | failing fault =>
    cases pending with
    | nil => cases stepped
    | cons p pending => exact Option.some.inj stepped ▸ step_failing fault p

section Eq

variable {c : Config} {pending : List Pending}

theorem Gathers.step?_eq {purpose : Purpose} {found : List Value} {more : List Expr}
    (gathers : Gathers c purpose found more pending) :
    step? c = some (gather c.store pending purpose found more) := by
  cases gathers <;> rfl

theorem Calls.step?_eq {name : String} {found : List Value} {callable : Callable}
    (calls : Calls c name found pending)
    (looked : c.store.scope.lookupFunction name found.length = .ok callable) :
    step? c = some (invoke c.store pending found callable) := by
  cases calls with
  | gathered gathers => rw [gathers.step?_eq, gather, finish, looked]
  | main =>
    change Scope.lookupFunction _ "main" 0 = _ at looked
    rw [step?, load, looked]

theorem Selects.step?_eq {subject : Value} {cases : List Case}
    (selects : Selects c subject cases pending) :
    step? c = some (select c.store pending subject cases) := by
  cases selects with
  | first => rfl
  | next other => rw [step?, withValue, if_neg (Bool.not_eq_true _ ▸ other)]

theorem Initializes.step?_eq {name : String} {mutable : Bool} {slot : Option Variable}
    {value : Option Expr} (initializes : Initializes c name mutable slot value pending) :
    step? c = some (beginBind c.store pending name mutable slot value) := by
  cases initializes <;> rfl

theorem Settles.step?_eq {made : Except Fault Value} (settles : Settles c made pending) :
    step? c = some (settle c.store pending made) := by
  cases settles <;> rfl

theorem Changes.step?_eq {made : Except Fault Store} (changes : Changes c made pending) :
    step? c = some (change c.store pending made) := by
  cases changes <;> rfl

theorem Evaluates.step?_eq {focus : Focus} (evaluates : Evaluates c focus pending) :
    step? c = some ⟨focus, pending, c.store⟩ := by
  cases evaluates with
  | right onward =>
    rename_i op right v store
    rw [step?, withValue, continueRight]
    split
    · rfl
    · rename_i b decisive
      rw [onward b decisive]
      exact congrArg some (if_neg (Bool.not_eq_self b).mp)
  | decided decisive known =>
    rw [step?, withValue, continueRight, decisive, known]
    exact congrArg some (if_pos rfl)
  | offset looked => rw [step?, Machine.evaluate, looked]
  | settle settles result => rw [settles.step?_eq, result, Machine.settle]
  | gather gathers => exact gathers.step?_eq
  | call calls looked => exact calls.step?_eq looked
  | _ => rfl

theorem Executes.step?_eq {focus : Focus} (executes : Executes c focus pending) :
    step? c = some ⟨focus, pending, c.store⟩ := by
  cases executes with
  | initial initializes => exact initializes.step?_eq
  | unset initializes => exact initializes.step?_eq
  | assign may => rw [step?, execute, beginAssign, may]
  | assignOffset may => rw [step?, execute, beginAssign, may]
  | @choose _ _ _ b _ _ known =>
    rw [step?, withValue, byTruth, known]
    cases b <;> rfl
  | noCase selects => exact selects.step?_eq
  | case selects => exact selects.step?_eq
  | default selects => exact selects.step?_eq
  | equal same => rw [step?, withValue, if_pos same]
  | repeated known =>
    rw [step?, withValue, byTruth, known]
    rfl
  | ended known =>
    rw [step?, withValue, byTruth, known]
    rfl
  | _ => rfl

theorem Fails.step?_eq {fault : Fault} (fails : Fails c fault pending) :
    step? c = some ⟨.failing fault, pending, c.store⟩ := by
  cases fails with
  | settle settles result => rw [settles.step?_eq, result, Machine.settle]
  | change changes result => rw [changes.step?_eq, result, Machine.change]
  | truth tests failed =>
    cases tests with
    | right decisive => rw [step?, withValue, continueRight, decisive, failed]
    | choose => rw [step?, withValue, byTruth, failed]
    | whether => rw [step?, withValue, byTruth, failed]
  | offset missing => rw [step?, evaluate, missing]
  | call gathers missing => rw [gathers.step?_eq, gather, finish, missing]
  | main missing => rw [step?, load, missing]
  | body failed => rw [step?, callBody, failed]
  | immutable assigns fixed =>
    cases assigns with
    | access =>
      change _ = Except.error fault at fixed
      rw [step?, execute, beginAssign, fixed]
    | element =>
      change _ = Except.error fault at fixed
      rw [step?, execute, beginAssign, fixed]
  | @receiver receiver value pending store other =>
    cases receiver with
    | access => cases other
    | element => cases other
    | _ => rfl
  | define failed => rw [step?, load, failed]

end Eq

/-- The rules say what a step does, and nothing else. -/
theorem step?_eq_some_iff {c next : Config} : step? c = some next ↔ Step c next := by
  refine ⟨step_of_eq, fun step => ?_⟩
  cases step with
  | evaluate evaluates => exact evaluates.step?_eq
  | execute executes => exact executes.step?_eq
  | drop drops =>
    rename_i focus p pending store
    cases drops with
    | value takes stays =>
      cases p with
      | leaveBlock | leaveCall => cases stays
      | rest | again | load => rfl
      | _ => cases takes
    | done takes =>
      cases p with
      | leaveBlock | leaveCall | rest | again | load => cases takes
      | _ => rfl
    | returning stays =>
      cases p with
      | leaveBlock | leaveCall => cases stays
      | _ => rfl
    | failing stays =>
      cases p with
      | leaveBlock | leaveCall => cases stays
      | _ => rfl
  | fail fails => exact fails.step?_eq
  | allocate gathers => exact gathers.step?_eq
  | print calls looked => rw [calls.step?_eq looked, invoke_print]
  | change changes result => rw [changes.step?_eq, result, Machine.change]
  | define defined => rw [step?, load, defined]
  | enter => rfl
  | leaveBlock settled =>
    rename_i focus pending store
    cases focus with
    | value | done | returning | failing => rfl
    | _ => cases settled
  | call bound => rw [step?, callBody, bound]
  | leaveCall answers => cases answers <;> rfl

theorem step?_eq_none_iff {c : Config} :
    step? c = none ↔ c.focus.settled = true ∧ c.pending = [] := by
  obtain ⟨focus, pending, store⟩ := c
  constructor
  · intro stopped
    cases focus with
    | block ss => cases ss <;> cases stopped
    | value | done | returning | failing =>
      cases pending with
      | nil => exact ⟨rfl, rfl⟩
      | cons p pending => cases stopped
    | _ => cases stopped
  · rintro ⟨settled, empty⟩
    cases empty
    cases focus with
    | value | done | returning | failing => rfl
    | _ => cases settled

end Plc.Machine
