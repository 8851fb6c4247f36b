import Plc.Machine.Run
import Plc.Proofs.Machine.Step
import Plc.Proofs.Typing.Places

/-! The points that a run comes to. At each of them the names in force have a meaning for the
analysis too, which is read off the slots of what the machine goes through. -/
namespace Plc.Machine

namespace Config

/-- The configuration behind a step. One that has stopped stays. -/
def next (c : Config) : Config := (step? c).getD c

def after (c : Config) : Nat → Config
  | 0 => c
  | n + 1 => (c.after n).next

theorem after_next (c : Config) (n : Nat) : c.next.after n = c.after (n + 1) := by
  induction n with
  | zero => rfl
  | succ n ih =>
    rw [after, ih]
    rfl

theorem next_eq {c next : Config} (stepped : step? c = some next) : c.next = next := by
  rw [Config.next, stepped, Option.getD_some]

def below (c : Config) (rest : List Pending) : Config :=
  ⟨c.focus, c.pending ++ rest, c.store⟩

end Config

/-- A run that ends stops at the first point at which nothing is left to do. -/
theorem exists_first_of_run {limit : Nat} {c last : Config} (ran : run limit c = some last) :
    ∃ n, c.after n = last ∧ step? last = none ∧ ∀ m < n, step? (c.after m) ≠ none := by
  induction limit generalizing c with
  | zero => cases ran
  | succ limit ih =>
    rw [run] at ran
    cases stepped : step? c with
    | none =>
      rw [stepped] at ran
      obtain rfl := Option.some.inj ran
      exact ⟨0, rfl, stepped, nofun⟩
    | some next =>
      rw [stepped] at ran
      obtain ⟨n, reached, stopped, going⟩ := ih ran
      rw [← Config.next_eq stepped] at reached going
      refine ⟨n + 1, by rw [← Config.after_next, reached], stopped, ?_⟩
      intro m before
      cases m with
      | zero =>
        rw [Config.after, stepped]
        exact Option.some_ne_none next
      | succ m =>
        rw [← Config.after_next]
        exact going m (Nat.lt_of_succ_lt_succ before)

theorem exists_after_of_run {limit : Nat} {c last : Config} (ran : run limit c = some last) :
    (∃ n, c.after n = last) ∧ step? last = none := by
  obtain ⟨n, reached, stopped, _⟩ := exists_first_of_run ran
  exact ⟨⟨n, reached⟩, stopped⟩

/-- A run that ends in a fault has come to it. -/
theorem exists_failing_of_runProgram {store last : Store} {limit : Nat} {p : Program}
    {fault : Fault} (ran : store.runProgram limit p = some (.error fault, last)) :
    ∃ n, ((store.start p).after n).focus = .failing fault := by
  obtain ⟨c, ran, same⟩ := Option.map_eq_some_iff.mp ran
  obtain ⟨⟨n, rfl⟩, _⟩ := exists_after_of_run ran
  obtain ⟨answered, _⟩ := Prod.mk.inj same
  refine ⟨n, ?_⟩
  rw [Config.answer] at answered
  split at answered
  · cases answered
  · rename_i other focus
    rw [focus, Except.error.inj answered]
  · cases answered

theorem pending_eq_nil_of_stopped {c : Config} (stopped : step? c = none) : c.pending = [] :=
  (step?_eq_none_iff.mp stopped).2

section Below

variable {c : Config} {pending : List Pending} (rest : List Pending)

theorem Gathers.below {purpose : Purpose} {found : List Value} {more : List Expr}
    (gathers : Gathers c purpose found more pending) :
    Gathers (c.below rest) purpose found more (pending ++ rest) := by
  cases gathers <;> constructor

theorem Calls.below {name : String} {found : List Value} (calls : Calls c name found pending) :
    Calls (c.below rest) name found (pending ++ rest) := by
  cases calls with
  | gathered gathers => exact .gathered (gathers.below rest)
  | main => exact .main

theorem Selects.below {subject : Value} {cases : List Case}
    (selects : Selects c subject cases pending) :
    Selects (c.below rest) subject cases (pending ++ rest) := by
  cases selects with
  | first => exact .first
  | next other => exact .next other

theorem Initializes.below {name : String} {mutable : Bool} {slot : Option Variable}
    {value : Option Expr} (initializes : Initializes c name mutable slot value pending) :
    Initializes (c.below rest) name mutable slot value (pending ++ rest) := by
  cases initializes <;> constructor

theorem Settles.below {made : Except Fault Value} (settles : Settles c made pending) :
    Settles (c.below rest) made (pending ++ rest) := by
  cases settles <;> constructor

theorem Changes.below {made : Except Fault Store} (changes : Changes c made pending) :
    Changes (c.below rest) made (pending ++ rest) := by
  cases changes <;> constructor

theorem Tests.below {v : Value} (tests : Tests c v pending) :
    Tests (c.below rest) v (pending ++ rest) := by
  cases tests with
  | right decisive => exact .right decisive
  | choose => exact .choose
  | whether => exact .whether

theorem Evaluates.below {focus : Focus} (evaluates : Evaluates c focus pending) :
    Evaluates (c.below rest) focus (pending ++ rest) := by
  cases evaluates with
  | right onward => exact .right onward
  | decided decisive known => exact .decided decisive known
  | offset looked => exact .offset looked
  | settle settles result => exact .settle (settles.below rest) result
  | gather gathers => exact .gather (gathers.below rest)
  | call calls looked => exact .call (calls.below rest) looked
  | _ => constructor

theorem Executes.below {focus : Focus} (executes : Executes c focus pending) :
    Executes (c.below rest) focus (pending ++ rest) := by
  cases executes with
  | initial initializes => exact .initial (initializes.below rest)
  | unset initializes => exact .unset (initializes.below rest)
  | assign may => exact .assign may
  | assignOffset may => exact .assignOffset may
  | choose known => exact .choose known
  | noCase selects => exact .noCase (selects.below rest)
  | case selects => exact .case (selects.below rest)
  | default selects => exact .default (selects.below rest)
  | equal same => exact .equal same
  | repeated known => exact .repeated known
  | ended known => exact .ended known
  | empty => exact .empty
  | _ => constructor

theorem Fails.below {fault : Fault} (fails : Fails c fault pending) :
    Fails (c.below rest) fault (pending ++ rest) := by
  cases fails with
  | settle settles result => exact .settle (settles.below rest) result
  | change changes result => exact .change (changes.below rest) result
  | truth tests failed => exact .truth (tests.below rest) failed
  | offset missing => exact .offset missing
  | call gathers missing => exact .call (gathers.below rest) missing
  | main missing => exact .main missing
  | body failed => exact .body failed
  | immutable assigns fixed =>
    cases assigns with
    | access => exact .immutable .access fixed
    | element => exact .immutable .element fixed
  | receiver other => exact .receiver other
  | define failed => exact .define failed

/-- A step does not look below the first of what is pending. -/
theorem Step.below {next : Config} (step : Step c next) :
    Step (c.below rest) (next.below rest) := by
  cases step with
  | evaluate evaluates => exact .evaluate (evaluates.below rest)
  | execute executes => exact .execute (executes.below rest)
  | drop drops => exact .drop drops
  | fail fails => exact .fail (fails.below rest)
  | allocate gathers => exact .allocate (gathers.below rest)
  | print calls looked => exact .print (calls.below rest) looked
  | change changes result => exact .change (changes.below rest) result
  | define defined => exact .define defined
  | enter => exact .enter
  | leaveBlock settled => exact .leaveBlock settled
  | call bound => exact .call bound
  | leaveCall answers => exact .leaveCall answers

theorem step?_below {next : Config} (stepped : step? c = some next) :
    step? (c.below rest) = some (next.below rest) :=
  step?_eq_some_iff.mpr ((step?_eq_some_iff.mp stepped).below rest)

end Below

theorem Config.after_add (c : Config) (m n : Nat) : c.after (m + n) = (c.after m).after n := by
  induction n with
  | zero => rfl
  | succ n ih => exact congrArg Config.next ih

/-- Up to where a run stops, it is the same with more pending below. -/
theorem Config.after_below {c : Config} {n : Nat} (going : ∀ m < n, step? (c.after m) ≠ none)
    (rest : List Pending) : (c.below rest).after n = (c.after n).below rest := by
  induction n with
  | zero => rfl
  | succ n ih =>
    rw [after, after, ih fun m before => going m (Nat.lt_succ_of_lt before)]
    cases stepped : step? (c.after n) with
    | none => exact absurd stepped (going n (Nat.lt_succ_self n))
    | some next => rw [Config.next_eq (step?_below rest stepped), Config.next_eq stepped]

/-- With more pending below, a run comes to the same points, perhaps sooner: it does not wait where
it would have stopped on its own. -/
theorem Config.exists_after_below (c : Config) (rest : List Pending) (n : Nat) :
    ∃ k ≤ n, (c.below rest).after k = (c.after n).below rest := by
  induction n with
  | zero => exact ⟨0, Nat.le_refl 0, rfl⟩
  | succ n ih =>
    obtain ⟨k, bound, reached⟩ := ih
    rw [after]
    cases stepped : step? (c.after n) with
    | none =>
      rw [Config.next, stepped]
      exact ⟨k, Nat.le_succ_of_le bound, reached⟩
    | some next =>
      refine ⟨k + 1, Nat.succ_le_succ bound, ?_⟩
      rw [after, reached, Config.next_eq (step?_below rest stepped), Config.next_eq stepped]

/-- What runs to its end on its own comes to the same end with more pending below. -/
theorem after_below_of_run {limit : Nat} {c last : Config} (ran : run limit c = some last)
    (rest : List Pending) : ∃ n, (c.below rest).after n = last.below rest := by
  obtain ⟨⟨n, rfl⟩, _⟩ := exists_after_of_run ran
  obtain ⟨k, _, reached⟩ := c.exists_after_below rest n
  exact ⟨k, reached⟩

/-- The meaning of the names in force for the analysis, and that of the names in force for each
of the callers. -/
structure View where
  scope : TypeScope
  callers : List (List (Frame Variable Signature))

namespace View

def unwind (view : View) : Pending → View
  | .leaveBlock => { view with scope := view.scope.leave }
  | .leaveCall _ =>
    match view.callers with
    | [] => view
    | inner :: callers => ⟨{ view.scope with inner := inner }, callers⟩
  | _ => view

/-- The view behind the step that a configuration is about to make. A name is bound to what the
slot at its declaration says. -/
def next (view : View) (c : Config) : View :=
  match c.focus, c.pending with
  | .enter _, _ => { view with scope := view.scope.enter {} }
  | .call f _, _ =>
    match f.slot with
    | some s => ⟨{ view.scope with inner := [f.frame s] }, view.scope.inner :: view.callers⟩
    | none => view
  | .load [] (f :: _) _, _ => { view with scope := f.scopeBehind view.scope }
  | .value _, .bind name _ (some v) :: _ => { view with scope := view.scope.bindVariable name v }
  | .value _, p :: _ => view.unwind p
  | .done, p :: _ => view.unwind p
  | .returning _, p :: _ => view.unwind p
  | .failing _, p :: _ => view.unwind p
  | _, _ => view

end View

structure Point where
  view : View
  config : Config

namespace Point

def next (x : Point) : Point :=
  match step? x.config with
  | some c => ⟨x.view.next x.config, c⟩
  | none => x

def after (x : Point) : Nat → Point
  | 0 => x
  | n + 1 => (x.after n).next

theorem next_of_step {x : Point} {c : Config} (step : Step x.config c) :
    x.next = ⟨x.view.next x.config, c⟩ := by
  rw [next, step?_eq_some_iff.mpr step]

theorem config_next (x : Point) : x.next.config = x.config.next := by
  rw [next, Config.next]
  cases step? x.config <;> rfl

theorem config_after (x : Point) (n : Nat) : (x.after n).config = x.config.after n := by
  induction n with
  | zero => rfl
  | succ n ih => rw [after, config_next, ih, Config.after]

end Point

def start (room : Option Nat) (p : Program) (report : String := "sink full") : Point :=
  ⟨⟨TypeScope.initial, []⟩, (Store.initial room report).start p⟩

end Plc.Machine
