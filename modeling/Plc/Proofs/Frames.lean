import Plc.Compile
import Plc.Proofs.Machine.Confinement

/-! What is bound in the frames behind what runs in them. Of expressions nothing is left there, of
statements nothing but the name of a declaration that was made, and of a session what was declared
in it. -/
namespace Plc

inductive Declaration where
  | variable (name : String)
  | function (f : Function)

def Declaration.enter (outline : Scope Unit Callable) : Declaration → Scope Unit Callable
  | .variable name => outline.bindVariable name ()
  | .function f => outline.bindFunction f.name f.parameters.length (.declared f)

def Scope.declare (outline : Scope Unit Callable) (ds : List Declaration) : Scope Unit Callable :=
  ds.foldl Declaration.enter outline

/-- At the outermost level the root frame is the current one. -/
theorem Scope.inner_declare {outline : Scope Unit Callable} (ds : List Declaration)
    (alone : outline.inner = []) : (outline.declare ds).inner = [] := by
  induction ds generalizing outline with
  | nil => exact alone
  | cons d ds ih =>
    obtain ⟨inner, root⟩ := outline
    obtain rfl : inner = [] := alone
    cases d <;> exact ih rfl

def Stmt.declared : Stmt → List Declaration
  | .declare name .. => [.variable name]
  | _ => []

def Declaration.made {α : Type} : Except Fault α → List Declaration → List Declaration
  | .ok _, ds => ds
  | .error _, _ => []

theorem Declaration.made_nil {α : Type} (answer : Except Fault α) : made answer [] = [] := by
  cases answer <;> rfl

namespace Store

/-- The functions that are defined, up to the first that cannot be. -/
def registered (store : Store) : List Function → List Declaration
  | [] => []
  | f :: functions =>
    match store.defineFunction f with
    | .ok store => .function f :: store.registered functions
    | .error _ => []

/-- The globals that are defined, up to the first that fails, and if none does the functions. -/
def loaded (store : Store) (limit : Nat) (functions : List Function) :
    List Global → List Declaration
  | [] => store.registered functions
  | g :: globals =>
    match store.defineGlobal limit g with
    | some (.ok _, store) => .variable g.name :: store.loaded limit functions globals
    | _ => []

def declared (store : Store) (limit : Nat) : Phrase → List Declaration
  | .program p => store.loaded limit p.functions p.globals
  | .expression _ => []
  | .statement s =>
    match store.execute limit s with
    | some (answer, _) => Declaration.made answer s.declared
    | none => []
  | .global g => store.loaded limit [] [g]
  | .function f => store.registered [f]

/-- A store that was asked for one thing after the other, and the declarations that were made,
whether or not other requests failed. -/
inductive Served (room : Option Nat) (report : String) : Store → List Declaration → Prop
  | opened : Served room report (.initial room report) []
  | asked {ds store limit phrase answer behind} : Served room report store ds →
      store.runPhrase limit phrase = some (answer, behind) →
      Served room report behind (ds ++ store.declared limit phrase)

end Store

namespace Machine

variable {store : Store} {last : Config} {name : String}

inductive Binds (name : String) (store : Store) : Config → Prop
  | bound {t} : store.scope.current.getVariable? name = none →
      t.scope.outline = store.scope.outline.bindVariable name () →
      Binds name store ⟨.done, [], t⟩
  | failing {fault t} : t.scope.outline = store.scope.outline →
      Binds name store ⟨.failing fault, [], t⟩

/-- The value is there, and what is bound is still as it was before it was evaluated. -/
theorem binds_of_value {mutable : Bool} {slot : Option Variable} {v : Value} {s : Store}
    (same : s.scope.outline = store.scope.outline)
    (ends : Config.Ends ⟨.value v, [.bind name mutable slot], s⟩ last) : Binds name store last := by
  rw [ends_of_step rfl] at ends
  change (change s [] (s.bind name mutable v)).Ends last at ends
  cases bound : s.bind name mutable v with
  | error fault =>
    rw [bound] at ends
    obtain rfl := (ends_of_stopped rfl).mp ends
    exact .failing same
  | ok t =>
    rw [bound] at ends
    obtain rfl := (ends_of_stopped rfl).mp ends
    obtain ⟨free, rfl⟩ := Store.bind_ok_iff.mp bound
    refine .bound ?_ ?_
    · have taken := store.scope.getVariable?_current_outline name
      rw [← same, Scope.getVariable?_current_outline, free] at taken
      exact Option.map_eq_none_iff.mp taken.symm
    · rw [← same]
      exact s.scope.outline_bindVariable name _

theorem binds_of_beginBind {mutable : Bool} {slot : Option Variable} {value : Option Expr}
    (ends : (beginBind store [] name mutable slot value).Ends last) : Binds name store last := by
  cases value with
  | none => exact binds_of_value rfl ends
  | some e =>
    obtain ⟨mid, first, onward⟩ :=
      (ends_below (c := ⟨.evaluate e, [], store⟩) [.bind name mutable slot]).mp ends
    cases yields_of_evaluate first with
    | value same => exact binds_of_value same onward
    | failing same =>
      rw [ends_of_step rfl] at onward
      obtain rfl := (ends_of_stopped rfl).mp onward
      exact .failing same

theorem binds_of_define {g : Global} (ends : Config.Ends ⟨.define g, [], store⟩ last) :
    Binds g.name store last :=
  binds_of_beginBind ((ends_of_step rfl).mp ends)

theorem outline_of_undeclared {s : Stmt} (undeclared : s.declared = [])
    (ends : Config.Ends ⟨.execute s, [], store⟩ last) :
    last.store.scope.outline = store.scope.outline := by
  have closes : (Focus.execute s).Closes [] := by
    cases s with
    | declare name typeName value slot => cases undeclared
    | _ => trivial
  have started : Config.Confined .flow store.scope.outline ⟨.execute s, [], store⟩ :=
    ⟨.flow, rfl, closes, rfl, rfl⟩
  exact (started.ends ends).2

/-- A statement has bound nothing but the name that it declares, which was free, and that only
where it did not fail. -/
theorem outline_of_execute {s : Stmt} (ends : Config.Ends ⟨.execute s, [], store⟩ last) :
    last.store.scope.outline =
        store.scope.outline.declare (Declaration.made last.completion s.declared) ∧
      ∀ name, .variable name ∈ Declaration.made last.completion s.declared →
        store.scope.current.getVariable? name = none := by
  cases declared : s.declared with
  | nil =>
    rw [Declaration.made_nil]
    exact ⟨outline_of_undeclared declared ends, nofun⟩
  | cons d ds =>
    cases s with
    | declare name typeName value slot =>
      cases declared
      rw [ends_of_step rfl] at ends
      cases binds_of_beginBind ends with
      | bound free same =>
        refine ⟨same, fun other member => ?_⟩
        cases List.mem_singleton.mp member
        exact free
      | failing same => exact ⟨same, nofun⟩
    | _ => cases declared

theorem outline_of_main {mainNamed : Bool}
    (ends : Config.Ends (load store [] mainNamed [] []) last) :
    last.store.scope.outline = store.scope.outline := by
  have alone : Machine.Confined .value store.scope.outline .value store.scope [] := ⟨rfl, rfl⟩
  have started : (load store [] mainNamed [] []).Confined .value store.scope.outline := by
    rw [load]
    split
    · exact confined_invoke alone _ _
    · exact ⟨.value, trivial, trivial, alone⟩
  exact (started.ends ends).2

theorem outline_of_functions {functions : List Function} {mainNamed : Bool}
    (ends : Config.Ends ⟨.load [] functions mainNamed, [], store⟩ last) :
    last.store.scope.outline = store.scope.outline.declare (store.registered functions) := by
  induction functions generalizing store with
  | nil => exact outline_of_main ((ends_of_step rfl).mp ends)
  | cons f functions ih =>
    rw [ends_of_step rfl, load] at ends
    rw [Store.registered]
    cases defined : store.defineFunction f with
    | error fault =>
      rw [defined] at ends
      obtain rfl := (ends_of_stopped rfl).mp ends
      rfl
    | ok t =>
      rw [defined] at ends
      rw [ih ends]
      obtain ⟨_, rfl⟩ := Store.defineFunction_ok_iff.mp defined
      exact congrArg (Scope.declare · _) (store.scope.outline_bindFunction _ _ _)

theorem outline_of_load {limit n : Nat} {globals : List Global} {functions : List Function}
    {mainNamed : Bool} (ran : run n ⟨.load globals functions mainNamed, [], store⟩ = some last)
    (enough : n ≤ limit) : last.store.scope.outline =
      store.scope.outline.declare (store.loaded limit functions globals) := by
  induction globals generalizing store n with
  | nil => exact outline_of_functions ⟨n, ran⟩
  | cons g globals ih =>
    obtain ⟨fewer, below, ran⟩ := run_of_step rfl ran
    obtain ⟨mid, rest, first, within, second⟩ :=
      run_below (c := ⟨.define g, [], store⟩) [.load globals functions mainNamed] ran
    -- No part of the run takes more steps than the whole.
    have defined : store.defineGlobal limit g = some (mid.completion, mid.store) := by
      rw [Store.defineGlobal, run_mono first (Nat.le_of_lt (Nat.lt_of_lt_of_le below enough))]
      rfl
    rw [Store.loaded, defined]
    cases binds_of_define ⟨fewer, first⟩ with
    | bound free same =>
      obtain ⟨_, _, ran⟩ := run_of_step rfl second
      rw [ih ran (by omega), same]
      rfl
    | failing same =>
      obtain rfl := (ends_of_stopped rfl).mp ((ends_of_step rfl).mp ⟨rest, second⟩)
      exact same

/-- Whatever is asked for, only what is declared is bound. -/
theorem outline_of_runPhrase {limit : Nat} {phrase : Phrase} {answer : Except Fault (Option Value)}
    {behind : Store} (ran : store.runPhrase limit phrase = some (answer, behind)) :
    behind.scope.outline = store.scope.outline.declare (store.declared limit phrase) := by
  cases phrase with
  | program p =>
    obtain ⟨_, ended, same⟩ := Option.map_eq_some_iff.mp ran
    obtain ⟨last, reached, rfl⟩ := Option.map_eq_some_iff.mp ended
    cases same
    exact outline_of_load reached (Nat.le_refl limit)
  | expression e =>
    obtain ⟨_, ended, same⟩ := Option.map_eq_some_iff.mp ran
    obtain ⟨last, reached, rfl⟩ := Option.map_eq_some_iff.mp ended
    cases same
    exact (yields_of_evaluate ⟨limit, reached⟩).outline
  | statement s =>
    obtain ⟨_, ended, same⟩ := Option.map_eq_some_iff.mp ran
    obtain ⟨last, reached, rfl⟩ := Option.map_eq_some_iff.mp ended
    cases same
    rw [Store.declared, ended]
    exact (outline_of_execute ⟨limit, reached⟩).1
  | global g =>
    obtain ⟨_, ended, same⟩ := Option.map_eq_some_iff.mp ran
    obtain ⟨last, reached, rfl⟩ := Option.map_eq_some_iff.mp ended
    cases same
    rw [Store.declared, Store.loaded, ended]
    cases binds_of_define ⟨limit, reached⟩ with
    | bound free same => exact same
    | failing same => exact same
  | function f =>
    rw [Store.runPhrase] at ran
    rw [Store.declared, Store.registered]
    cases defined : store.defineFunction f with
    | error fault =>
      rw [defined] at ran
      cases ran
      rfl
    | ok t =>
      rw [defined] at ran
      cases ran
      obtain ⟨_, rfl⟩ := Store.defineFunction_ok_iff.mp defined
      exact store.scope.outline_bindFunction _ _ _

theorem outline_of_served {room : Option Nat} {report : String} {ds : List Declaration}
    (served : Store.Served room report store ds) :
    store.scope.outline = (Store.initial room report).scope.outline.declare ds := by
  induction served with
  | opened => rfl
  | asked _ ran ih =>
    rw [outline_of_runPhrase ran, ih, Scope.declare, Scope.declare, Scope.declare,
      List.foldl_append]

/-- Whether it comes to a value or fails, an expression leaves the same frames with the same names
and functions, and so does a statement, but for the name that it declares in the current frame when
it does not fail. What is pending behind it, with the frames of callers there, stays as it is. A
session goes on in the root frame, where nothing is bound but what was declared. -/
theorem frames_never_leak :
    (∀ {store : Store} {e : Expr} {last : Config}, Config.Ends ⟨.evaluate e, [], store⟩ last →
      last.store.scope.outline = store.scope.outline ∧
      ∀ pending, ∃ n,
        Config.after ⟨.evaluate e, pending, store⟩ n = ⟨last.focus, pending, last.store⟩) ∧
    (∀ {store : Store} {s : Stmt} {last : Config}, Config.Ends ⟨.execute s, [], store⟩ last →
      last.store.scope.outline =
          store.scope.outline.declare (Declaration.made last.completion s.declared) ∧
        (∀ name, .variable name ∈ Declaration.made last.completion s.declared →
          store.scope.current.getVariable? name = none) ∧
        ∀ pending, ∃ n,
          Config.after ⟨.execute s, pending, store⟩ n = ⟨last.focus, pending, last.store⟩) ∧
    ∀ {room : Option Nat} {report : String} {store : Store} {ds : List Declaration},
      Store.Served room report store ds →
      store.scope.inner = [] ∧
        store.scope.outline = (Store.initial room report).scope.outline.declare ds := by
  refine ⟨fun ends => ⟨(yields_of_evaluate ends).outline, after_of_ends ends⟩, fun ends => ?_,
    fun served => ?_⟩
  · obtain ⟨same, free⟩ := outline_of_execute ends
    exact ⟨same, free, after_of_ends ends⟩
  · have same := outline_of_served served
    refine ⟨?_, same⟩
    apply List.map_eq_nil_iff.mp
    exact (congrArg Scope.inner same).trans (Scope.inner_declare _ rfl)

def deep : String :=
  "VAR x = 1;
  FUN f(n: Integer): Integer DO WHILE n > 0 DO LET z = 6 / (n - 1); n = n - 1; END RETURN n; END
  FUN main(): Integer DO IF f(2) > 0 DO RETURN 1; END RETURN 0; END"

def callDeep (n : Int) : Expr := .call "f" [.literal (.integer n) none] none

def declareBehind : Stmt := .declare "k" none (some (callDeep 0)) none

/-- The program fails, then a call of its function, and then a name is declared. -/
theorem frames_never_leak_deep : ∃ p, compile deep = .ok p ∧ ∃ fault s fault' t u ds,
    (Store.initial none).runProgram 100 p = some (.error fault, s) ∧
    s.evaluate 80 (callDeep 2) = some (.error fault', t) ∧
    t.execute 80 declareBehind = some (.ok (), u) ∧
    t.scope.outline = s.scope.outline ∧
    u.scope.outline = t.scope.outline.declare [.variable "k"] ∧
    t.scope.current.getVariable? "k" = none ∧
    Store.Served none "sink full" u ds ∧ u.scope.inner = [] ∧
    u.scope.outline = (Store.initial none).scope.outline.declare ds ∧
    u.scope.root.vars.map (·.1) = ["k", "x"] ∧
    u.scope.root.funs.map (·.1) = [("main", 0), ("f", 1), ("print", 1)] := by
  have runs : ∃ p, compile deep = .ok p ∧
      (((Store.initial none).runProgram 100 p).bind fun first =>
        (first.2.evaluate 80 (callDeep 2)).bind fun second =>
        (second.2.execute 80 declareBehind).map fun third =>
          ([first.1.isOk, second.1.isOk, third.1.isOk], third.2.scope.root.vars.map (·.1),
            third.2.scope.root.funs.map (·.1))) =
        some ([false, false, true], ["k", "x"], [("main", 0), ("f", 1), ("print", 1)]) := by
    decide +kernel
  obtain ⟨p, compiled, ran⟩ := runs
  obtain ⟨⟨first, s⟩, program, ran⟩ := Option.bind_eq_some_iff.mp ran
  obtain ⟨⟨second, t⟩, call, ran⟩ := Option.bind_eq_some_iff.mp ran
  obtain ⟨⟨third, u⟩, declared, ran⟩ := Option.map_eq_some_iff.mp ran
  obtain ⟨answers, names⟩ := Prod.mk.inj ran
  obtain ⟨vars, funs⟩ := Prod.mk.inj names
  cases first with
  | ok v => cases answers
  | error fault =>
  cases second with
  | ok v => cases answers
  | error fault' =>
  cases third with
  | error fault'' => cases answers
  | ok v =>
  have loads : (Store.initial none).runPhrase 100 (.program p) = some (.error fault, s) := by
    rw [Store.runPhrase, program]
    rfl
  have calls : s.runPhrase 80 (.expression (callDeep 2)) = some (.error fault', t) := by
    rw [Store.runPhrase, call]
    rfl
  have declares : t.runPhrase 80 (.statement declareBehind) = some (.ok none, u) := by
    rw [Store.runPhrase, declared]
    rfl
  have served := ((Store.Served.opened.asked loads).asked calls).asked declares
  obtain ⟨expressions, statements, sessions⟩ := frames_never_leak
  obtain ⟨inner, bound⟩ := sessions served
  obtain ⟨last, ended, same⟩ := Option.map_eq_some_iff.mp call
  obtain ⟨_, rfl⟩ := Prod.mk.inj same
  obtain ⟨unchanged, _⟩ := expressions ⟨80, ended⟩
  obtain ⟨last', ended', same'⟩ := Option.map_eq_some_iff.mp declared
  obtain ⟨completed, rfl⟩ := Prod.mk.inj same'
  obtain ⟨one, free, _⟩ := statements ⟨80, ended'⟩
  rw [completed] at one free
  exact ⟨p, compiled, fault, s, fault', _, _, _, program, call, declared, unchanged, one,
    free "k" List.mem_cons_self, served, inner, bound, vars, funs⟩

end Machine
end Plc
