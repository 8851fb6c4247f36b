import Plc.Compile
import Plc.Proofs.Frames
import Plc.Proofs.Machine.Erasure
import Plc.Proofs.Machine.Lockstep
import Plc.Proofs.Termination

/-! Programs whose functions stand in another order. A function is found under its name and number
of parameters only, and all are defined before the first is called. -/
namespace Plc

namespace Store

variable {s t u : Store}

def defineFunctions (store : Store) (functions : List Function) : Except Fault Store :=
  functions.foldlM defineFunction store

theorem defineFunctions_cons (store : Store) (f : Function) (functions : List Function) :
    store.defineFunctions (f :: functions) =
      store.defineFunction f >>= fun store => store.defineFunctions functions :=
  List.foldlM_cons

/-- Nothing is in the way of defining functions in the root frame, in whatever order, but
`print`. -/
structure Takes (store : Store) (functions : List Function) : Prop where
  alone : store.scope.inner = []
  distinct : (functions.map Function.key).Nodup
  free : ∀ f ∈ functions, f.key ≠ ("print", 1) → store.scope.root.funs.lookup f.key = none

section Root

variable {vars : List (String × Binding)} {funs : List ((String × Nat) × Callable)} {heap : Heap}
  {output : Output} {f : Function}

theorem defineFunction_root :
    defineFunction ⟨⟨[], ⟨vars, funs⟩⟩, heap, output⟩ f =
      match funs.lookup f.key with
      | some _ => .error (.functionAlreadyDefined f.name f.parameters.length)
      | none => .ok ⟨⟨[], ⟨vars, (f.key, .declared f) :: funs⟩⟩, heap, output⟩ := by
  simp only [defineFunction, Scope.defineFunction, Scope.current, List.headD_nil,
    Frame.defineFunction, Frame.getFunction?, Function.key]
  cases funs.lookup (f.name, f.parameters.length) <;> rfl

theorem defineFunctions_of_free (free : funs.lookup f.key = none) (functions : List Function) :
    defineFunctions ⟨⟨[], ⟨vars, funs⟩⟩, heap, output⟩ (f :: functions) =
      defineFunctions ⟨⟨[], ⟨vars, (f.key, .declared f) :: funs⟩⟩, heap, output⟩ functions := by
  rw [defineFunctions_cons, defineFunction_root, free]
  rfl

theorem defineFunctions_of_taken {callable : Callable} (taken : funs.lookup f.key = some callable)
    (functions : List Function) :
    defineFunctions ⟨⟨[], ⟨vars, funs⟩⟩, heap, output⟩ (f :: functions) =
      .error (.functionAlreadyDefined f.name f.parameters.length) := by
  rw [defineFunctions_cons, defineFunction_root, taken]
  rfl

end Root

namespace Takes

variable {f : Function} {functions others : List Function}

theorem perm (takes : s.Takes functions) (perm : functions.Perm others) : s.Takes others where
  alone := takes.alone
  distinct := (perm.map Function.key).nodup takes.distinct
  free f member := takes.free f (perm.symm.subset member)

/-- A function that is defined is in the way of no other. -/
theorem tail (takes : s.Takes (f :: functions)) (defined : s.defineFunction f = .ok t) :
    t.Takes functions := by
  obtain ⟨⟨inner, ⟨vars, funs⟩⟩, heap, output⟩ := s
  obtain rfl : inner = [] := takes.alone
  obtain ⟨fresh, distinct⟩ := List.nodup_cons.mp takes.distinct
  rw [defineFunction_root] at defined
  split at defined
  · cases defined
  · cases defined
    refine ⟨rfl, distinct, fun g member other => ?_⟩
    have differs : g.key ≠ f.key := fun same => fresh (same ▸ List.mem_map_of_mem member)
    show List.lookup g.key ((f.key, .declared f) :: funs) = none
    rw [List.lookup_cons, beq_false_of_ne differs]
    exact takes.free g (List.mem_cons_of_mem _ member) other

end Takes

namespace Alike

theorem defineFunctions (alike : s.Alike Eq t) (functions : List Function) :
    Likewise (Alike Eq) (s.defineFunctions functions) (t.defineFunctions functions) := by
  induction functions generalizing s t with
  | nil => exact .ok alike
  | cons f functions ih =>
    have likewise := alike.defineFunction f
    rw [defineFunctions_cons, defineFunctions_cons]
    generalize s.defineFunction f = made at likewise ⊢
    generalize t.defineFunction f = made' at likewise ⊢
    cases likewise with
    | error => exact .error
    | ok behind => exact ih behind

end Alike

/-- Of two functions it does not matter which one is defined first. -/
theorem likewise_swap (alike : s.Alike Eq t) {f g : Function} {functions : List Function}
    (takes : s.Takes (g :: f :: functions)) : Likewise (Alike Eq)
      (s.defineFunctions (g :: f :: functions)) (t.defineFunctions (f :: g :: functions)) := by
  have differs : f.key ≠ g.key := fun same =>
    (List.nodup_cons.mp takes.distinct).1 (same ▸ List.mem_cons_self)
  obtain ⟨alone, _, free⟩ := takes
  cases alike with
  | @mk inner vars funs funs' heap output _ same related =>
    obtain rfl : inner = [] := alone
    obtain rfl := related
    -- Neither function is in the way of the other.
    have behindF (h : Callable) : List.lookup g.key ((f.key, h) :: funs') = funs.lookup g.key := by
      rw [List.lookup_cons, beq_false_of_ne differs.symm]
      exact same g.key
    have behindG (h : Callable) : List.lookup f.key ((g.key, h) :: funs) = funs.lookup f.key := by
      rw [List.lookup_cons, beq_false_of_ne differs]
    cases foundF : funs.lookup f.key with
    | none =>
      cases foundG : funs.lookup g.key with
      | none =>
        rw [defineFunctions_of_free foundG, defineFunctions_of_free ((behindG _).trans foundF),
          defineFunctions_of_free ((same _).trans foundF),
          defineFunctions_of_free ((behindF _).trans foundG)]
        refine Alike.defineFunctions (.mk (fun key => ?_) rfl) functions
        simp only [List.lookup_cons, same]
        split <;> split <;> simp_all
      | some callable =>
        rw [defineFunctions_of_taken foundG, defineFunctions_of_free ((same _).trans foundF),
          defineFunctions_of_taken ((behindF _).trans foundG)]
        exact .error
    | some callable =>
      -- Only `print` is there before, and just one of the two can be called so.
      have print : f.key = ("print", 1) := by
        by_contra other
        rw [free f (List.mem_cons_of_mem _ List.mem_cons_self) other] at foundF
        cases foundF
      have foundG := free g List.mem_cons_self fun also => differs (print.trans also.symm)
      rw [defineFunctions_of_free foundG, defineFunctions_of_taken ((behindG _).trans foundF),
        defineFunctions_of_taken ((same _).trans foundF)]
      exact .error

/-- Functions that differ from each other are all defined or fail alike in whatever order. -/
theorem likewise_of_perm {functions others : List Function} (perm : functions.Perm others)
    (alike : s.Alike Eq t) (takes : s.Takes functions) :
    Likewise (Alike Eq) (s.defineFunctions functions) (t.defineFunctions others) := by
  induction perm generalizing s t with
  | nil => exact .ok alike
  | @cons f functions others perm ih =>
    have likewise := alike.defineFunction f
    rw [defineFunctions_cons, defineFunctions_cons]
    have tail {u : Store} := takes.tail (t := u)
    generalize s.defineFunction f = made at likewise tail ⊢
    generalize t.defineFunction f = made' at likewise ⊢
    cases likewise with
    | error => exact .error
    | ok behind => exact ih behind (tail rfl)
  | swap f g functions => exact likewise_swap alike takes
  | trans first _ ih ih' =>
    exact (ih (.refl s) takes).trans .trans (ih' alike (takes.perm first))

end Store

namespace Machine

variable {c next : Config} {s t : Store}

def Config.seen (c : Config) : Except Fault Value × Heap × Output :=
  (c.answer, c.store.heap, c.store.output)

def Config.Shows (c : Config) (shown : Except Fault Value × Heap × Output) : Prop :=
  ∃ last, c.Ends last ∧ last.seen = shown

variable {shown : Except Fault Value × Heap × Output}

theorem shows_iff : c.Shows shown ↔ ∃ limit, (run limit c).map Config.seen = some shown := by
  simp only [Config.Shows, Config.Ends, Option.map_eq_some_iff]
  exact ⟨fun ⟨last, ⟨limit, ran⟩, same⟩ => ⟨limit, last, ran, same⟩,
    fun ⟨limit, last, ran, same⟩ => ⟨last, ⟨limit, ran⟩, same⟩⟩

theorem shows_of_step (stepped : step? c = some next) : c.Shows shown ↔ next.Shows shown := by
  simp only [Config.Shows, ends_of_step stepped]

theorem shows_of_stopped (stopped : step? c = none) :
    c.Shows shown ↔ c.seen = shown := by
  simp only [Config.Shows, ends_of_stopped stopped, exists_eq_left]

theorem shows_below (rest : List Pending) :
    (c.below rest).Shows shown ↔ ∃ mid, c.Ends mid ∧ (mid.below rest).Shows shown := by
  constructor
  · rintro ⟨last, ends, same⟩
    obtain ⟨mid, first, second⟩ := (ends_below rest).mp ends
    exact ⟨mid, first, last, second, same⟩
  · rintro ⟨mid, first, last, second, same⟩
    exact ⟨last, (ends_below rest).mpr ⟨mid, first, second⟩, same⟩

theorem shows_of_alike {a b : Config} (alike : a.Alike Eq b) : a.Shows shown ↔ b.Shows shown := by
  have same (limit : Nat) : (run limit a).map Config.seen = (run limit b).map Config.seen := by
    have ended := lockstep_alike.run alike limit
    generalize run limit a = x at ended ⊢
    generalize run limit b = y at ended ⊢
    cases ended with
    | none => rfl
    | some behind =>
      cases behind.1 with
      | mk stores =>
        simp only [Option.map_some, Config.seen, stores.heap, stores.output]
        rfl
  simp only [shows_iff, same]

/-- The functions are defined, and `main` is called, or one of them cannot be defined. -/
theorem shows_functions {functions : List Function} {mainNamed : Bool} :
    Config.Shows ⟨.load [] functions mainNamed, [], s⟩ shown ↔
      match s.defineFunctions functions with
      | .ok t => Config.Shows ⟨.load [] [] mainNamed, [], t⟩ shown
      | .error fault => (.error fault, s.heap, s.output) = shown := by
  induction functions generalizing s with
  | nil => exact Iff.rfl
  | cons f functions ih =>
    rw [shows_of_step rfl, load, Store.defineFunctions_cons]
    cases defined : s.defineFunction f with
    | error fault => exact shows_of_stopped rfl
    | ok t =>
      obtain ⟨_, rfl⟩ := Store.defineFunction_ok_iff.mp defined
      exact ih

structure Unregistered (o : Scope Unit Callable) : Prop where
  alone : o.inner = []
  funs : o.root.funs = [(("print", 1), .print)]

theorem Unregistered.bindVariable {o : Scope Unit Callable} (unregistered : Unregistered o)
    (name : String) : Unregistered (o.bindVariable name ()) := by
  obtain ⟨inner, root⟩ := o
  obtain rfl : inner = [] := unregistered.alone
  exact ⟨rfl, unregistered.funs⟩

theorem Unregistered.takes (unregistered : Unregistered s.scope.outline)
    {functions : List Function} (distinct : (functions.map Function.key).Nodup) :
    s.Takes functions where
  alone := List.map_eq_nil_iff.mp unregistered.alone
  distinct := distinct
  free f _ other := by
    have funs : s.scope.root.funs = [(("print", 1), .print)] := unregistered.funs
    rw [funs, List.lookup_cons, beq_false_of_ne other]
    rfl

variable {functions others : List Function} (perm : functions.Perm others)
include perm

theorem shows_functions_of_perm (takes : s.Takes functions) (mainNamed : Bool) :
    Config.Shows ⟨.load [] functions mainNamed, [], s⟩ shown ↔
      Config.Shows ⟨.load [] others mainNamed, [], s⟩ shown := by
  have likewise := Store.likewise_of_perm perm (.refl s) takes
  rw [shows_functions, shows_functions]
  generalize s.defineFunctions functions = made at likewise ⊢
  generalize s.defineFunctions others = made' at likewise ⊢
  cases likewise with
  | ok alike => exact shows_of_alike (.mk alike)
  | error => exact Iff.rfl

theorem shows_load_of_perm (distinct : (functions.map Function.key).Nodup)
    (unregistered : Unregistered s.scope.outline) (globals : List Global) (mainNamed : Bool) :
    Config.Shows ⟨.load globals functions mainNamed, [], s⟩ shown ↔
      Config.Shows ⟨.load globals others mainNamed, [], s⟩ shown := by
  -- By induction on the globals, all of which are defined before the functions are.
  induction globals generalizing s with
  | nil => exact shows_functions_of_perm perm (unregistered.takes distinct) mainNamed
  | cons g globals ih =>
    have first (fs : List Function) :
        Config.Shows ⟨.load (g :: globals) fs mainNamed, [], s⟩ shown ↔
          ∃ mid, Config.Ends ⟨.define g, [], s⟩ mid ∧
            (mid.below [.load globals fs mainNamed]).Shows shown :=
      (shows_of_step rfl).trans (shows_below (c := ⟨.define g, [], s⟩) _)
    rw [first, first]
    refine exists_congr fun mid => and_congr_right fun ends => ?_
    cases binds_of_define ends with
    | bound free same =>
      have behind : Unregistered _ := same ▸ unregistered.bindVariable g.name
      exact (shows_of_step rfl).trans ((ih behind).trans (shows_of_step rfl).symm)
    | @failing fault t same =>
      have fails (fs : List Function) :
          (Config.below ⟨.failing fault, [], t⟩ [.load globals fs mainNamed]).Shows shown ↔
            Config.Shows ⟨.failing fault, [], t⟩ shown := shows_of_step rfl
      rw [fails, fails]

end Machine

namespace Store

theorem shown_iff {room : Option Nat} {report : String} {p : Program}
    {r : Except Fault Value × Heap × Output} :
    (∃ limit, shown room limit p report = some r) ↔ ((initial room report).start p).Shows r := by
  simp only [shown, runProgram, Option.map_map, Machine.shows_iff]
  rfl

end Store

/-- The order of the functions does not matter to what a run of a program comes to and prints, as
long as no two have the same name and number of parameters. This includes runs that fail, and those
that come to no end. -/
theorem function_order_is_irrelevant {p : Program} {functions : List Function}
    (perm : p.functions.Perm functions) (distinct : (p.functions.map Function.key).Nodup)
    (room : Option Nat) (report : String) (r : Except Fault Value × Heap × Output) :
    (∃ limit, Store.shown room limit { p with functions := functions } report = some r) ↔
      ∃ limit, Store.shown room limit p report = some r := by
  have named : functions.any (·.name == "main") = p.functions.any (·.name == "main") :=
    (perm.any_eq).symm
  rw [Store.shown_iff, Store.shown_iff, Store.start, Store.start, named]
  exact (Machine.shows_load_of_perm perm distinct ⟨rfl, rfl⟩ _ _).symm

def inTurn : String :=
  "FUN down(n: Integer): Integer DO print(n); IF n > 1 DO RETURN down(n - 2); END RETURN n; END
  FUN main(): Integer DO RETURN down(5); END"

theorem function_order_is_irrelevant_inTurn : ∃ p, compile inTurn = .ok p ∧
    p.functions.reverse.map Function.key = [("main", 0), ("down", 1)] ∧
    ∃ r : Except Fault Value × Heap × Output, r.1.toOption = some (.integer 1) ∧
      r.2.2.lines = #["5", "3", "1"] ∧
      ∃ limit, Store.shown none limit { p with functions := p.functions.reverse } = some r := by
  have runs : ∃ p, compile inTurn = .ok p ∧
      p.functions.map Function.key = [("down", 1), ("main", 0)] ∧
      (Store.shown none 200 p).map (fun r => (r.1.toOption, r.2.2.lines)) =
        some (some (.integer 1), #["5", "3", "1"]) := by
    decide +kernel
  obtain ⟨p, compiled, keys, ran⟩ := runs
  obtain ⟨r, shown, same⟩ := Option.map_eq_some_iff.mp ran
  obtain ⟨answer, lines⟩ := Prod.mk.inj same
  have distinct : (p.functions.map Function.key).Nodup := by
    rw [keys]
    decide
  refine ⟨p, compiled, ?_, r, answer, lines, ?_⟩
  · rw [List.map_reverse, keys]
    rfl
  · exact (function_order_is_irrelevant p.functions.reverse_perm.symm distinct none _ r).mpr
      ⟨200, shown⟩

end Plc
