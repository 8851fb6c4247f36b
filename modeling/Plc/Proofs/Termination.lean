import Plc.Proofs.Machine.Printing
import Plc.Proofs.Machine.Weight
import Plc.Proofs.Names
import Plc.Proofs.Typing.Order

/-! Runs of programs without loops and without functions that call themselves. As no function calls
one that stands behind it, the cost of a call can be told function after function, and that of the
program bounds the steps of its runs. -/
namespace Plc

def Function.key (f : Function) : String × Nat := (f.name, f.parameters.length)

def Stmt.isLoop : Stmt → Bool
  | .loop .. => true
  | _ => false

/-- No function has a loop or calls itself, and lists are taken as a whole only to be printed. -/
structure Program.Straight (p : Program) : Prop where
  loopless : ∀ s ∈ p.statements, s.isLoop = false
  calls : ∀ f ∈ p.functions, ∀ e ∈ f.expressions, e.call? ≠ some f.key
  printed : p.ListsPrinted

instance (p : Program) : Decidable p.Straight :=
  decidable_of_iff
    ((∀ s ∈ p.statements, s.isLoop = false) ∧
      (∀ f ∈ p.functions, ∀ e ∈ f.expressions, e.call? ≠ some f.key) ∧ p.ListsPrinted)
    ⟨fun ⟨loopless, calls, printed⟩ => ⟨loopless, calls, printed⟩,
      fun ⟨loopless, calls, printed⟩ => ⟨loopless, calls, printed⟩⟩

def Function.CallsOnly (f : Function) (fs : List Function) : Prop :=
  ∀ e ∈ f.expressions, ∀ k ∈ e.call?, k = ("print", 1) ∨ k ∈ fs.map Function.key

/-- No two functions are called alike, and each calls nothing but `print` and functions in front of
it. -/
inductive CallBack : List Function → Prop
  | nil : CallBack []
  | snoc {fs f} : CallBack fs → f.key ∉ fs.map Function.key → f.key ≠ ("print", 1) →
      f.CallsOnly fs → CallBack (fs ++ [f])

theorem Expr.CallsAmong.call?_mem {fs : List Function} {e : Expr} (among : e.CallsAmong fs)
    (arity : ∀ f ∈ fs, ∀ s ∈ f.slot, s.arity = f.parameters.length) :
    ∀ k ∈ e.call?, k = ("print", 1) ∨ k ∈ fs.map Function.key := by
  cases e with
  | call name arguments slot =>
    rintro _ ⟨⟩
    obtain ⟨s, _, ⟨print, _⟩ | ⟨f, member, rfl, known, length⟩⟩ := among
    · exact .inl print
    · refine .inr (List.mem_map.mpr ⟨f, member, ?_⟩)
      rw [Function.key, ← arity f member s known, length]
  | _ => exact nofun

theorem Function.cost_congr {calls calls' : String × Nat → Nat} {f : Function}
    (same : ∀ e ∈ f.expressions, ∀ k ∈ e.call?, calls k = calls' k) :
    f.cost calls = f.cost calls' := by
  rw [cost, cost, Stmt.costAll_congr fun s member part given e inside => same e ?_]
  exact List.mem_flatMap.mpr ⟨s, member, List.mem_flatMap.mpr ⟨part, given, inside⟩⟩

namespace CallBack

variable {fs : List Function}

theorem callsOnly (back : CallBack fs) : ∀ f ∈ fs, f.CallsOnly fs := by
  induction back with
  | nil => exact nofun
  | @snoc fs f _ _ _ only ih =>
    intro g member e inside k called
    have front : g.CallsOnly fs :=
      List.forall_mem_append.mpr ⟨ih, List.forall_mem_singleton.mpr only⟩ g member
    rw [List.map_append]
    exact (front e inside k called).imp_right (List.mem_append_left _)

/-- There is a table of what the calls of the functions cost. -/
theorem exists_costs (back : CallBack fs) :
    ∃ calls : String × Nat → Nat, ∀ f ∈ fs, f.cost calls = calls f.key := by
  induction back with
  | nil => exact ⟨fun _ => 0, nofun⟩
  | @snoc fs f back fresh free only ih =>
    obtain ⟨table, known⟩ := ih
    have front : ∀ g ∈ fs ++ [f], g.CallsOnly fs :=
      List.forall_mem_append.mpr ⟨back.callsOnly, List.forall_mem_singleton.mpr only⟩
    -- The last function gets its place in the table. Nothing so far depends on it.
    have uncalled (g : Function) (member : g ∈ fs ++ [f]) :
        ∀ e ∈ g.expressions, ∀ k ∈ e.call?, k ≠ f.key := by
      intro e inside k called
      rcases front g member e inside k called with rfl | among
      · exact free.symm
      · exact fun same => fresh (same ▸ among)
    refine ⟨fun k => if k = f.key then f.cost table else table k, fun g member => ?_⟩
    rw [Function.cost_congr fun e inside k called => if_neg (uncalled g member e inside k called)]
    rcases List.mem_append.mp member with among | last
    · have other : g.key ≠ f.key := fun same => fresh (same ▸ List.mem_map_of_mem among)
      exact (known g among).trans (if_neg other).symm
    · rw [List.mem_singleton.mp last]
      exact (if_pos rfl).symm

end CallBack

namespace Program

variable {p : Program}

theorem WellTyped.arity_of_slot (typed : p.WellTyped) {f : Function} (member : f ∈ p.functions) :
    ∀ s ∈ f.slot, s.arity = f.parameters.length := by
  intro s slot
  obtain ⟨scope, fs, place⟩ := p.exists_functionsAt member
  obtain ⟨s', slot', length, _⟩ := typed.getFunction?_scopeBehind place
  obtain rfl := Option.some.inj (slot.symm.trans slot')
  exact length

theorem callBack_functions (typed : p.WellTyped) (straight : p.Straight)
    (among : ∀ (i : Nat) (f : Function), p.functions[i]? = some f →
      ∀ e ∈ f.expressions, e.CallsAmong (p.functions.take (i + 1))) :
    CallBack p.functions := by
  obtain ⟨scope, place⟩ := p.exists_functionsAt_first
  have distinct := typed.pairwise_functions place
  have free := typed.ne_of_bound place (typed.print_eq place)
  -- By induction on how many functions stand in front.
  have front (i : Nat) (bound : i ≤ p.functions.length) : CallBack (p.functions.take i) := by
    induction i with
    | zero => exact .nil
    | succ i ih =>
      have here : p.functions[i]? = some p.functions[i] := List.getElem?_eq_getElem bound
      have member : p.functions[i] ∈ p.functions := List.getElem_mem bound
      have same : p.functions.take (i + 1) = p.functions.take i ++ [p.functions[i]] := by
        rw [List.take_add_one, here]
        rfl
      rw [same]
      refine .snoc (ih (Nat.le_of_succ_le bound)) ?_ (free _ member) fun e inside k called => ?_
      · have apart := distinct.sublist (List.take_sublist (i + 1) p.functions)
        rw [same] at apart
        intro again
        obtain ⟨g, front, alike⟩ := List.mem_map.mp again
        exact (List.pairwise_append.mp apart).2.2 g front _ List.mem_cons_self alike.symm
      · have known := among i _ here e inside
        have arity : ∀ f ∈ p.functions.take (i + 1), ∀ s ∈ f.slot, s.arity = f.parameters.length :=
          fun f front => typed.arity_of_slot (List.mem_of_mem_take front)
        refine (known.call?_mem arity k called).imp_right fun found => ?_
        rw [same, List.map_append] at found
        -- A call that is resolved when the function is there means one in front, or the function
        -- itself.
        rcases List.mem_append.mp found with found | last
        · exact found
        · rw [List.mem_singleton.mp last] at called
          exact absurd called (straight.calls _ member e inside)
  have whole := front p.functions.length (Nat.le_refl _)
  rwa [List.take_length] at whole

end Program

namespace Machine

variable {d : Discipline} {p : Program} {base : Ty} {x : Point} {calls : String × Nat → Nat}

theorem Sound.covers (sound : Sound d p base x)
    (known : ∀ f ∈ p.functions, f.cost calls = calls f.key) :
    Covers calls x.config.store := by
  intro name count f looked
  have found := Scope.lookupFunction_eq_ok.mp looked
  have agrees := sound.kept.names.getFunction? name count
  rw [found] at agrees
  generalize x.view.scope.getFunction? name count = s at agrees
  cases agrees with
  | some callee =>
    obtain ⟨_, callee⟩ := callee
    split at callee
    · exact nomatch callee.1
    · obtain ⟨g, member, same, rfl, rfl, _⟩ := callee
      cases same
      exact Nat.le_of_eq (known f member)

theorem Sound.not_atLoop (sound : Sound d p base x)
    (loopless : ∀ s ∈ p.statements, s.isLoop = false) : ¬ x.config.AtLoop := by
  obtain ⟨⟨scope, callers⟩, c⟩ := x
  obtain ⟨_, task⟩ := sound
  intro looping
  have none {result : Ty} {scope : TypeScope} {condition : Expr} {body : List Stmt} {ss : List Stmt}
      (place : p.BlockAt scope result (.loop condition body :: ss)) : False :=
    nomatch loopless _ place.mem
  cases looping with
  | execute =>
    cases task with
    | execute place => exact none place
  | whether =>
    obtain ⟨_, _, stack⟩ := task.exists_fits rfl
    cases stack with
    | whether place => exact none place
  | again =>
    cases task with
    | loaded stack => cases stack
    | done stack =>
      cases stack with
      | again place => exact none place

/-- There is a number of steps in which the program runs to its end, whatever room it has. -/
theorem exists_run_of_straight (typed : p.WellTyped) (straight : p.Straight)
    (back : CallBack p.functions) : ∃ limit, ∀ room report, ∃ answer store,
      (Store.initial room report).runProgram limit p = some (answer, store) := by
  obtain ⟨calls, known⟩ := back.exists_costs
  refine ⟨loadCost calls p.globals p.functions + 1, fun room report => ?_⟩
  have less (n : Nat) (next : Config)
      (stepped : step? (((Store.initial room report).start p).after n) = some next) :
      next.weight calls < (((Store.initial room report).start p).after n).weight calls := by
    have sound := (sound_start .naming p room report).naming_after typed n
    have here := sound.not_atLoop straight.loopless
    have covers := sound.covers known
    rw [Point.config_after] at here covers
    exact weight_step here covers stepped
  have bound : ((Store.initial room report).start p).weight calls ≤
    loadCost calls p.globals p.functions := Nat.le_refl _
  obtain ⟨last, ran⟩ := exists_run_of_weight bound less
  refine ⟨last.answer, last.store, ?_⟩
  rw [Store.runProgram, ran, Option.map_some]

end Machine

namespace Program

/-- In an analysed program a call in a function means `print` or a function that stands no further
down, and one in the value of a global means `print`. So a straight program runs to its end within
a number of steps that its text sets, and shows and compares values without going deeper than one
list. -/
theorem calls_look_back :
    (∀ p q : Program, (p.annotate TypeScope.initial).1 = .ok q →
      (∀ (i : Nat) (f : Function), q.functions[i]? = some f →
        ∀ e ∈ f.expressions, e.CallsAmong (q.functions.take (i + 1))) ∧
      ∀ g ∈ q.globals, ∀ e ∈ g.expressions, e.CallsAmong []) ∧
    ∀ (text : String) (p : Program), compile text = .ok p → p.Straight →
      (∃ limit, ∀ room report, ∃ answer store,
        (Store.initial room report).runProgram limit p = some (answer, store)) ∧
      ∀ room report n, ∀ heap, heap = (((Store.initial room report).start p).after n).store.heap →
        ∀ depth v, heap.textTo (depth + 1) v = heap.text v ∧
          ∀ w, heap.equalTo (depth + 1) v w = heap.equal v w := by
  refine ⟨fun p q annotated => callsAmong_of_annotate annotated, fun text p compiled straight => ?_⟩
  have typed := wellTyped_of_compile compiled
  simp only [compile, compileTokens, bind_eq_ok, mapError_eq_ok] at compiled
  obtain ⟨tokens, _, raw, _, annotated⟩ := compiled
  have back := callBack_functions typed straight (callsAmong_of_annotate annotated).1
  refine ⟨Machine.exists_run_of_straight typed straight back, ?_⟩
  rintro room report n _ rfl depth v
  have flat := Machine.flat_after typed straight.printed room report n
  exact ⟨flat.textTo_eq_text depth v, flat.equalTo_eq_equal depth v⟩

def ledger : String :=
  "LIST sums = [0];
  FUN post(x: Integer) DO sums[0] = x; print(sums); END
  FUN main(): Integer DO post(3); IF sums[0] > 2 DO post(1); END RETURN 0; END"

theorem calls_look_back_ledger : ∃ p raw : Program,
    (raw.annotate TypeScope.initial).1 = .ok p ∧ compile ledger = .ok p ∧ p.Straight ∧
    (∃ f, p.functions[1]? = some f ∧ ∀ e ∈ f.expressions, e.CallsAmong (p.functions.take 2)) ∧
    ∃ limit answer store, (Store.initial none).runProgram limit p = some (answer, store) := by
  have straight : ∃ p, compile ledger = .ok p ∧ p.Straight ∧ p.functions[1]?.isSome = true := by
    decide +kernel
  obtain ⟨p, compiled, straight, third⟩ := straight
  obtain ⟨f, there⟩ := Option.isSome_iff_exists.mp third
  have made := compiled
  simp only [compile, compileTokens, bind_eq_ok, mapError_eq_ok] at made
  obtain ⟨tokens, _, raw, _, annotated⟩ := made
  have among := (calls_look_back.1 raw p annotated).1 1 f there
  obtain ⟨⟨limit, ends⟩, _⟩ := calls_look_back.2 ledger p compiled straight
  exact ⟨p, raw, annotated, compiled, straight, ⟨f, there, among⟩, limit, ends none _⟩

end Program
end Plc
