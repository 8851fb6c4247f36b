import Plc.Proofs.Machine.Cost
import Plc.Proofs.Machine.Trace

/-! The work that is left at a configuration. Each step makes it less, unless it goes into a loop or
a call costs more than the table of calls says. -/
namespace Plc.Machine

section Weight

variable (calls : String × Nat → Nat)

def Purpose.cost (count : Nat) : Purpose → Nat
  | .list => 0
  | .call name => calls (name, count)

def loadCost (globals : List Global) (functions : List Function) : Nat :=
  Global.costAll calls globals + functions.length + calls ("main", 0) + 1

namespace Pending

def weight : Pending → Nat
  | .right _ e => e.cost calls + 2
  | .gather purpose found more =>
    Expr.costAll calls more + purpose.cost calls (found.length + 1 + more.length) + 1
  | .assignOffset _ _ value => value.cost calls + 2
  | .choose thenBody elseBody => Stmt.costAll calls thenBody + Stmt.costAll calls elseBody + 3
  | .select cases => Case.costAll calls cases + 1
  | .compare _ body cases => Stmt.costAll calls body + Case.costAll calls cases + 3
  | .rest statements => Stmt.costAll calls statements + 1
  | .load globals functions _ => loadCost calls globals functions + 1
  | _ => 1

theorem weight_pos (first : Pending) : 0 < first.weight calls := by
  cases first <;> exact Nat.succ_pos _

end Pending

def Focus.weight : Focus → Nat
  | .evaluate e => e.cost calls
  | .execute s => s.cost calls
  | .block statements => Stmt.costAll calls statements
  | .enter body => Stmt.costAll calls body + 2
  | .call f _ => f.cost calls
  | .define g => g.cost calls
  | .load globals functions _ => loadCost calls globals functions
  | .value _ => 0
  | .done => 0
  | .returning _ => 0
  | .failing _ => 0

theorem Focus.weight_of_settled {focus : Focus} (settled : focus.settled = true) :
    focus.weight calls = 0 := by
  cases focus with
  | value | done | returning | failing => rfl
  | _ => cases settled

def Pending.weightAll : List Pending → Nat
  | [] => 0
  | first :: pending => first.weight calls + weightAll pending

def Config.weight (c : Config) : Nat := c.focus.weight calls + Pending.weightAll calls c.pending

end Weight

inductive Config.AtLoop : Config → Prop
  | execute {condition body pending store} :
    AtLoop ⟨.execute (.loop condition body), pending, store⟩
  | whether {v condition body pending store} :
    AtLoop ⟨.value v, .whether condition body :: pending, store⟩
  | again {condition body pending store} :
    AtLoop ⟨.done, .again condition body :: pending, store⟩

def Covers (calls : String × Nat → Nat) (store : Store) : Prop :=
  ∀ name count f, store.scope.lookupFunction name count = .ok (.declared f) →
    f.cost calls ≤ calls (name, count)

section Steps

variable (calls : String × Nat → Nat) {c : Config} {pending : List Pending} {focus : Focus}

theorem Gathers.weight_eq {purpose : Purpose} {found : List Value} {more : List Expr}
    (gathers : Gathers c purpose found more pending) :
    c.weight calls = Expr.costAll calls more + purpose.cost calls (found.length + more.length) + 1 +
      Pending.weightAll calls pending := by
  cases gathers with
  | call => simp only [Config.weight, Focus.weight, Expr.cost, Purpose.cost, List.length_nil,
      Nat.zero_add]
  | list => simp only [Config.weight, Focus.weight, Expr.cost, Purpose.cost, Nat.add_zero]
  | next => simp only [Config.weight, Focus.weight, Pending.weightAll, Pending.weight,
      List.length_append, List.length_singleton, Nat.zero_add]

theorem Calls.lt_weight {name : String} {found : List Value} (given : Calls c name found pending) :
    calls (name, found.length) + Pending.weightAll calls pending < c.weight calls := by
  cases given with
  | gathered gathers =>
    rw [gathers.weight_eq]
    simp only [Expr.costAll, Purpose.cost, List.length_nil, Nat.add_zero]
    omega
  | main =>
    simp only [Config.weight, Focus.weight, loadCost, List.length_nil]
    omega

theorem Selects.lt_weight {subject : Value} {cases : List Case}
    (selects : Selects c subject cases pending) :
    Case.costAll calls cases + Pending.weightAll calls pending < c.weight calls := by
  cases selects <;> simp only [Config.weight, Focus.weight, Pending.weightAll, Pending.weight] <;>
    omega

theorem Initializes.lt_weight {name : String} {mutable : Bool} {slot : Option Variable}
    {value : Option Expr} (initializes : Initializes c name mutable slot value pending) :
    Expr.costOption calls value + 1 + Pending.weightAll calls pending < c.weight calls := by
  cases initializes <;> simp only [Config.weight, Focus.weight, Stmt.cost, Global.cost] <;> omega

theorem Settles.lt_weight {made : Except Fault Value} (settles : Settles c made pending) :
    Pending.weightAll calls pending < c.weight calls := by
  cases settles <;>
    simp only [Config.weight, Focus.weight, Pending.weightAll, Pending.weight, Expr.cost] <;> omega

theorem Changes.lt_weight {made : Except Fault Store} (changes : Changes c made pending) :
    Pending.weightAll calls pending < c.weight calls := by
  cases changes <;>
    simp only [Config.weight, Focus.weight, Pending.weightAll, Pending.weight] <;> omega

theorem Tests.lt_weight {v : Value} (tests : Tests c v pending) :
    Pending.weightAll calls pending < c.weight calls := by
  cases tests <;>
    simp only [Config.weight, Focus.weight, Pending.weightAll, Pending.weight] <;> omega

theorem Fails.lt_weight {fault : Fault} (fails : Fails c fault pending) :
    Pending.weightAll calls pending < c.weight calls := by
  cases fails with
  | settle settles => exact settles.lt_weight calls
  | change changes => exact changes.lt_weight calls
  | truth tests => exact tests.lt_weight calls
  | call gathers =>
    rw [gathers.weight_eq]
    omega
  | offset | receiver =>
    simp only [Config.weight, Focus.weight, Expr.cost, Stmt.cost]
    omega
  | main | define =>
    simp only [Config.weight, Focus.weight, loadCost]
    omega
  | body =>
    simp only [Config.weight, Focus.weight, Function.cost]
    omega
  | immutable assigns =>
    cases assigns <;> simp only [Config.weight, Focus.weight, Stmt.cost] <;> omega

theorem Evaluates.weight_lt (evaluates : Evaluates c focus pending)
    (covers : Covers calls c.store) :
    Config.weight calls ⟨focus, pending, c.store⟩ < c.weight calls := by
  cases evaluates with
  | settle settles =>
    have left := settles.lt_weight calls
    simpa only [Config.weight, Focus.weight, Nat.zero_add] using left
  | gather gathers =>
    rw [gathers.weight_eq]
    simp only [Config.weight, Focus.weight, Pending.weightAll, Pending.weight, Expr.costAll,
      List.length_cons, Nat.add_right_comm _ 1, ← Nat.add_assoc]
    omega
  | @call _ name found f _ given looked =>
    have costs : f.cost calls ≤ calls (name, found.length) := covers name _ f looked
    exact Nat.lt_of_le_of_lt (Nat.add_le_add_right costs _) (given.lt_weight calls)
  | _ =>
    simp only [Config.weight, Focus.weight, Pending.weightAll, Pending.weight, Expr.cost]
    omega

theorem Executes.weight_lt (executes : Executes c focus pending) (straight : ¬ c.AtLoop) :
    Config.weight calls ⟨focus, pending, c.store⟩ < c.weight calls := by
  cases executes with
  | initial initializes | unset initializes =>
    have left := initializes.lt_weight calls
    simp only [Expr.costOption] at left
    simp only [Config.weight, Focus.weight, Pending.weightAll, Pending.weight] at left ⊢
    omega
  | noCase selects | case selects | default selects =>
    have left := selects.lt_weight calls
    simp only [Case.costAll, Case.cost] at left
    simp only [Config.weight, Focus.weight, Pending.weightAll, Pending.weight] at left ⊢
    omega
  | loop => exact absurd .execute straight
  | repeated | ended => exact absurd .whether straight
  | again => exact absurd .again straight
  | @choose thenBody elseBody v b =>
    cases b <;> simp only [Config.weight, Focus.weight, Pending.weightAll, Pending.weight,
      Bool.false_eq_true, if_false, if_true] <;> omega
  | define =>
    simp only [Config.weight, Focus.weight, Pending.weightAll, Pending.weight, loadCost,
      Global.costAll]
    omega
  | _ =>
    simp only [Config.weight, Focus.weight, Pending.weightAll, Pending.weight, Stmt.cost,
      Stmt.costAll, Expr.cost]
    omega

end Steps

variable {calls : String × Nat → Nat}

/-- Each step leaves less to do. -/
theorem weight_step {c next : Config} (straight : ¬ c.AtLoop) (covers : Covers calls c.store)
    (stepped : step? c = some next) : next.weight calls < c.weight calls := by
  -- Whatever a rule takes up weighs more than all that it looks at and leaves pending next.
  cases step?_eq_some_iff.mp stepped with
  | evaluate evaluates => exact evaluates.weight_lt calls covers
  | execute executes => exact executes.weight_lt calls straight
  | @drop focus p pending store =>
    have here := p.weight_pos calls
    simp only [Config.weight, Pending.weightAll]
    omega
  | fail fails =>
    have left := fails.lt_weight calls
    simpa only [Config.weight, Focus.weight, Nat.zero_add] using left
  | allocate gathers =>
    rw [gathers.weight_eq]
    simp only [Config.weight, Focus.weight]
    omega
  | @print _ name found pending given looked =>
    have left := given.lt_weight calls
    have settled : (printed (c.store.printAll found).1).weight calls = 0 :=
      Focus.weight_of_settled calls (settled_printed _)
    simp only [Config.weight, settled] at left ⊢
    omega
  | change changes =>
    have left := changes.lt_weight calls
    simpa only [Config.weight, Focus.weight, Nat.zero_add] using left
  | define =>
    simp only [Config.weight, Focus.weight, loadCost, List.length_cons]
    omega
  | enter =>
    simp only [Config.weight, Focus.weight, Pending.weightAll, Pending.weight]
    omega
  | leaveBlock =>
    simp only [Config.weight, Pending.weightAll, Pending.weight]
    omega
  | call =>
    simp only [Config.weight, Focus.weight, Function.cost, Pending.weightAll, Pending.weight]
    omega
  | leaveCall answers =>
    cases answers <;>
      simp only [Config.weight, Focus.weight, Pending.weightAll, Pending.weight] <;> omega

/-- What has less to do after every step stops. -/
theorem exists_run_of_weight {c : Config} {work : Nat} (bound : c.weight calls ≤ work)
    (less : ∀ n next, step? (c.after n) = some next →
      next.weight calls < (c.after n).weight calls) :
    ∃ last, run (work + 1) c = some last := by
  induction work generalizing c with
  | zero =>
    cases stepped : step? c with
    | none => exact ⟨c, by rw [run, stepped]⟩
    | some next => exact absurd (Nat.lt_of_lt_of_le (less 0 next stepped) bound) (Nat.not_lt_zero _)
  | succ work ih =>
    rw [run]
    cases stepped : step? c with
    | none => exact ⟨c, rfl⟩
    | some next =>
      refine ih (Nat.le_of_lt_succ (Nat.lt_of_lt_of_le (less 0 next stepped) bound)) ?_
      intro n behind
      rw [← Config.next_eq stepped, Config.after_next]
      exact less (n + 1) behind

end Plc.Machine
