import Plc.Machine.Run
import Plc.Proofs.Typing.Within

/-! How many steps phrases take that do not loop, where it is known how many calls take. Loops are
left out of the account. -/
namespace Plc

def Expr.call? : Expr → Option (String × Nat)
  | .call name arguments _ => some (name, arguments.length)
  | _ => none

section Costs

variable (calls : String × Nat → Nat)

mutual

/-- A bound of the steps in which an expression is evaluated. -/
def Expr.cost : Expr → Nat
  | .literal .. => 1
  | .group inner _ => inner.cost + 1
  | .binary _ left right _ => left.cost + right.cost + 3
  | .access .. => 1
  | .element _ offset _ => offset.cost + 2
  | .call name arguments _ => Expr.costAll arguments + calls (name, arguments.length) + 1
  | .list elements _ => Expr.costAll elements + 1

def Expr.costAll : List Expr → Nat
  | [] => 0
  | e :: es => e.cost + Expr.costAll es + 1

end

def Expr.costOption : Option Expr → Nat
  | none => 0
  | some e => e.cost calls

mutual

/-- A bound of the steps in which a statement is executed. A loop has none, and counts for
nothing. -/
def Stmt.cost : Stmt → Nat
  | .expression value => value.cost calls + 2
  | .declare _ _ value _ => Expr.costOption calls value + 2
  | .assign receiver value => receiver.cost calls + value.cost calls + 3
  | .branch condition thenBody elseBody =>
    condition.cost calls + Stmt.costAll thenBody + Stmt.costAll elseBody + 4
  | .switch condition cases => condition.cost calls + Case.costAll cases + 2
  | .loop _ _ => 0
  | .ret value => value.cost calls + 2

def Stmt.costAll : List Stmt → Nat
  | [] => 1
  | s :: ss => s.cost + Stmt.costAll ss + 2

def Case.cost : Case → Nat
  | .on value body => value.cost calls + Stmt.costAll body + 4
  | .default body => Stmt.costAll body + 3

def Case.costAll : List Case → Nat
  | [] => 0
  | c :: cs => c.cost + Case.costAll cs

end

def Function.cost (f : Function) : Nat := Stmt.costAll calls f.body + 2

def Global.cost (g : Global) : Nat := Expr.costOption calls g.value + 2

def Global.costAll : List Global → Nat
  | [] => 0
  | g :: gs => g.cost calls + costAll gs + 2

end Costs

section Congruence

variable {calls calls' : String × Nat → Nat}

mutual

/-- The cost depends on that of the calls inside. -/
theorem Expr.cost_congr {e : Expr} (same : ∀ x ∈ e.within, ∀ k ∈ x.call?, calls k = calls' k) :
    e.cost calls = e.cost calls' := by
  cases e with
  | literal | access => rfl
  | group inner ty =>
    rw [cost, cost, cost_congr fun x inside => same x (List.mem_cons_of_mem _ inside)]
  | binary op left right ty =>
    obtain ⟨inLeft, inRight⟩ := List.forall_mem_append.mp (List.forall_mem_cons.mp same).2
    rw [cost, cost, cost_congr inLeft, cost_congr inRight]
  | element name offset slot =>
    rw [cost, cost, cost_congr fun x inside => same x (List.mem_cons_of_mem _ inside)]
  | call name arguments slot =>
    obtain ⟨here, inside⟩ := List.forall_mem_cons.mp same
    rw [cost, cost, costAll_congr inside, here _ rfl]
  | list elements ty =>
    rw [cost, cost, costAll_congr fun x inside => same x (List.mem_cons_of_mem _ inside)]

theorem Expr.costAll_congr {es : List Expr}
    (same : ∀ x ∈ allWithin es, ∀ k ∈ x.call?, calls k = calls' k) :
    costAll calls es = costAll calls' es := by
  cases es with
  | nil => rfl
  | cons e es =>
    obtain ⟨first, others⟩ := List.forall_mem_append.mp same
    rw [costAll, costAll, cost_congr first, costAll_congr others]

end

def Stmt.SameCalls (calls calls' : String × Nat → Nat) (s : Stmt) : Prop :=
  ∀ part ∈ s.parts, ∀ x ∈ part.within, ∀ k ∈ x.call?, calls k = calls' k

theorem Expr.costOption_congr {value : Option Expr}
    (same : ∀ e ∈ value.toList, ∀ x ∈ e.within, ∀ k ∈ x.call?, calls k = calls' k) :
    costOption calls value = costOption calls' value := by
  cases value with
  | none => rfl
  | some e => exact cost_congr (same e List.mem_cons_self)

mutual

theorem Stmt.cost_congr {s : Stmt} (same : ∀ t ∈ s.within, t.SameCalls calls calls') :
    s.cost calls = s.cost calls' := by
  have here := same s s.mem_within_self
  cases s with
  | expression value =>
    rw [Stmt.cost, Stmt.cost, Expr.cost_congr (here value (by simp [Stmt.parts]))]
  | declare name typeName value slot => rw [Stmt.cost, Stmt.cost, Expr.costOption_congr here]
  | assign receiver value =>
    rw [Stmt.cost, Stmt.cost, Expr.cost_congr (here receiver (by simp [Stmt.parts])),
      Expr.cost_congr (here value (by simp [Stmt.parts]))]
  | branch condition thenBody elseBody =>
    obtain ⟨inThen, inElse⟩ := List.forall_mem_append.mp (List.forall_mem_cons.mp same).2
    rw [Stmt.cost, Stmt.cost, Expr.cost_congr (here condition (by simp [Stmt.parts])),
      Stmt.costAll_congr inThen, Stmt.costAll_congr inElse]
  | switch condition cases =>
    rw [Stmt.cost, Stmt.cost, Expr.cost_congr (here condition (by simp [Stmt.parts])),
      Case.costAll_congr (fun e member => here e (List.mem_cons_of_mem _ member))
        (List.forall_mem_cons.mp same).2]
  | loop => rfl
  | ret value => rw [Stmt.cost, Stmt.cost, Expr.cost_congr (here value (by simp [Stmt.parts]))]

theorem Stmt.costAll_congr {ss : List Stmt}
    (same : ∀ t ∈ Stmt.allWithin ss, t.SameCalls calls calls') :
    Stmt.costAll calls ss = Stmt.costAll calls' ss := by
  cases ss with
  | nil => rfl
  | cons s ss =>
    obtain ⟨first, others⟩ := List.forall_mem_append.mp same
    rw [Stmt.costAll, Stmt.costAll, Stmt.cost_congr first, Stmt.costAll_congr others]

theorem Case.cost_congr {c : Case}
    (value : ∀ e ∈ c.value?, ∀ x ∈ e.within, ∀ k ∈ x.call?, calls k = calls' k)
    (same : ∀ t ∈ c.within, t.SameCalls calls calls') : c.cost calls = c.cost calls' := by
  cases c with
  | on e body => rw [Case.cost, Case.cost, Expr.cost_congr (value e rfl), Stmt.costAll_congr same]
  | default body => rw [Case.cost, Case.cost, Stmt.costAll_congr same]

theorem Case.costAll_congr {cs : List Case}
    (values : ∀ e ∈ cs.filterMap Case.value?, ∀ x ∈ e.within, ∀ k ∈ x.call?, calls k = calls' k)
    (same : ∀ t ∈ Case.allWithin cs, t.SameCalls calls calls') :
    Case.costAll calls cs = Case.costAll calls' cs := by
  cases cs with
  | nil => rfl
  | cons c cs =>
    obtain ⟨first, others⟩ := List.forall_mem_append.mp same
    have value : ∀ e ∈ c.value?, e ∈ (c :: cs).filterMap Case.value? := fun e given =>
      List.mem_filterMap.mpr ⟨c, List.mem_cons_self, given⟩
    have behind : ∀ e ∈ cs.filterMap Case.value?, e ∈ (c :: cs).filterMap Case.value? := by
      intro e member
      obtain ⟨c', among, given⟩ := List.mem_filterMap.mp member
      exact List.mem_filterMap.mpr ⟨c', List.mem_cons_of_mem _ among, given⟩
    rw [Case.costAll, Case.costAll, Case.cost_congr (fun e given => values e (value e given)) first,
      Case.costAll_congr (fun e member => values e (behind e member)) others]

end

end Congruence
end Plc
