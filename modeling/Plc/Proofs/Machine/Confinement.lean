import Plc.Proofs.Machine.Ending
import Plc.Proofs.Machine.Growth
import Plc.Proofs.Machine.Kept
import Plc.Proofs.Scope.Outline

/-! Frames end with what they were entered for. A name is bound only in a frame of which the end is
pending, so behind the phrase nothing of it is left, however the phrase came to its end. -/
namespace Plc.Machine

def Pending.gives : Pending → Outcome
  | .right .. | .operate .. | .element .. | .gather .. | .leaveCall _ => .value
  | _ => .flow

def Enclosed (pending : List Pending) : Prop := ∃ p ∈ pending, p.leaves = true

def Pending.Closes (scope : Scope Binding Callable) (pending : List Pending) : Pending → Prop
  | .leaveBlock | .leaveCall _ => scope.inner ≠ []
  | .bind .. | .rest _ => Enclosed pending
  | .load .. => False
  | _ => True

/-- From an outcome on, what is pending fits together, and comes to the outcome `base` in a scope of
which `o` is the outline. -/
def Confined (base : Outcome) (o : Scope Unit Callable) :
    Outcome → Scope Binding Callable → List Pending → Prop
  | outcome, scope, [] => outcome = base ∧ scope.outline = o
  | outcome, scope, p :: pending =>
    p.takes = outcome ∧ p.Closes scope pending ∧ Confined base o p.gives (p.outer scope) pending

def Focus.Comes : Focus → Outcome → Prop
  | .evaluate _, outcome | .call .., outcome | .value _, outcome => outcome = .value
  | .failing _, _ => True
  | .define _, _ | .load .., _ => False
  | _, outcome => outcome = .flow

def Focus.Closes (pending : List Pending) : Focus → Prop
  | .execute (.declare ..) | .block _ => Enclosed pending
  | _ => True

/-- The machine looks at a phrase from which it comes to `base` and `o` without binding a name for
good. -/
def Config.Confined (base : Outcome) (o : Scope Unit Callable) (c : Config) : Prop :=
  ∃ outcome, c.focus.Comes outcome ∧ c.focus.Closes c.pending ∧
    Machine.Confined base o outcome c.store.scope c.pending

theorem Enclosed.cons {pending : List Pending} (enclosed : Enclosed pending) (p : Pending) :
    Enclosed (p :: pending) := by
  obtain ⟨q, member, leaves⟩ := enclosed
  exact ⟨q, List.mem_cons_of_mem _ member, leaves⟩

theorem Enclosed.of_cons {p : Pending} {pending : List Pending} (enclosed : Enclosed (p :: pending))
    (stays : p.leaves = false) : Enclosed pending := by
  obtain ⟨q, member, leaves⟩ := enclosed
  rcases List.mem_cons.mp member with rfl | member
  · rw [stays] at leaves
    cases leaves
  · exact ⟨q, member, leaves⟩

section Scope

variable {base outcome : Outcome} {o : Scope Unit Callable} {s t : Scope Binding Callable}
  {pending : List Pending}

theorem Pending.outer_outline (same : t.outline = s.outline) (p : Pending) :
    (p.outer t).outline = (p.outer s).outline := by
  obtain ⟨inner, root⟩ := Scope.mk.inj same
  cases p with
  | leaveBlock =>
    show Scope.mk (t.inner.tail.map Frame.outline) t.root.outline =
      Scope.mk (s.inner.tail.map Frame.outline) s.root.outline
    rw [List.map_tail, List.map_tail, inner, root]
  | leaveCall inner => exact congrArg (Scope.mk (inner.map Frame.outline)) root
  | _ => exact same

/-- It does not matter what the variables hold. -/
theorem Confined.congr (confined : Confined base o outcome s pending)
    (same : t.outline = s.outline) : Confined base o outcome t pending := by
  induction pending generalizing outcome s t with
  | nil => exact ⟨confined.1, same.trans confined.2⟩
  | cons p pending ih =>
    obtain ⟨takes, closes, behind⟩ := confined
    refine ⟨takes, ?_, ih behind (p.outer_outline same)⟩
    have back : t.inner = [] → s.inner = [] := Scope.inner_eq_nil_of_outline same.symm
    cases p with
    | leaveBlock => exact fun alone => closes (back alone)
    | leaveCall inner => exact fun alone => closes (back alone)
    | _ => exact closes

/-- Nothing is left of a name that is bound in a frame that ends. -/
theorem Confined.bind (confined : Confined base o outcome s pending) (enclosed : Enclosed pending)
    (name : String) (b : Binding) : Confined base o outcome (s.bindVariable name b) pending := by
  induction pending generalizing outcome with
  | nil =>
    obtain ⟨_, none, _⟩ := enclosed
    cases none
  | cons p pending ih =>
    obtain ⟨takes, closes, behind⟩ := confined
    -- The name is in the innermost frame, which is the one that ends first.
    have inside (leaves : s.inner ≠ []) : (s.bindVariable name b).inner ≠ [] ∧
        (s.bindVariable name b).leave = s.leave ∧ (s.bindVariable name b).root = s.root := by
      obtain ⟨_ | ⟨frame, inner⟩, root⟩ := s
      · exact absurd rfl leaves
      · exact ⟨List.cons_ne_nil _ _, rfl, rfl⟩
    cases p with
    | leaveBlock =>
      obtain ⟨more, same, _⟩ := inside closes
      refine ⟨takes, more, ?_⟩
      rw [Pending.outer, same]
      exact behind
    | leaveCall inner =>
      obtain ⟨more, _, same⟩ := inside closes
      refine ⟨takes, more, ?_⟩
      rw [Pending.outer, same]
      exact behind
    | _ => exact ⟨takes, closes, ih behind (enclosed.of_cons rfl)⟩

end Scope

section Steps

variable {base : Outcome} {o : Scope Unit Callable} {c : Config} {pending : List Pending}
  {focus : Focus}

theorem Config.Over.confined (lies : c.Over pending) (confined : c.Confined base o) :
    ∃ outcome, Machine.Confined base o outcome c.store.scope pending := by
  obtain ⟨outcome, _, _, confined⟩ := confined
  cases lies with
  | all => exact ⟨outcome, confined⟩
  | below stays =>
    have behind := confined.2.2
    rw [Pending.outer_eq stays] at behind
    exact ⟨_, behind⟩

theorem Gathers.confined {purpose : Purpose} {found : List Value} {more : List Expr}
    (gathers : Gathers c purpose found more pending) (confined : c.Confined base o) :
    Machine.Confined base o .value c.store.scope pending := by
  obtain ⟨_, comes, _, confined⟩ := confined
  cases gathers with
  | call | list =>
    obtain rfl := comes
    exact confined
  | next => exact confined.2.2

theorem Calls.confined {name : String} {found : List Value} (calls : Calls c name found pending)
    (confined : c.Confined base o) : Machine.Confined base o .value c.store.scope pending := by
  cases calls with
  | gathered gathers => exact gathers.confined confined
  | main =>
    obtain ⟨_, comes, _⟩ := confined
    exact comes.elim

theorem Settles.confined {made : Except Fault Value} (settles : Settles c made pending)
    (confined : c.Confined base o) : Machine.Confined base o .value c.store.scope pending := by
  obtain ⟨_, comes, _, confined⟩ := confined
  cases settles with
  | access =>
    obtain rfl := comes
    exact confined
  | operate | element => exact confined.2.2

theorem Selects.confined {subject : Value} {cases : List Case}
    (selects : Selects c subject cases pending) (confined : c.Confined base o) :
    Machine.Confined base o .flow c.store.scope pending := by
  obtain ⟨_, _, _, confined⟩ := confined
  cases selects <;> exact confined.2.2

/-- A variable is bound where the end of its frame is pending. -/
theorem Initializes.confined {name : String} {mutable : Bool} {slot : Option Variable}
    {value : Option Expr} (initializes : Initializes c name mutable slot value pending)
    (confined : c.Confined base o) :
    Machine.Confined base o .value c.store.scope (.bind name mutable slot :: pending) := by
  obtain ⟨_, comes, closes, confined⟩ := confined
  cases initializes with
  | declare =>
    obtain rfl := comes
    exact ⟨rfl, closes, confined⟩
  | define => exact comes.elim

theorem Evaluates.confined (evaluates : Evaluates c focus pending) (confined : c.Confined base o) :
    Config.Confined base o ⟨focus, pending, c.store⟩ := by
  have ⟨_, comes, _, behind⟩ := confined
  cases evaluates with
  | settle settles => exact ⟨.value, rfl, trivial, settles.confined confined⟩
  | gather gathers => exact ⟨.value, rfl, trivial, rfl, trivial, gathers.confined confined⟩
  | call calls => exact ⟨.value, rfl, trivial, calls.confined confined⟩
  | right => exact ⟨.value, rfl, trivial, rfl, trivial, behind.2.2⟩
  | decided => exact ⟨.value, rfl, trivial, behind.2.2⟩
  | literal | group =>
    obtain rfl := comes
    exact ⟨.value, rfl, trivial, behind⟩
  | left | offset =>
    obtain rfl := comes
    exact ⟨.value, rfl, trivial, rfl, trivial, behind⟩

theorem Executes.confined (executes : Executes c focus pending) (confined : c.Confined base o) :
    Config.Confined base o ⟨focus, pending, c.store⟩ := by
  have ⟨_, comes, closes, behind⟩ := confined
  cases executes with
  | initial initializes | unset initializes =>
    exact ⟨.value, rfl, trivial, initializes.confined confined⟩
  | noCase selects | default selects => exact ⟨.flow, rfl, trivial, selects.confined confined⟩
  | case selects => exact ⟨.value, rfl, trivial, rfl, trivial, selects.confined confined⟩
  | assignElement | again => exact ⟨.value, rfl, trivial, rfl, trivial, behind.2.2⟩
  | discard | choose | equal | ended | giveBack => exact ⟨.flow, rfl, trivial, behind.2.2⟩
  | repeated => exact ⟨.flow, rfl, trivial, rfl, trivial, behind.2.2⟩
  | rest => exact ⟨.flow, rfl, behind.2.1, behind.2.2⟩
  | define => exact comes.elim
  | defined => exact behind.2.1.elim
  | empty =>
    obtain rfl := comes
    exact ⟨.flow, rfl, trivial, behind⟩
  | @first s =>
    obtain rfl := comes
    refine ⟨.flow, rfl, ?_, rfl, closes, behind⟩
    cases s with
    | declare => exact closes.cons _
    | _ => trivial
  | _ =>
    obtain rfl := comes
    exact ⟨.value, rfl, trivial, rfl, trivial, behind⟩

theorem Changes.confined {made : Except Fault Store} {t : Store}
    (changes : Changes c made pending) (result : made = .ok t) (confined : c.Confined base o) :
    Config.Confined base o ⟨.done, pending, t⟩ := by
  obtain ⟨_, _, _, confined⟩ := confined
  refine ⟨.flow, rfl, trivial, ?_⟩
  cases changes with
  | bind =>
    obtain ⟨_, closes, behind⟩ := confined
    obtain ⟨_, rfl⟩ := Store.bind_ok_iff.mp result
    exact behind.bind closes _ _
  | assign => exact confined.2.2.congr (Store.outline_assign result)
  | assignElement =>
    rw [Store.scope_assignElement result]
    exact confined.2.2

theorem Focus.closes_of_settled (settled : focus.settled = true) : focus.Closes pending := by
  cases focus with
  | execute | block => cases settled
  | _ => trivial

theorem confined_invoke {store : Store}
    (confined : Machine.Confined base o .value store.scope pending) (arguments : List Value)
    (callable : Callable) : (invoke store pending arguments callable).Confined base o := by
  cases callable with
  | declared f => exact ⟨.value, rfl, trivial, confined⟩
  | print =>
    have behind := confined.congr (congrArg Scope.outline (printAll_spec store arguments).1)
    rw [invoke_print]
    refine ⟨.value, ?_, Focus.closes_of_settled (settled_printed _), behind⟩
    cases (store.printAll arguments).1 with
    | ok => rfl
    | error fault => trivial

theorem Drops.comes {p : Pending} {outcome : Outcome} {scope : Scope Binding Callable}
    (drops : Drops focus p) (comes : focus.Comes outcome) (takes : p.takes = outcome)
    (closes : p.Closes scope pending) : focus.Comes p.gives := by
  cases drops with
  | failing => trivial
  | value flow =>
    obtain rfl := comes
    cases takes.symm.trans flow
  | done value =>
    obtain rfl := comes
    cases takes.symm.trans value
  | returning stays =>
    obtain rfl := comes
    cases p with
    | rest | again => rfl
    | load => exact closes.elim
    | leaveBlock | leaveCall => cases stays
    | _ => cases takes

end Steps

variable {base : Outcome} {o : Scope Unit Callable}

theorem confined_step {c next : Config} (confined : c.Confined base o)
    (stepped : step? c = some next) : next.Confined base o := by
  cases step?_eq_some_iff.mp stepped with
  | evaluate evaluates => exact evaluates.confined confined
  | execute executes => exact executes.confined confined
  | drop drops =>
    obtain ⟨_, comes, _, takes, closes, confined⟩ := confined
    have comes := drops.comes comes takes closes
    rw [Pending.outer_eq drops.leaves] at confined
    exact ⟨_, comes, Focus.closes_of_settled drops.settled, confined⟩
  | fail fails =>
    obtain ⟨outcome, confined⟩ := fails.over.confined confined
    exact ⟨outcome, trivial, trivial, confined⟩
  | allocate gathers => exact ⟨.value, rfl, trivial, gathers.confined confined⟩
  | print calls => exact invoke_print _ _ _ ▸ confined_invoke (calls.confined confined) _ .print
  | change changes result => exact changes.confined result confined
  | define =>
    obtain ⟨_, comes, _⟩ := confined
    exact comes.elim
  | enter | call =>
    obtain ⟨_, rfl, _, confined⟩ := confined
    exact ⟨.flow, rfl, ⟨_, List.mem_cons_self, rfl⟩, rfl, List.cons_ne_nil _ _, confined⟩
  | leaveBlock settled =>
    obtain ⟨_, comes, _, rfl, _, confined⟩ := confined
    exact ⟨.flow, comes, Focus.closes_of_settled settled, confined⟩
  | leaveCall answers =>
    obtain ⟨_, _, _, _, _, confined⟩ := confined
    refine ⟨.value, ?_, Focus.closes_of_settled answers.settled, confined⟩
    cases answers with
    | failing => trivial
    | _ => rfl

theorem Config.Confined.after {c : Config} (confined : c.Confined base o) (n : Nat) :
    (c.after n).Confined base o := by
  induction n with
  | zero => exact confined
  | succ n ih =>
    rw [Config.after, Config.next]
    cases stepped : step? (c.after n) with
    | none => exact ih
    | some next => exact confined_step ih stepped

/-- Behind the phrase the frames are those that were there before it, with nothing else bound in
them. -/
theorem Config.Confined.ends {c last : Config} (confined : c.Confined base o)
    (ends : c.Ends last) : last.focus.Comes base ∧ last.store.scope.outline = o := by
  obtain ⟨limit, ran⟩ := ends
  obtain ⟨⟨n, rfl⟩, stopped⟩ := exists_after_of_run ran
  obtain ⟨outcome, comes, _, behind⟩ := confined.after n
  rw [pending_eq_nil_of_stopped stopped] at behind
  obtain ⟨rfl, same⟩ := behind
  exact ⟨comes, same⟩

inductive Yields (store : Store) : Config → Prop
  | value {v t} : t.scope.outline = store.scope.outline → Yields store ⟨.value v, [], t⟩
  | failing {fault t} : t.scope.outline = store.scope.outline → Yields store ⟨.failing fault, [], t⟩

theorem Yields.outline {store : Store} {c : Config} (yields : Yields store c) :
    c.store.scope.outline = store.scope.outline := by
  cases yields with
  | value same => exact same
  | failing same => exact same

theorem yields_of_evaluate {e : Expr} {store : Store} {last : Config}
    (ends : Config.Ends ⟨.evaluate e, [], store⟩ last) : Yields store last := by
  have started : Config.Confined .value store.scope.outline ⟨.evaluate e, [], store⟩ :=
    ⟨.value, rfl, trivial, rfl, rfl⟩
  obtain ⟨comes, same⟩ := started.ends ends
  have stopped := ends.stopped
  obtain ⟨focus, pending, behind⟩ := last
  obtain rfl : pending = [] := pending_eq_nil_of_stopped stopped
  cases focus with
  | value v => exact .value same
  | failing fault => exact .failing same
  | done => cases comes
  | returning v => cases comes
  | block ss => cases comes
  | _ => cases stopped

end Plc.Machine
