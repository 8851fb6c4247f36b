import Plc.Proofs.Typing.Analyzer

/-! What comes of each step of the analysis as it goes along: the answer of the analysis that is
given a scope, and what the step leaves behind. There is a judgement for steps that only look, one
for steps that come back, and one for those that may leave a definition, with a rule for each way to
put steps together. -/
namespace Plc

namespace Analysis

variable {α β : Type}

/-- The step looks at the scope, and changes nothing. -/
def Reads (step : Analysis α) (answer : TypeScope → Except Fault α) : Prop :=
  ∀ a : Analyzer, step.on a = (answer a.scope, a)

/-- The step leaves nothing in the frames there are. -/
def Rests (step : Analysis α) (answer : TypeScope → Option Ty → Except Fault α) : Prop :=
  ∀ a : Analyzer, a.Formed → ∃ b, step.on a = (answer a.scope a.result, b) ∧ a.Leaves none b

def Runs (step : Analysis α) (answer : TypeScope → Option Ty → Except Fault α) : Prop :=
  ∀ a : Analyzer, a.Formed → ∃ b, step.on a = (answer a.scope a.result, b) ∧ a.Returns b

structure Leads (step : Analysis α) (a b : Analyzer) (expected : Except Fault α × TypeScope) :
    Prop where
  on_eq : step.on a = (expected.1, b)
  scope_eq : b.scope = expected.2

def Makes (step : Analysis α) (made : α → Option (Definition Variable Signature))
    (answer : TypeScope → Option Ty → Except Fault (α × TypeScope)) : Prop :=
  ∀ a : Analyzer, a.Formed → ∃ b,
    step.Leads a b (a.scope.behind (answer a.scope a.result)) ∧
      a.Leaves ((answer a.scope a.result).toOption.bind fun expected => made expected.1) b

def Moves (step : Analysis α)
    (answer : TypeScope → Option Ty → Except Fault (α × TypeScope)) : Prop :=
  ∀ a : Analyzer, a.Formed → ∃ b,
    step.on a = ((answer a.scope a.result).map (·.1), b) ∧ a.Returns b ∧
      ∀ v scope, answer a.scope a.result = .ok (v, scope) → b.scope = scope

/-- The step comes back to where it began, with a scope behind it whether or not it fails. -/
def Passes (step : Analysis α) (answer : TypeScope → Except Fault α × TypeScope) : Prop :=
  ∀ a : Analyzer, a.Formed → ∃ b, step.Leads a b (answer a.scope) ∧ a.Returns b

section Rules

variable {step : Analysis α} {next : α → Analysis β} {x : Except Fault α}
  {made : β → Option (Definition Variable Signature)}

namespace Reads

theorem pure (v : α) : Reads (pure v) fun _ => pure v := fun _ => rfl

theorem lift (x : Except Fault α) : Reads (liftM x) fun _ => x := fun _ => rfl

theorem fail (fault : Fault) : Reads (throw fault : Analysis α) fun _ => .error fault :=
  fun _ => rfl

theorem lookupVariable (name : String) :
    Reads (Analysis.lookupVariable name) fun scope => scope.lookupVariable name :=
  fun _ => rfl

theorem lookupFunction (name : String) (arity : Nat) :
    Reads (Analysis.lookupFunction name arity) fun scope => scope.lookupFunction name arity :=
  fun _ => rfl

theorem bind {f : TypeScope → Except Fault α} {g : α → TypeScope → Except Fault β}
    (first : Reads step f) (second : ∀ v, Reads (next v) (g v)) :
    Reads (step >>= next) fun scope => f scope >>= fun v => g v scope := by
  intro a
  show _ = (f a.scope >>= fun v => g v a.scope, a)
  rw [on_bind, first a]
  cases f a.scope with
  | error fault => rfl
  | ok v => exact second v a

theorem map {f : TypeScope → Except Fault α} (first : Reads step f) (g : α → β) :
    Reads (g <$> step) fun scope => g <$> f scope :=
  first.bind fun v => pure (g v)

theorem optional {visit : Expr → Analysis Expr} {f : Expr → TypeScope → Except Fault Expr}
    (reads : ∀ e, Reads (visit e) (f e)) (value : Option Expr) :
    Reads (value.mapM visit) fun scope => value.mapM fun e => f e scope := by
  cases value with
  | none => exact pure none
  | some e => exact (reads e).map some

theorem rests {f : TypeScope → Except Fault α} (reads : Reads step f) :
    Rests step fun scope _ => f scope :=
  fun a formed => ⟨a, reads a, Analyzer.leaves_self formed⟩

end Reads

namespace Rests

theorem bind {f : TypeScope → Option Ty → Except Fault α}
    {g : α → TypeScope → Option Ty → Except Fault β}
    (first : Rests step f) (second : ∀ v, Rests (next v) (g v)) :
    Rests (step >>= next) fun scope result => f scope result >>= fun v => g v scope result := by
  intro a formed
  obtain ⟨b, on_eq, leaves⟩ := first a formed
  show ∃ c, _ = (f a.scope a.result >>= fun v => g v a.scope a.result, c) ∧ _
  rw [on_bind, on_eq]
  cases f a.scope a.result with
  | error fault => exact ⟨b, rfl, leaves⟩
  | ok v =>
    obtain ⟨c, on_eq, rest⟩ := second v b leaves.formed
    rw [leaves.scope_eq formed, leaves.result] at on_eq
    exact ⟨c, on_eq, leaves.trans rest⟩

theorem inChild {f : TypeScope → Option Ty → Except Fault α} (runs : Runs step f) :
    Rests (Analysis.inChild step) fun scope result => f (scope.enter {}) result := by
  intro a formed
  obtain ⟨b, on_eq, returns⟩ := runs a.child formed.child
  rw [formed.scope_child] at on_eq
  refine ⟨{ b with current := a.current }, ?_, Analyzer.leaves_of_child formed returns⟩
  show ((step.on a.child).1, { (step.on a.child).2 with current := a.current }) = _
  rw [on_eq]
  rfl

theorem congr {f g : TypeScope → Option Ty → Except Fault α} (rests : Rests step f)
    (same : ∀ scope result, f scope result = g scope result) : Rests step g := by
  obtain rfl : f = g := funext fun scope => funext fun result => same scope result
  exact rests

/-- The type of what may be returned is what it was, behind the step. -/
theorem returning {f : TypeScope → Option Ty → Except Fault α} (rests : Rests step f) (ty : Ty) :
    Rests (Analysis.returning ty step) fun scope _ => f scope (some ty) := by
  intro a formed
  let within : Analyzer := { a with result := some ty }
  obtain ⟨b, on_eq, leaves⟩ := rests within ⟨formed.tree, formed.there⟩
  refine ⟨{ b with result := a.result }, ?_, ?_⟩
  · show ((step.on within).1, { (step.on within).2 with result := a.result }) = _
    rw [on_eq]
    rfl
  · exact
      { formed := ⟨leaves.formed.tree, leaves.formed.there⟩
        current := leaves.current
        result := rfl
        size := leaves.size
        path := leaves.path
        others := leaves.others
        free := nofun
        here := leaves.here }

end Rests

namespace Makes

theorem pure {v : β} (none : made v = none) :
    Makes (pure v) made fun scope _ => pure (v, scope) := by
  intro a formed
  refine ⟨a, ⟨rfl, rfl⟩, ?_⟩
  show a.Leaves (made v) a
  rw [none]
  exact Analyzer.leaves_self formed

theorem fail (fault : Fault) : Makes (throw fault : Analysis β) made fun _ _ => .error fault :=
  fun a formed => ⟨a, ⟨rfl, rfl⟩, Analyzer.leaves_self formed⟩

theorem bind {f : TypeScope → Option Ty → Except Fault α}
    {g : α → TypeScope → Option Ty → Except Fault (β × TypeScope)}
    (first : Rests step f) (second : ∀ v, Makes (next v) made (g v)) :
    Makes (step >>= next) made fun scope result =>
      f scope result >>= fun v => g v scope result := by
  intro a formed
  obtain ⟨b, on_eq, leaves⟩ := first a formed
  have scope_eq : b.scope = a.scope := leaves.scope_eq formed
  show ∃ c, Leads _ a c (a.scope.behind (f a.scope a.result >>= fun v => g v a.scope a.result)) ∧
    a.Leaves ((f a.scope a.result >>= fun v => g v a.scope a.result).toOption.bind _) c
  cases answer : f a.scope a.result with
  | error fault =>
    rw [answer] at on_eq
    exact ⟨b, ⟨by rw [on_bind, on_eq]; rfl, scope_eq⟩, leaves⟩
  | ok v =>
    rw [answer] at on_eq
    obtain ⟨c, leads, rest⟩ := second v b leaves.formed
    rw [scope_eq, leaves.result] at leads rest
    exact ⟨c, ⟨by rw [on_bind, on_eq]; exact leads.on_eq, leads.scope_eq⟩, leaves.trans rest⟩

theorem defineVariable {v : β} {name : String} {w : Variable}
    (makes : made v = some (.ofVariable name w)) :
    Makes (define (.ofVariable name w) >>= fun _ => Pure.pure v) made fun scope _ =>
      scope.defineVariable name w >>= fun scope => Pure.pure (v, scope) := by
  intro a formed
  have current : a.scope.current = a.tree.frame a.current := formed.tree.current_scope formed.there
  let d : Definition Variable Signature := .ofVariable name w
  have stepped := on_define formed d
  show ∃ b, Leads _ a b (a.scope.behind (a.scope.defineVariable name w >>= _)) ∧
    a.Leaves ((a.scope.defineVariable name w >>= _).toOption.bind _) b
  rw [Scope.defineVariable, Frame.defineVariable, current]
  cases bound : (a.tree.frame a.current).getVariable? name with
  | some old =>
    rw [Definition.key, Frame.get?, bound] at stepped
    exact ⟨a, ⟨by rw [on_bind, stepped]; rfl, rfl⟩, Analyzer.leaves_self formed⟩
  | none =>
    have free : (a.tree.frame a.current).get? d.key = none := by
      rw [Definition.key, Frame.get?, bound]
      rfl
    rw [free] at stepped
    have leaves := Analyzer.leaves_of_bind formed free
    refine ⟨_, ⟨by rw [on_bind, stepped]; rfl, ?_⟩, ?_⟩
    · have behind := leaves.scope_eq formed
      rw [Option.elim_some, current] at behind
      exact behind
    · show a.Leaves (made v) _
      rw [makes]
      exact leaves

/-- A step that goes on by the state it is in. -/
theorem get {next : Analyzer → Analysis β}
    {answer : TypeScope → Option Ty → Except Fault (β × TypeScope)}
    (makes : ∀ a : Analyzer, ∃ answer',
      Makes (next a) made answer' ∧ ∀ scope, answer' scope a.result = answer scope a.result) :
    Makes (get >>= next) made answer := by
  intro a formed
  obtain ⟨answer', makes, same⟩ := makes a
  obtain ⟨b, leads, leaves⟩ := makes a formed
  rw [same] at leads leaves
  exact ⟨b, ⟨by rw [on_bind, on_get]; exact leads.on_eq, leads.scope_eq⟩, leaves⟩

theorem moves {f : TypeScope → Option Ty → Except Fault (β × TypeScope)} {step : Analysis β}
    (makes : Makes step made f) : Moves step f := by
  intro a formed
  obtain ⟨b, leads, leaves⟩ := makes a formed
  have on_eq := leads.on_eq
  have behind := leads.scope_eq
  cases answer : f a.scope a.result with
  | error fault =>
    rw [answer] at on_eq
    exact ⟨b, on_eq, leaves.toReturns, nofun⟩
  | ok expected =>
    rw [answer] at on_eq behind
    refine ⟨b, on_eq, leaves.toReturns, ?_⟩
    rintro v scope ⟨⟩
    exact behind

theorem passes {f : TypeScope → Except Fault (β × TypeScope)} {step : Analysis β}
    (makes : Makes step made fun scope _ => f scope) :
    Passes step fun scope => scope.behind (f scope) := by
  intro a formed
  obtain ⟨b, leads, leaves⟩ := makes a formed
  exact ⟨b, leads, leaves.toReturns⟩

end Makes

namespace Moves

theorem bind {f : TypeScope → Option Ty → Except Fault (α × TypeScope)}
    {g : α → TypeScope → Option Ty → Except Fault (β × TypeScope)}
    (first : Moves step f) (second : ∀ v, Moves (next v) (g v)) :
    Moves (step >>= next) fun scope result =>
      f scope result >>= fun (v, scope) => g v scope result := by
  intro a formed
  obtain ⟨b, on_eq, returns, behind⟩ := first a formed
  show ∃ c, _ = (Except.map _ (f a.scope a.result >>= fun (v, scope) => g v scope a.result), c) ∧
    _ ∧ ∀ v scope, (f a.scope a.result >>= fun (v, scope) => g v scope a.result) = _ → _
  rw [on_bind, on_eq]
  cases answer : f a.scope a.result with
  | error fault => exact ⟨b, rfl, returns, nofun⟩
  | ok expected =>
    obtain ⟨c, on_eq, rest, behind'⟩ := second expected.1 b returns.formed
    rw [behind expected.1 expected.2 answer, returns.result] at on_eq behind'
    exact ⟨c, on_eq, returns.trans rest, behind'⟩

theorem congr {f g : TypeScope → Option Ty → Except Fault (α × TypeScope)}
    (moves : Moves step f) (same : ∀ scope result, f scope result = g scope result) :
    Moves step g := by
  obtain rfl : f = g := funext fun scope => funext fun result => same scope result
  exact moves

theorem defineVariable (name : String) (w : Variable) :
    Moves (define (.ofVariable name w)) fun scope _ =>
      scope.defineVariable name w >>= fun scope => Pure.pure ((), scope) := by
  have whole : (define (.ofVariable name w) >>= fun _ => Pure.pure ()) =
      define (.ofVariable name w) := bind_pure _
  have makes : Makes (define (.ofVariable name w) >>= fun _ => Pure.pure ())
      (fun () => some (.ofVariable name w)) fun scope _ =>
        scope.defineVariable name w >>= fun scope => Pure.pure ((), scope) :=
    .defineVariable rfl
  exact whole ▸ makes.moves

/-- Variables that are defined one after the other all come into the innermost frame. -/
theorem defineAll (entries : List (String × Variable)) :
    Moves (Analysis.defineAll entries) fun scope _ =>
      (scope.current.defineVariables entries).map fun frame => ((), scope.withCurrent frame) := by
  induction entries with
  | nil =>
    intro a formed
    refine ⟨a, rfl, (Analyzer.leaves_self formed).toReturns, ?_⟩
    rintro v scope ⟨⟩
    exact a.scope.withCurrent_current.symm
  | cons entry more ih =>
    obtain ⟨name, value⟩ := entry
    refine ((defineVariable name value).bind fun _ => ih).congr fun scope _ => ?_
    rw [Scope.defineVariable, Frame.defineVariables]
    cases scope.current.defineVariable name value with
    | error fault => rfl
    | ok frame =>
      show ((scope.withCurrent frame).current.defineVariables more).map
        (fun inner => ((), (scope.withCurrent frame).withCurrent inner)) = _
      simp only [Scope.current_withCurrent, Scope.withCurrent_withCurrent]

end Moves

namespace Runs

theorem pure (v : α) : Runs (pure v) fun _ _ => pure v :=
  fun a formed => ⟨a, rfl, (Analyzer.leaves_self formed).toReturns⟩

theorem bind {f : TypeScope → Option Ty → Except Fault (α × TypeScope)}
    {g : α → TypeScope → Option Ty → Except Fault β}
    (first : Moves step f) (second : ∀ v, Runs (next v) (g v)) :
    Runs (step >>= next) fun scope result =>
      f scope result >>= fun (v, scope) => g v scope result := by
  intro a formed
  obtain ⟨b, on_eq, returns, behind⟩ := first a formed
  show ∃ c, _ = (f a.scope a.result >>= fun (v, scope) => g v scope a.result, c) ∧ _
  rw [on_bind, on_eq]
  cases answer : f a.scope a.result with
  | error fault => exact ⟨b, rfl, returns⟩
  | ok expected =>
    obtain ⟨c, on_eq, rest⟩ := second expected.1 b returns.formed
    rw [behind expected.1 expected.2 answer, returns.result] at on_eq
    exact ⟨c, on_eq, returns.trans rest⟩

theorem map {f : TypeScope → Option Ty → Except Fault α} (runs : Runs step f) (g : α → β) :
    Runs (step >>= fun v => Pure.pure (g v)) fun scope result =>
      f scope result >>= fun v => Pure.pure (g v) := by
  intro a formed
  obtain ⟨b, on_eq, returns⟩ := runs a formed
  show ∃ c, _ = (f a.scope a.result >>= fun v => Pure.pure (g v), c) ∧ _
  rw [on_bind, on_eq]
  cases f a.scope a.result with
  | error fault => exact ⟨b, rfl, returns⟩
  | ok v => exact ⟨b, rfl, returns⟩

end Runs

namespace Passes

theorem ofReads {f : TypeScope → Except Fault α} (reads : Reads step f) :
    Passes step fun scope => (f scope, scope) :=
  fun a formed => ⟨a, ⟨reads a, rfl⟩, (Analyzer.leaves_self formed).toReturns⟩

theorem bind {f : TypeScope → Except Fault α × TypeScope}
    {g : α → TypeScope → Except Fault β × TypeScope}
    (first : Passes step f) (second : ∀ v, Passes (next v) (g v)) :
    Passes (step >>= next) fun scope =>
      match f scope with
      | (.error fault, scope) => (.error fault, scope)
      | (.ok v, scope) => g v scope := by
  intro a formed
  obtain ⟨b, leads, returns⟩ := first a formed
  have on_eq := leads.on_eq
  have behind := leads.scope_eq
  show ∃ c, Leads _ a c (match f a.scope with
    | (.error fault, scope) => (.error fault, scope)
    | (.ok v, scope) => g v scope) ∧ _
  rcases led : f a.scope with ⟨fault | v, scope⟩
  · rw [led] at on_eq behind
    exact ⟨b, ⟨by rw [on_bind, on_eq], behind⟩, returns⟩
  · rw [led] at on_eq behind
    obtain ⟨c, leads, rest⟩ := second v b returns.formed
    rw [behind] at leads
    exact ⟨c, ⟨by rw [on_bind, on_eq]; exact leads.on_eq, leads.scope_eq⟩, returns.trans rest⟩

theorem congr {f g : TypeScope → Except Fault α × TypeScope} (passes : Passes step f)
    (same : ∀ scope, f scope = g scope) : Passes step g := by
  obtain rfl : f = g := funext same
  exact passes

end Passes

end Rules
end Analysis

end Plc
