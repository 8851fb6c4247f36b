import Plc.Proofs.Growth
import Plc.Proofs.Machine.Stack

/-! Nothing is taken back between two points of a run, whether it ends well or in a fault, nor
between those of several requests that one store serves. What an assignment checks when it begins
still holds when it comes to its end, as constants are bound in the root frame only. -/
namespace Plc.Machine

/-- All frames there are, the oldest first. They come and go at the end, so a frame keeps its place
as long as it is there. -/
def levels (store : Store) (pending : List Pending) : List (Frame Binding Callable) :=
  store.scope.root :: (store.scope.inner ++ (saved pending).flatten).reverse

def Config.levels (c : Config) : List (Frame Binding Callable) := Machine.levels c.store c.pending

def Keep (old new : List (Frame Binding Callable)) : Prop :=
  ∀ (i : Nat) (f g : Frame Binding Callable), old[i]? = some f → new[i]? = some g → f.Grows g

namespace Keep

variable {old new : List (Frame Binding Callable)}

theorem of_forall₂ (grow : List.Forall₂ Frame.Grows old new) : Keep old new := by
  induction grow with
  | nil => exact fun _ _ _ => nofun
  | cons here _ ih =>
    intro i f g before behind
    cases i with
    | zero =>
      obtain rfl := Option.some.inj before
      obtain rfl := Option.some.inj behind
      exact here
    | succ i => exact ih i f g before behind

theorem eq_of_prefix (more : old <+: new) {i : Nat} {f g : Frame Binding Callable}
    (before : old[i]? = some f) (behind : new[i]? = some g) : f = g := by
  obtain ⟨new, rfl⟩ := more
  obtain ⟨bound, _⟩ := List.getElem?_eq_some_iff.mp before
  rw [List.getElem?_append_left bound, before] at behind
  exact Option.some.inj behind

theorem of_longer (more : old <+: new) : Keep old new :=
  fun _ f _ before behind => eq_of_prefix more before behind ▸ .refl f

theorem of_shorter (fewer : new <+: old) : Keep old new :=
  fun _ _ g before behind => eq_of_prefix fewer behind before ▸ .refl g

end Keep

theorem levels_grow {s t : Scope Binding Callable} (grows : s.Grows t)
    (outer : List (Frame Binding Callable)) :
    List.Forall₂ Frame.Grows (s.root :: (s.inner ++ outer).reverse)
      (t.root :: (t.inner ++ outer).reverse) :=
  .cons grows.root <| List.forall₂_reverse_iff.mpr <|
    List.rel_append (grows.inner.imp fun _ _ here => here.toGrows)
      (List.forall₂_same.mpr fun f _ => .refl f)

/-- What has to be so for pending work when it is taken up. -/
def Pending.Guards (scope : Scope Binding Callable) : Pending → Prop
  | .assign name _ => scope.Writable name
  | .bind _ mutable _ => mutable = true ∨ scope.inner = []
  | .load .. => scope.inner = []
  | _ => True

def Pending.outer (scope : Scope Binding Callable) : Pending → Scope Binding Callable
  | .leaveBlock => scope.leave
  | .leaveCall inner => { scope with inner := inner }
  | _ => scope

/-- Each of what is pending finds what it needs, and at the end the root frame is left alone. -/
def Guarded (scope : Scope Binding Callable) : List Pending → Prop
  | [] => scope.inner = []
  | p :: pending => p.Guards scope ∧ Guarded (p.outer scope) pending

def Focus.Guards (scope : Scope Binding Callable) : Focus → Prop
  | .define _ | .load .. => scope.inner = []
  | _ => True

structure Config.Guarded (c : Config) : Prop where
  focus : c.focus.Guards c.store.scope
  pending : Machine.Guarded c.store.scope c.pending

section Scope

variable {s t : Scope Binding Callable}

theorem inner_eq_nil_of_grows (grows : s.Grows t) (alone : s.inner = []) : t.inner = [] := by
  have inside := grows.inner
  rw [alone] at inside
  exact List.forall₂_nil_left_iff.mp inside

theorem Pending.Guards.grows {p : Pending} (guards : p.Guards s) (grows : s.Grows t) :
    p.Guards t := by
  cases p with
  | assign name slot => exact Scope.Writable.grows guards grows
  | bind name mutable slot => exact Or.imp_right (inner_eq_nil_of_grows grows) guards
  | load globals functions mainNamed => exact inner_eq_nil_of_grows grows guards
  | _ => trivial

theorem Pending.outer_grows (p : Pending) (grows : s.Grows t) : (p.outer s).Grows (p.outer t) := by
  cases p with
  | leaveBlock =>
    refine ⟨grows.root, ?_⟩
    obtain ⟨inner, root⟩ := s
    obtain ⟨inner', root'⟩ := t
    cases grows.inner with
    | nil => exact .nil
    | cons _ inside => exact inside
  | leaveCall inner => exact ⟨grows.root, Frame.GrowsMutably.refl_all inner⟩
  | _ => exact grows

theorem Guarded.grows {pending : List Pending} (guarded : Guarded s pending) (grows : s.Grows t) :
    Guarded t pending := by
  induction pending generalizing s t with
  | nil => exact inner_eq_nil_of_grows grows guarded
  | cons p pending ih => exact ⟨guarded.1.grows grows, ih guarded.2 (p.outer_grows grows)⟩

end Scope

structure Advances (store : Store) (pending : List Pending) (c : Config) : Prop where
  frames : Keep (levels store pending) c.levels
  heap : store.heap.Grows c.store.heap
  output : store.output.lines.toList <+: c.store.output.lines.toList
  guarded : c.Guarded

section Steps

variable {store : Store} {pending : List Pending} {c : Config} {focus : Focus}

theorem Pending.outer_eq {p : Pending} (stays : p.leaves = false)
    (scope : Scope Binding Callable) : p.outer scope = scope := by
  cases p with
  | leaveBlock | leaveCall => cases stays
  | _ => rfl

theorem Config.Over.guarded (lies : c.Over pending)
    (guarded : Machine.Guarded c.store.scope c.pending) :
    Machine.Guarded c.store.scope pending := by
  cases lies with
  | all => exact guarded
  | below stays =>
    have behind := guarded.2
    rwa [Pending.outer_eq stays] at behind

theorem advances_grown {t : Store} (guarded : Guarded store.scope pending) (grows : store.Grows t)
    (may : focus.Guards t.scope) : Advances store pending ⟨focus, pending, t⟩ where
  frames := .of_forall₂ (levels_grow grows.scope _)
  heap := grows.heap
  output := grows.output
  guarded := ⟨may, guarded.grows grows.scope⟩

theorem advances_stay (guarded : Guarded store.scope pending) (may : focus.Guards store.scope) :
    Advances store pending ⟨focus, pending, store⟩ :=
  advances_grown guarded (.refl store) may

theorem advances_change (guarded : Guarded store.scope pending) {result : Except Fault Store}
    (grows : ∀ t, result = .ok t → store.Grows t) :
    Advances store pending (change store pending result) := by
  cases result with
  | ok t => exact advances_grown guarded (grows t rfl) trivial
  | error fault => exact advances_stay guarded trivial

/-- What callers wait for is the same. -/
theorem Advances.of_saved {others : List Pending} {next : Config}
    (advances : Advances store pending next) (same : saved others = saved pending) :
    Advances store others next where
  frames := by
    rw [levels, same]
    exact advances.frames
  heap := advances.heap
  output := advances.output
  guarded := advances.guarded

theorem Config.Over.advances {t : Store} (lies : c.Over pending)
    (guarded : Machine.Guarded c.store.scope c.pending) (grows : c.store.Grows t)
    (may : focus.Guards t.scope) : Advances c.store c.pending ⟨focus, pending, t⟩ :=
  (advances_grown (lies.guarded guarded) grows may).of_saved lies.saved_eq

theorem Config.Over.advances_push {p : Pending} (lies : c.Over pending)
    (guarded : Machine.Guarded c.store.scope c.pending) (stays : p.leaves = false)
    (guards : p.Guards c.store.scope) (may : focus.Guards c.store.scope) :
    Advances c.store c.pending ⟨focus, p :: pending, c.store⟩ := by
  have behind : Machine.Guarded c.store.scope (p :: pending) := by
    refine ⟨guards, ?_⟩
    rw [Pending.outer_eq stays]
    exact lies.guarded guarded
  exact (advances_stay behind may).of_saved
    (lies.saved_eq.trans (saved_cons stays pending).symm)

/-- A frame is entered. -/
theorem advances_enter {others : List Pending} {next : Store} {frame : Frame Binding Callable}
    (root : next.scope.root = store.scope.root)
    (inner : next.scope.inner ++ (saved others).flatten =
      frame :: (store.scope.inner ++ (saved pending).flatten))
    (heap : next.heap = store.heap) (output : next.output = store.output)
    (guarded : Config.Guarded ⟨focus, others, next⟩) :
    Advances store pending ⟨focus, others, next⟩ where
  frames := by
    apply Keep.of_longer
    rw [levels, Config.levels, levels, root, inner, List.reverse_cons]
    exact ⟨[frame], rfl⟩
  heap := heap ▸ .refl _
  output := output ▸ List.prefix_rfl
  guarded := guarded

/-- Frames are left. -/
theorem advances_leave {others : List Pending} {inner : List (Frame Binding Callable)}
    (fewer : inner ++ (saved pending).flatten <:+ store.scope.inner ++ (saved others).flatten)
    (guarded : Guarded { store.scope with inner := inner } pending)
    (may : focus.Guards { store.scope with inner := inner }) :
    Advances store others ⟨focus, pending, store.withInner inner⟩ where
  frames := .of_shorter ((List.prefix_cons_inj _).mpr (List.reverse_prefix.mpr fewer))
  heap := .refl _
  output := List.prefix_rfl
  guarded := ⟨may, guarded⟩

theorem Focus.guards_of_settled (settled : focus.settled = true)
    (scope : Scope Binding Callable) : focus.Guards scope := by
  cases focus with
  | define | load => cases settled
  | _ => trivial

theorem Evaluates.advances (evaluates : Evaluates c focus pending) (guarded : c.Guarded) :
    Advances c.store c.pending ⟨focus, pending, c.store⟩ := by
  obtain ⟨_, guarded⟩ := guarded
  cases evaluates with
  | literal | group => exact advances_stay guarded trivial
  | left | offset => exact Config.Over.all.advances_push guarded rfl trivial trivial
  | right => exact (Config.Over.below rfl).advances_push guarded rfl trivial trivial
  | decided => exact (Config.Over.below rfl).advances guarded (.refl _) trivial
  | settle settles => exact settles.over.advances guarded (.refl _) trivial
  | gather gathers => exact gathers.over.advances_push guarded rfl trivial trivial
  | call calls => exact calls.over.advances guarded (.refl _) trivial

/-- Constants are bound in the root frame only. -/
theorem Initializes.guards {name : String} {mutable : Bool} {slot : Option Variable}
    {value : Option Expr} (initializes : Initializes c name mutable slot value pending)
    (guarded : c.Guarded) : (Pending.bind name mutable slot).Guards c.store.scope := by
  cases initializes with
  | declare => exact .inl rfl
  | define => exact .inr guarded.focus

theorem Executes.advances (executes : Executes c focus pending) (guarded : c.Guarded) :
    Advances c.store c.pending ⟨focus, pending, c.store⟩ := by
  obtain ⟨may, behind⟩ := guarded
  cases executes with
  | initial initializes | unset initializes =>
    exact initializes.over.advances_push behind rfl (initializes.guards ⟨may, behind⟩) trivial
  | assign checked =>
    exact Config.Over.all.advances_push behind rfl (Store.writable_of_requireMutable checked)
      trivial
  | noCase selects | default selects => exact selects.over.advances behind (.refl _) trivial
  | case selects => exact selects.over.advances_push behind rfl trivial trivial
  | empty => exact advances_stay behind trivial
  | define => exact Config.Over.all.advances_push behind rfl may may
  | defined => exact (Config.Over.below rfl).advances behind (.refl _) behind.1
  | assignElement | repeated | again =>
    exact (Config.Over.below rfl).advances_push behind rfl trivial trivial
  | discard | choose | equal | ended | giveBack | rest =>
    exact (Config.Over.below rfl).advances behind (.refl _) trivial
  | _ => exact Config.Over.all.advances_push behind rfl trivial trivial

end Steps

theorem advances_step {c next : Config} (guarded : c.Guarded) (stepped : step? c = some next) :
    Advances c.store c.pending next := by
  have behind := guarded.pending
  cases step?_eq_some_iff.mp stepped with
  | evaluate evaluates => exact evaluates.advances guarded
  | execute executes => exact executes.advances guarded
  | fail fails => exact fails.over.advances behind (.refl _) trivial
  | allocate gathers =>
    exact gathers.over.advances behind (Store.grows_allocate _ _) trivial
  | print calls =>
    exact calls.over.advances behind (Store.grows_printAll _ _)
      (Focus.guards_of_settled (settled_printed _) _)
  | change changes result =>
    refine changes.over.advances behind ?_ trivial
    cases changes with
    | bind => exact Store.grows_bind behind.1 result
    | assign => exact Store.grows_assign behind.1 result
    | assignElement => exact Store.grows_assignElement result
  | define defined =>
    have grows := Store.grows_defineFunction defined
    exact advances_grown behind grows (inner_eq_nil_of_grows grows.scope guarded.focus)
  | enter => exact advances_enter rfl rfl rfl rfl ⟨trivial, trivial, behind⟩
  | call => exact advances_enter rfl rfl rfl rfl ⟨trivial, trivial, behind⟩
  | drop drops =>
    exact (Config.Over.below drops.leaves).advances behind (.refl _)
      (Focus.guards_of_settled drops.settled _)
  | @leaveBlock _ _ store settled =>
    -- The frame that goes is the last of all levels.
    obtain ⟨front, same⟩ := List.tail_suffix store.scope.inner
    refine advances_leave ⟨front, ?_⟩ behind.2 (Focus.guards_of_settled settled _)
    rw [← List.append_assoc, same]
    rfl
  | leaveCall answers =>
    exact advances_leave (List.suffix_append _ _) behind.2
      (Focus.guards_of_settled answers.settled _)

end Plc.Machine
