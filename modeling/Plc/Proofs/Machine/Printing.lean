import Plc.Proofs.Machine.Flat
import Plc.Proofs.Machine.Soundness
import Plc.Proofs.Typing.Within

/-! Lists that are taken as a whole only to be printed. Then no variable but a list variable ever
has a list, and no list has one either. -/
namespace Plc

def Expr.isPrint : Expr → Bool
  | .call "print" [_] _ => true
  | _ => false

theorem Expr.eq_of_isPrint {e : Expr} (print : e.isPrint = true) :
    ∃ argument slot, e = .call "print" [argument] slot := by
  unfold isPrint at print
  split at print
  · exact ⟨_, _, rfl⟩
  · cases print

/-- A list variable without an index stands nowhere but in a call of `print`. -/
structure Program.ListsPrinted (p : Program) : Prop where
  parts : ∀ e ∈ p.expressions, ∀ part ∈ e.parts, part.wholeList?.isSome = true → e.isPrint = true
  stmts : ∀ s ∈ p.statements, ∀ part ∈ s.parts, part.wholeList? = none
  globals : ∀ g ∈ p.globals, ∀ e ∈ g.value.toList, e.wholeList? = none

instance (p : Program) : Decidable p.ListsPrinted :=
  decidable_of_iff
    ((∀ e ∈ p.expressions, ∀ part ∈ e.parts, part.wholeList?.isSome = true → e.isPrint = true) ∧
      (∀ s ∈ p.statements, ∀ part ∈ s.parts, part.wholeList? = none) ∧
      ∀ g ∈ p.globals, ∀ e ∈ g.value.toList, e.wholeList? = none)
    ⟨fun ⟨parts, stmts, globals⟩ => ⟨parts, stmts, globals⟩,
      fun ⟨parts, stmts, globals⟩ => ⟨parts, stmts, globals⟩⟩

def Discipline.flat : Discipline where
  fits _ v := v.isList = false
  fault _ := True

namespace Operator

theorem isList_onIntegers (op : Operator) (a b : Int) :
    Ends (fun _ => True) (·.isList = false) (op.onIntegers a b) := by
  unfold onIntegers
  split
  · rfl
  · rfl
  · rfl
  · split
    · trivial
    · rfl
  · split
    · rfl
    · trivial
  · trivial

theorem isList_onDecimals (op : Operator) (a b : Decimal) :
    Ends (fun _ => True) (·.isList = false) (op.onDecimals a b) := by
  unfold onDecimals
  split
  · rfl
  · rfl
  · rfl
  · split
    · trivial
    · rfl
  · trivial

theorem isList_arithmetic (op : Operator) (x y : Value) :
    Ends (fun _ => True) (·.isList = false) (op.arithmetic x y) := by
  unfold arithmetic
  split
  · exact isList_onIntegers op _ _
  · exact isList_onDecimals op _ _
  · trivial

/-- No operation makes a list. -/
theorem isList_apply (op : Operator) (heap : Heap) (x y : Value) :
    Ends (fun _ => True) (·.isList = false) (op.apply heap x y) := by
  cases op with
  | and | or => exact ends_bind (ends_any _) fun _ _ => ends_bind (ends_any _) fun _ _ => rfl
  | less | greater => exact ends_bind (ends_any _) fun _ _ => rfl
  | equal | notEqual => rfl
  | add =>
    rw [apply]
    split
    · rfl
    · exact isList_arithmetic _ x y
  | subtract | multiply | divide | power => exact isList_arithmetic _ x y

end Operator

theorem Discipline.keepsSingle_flat (p : Program) : flat.KeepsSingle p where
  nil := rfl
  boolean _ := rfl
  accepts _ single := single
  literal {value _} _ := by cases value <;> rfl
  listed list := nomatch list
  truth _ := ends_any _
  index _ _ := ends_any _
  full _ := trivial
  operate _ _ _ heap x y _ _ := Operator.isList_apply _ heap x y
  element _ _ := trivial
  immutable _ _ _ := trivial
  declared _ := rfl
  global _ _ _ := rfl
  ends _ _ _ := rfl

namespace Machine

variable {d : Discipline} {p : Program} {base : Ty} {x : Point}

def Focus.isEvaluate : Focus → Bool
  | .evaluate _ => true
  | _ => false

namespace Config

/-- If a list is about to be taken as a whole, then to be printed. -/
def Printed (c : Config) : Prop :=
  ∀ e, c.focus = .evaluate e → e.wholeList?.isSome = true →
    ∃ pending, c.pending = .gather (.call "print") [] [] :: pending

theorem printed_of_other {c : Config} (other : c.focus.isEvaluate = false) : c.Printed := by
  intro e focus
  rw [focus] at other
  cases other

theorem printed_of_settled {c : Config} (settled : c.focus.settled = true) : c.Printed := by
  intro e focus
  rw [focus] at settled
  cases settled

theorem printed_of_single {e : Expr} {pending : List Pending} {store : Store}
    (single : e.wholeList? = none) : Printed ⟨.evaluate e, pending, store⟩ := by
  rintro _ ⟨⟩ whole
  rw [single] at whole
  cases whole

end Config

section Steps

open Config

variable {scope : TypeScope} {view : View} {store : Store} {c : Config} {focus : Focus}
  {pending : List Pending} (lists : p.ListsPrinted)
include lists

theorem wholeList?_of_part {e part : Expr} (place : p.ExprAt scope e)
    (member : part ∈ e.parts) (other : e.isPrint = false) : part.wholeList? = none := by
  rw [← Option.not_isSome_iff_eq_none]
  intro whole
  rw [lists.parts e place.mem part member whole] at other
  cases other

theorem wholeList?_of_stmt {result : Ty} {s : Stmt} {ss : List Stmt}
    (place : p.BlockAt scope result (s :: ss)) {part : Expr} (member : part ∈ s.parts) :
    part.wholeList? = none :=
  lists.stmts s place.mem part member

/-- A list among arguments is the only one, and `print` is what is called. -/
theorem Gathered.printed {purpose : Purpose} {found : List Value} {e : Expr} {more : List Expr}
    (gathered : Gathered d p base view purpose found (e :: more) pending) :
    Printed ⟨.evaluate e, .gather purpose found more :: pending, store⟩ := by
  cases gathered with
  | list place part =>
    exact printed_of_single
      (wholeList?_of_part lists place (part e List.mem_cons_self) rfl)
  | @call name arguments s _ _ _ _ _ _ place length part =>
    cases print : (Expr.call name arguments (some s)).isPrint with
    | false =>
      exact printed_of_single
        (wholeList?_of_part lists place (part e List.mem_cons_self) print)
    | true =>
      obtain ⟨argument, slot, same⟩ := Expr.eq_of_isPrint print
      cases same
      rw [List.length_singleton, List.length_cons] at length
      obtain rfl : found = [] := List.eq_nil_of_length_eq_zero (by omega)
      obtain rfl : more = [] := List.eq_nil_of_length_eq_zero (by omega)
      exact fun _ _ _ => ⟨pending, rfl⟩

theorem Evaluates.printed (typed : p.WellTyped) (kept : Kept d p view c.store c.pending)
    (task : Task d p base view c.store c.focus c.pending)
    (evaluates : Evaluates c focus pending) : Printed ⟨focus, pending, c.store⟩ := by
  cases evaluates with
  | group | left | offset =>
    cases task with
    | evaluate place =>
      exact printed_of_single (wholeList?_of_part lists place List.mem_cons_self rfl)
  | right =>
    obtain ⟨ty, _, stack⟩ := task.exists_fits rfl
    obtain ⟨scope, callers⟩ := view
    cases stack with
    | right place =>
      exact printed_of_single (wholeList?_of_part lists place (by simp [Expr.parts]) rfl)
  | gather gathers => exact (gathers.gathered typed kept task).printed lists
  | literal | decided | settle | call => exact printed_of_other rfl

theorem Executes.printed (task : Task d p base view c.store c.focus c.pending)
    (executes : Executes c focus pending) : Printed ⟨focus, pending, c.store⟩ := by
  cases executes with
  | expression | branch | switch | loop | ret =>
    cases task with
    | execute place =>
      exact printed_of_single (wholeList?_of_stmt lists place List.mem_cons_self)
  | assign =>
    cases task with
    | execute place =>
      exact printed_of_single (wholeList?_of_stmt lists place (by simp [Stmt.parts]))
  | assignOffset =>
    cases task with
    | execute place =>
      have receiver := Program.ExprAt.stmt place List.mem_cons_self
      exact printed_of_single (wholeList?_of_part lists receiver List.mem_cons_self rfl)
  | assignElement =>
    obtain ⟨ty, _, stack⟩ := task.exists_fits rfl
    obtain ⟨scope, callers⟩ := view
    cases stack with
    | assignOffset place =>
      exact printed_of_single (wholeList?_of_stmt lists place (by simp [Stmt.parts]))
  | @initial _ _ _ _ e _ initializes =>
    generalize given : some e = value at initializes
    cases initializes with
    | declare =>
      cases task with
      | execute place =>
        have member : e ∈ value.toList := Option.mem_toList.mpr given.symm
        exact printed_of_single (wholeList?_of_stmt lists place member)
    | define =>
      cases task with
      | define place =>
        exact printed_of_single (lists.globals _ (place.mem List.mem_cons_self) e
          (Option.mem_toList.mpr given.symm))
  | case selects =>
    obtain ⟨place, part, _⟩ := selects.selected task
    have among := value_mem_of_on_mem (part _ List.mem_cons_self)
    exact printed_of_single (wholeList?_of_stmt lists place (List.mem_cons_of_mem _ among))
  | again =>
    obtain ⟨scope, callers⟩ := view
    cases task with
    | loaded stack => cases stack
    | done stack =>
      cases stack with
      | again place =>
        exact printed_of_single (wholeList?_of_stmt lists place List.mem_cons_self)
  | _ => exact printed_of_other rfl

/-- A list is not taken as a whole but to be printed. -/
theorem Sound.printed_step (typed : p.WellTyped) (sound : Sound d p base x) {next : Config}
    (step : Step x.config next) : next.Printed := by
  obtain ⟨view, c⟩ := x
  obtain ⟨kept, task⟩ := sound
  cases step with
  | evaluate evaluates => exact evaluates.printed lists typed kept task
  | execute executes => exact executes.printed lists task
  | drop drops => exact printed_of_settled drops.settled
  | leaveBlock settled => exact printed_of_settled settled
  | leaveCall answers => exact printed_of_settled answers.settled
  | print => exact printed_of_settled (settled_printed _)
  | fail | allocate | change | define | enter | call => exact printed_of_other rfl

end Steps

/-- No list is where it should not be: the point fits the program, or it has taken a list as a whole
to print it. -/
inductive Flatly (p : Program) (base : Ty) (x : Point) : Prop
  | fits : Sound .flat p base x → x.config.Printed → Flatly p base x
  | prints {a pending target} : x.config.focus = .value (.list a) →
      x.config.pending = .gather (.call "print") [] [] :: pending →
      x.config.store.scope.lookupFunction "print" 1 = .ok .print →
      Kept .flat p x.view x.config.store pending → target.accepts .nil = true →
      Stack .flat p base (.value target) x.view.scope x.view.callers pending → Flatly p base x

theorem Sound.harmless_flat (sound : Sound .flat p base x) :
    x.Harmless Discipline.flat.fits := by
  rintro a i y ⟨name, w, offset, pending, focus, top, _, _⟩
  obtain ⟨⟨scope, callers⟩, ⟨_, _, store⟩⟩ := x
  obtain ⟨_, task⟩ := sound
  cases focus
  cases top
  obtain ⟨_, fit, _⟩ := task.exists_fits rfl
  exact fun _ _ _ => fit

/-- A list variable has a list. -/
theorem Kept.exists_list {view : View} {store : Store} {pending : List Pending}
    (typed : p.WellTyped) (kept : Kept d p view store pending) {e : Expr}
    (place : p.ExprAt view.scope e) (whole : e.wholeList?.isSome = true) :
    ∃ a, Evaluates ⟨.evaluate e, pending, store⟩ (.value (.list a)) pending := by
  cases e with
  | access name slot =>
    obtain ⟨v, known, rfl⟩ := typed.exprs place
    obtain ⟨b, _, looked, cell⟩ := kept.variable known
    have list : v.list = true := by simpa [Expr.wholeList?] using whole
    obtain ⟨a, holds⟩ := cell.list list
    refine ⟨a, .settle .access ?_⟩
    rw [looked, ← holds]
    rfl
  | _ => cases whole

/-- What is about to be evaluated is a list, and then `print` has it. -/
theorem flatly_next_of_whole (typed : p.WellTyped) (sound : Sound .flat p base x)
    (printed : x.config.Printed) {e : Expr} (focus : x.config.focus = .evaluate e)
    (whole : e.wholeList?.isSome = true) : Flatly p base x.next := by
  obtain ⟨pending, top⟩ := printed e focus whole
  obtain ⟨⟨scope, callers⟩, ⟨_, _, store⟩⟩ := x
  obtain ⟨kept, task⟩ := sound
  cases focus
  cases top
  cases task with
  | list => cases whole
  | evaluate place _ _ _ stack =>
    cases stack with
    | @argument _ _ _ _ arguments s _ _ _ _ _ _ call length _ _ _ _ accepted stack =>
      obtain ⟨s', found, _, same⟩ := typed.exprs call
      obtain rfl := Option.some.inj same
      rw [show arguments.length = 1 from length] at found
      obtain ⟨callable, looked, _, callee⟩ := kept.function found
      rw [if_pos rfl] at callee
      obtain ⟨rfl, rfl⟩ := callee
      obtain ⟨a, taken⟩ := kept.exists_list typed place whole
      rw [Point.next_of_step (.evaluate taken)]
      exact .prints rfl rfl looked (kept.of_saved rfl) accepted stack

theorem Flatly.next (typed : p.WellTyped) (lists : p.ListsPrinted) (flatly : Flatly p base x) :
    Flatly p base x.next := by
  have keeps := Discipline.keepsSingle_flat p
  cases flatly with
  | fits sound here =>
    by_cases taken : ∃ e, x.config.focus = .evaluate e ∧ e.wholeList?.isSome = true
    · obtain ⟨e, focus, whole⟩ := taken
      exact flatly_next_of_whole typed sound here focus whole
    · refine .fits (sound.nextSingle keeps typed sound.harmless_flat fun e focus => ?_) ?_
      · exact Option.not_isSome_iff_eq_none.mp fun whole => taken ⟨e, focus, whole⟩
      · rw [Point.config_next, Config.next]
        cases stepped : step? x.config with
        | none => exact here
        | some next => exact sound.printed_step lists typed (step?_eq_some_iff.mp stepped)
  | prints focus top looked kept accepted stack =>
    obtain ⟨view, ⟨_, _, store⟩⟩ := x
    cases focus
    cases top
    rw [Point.next_of_step (.print (.gathered .next) looked)]
    exact .fits (sound_print keeps.toKeepsWithin kept _ accepted stack)
      (Config.printed_of_settled (settled_printed _))

/-- The hand holds no list. -/
theorem Flatly.hand (flatly : Flatly p base x) : ∀ v ∈ x.config.hand, v.isList = false := by
  obtain ⟨⟨scope, callers⟩, ⟨focus, pending, store⟩⟩ := x
  cases flatly with
  | prints focus top =>
    cases focus
    cases top
    exact nofun
  | fits sound =>
    obtain ⟨_, task⟩ := sound
    simp only [Config.hand]
    split
    · obtain ⟨_, fit, stack⟩ := task.exists_fits rfl
      cases stack with
      | item _ _ fitFound _ =>
        exact List.forall_mem_append.mpr ⟨fitFound, List.forall_mem_singleton.mpr fit⟩
    · obtain ⟨_, fit, _⟩ := task.exists_fits rfl
      exact List.forall_mem_singleton.mpr fit
    · exact nofun

/-- If lists are taken as a whole only to be printed, the heap is flat all along. -/
theorem flat_after (typed : p.WellTyped) (printed : p.ListsPrinted) (room : Option Nat)
    (report : String) (n : Nat) :
    (((Store.initial room report).start p).after n).store.heap.Flat := by
  have both : Flatly p .integer ((start room p report).after n) ∧
      ((start room p report).after n).config.store.heap.Flat := by
    induction n with
    | zero =>
      have fits := sound_start .flat p room report
      refine ⟨.fits fits (Config.printed_of_other rfl), fun a v member => ?_⟩
      have empty : Heap.elements {} a = #[] := Heap.elements_of_empty rfl a
      change v ∈ Heap.elements {} a at member
      rw [empty] at member
      exact absurd member (Array.not_mem_empty v)
    | succ n ih =>
      obtain ⟨flatly, flat⟩ := ih
      refine ⟨flatly.next typed printed, ?_⟩
      rw [Point.after, Point.config_next, Config.next]
      cases stepped : step? ((start room p report).after n).config with
      | none => exact flat
      | some next => exact flat_step flat flatly.hand stepped
  rw [Point.config_after] at both
  exact both.2

end Machine
end Plc
