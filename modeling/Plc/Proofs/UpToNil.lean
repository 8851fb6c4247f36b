import Plc.Proofs.Conformance
import Plc.Proofs.Machine.Soundness
import Plc.Proofs.Typing.WellTyped
import Plc.Proofs.Typing.Within

/-! Types hold up to nil. As long as elements of lists are assigned to through list variables only,
every value of a run is nil or conforms to the type that the analysis has for it. -/
namespace Plc

def Discipline.upToNil : Discipline where
  fits := Ty.Holds
  fault _ := True

theorem Discipline.keeps_upToNil {p : Program} (typed : p.WellTyped) : upToNil.Keeps p where
  any _ := .inr rfl
  nil := .inl rfl
  boolean _ := .inr rfl
  accepts := Ty.Holds.accepts
  literal known := .inr (Value.conforms_literal known)
  listed := Ty.Holds.listed
  truth _ := ends_any _
  index _ _ := ends_any _
  full _ := trivial
  operate place leftKnown rightKnown heap _ _ left right :=
    (typed.takes place leftKnown rightKnown).apply_holds heap left right
  element _ _ := trivial
  immutable _ _ _ := trivial
  declared _ := .inl rfl
  global _ _ _ := .inl rfl
  ends _ _ _ := .inl rfl

def Stmt.isDirect : Stmt → Bool
  | .assign (.element _ _ slot) _ => slot.any (·.list)
  | _ => true

def Program.ElementsDirect (p : Program) : Prop := ∀ s ∈ p.statements, s.isDirect = true

instance (p : Program) : Decidable p.ElementsDirect :=
  inferInstanceAs (Decidable (∀ s ∈ p.statements, s.isDirect = true))

namespace Machine

variable {d : Discipline} {p : Program} {base : Ty} {x : Point}

theorem Sound.harmless_of_direct (sound : Sound d p base x) (direct : p.ElementsDirect)
    (fits : Ty → Value → Prop) : x.Harmless fits := by
  rintro a i y ⟨name, w, offset, pending, focus, top, single, _⟩
  obtain ⟨⟨scope, callers⟩, ⟨_, _, store⟩⟩ := x
  obtain ⟨kept, task⟩ := sound
  cases focus
  cases top
  obtain ⟨_, _, stack⟩ := task.exists_fits rfl
  cases stack with
  | assignElement place =>
    have list : w.list = true := direct _ place.mem
    rw [single] at list
    cases list

theorem Sound.after_of_direct (keeps : d.Keeps p) (typed : p.WellTyped)
    (direct : p.ElementsDirect) (sound : Sound d p base x) (n : Nat) :
    Sound d p base (x.after n) :=
  sound.after keeps typed n fun _ _ here => here.harmless_of_direct direct d.fits

def CellHolds (heap : Heap) (v : Variable) (b : Binding) : Prop :=
  if v.list then ∃ a, b.value = .list a ∧ ∀ x ∈ heap.elements a, v.ty.Holds x
  else v.ty.Holds b.value

def View.frames (view : View) : List (Frame Variable Signature) :=
  view.scope.frames ++ view.callers.flatten

def Config.frames (c : Config) : List (Frame Binding Callable) :=
  c.store.scope.frames ++ (saved c.pending).flatten

/-- In each frame the same names are bound as in that of the analysis, and hold what they should. -/
def Point.CellsHold (x : Point) : Prop :=
  List.Forall₂
    (fun types frame => ∀ name, Option.Rel (CellHolds x.config.store.heap)
      (types.getVariable? name) (frame.getVariable? name))
    x.view.frames x.config.frames

theorem Sound.cellsHold (sound : Sound .upToNil p base x) : x.CellsHold := by
  obtain ⟨⟨scope, callers⟩, ⟨focus, pending, store⟩⟩ := x
  obtain ⟨⟨names, callersAgree, lists⟩, _⟩ := sound
  have inner : ∀ {types frame}, InnerAgrees Ty.Holds p types frame → ∀ name,
      Option.Rel (CellHolds store.heap) (types.getVariable? name) (frame.getVariable? name) := by
    intro types frame agrees name
    apply rel_imp (agrees.vars name)
    intro v b known _ cell
    have single := agrees.single name v known
    rw [CellHolds, single, if_neg Bool.false_ne_true]
    exact cell.single single
  have root : ∀ name, Option.Rel (CellHolds store.heap) (scope.root.getVariable? name)
      (store.scope.root.getVariable? name) := by
    intro name
    apply rel_imp (names.root.vars name)
    intro v b known found cell
    rw [CellHolds]
    split
    · rename_i list
      obtain ⟨a, holds⟩ := cell.list list
      exact ⟨a, holds, lists.fit name v a ⟨known, list, b, found, holds⟩⟩
    · rename_i single
      exact cell.single (Bool.eq_false_iff.mpr single)
  have frames : List.Forall₂ (fun types frame => ∀ name, Option.Rel (CellHolds store.heap)
      (types.getVariable? name) (frame.getVariable? name)) scope.frames store.scope.frames :=
    List.rel_append (names.inner.imp fun _ _ agrees => inner agrees) (.cons root .nil)
  refine List.rel_append frames (List.rel_flatten (callersAgree.imp ?_))
  exact fun _ _ agree => agree.imp fun _ _ agrees => inner agrees

instance {focus : Focus} {holds : Expr → Prop} [DecidablePred holds] :
    Decidable (∃ e, focus = .evaluate e ∧ holds e) :=
  match focus with
  | .evaluate e => decidable_of_iff (holds e)
      ⟨fun h => ⟨e, rfl, h⟩, fun ⟨_, same, h⟩ => Focus.evaluate.inj same ▸ h⟩
  | .execute _ | .block _ | .enter _ | .call .. | .define _ | .load .. | .value _ | .done |
    .returning _ | .failing _ => .isFalse fun ⟨_, other, _⟩ => nomatch other

/-- Types hold up to nil at every point of a run. An expression that a point looks at comes to a
value of its type if it comes to one, with all that is pending below left as it is; and so does
what every variable in force holds, and every variable of a caller. -/
theorem types_hold_up_to_nil {text : String} {p : Program} (compiled : compile text = .ok p)
    (direct : p.ElementsDirect) (room : Option Nat) (report : String) (n : Nat) :
    (∀ e, ((start room p report).after n).config.focus = .evaluate e → e.isList = false →
      e.wholeList? = none → ∃ ty, e.ty = some ty ∧ ∀ limit v store,
        ((start room p report).after n).config.store.evaluate limit e = some (.ok v, store) →
        ty.Holds v ∧ ∃ k, ((start room p report).after n).config.after k =
          ⟨.value v, ((start room p report).after n).config.pending, store⟩) ∧
      ((start room p report).after n).CellsHold := by
  have typed := Program.wellTyped_of_compile compiled
  have keeps := Discipline.keeps_upToNil typed
  have sound := (sound_start .upToNil p room report).after_of_direct keeps typed direct n
  generalize (start room p report).after n = x at sound
  refine ⟨?_, sound.cellsHold⟩
  intro e focus single whole
  obtain ⟨ty, outcome, alone⟩ := sound.alone focus single
  rw [Expr.outcome?_eq_ty whole] at outcome
  refine ⟨ty, outcome, ?_⟩
  intro limit v store evaluated
  obtain ⟨last, ran, same⟩ := Option.map_eq_some_iff.mp evaluated
  obtain ⟨answer, rfl⟩ := Prod.mk.inj same
  obtain ⟨⟨view, soundLast⟩, stopped⟩ :=
    exists_sound_of_run (alone.after_of_direct keeps typed direct) ran
  obtain ⟨pending, ends⟩ := soundLast.stopped stopped
  -- What the expression comes to on its own it also comes to with more pending below it.
  rcases ends with ⟨w, focusLast, holds⟩ | ⟨fault, focusLast, _⟩
  · rw [Config.answer, focusLast] at answer
    obtain rfl := Except.ok.inj answer
    refine ⟨holds, ?_⟩
    obtain ⟨k, reached⟩ := after_below_of_run ran x.config.pending
    refine ⟨k, ?_⟩
    have here : x.config =
        Config.below ⟨.evaluate e, [], x.config.store⟩ x.config.pending := by
      rw [← focus]
      rfl
    rw [here, reached, Config.below, pending, focusLast]
    rfl
  · rw [Config.answer, focusLast] at answer
    cases answer

def unset : String :=
  "LIST l = [1]; VAR s: String;
  FUN none(): Integer DO END
  FUN main(): Integer DO LET a: Any = l; l[0] = none();
    print(s); print(a[0]); RETURN l[0]; END"

/-- At step 24 the call is looked at. -/
theorem types_hold_up_to_nil_unset : ∃ p, compile unset = .ok p ∧ p.ElementsDirect ∧
    (∀ n, ((start none p).after n).CellsHold) ∧
    ∃ e, ((start none p).after 24).config.focus = .evaluate e ∧ e.ty = some .integer ∧
      ∃ k, (((start none p).after 24).config.after k).focus = .value .nil := by
  have runs : ∃ p, compile unset = .ok p ∧ p.ElementsDirect ∧
      ∃ e, ((start none p).after 24).config.focus = .evaluate e ∧ e.isList = false ∧
        e.wholeList? = none ∧ e.ty = some .integer ∧
        (((start none p).after 24).config.store.evaluate 50 e).map Prod.fst = some (.ok .nil) := by
    decide +kernel
  obtain ⟨p, compiled, direct, e, focus, single, whole, known, ran⟩ := runs
  obtain ⟨⟨_, store⟩, ends, rfl⟩ := Option.map_eq_some_iff.mp ran
  obtain ⟨_, _, outcome⟩ := (types_hold_up_to_nil compiled direct none _ 24).1 e focus single whole
  obtain ⟨_, k, reached⟩ := outcome 50 .nil store ends
  refine ⟨p, compiled, direct, ?_, e, focus, known, k, ?_⟩
  · intro n
    exact (types_hold_up_to_nil compiled direct none _ n).2
  · rw [reached]

end Machine
end Plc
