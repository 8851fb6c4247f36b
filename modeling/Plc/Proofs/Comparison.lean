import Plc.Proofs.Homogeneity
import Plc.Proofs.Machine.Calls
import Plc.Proofs.Names

/-! Comparisons. The analysis takes operands of one type, a run operands of one kind. The two come
to the same but for operands whose type stands for several kinds. -/
namespace Plc

namespace Value

variable {x y : Value}

theorem shape_of_conforms {ty : Ty} (plain : ty.isPlain = true) (conforms : x.conforms ty = true) :
    x.shape = .plain ty := by
  cases ty with
  | any => cases plain
  | comparable => cases plain
  | _ => cases x <;> first | rfl | cases conforms

theorem compare_of_shape_eq (ordered : x.conforms .comparable = true) (same : x.shape = y.shape) :
    ∃ order, x.compare y = .ok order := by
  cases x <;> cases y <;> first | exact ⟨_, rfl⟩ | (cases same; done) | cases ordered

theorem compare_of_shape_ne (differs : x.shape ≠ y.shape) :
    x.compare y = .error (.typeMismatch x.shape y.shape) := by
  cases x <;> cases y <;> first | rfl | exact absurd rfl differs

end Value

def Operator.isComparison : Operator → Bool
  | less | greater => true
  | _ => false

namespace Operator

variable {op : Operator} {x y : Value}

theorem apply_of_shape_eq (comparison : op.isComparison = true) (heap : Heap)
    (ordered : x.conforms .comparable = true) (same : x.shape = y.shape) :
    ∃ b, op.apply heap x y = .ok (.boolean b) := by
  obtain ⟨order, compared⟩ := Value.compare_of_shape_eq ordered same
  cases op with
  | less => exact ⟨order == .lt, by rw [apply, compared]; rfl⟩
  | greater => exact ⟨order == .gt, by rw [apply, compared]; rfl⟩
  | _ => cases comparison

theorem apply_of_shape_ne (comparison : op.isComparison = true) (heap : Heap)
    (differs : x.shape ≠ y.shape) :
    op.apply heap x y = .error (.typeMismatch x.shape y.shape) := by
  have failed := Value.compare_of_shape_ne differs
  cases op with
  | less => rw [apply, failed]; rfl
  | greater => rw [apply, failed]; rfl
  | _ => cases comparison

theorem decisive?_of_comparison (comparison : op.isComparison = true) : op.decisive? = none := by
  cases op <;> first | rfl | cases comparison

theorem Takes.same_of_comparison {a b t : Ty} (takes : op.Takes a b t)
    (comparison : op.isComparison = true) : b = a ∧ Ty.comparable.accepts a = true := by
  cases takes with
  | less comparable => exact ⟨rfl, comparable⟩
  | greater comparable => exact ⟨rfl, comparable⟩
  | arithmetic arithmetic => cases op <;> first | (cases arithmetic; done) | cases comparison
  | _ => cases comparison

end Operator

namespace Machine

variable {p : Program} {base : Ty}

/-- A step that spoils a list does so whatever is pending below. -/
theorem Spoils.below {c : Config} (spoils : Spoils p c) (rest : List Pending) :
    Spoils p (c.below rest) := by
  obtain ⟨a, i, x, ⟨name, w, offset, pending, focus, top, single, located⟩, global⟩ := spoils
  refine ⟨a, i, x, ⟨name, w, offset, pending ++ rest, focus, ?_, single, located⟩, global⟩
  rw [Config.below, top, List.cons_append]

/-- After so many steps an expression has come to a value on its own, and the store to another. -/
structure Gives (e : Expr) (store : Store) (n : Nat) (v : Value) (last : Store) : Prop where
  ends : Config.after ⟨.evaluate e, [], store⟩ n = ⟨.value v, [], last⟩
  going : ∀ m < n, step? (Config.after ⟨.evaluate e, [], store⟩ m) ≠ none

theorem Gives.below {e : Expr} {store last : Store} {n : Nat} {v : Value}
    (gives : Gives e store n v last) {m : Nat} (before : m ≤ n) (rest : List Pending) :
    Config.after ⟨.evaluate e, rest, store⟩ m =
      (Config.after ⟨.evaluate e, [], store⟩ m).below rest :=
  Config.after_below (fun i sooner => gives.going i (Nat.lt_of_lt_of_le sooner before)) rest

theorem exists_gives_of_evaluate {store last : Store} {limit : Nat} {e : Expr} {v : Value}
    (evaluated : store.evaluate limit e = some (.ok v, last)) (present : v ≠ .nil) :
    ∃ n, Gives e store n v last := by
  obtain ⟨c, ran, same⟩ := Option.map_eq_some_iff.mp evaluated
  obtain ⟨answer, rfl⟩ := Prod.mk.inj same
  obtain ⟨n, reached, stopped, going⟩ := exists_first_of_run ran
  refine ⟨n, ?_, going⟩
  rw [reached]
  have empty := pending_eq_nil_of_stopped stopped
  obtain ⟨focus, pending, store⟩ := c
  cases empty
  rw [Config.answer] at answer
  cases focus with
  | value w =>
    obtain rfl := Except.ok.inj answer
    rfl
  | failing fault => cases answer
  | _ => exact absurd (Except.ok.inj answer).symm present

section Operands

variable {op : Operator} {left right : Expr} {slot : Option Ty} {pending : List Pending}
  {store middle last : Store} {x y : Value} {i j : Nat}

/-- The operands are evaluated one behind the other, and the operator is applied to their values. -/
theorem Gives.after_operands (indecisive : op.decisive? = none)
    (first : Gives left store i x middle) (second : Gives right middle j y last) {c : Config}
    (here : c = ⟨.evaluate (.binary op left right slot), pending, store⟩) :
    (∀ m ≤ i, c.after (1 + m) =
      (Config.after ⟨.evaluate left, [], store⟩ m).below (.right op right :: pending)) ∧
    (∀ m ≤ j, c.after (1 + i + 1 + m) =
      (Config.after ⟨.evaluate right, [], middle⟩ m).below (.operate op x :: pending)) ∧
    c.after (1 + i + 1 + j + 1) = settle last pending (op.apply last.heap x y) := by
  have begun : c.after 1 = ⟨.evaluate left, .right op right :: pending, store⟩ := by
    rw [here]
    rfl
  have onLeft : ∀ m ≤ i, c.after (1 + m) =
      (Config.after ⟨.evaluate left, [], store⟩ m).below (.right op right :: pending) := by
    intro m bound
    rw [Config.after_add, begun, first.below bound]
  have between : c.after (1 + i + 1) = ⟨.evaluate right, .operate op x :: pending, middle⟩ := by
    rw [Config.after, onLeft i (Nat.le_refl i), first.ends]
    apply Config.next_eq
    show some (continueRight middle pending op right x) = _
    rw [continueRight, indecisive]
  have onRight : ∀ m ≤ j, c.after (1 + i + 1 + m) =
      (Config.after ⟨.evaluate right, [], middle⟩ m).below (.operate op x :: pending) := by
    intro m bound
    rw [Config.after_add, between, second.below bound]
  refine ⟨onLeft, onRight, ?_⟩
  rw [Config.after, onRight j (Nat.le_refl j), second.ends]
  exact Config.next_eq rfl

end Operands

/-- An expression that a point looks at comes to a value of its type, if to one other than nil and
if nothing is spoiled. -/
theorem Sound.conforms_of_gives (typed : p.WellTyped) {x : Point} (sound : Sound .upToNil p base x)
    {e : Expr} {store : Store} {pending : List Pending}
    (here : x.config = ⟨.evaluate e, pending, store⟩) {ty : Ty} (known : e.valueType = .ok ty)
    (single : e.isList = false) {n : Nat} {v : Value} {last : Store}
    (gives : Gives e store n v last) (present : v ≠ .nil)
    (clean : ∀ m < n, ¬ Spoils p (Config.after ⟨.evaluate e, [], store⟩ m)) :
    v.conforms ty = true := by
  obtain ⟨view, _⟩ := x
  cases here
  obtain ⟨ty', outcome, alone⟩ := sound.alone rfl single
  obtain rfl := Option.some.inj ((Expr.outcome?_of_valueType known).symm.trans outcome)
  have there := alone.after_of_not_spoils typed fun m before => by
    rw [Point.config_after]
    exact clean m before
  have holds : ty.Holds v := by
    refine there.fits_of_value (Eq.trans ?_ gives.ends)
    rw [Point.config_after]
  exact holds.resolve_left present

theorem Sound.operands {d : Discipline} (typed : p.WellTyped) {x : Point}
    (sound : Sound d p base x) {op : Operator} {left right : Expr} {slot : Option Ty}
    (comparison : op.isComparison = true)
    (focus : x.config.focus = .evaluate (.binary op left right slot)) :
    ∃ ty, left.valueType = .ok ty ∧ right.valueType = .ok ty ∧
      Ty.comparable.accepts ty = true ∧ left.isList = false ∧ right.isList = false := by
  obtain ⟨view, ⟨_, pending, store⟩⟩ := x
  obtain ⟨_, task⟩ := sound
  cases focus
  cases task with
  | evaluate place =>
    obtain ⟨a, b, t, leftTyped, rightTyped, opTyped, rfl⟩ := typed.exprs place
    obtain ⟨rfl, comparable⟩ := (Operator.type_eq_ok.mp opTyped).same_of_comparison comparison
    refine ⟨b, leftTyped, rightTyped, comparable, ?_, ?_⟩
    · exact typed.exprParts place left List.mem_cons_self
    · exact typed.exprParts place right (List.mem_cons_of_mem _ (List.mem_singleton_self right))

/-- Operands of a comparison have one type. Once both have come to a value other than nil, they are
compared, and if no list was spoiled until then, this gives a truth value if they are of one kind,
which they are unless their type is `Comparable`, and fails otherwise. -/
theorem comparisons_of_one_kind_succeed {text : String} {p : Program}
    (compiled : compile text = .ok p) (room : Option Nat) (report : String) {n : Nat}
    {op : Operator} {left right : Expr} {slot : Option Ty} (comparison : op.isComparison = true)
    (focus : (((Store.initial room report).start p).after n).focus =
      .evaluate (.binary op left right slot)) :
    ∃ ty, left.ty = some ty ∧ right.ty = some ty ∧ Ty.comparable.accepts ty = true ∧
      ∀ limit x s limit' y t,
        (((Store.initial room report).start p).after n).store.evaluate limit left =
          some (.ok x, s) →
        s.evaluate limit' right = some (.ok y, t) → x ≠ .nil → y ≠ .nil →
        ∃ k > n, ((Store.initial room report).start p).after k = ⟨.value y,
            .operate op x :: (((Store.initial room report).start p).after n).pending, t⟩ ∧
          ((∀ m < k, ¬ Spoils p (((Store.initial room report).start p).after m)) →
            (x.shape = y.shape → ∃ b, ((Store.initial room report).start p).after (k + 1) =
              ⟨.value (.boolean b), (((Store.initial room report).start p).after n).pending, t⟩) ∧
            (x.shape ≠ y.shape → ty = .comparable ∧
              ((Store.initial room report).start p).after (k + 1) =
                ⟨.failing (.typeMismatch x.shape y.shape),
                  (((Store.initial room report).start p).after n).pending, t⟩)) := by
  have typed := Program.wellTyped_of_compile compiled
  have config (m : Nat) : ((start room p report).after m).config =
      ((Store.initial room report).start p).after m := Point.config_after (start room p report) m
  generalize (Store.initial room report).start p = c at config focus ⊢
  have named := (sound_start .naming p room report).naming_after typed n
  obtain ⟨ty, leftTyped, rightTyped, comparable, leftSingle, rightSingle⟩ :=
    named.operands typed comparison ((config n).symm ▸ focus)
  refine ⟨ty, (Expr.valueType_eq_ok.mp leftTyped).2, (Expr.valueType_eq_ok.mp rightTyped).2,
    comparable, ?_⟩
  intro limit x s limit' y t leftGives rightGives leftPresent rightPresent
  -- What the operands come to on their own they come to in the run, one behind the other.
  obtain ⟨i, first⟩ := exists_gives_of_evaluate leftGives leftPresent
  obtain ⟨j, second⟩ := exists_gives_of_evaluate rightGives rightPresent
  have here : c.after n =
      ⟨.evaluate (.binary op left right slot), (c.after n).pending, (c.after n).store⟩ := by
    rw [← focus]
  obtain ⟨onLeft, onRight, applied⟩ :=
    first.after_operands (Operator.decisive?_of_comparison comparison) second here
  simp only [← Config.after_add] at onLeft onRight applied
  refine ⟨n + (1 + i + 1 + j), by omega, ?_, ?_⟩
  · rw [onRight j (Nat.le_refl j), second.ends]
    rfl
  -- Until something is spoiled, values are of the types of their expressions, or nil.
  intro clean
  have sound {m : Nat} (bound : m ≤ n + (1 + i + 1 + j)) :
      Sound .upToNil p .integer ((start room p report).after m) := by
    apply (sound_start .upToNil p room report).after_of_not_spoils typed
    intro m' before
    rw [config]
    exact clean m' (by omega)
  have ordered : x.conforms ty = true := by
    refine (sound (m := n + (1 + 0)) (by omega)).conforms_of_gives typed
      ((config _).trans (onLeft 0 (Nat.zero_le i))) leftTyped leftSingle first leftPresent ?_
    intro m before spoils
    apply clean (n + (1 + m)) (by omega)
    rw [onLeft m (Nat.le_of_lt before)]
    exact spoils.below _
  have ordered' : y.conforms ty = true := by
    refine (sound (m := n + (1 + i + 1 + 0)) (by omega)).conforms_of_gives typed
      ((config _).trans (onRight 0 (Nat.zero_le j))) rightTyped rightSingle second rightPresent ?_
    intro m before spoils
    apply clean (n + (1 + i + 1 + m)) (by omega)
    rw [onRight m (Nat.le_of_lt before)]
    exact spoils.below _
  constructor
  · intro same
    obtain ⟨b, applies⟩ := Operator.apply_of_shape_eq comparison t.heap
      (Value.conforms_accepts comparable ordered) same
    exact ⟨b, by rw [Nat.add_assoc, applied, applies]; rfl⟩
  · intro differs
    have mismatch := Operator.apply_of_shape_ne comparison t.heap differs
    refine ⟨?_, by rw [Nat.add_assoc, applied, mismatch]; rfl⟩
    -- The values of any other type that can be compared are of one kind.
    by_contra other
    have plain : ty.isPlain = true := by cases ty <;> first | rfl | contradiction
    apply differs
    rw [Value.shape_of_conforms plain ordered, Value.shape_of_conforms plain ordered']

def mixed : String :=
  "FUN main(): Integer DO LET a: Comparable = 1; LET b: Comparable = \"x\";
    LET c = a < b; RETURN 0; END"

instance {e : Expr} {holds : Operator → Expr → Expr → Option Ty → Prop}
    [∀ op left right slot, Decidable (holds op left right slot)] :
    Decidable (∃ op left right slot, e = .binary op left right slot ∧ holds op left right slot) :=
  match e with
  | .binary op left right slot => decidable_of_iff (holds op left right slot)
      ⟨fun h => ⟨op, left, right, slot, rfl, h⟩, fun ⟨_, _, _, _, same, h⟩ => by
        cases same
        exact h⟩
  | .literal .. | .group .. | .access .. | .element .. | .call .. | .list .. =>
    .isFalse fun ⟨_, _, _, _, other, _⟩ => nomatch other

set_option synthInstance.maxSize 400 in
theorem comparisons_of_one_kind_succeed_mixed : ∃ p, compile mixed = .ok p ∧
    ∃ k, (((Store.initial none).start p).after k).focus =
      .failing (.typeMismatch (.plain .integer) (.plain .string)) := by
  have runs : ∃ p, compile mixed = .ok p ∧ p.globals.length = 0 ∧
      ∃ e, (((Store.initial none).start p).after 15).focus = .evaluate e ∧
        ∃ op left right slot, e = .binary op left right slot ∧ op.isComparison = true ∧
          ((((Store.initial none).start p).after 15).store.evaluate 9 left).bind (fun first =>
            (first.2.evaluate 9 right).map fun second => (first.1, second.1)) =
              some (.ok (.integer 1), .ok (.string "x")) := by
    decide +kernel
  obtain ⟨p, compiled, noGlobals, _, focus, op, left, right, slot, rfl, comparison, evaluated⟩ :=
    runs
  obtain ⟨⟨_, s⟩, leftGives, evaluated⟩ := Option.bind_eq_some_iff.mp evaluated
  obtain ⟨⟨_, t⟩, rightGives, same⟩ := Option.map_eq_some_iff.mp evaluated
  cases same
  obtain ⟨ty, _, _, _, applied⟩ := comparisons_of_one_kind_succeed compiled none _ comparison focus
  obtain ⟨k, _, _, outcome⟩ := applied 9 _ s 9 _ t leftGives rightGives nofun nofun
  have clean : ∀ m < k, ¬ Spoils p (((Store.initial none).start p).after m) := by
    rintro m _ ⟨_, _, _, _, g, member, _⟩
    rw [List.length_eq_zero_iff.mp noGlobals] at member
    cases member
  obtain ⟨_, failed⟩ := (outcome clean).2 (by decide)
  refine ⟨p, compiled, k + 1, ?_⟩
  rw [failed]
  rfl

theorem exists_comparison_fails : ∃ p, compile mixed = .ok p ∧
    ((Store.initial none).runProgram 60 p).map Prod.fst =
      some (.error (.typeMismatch (.plain .integer) (.plain .string))) := by
  decide +kernel

end Machine
end Plc
