import Plc.Proofs.Machine.Calls
import Plc.Proofs.Safety

/-! What calls give. Where every variable has a first value, the value of a call conforms to the
result of the function, unless the body of a call ends without a `RETURN`. -/
namespace Plc

def Discipline.conforming : Discipline where
  fits ty v := v.conforms ty = true
  fault _ := True

structure Program.Initialized (p : Program) : Prop where
  globals : ∀ g ∈ p.globals, g.value.isSome = true
  locals : ∀ s ∈ p.statements, s.isInitialized = true

instance (p : Program) : Decidable p.Initialized :=
  decidable_of_iff ((∀ g ∈ p.globals, g.value.isSome = true) ∧
      ∀ s ∈ p.statements, s.isInitialized = true)
    ⟨fun ⟨globals, locals⟩ => ⟨globals, locals⟩, fun ⟨globals, locals⟩ => ⟨globals, locals⟩⟩

/-- Every path through a function whose result is something comes to a `RETURN`. -/
def Program.AlwaysReturns (p : Program) : Prop :=
  ∀ f ∈ p.functions, ∀ s ∈ f.slot, s.result ≠ .nil ∧ s.result ≠ .any →
    Stmt.fallsThrough f.body = false

instance (p : Program) : Decidable p.AlwaysReturns :=
  inferInstanceAs (Decidable (∀ f ∈ p.functions, ∀ s ∈ f.slot, _ → _))

theorem Discipline.keepsWithin_conforming {p : Program} (typed : p.WellTyped)
    (initialized : p.Initialized) : conforming.KeepsWithin p where
  nil := rfl
  boolean _ := rfl
  accepts := Value.conforms_accepts
  literal := Value.conforms_literal
  listed {_ _} conforms v := by
    obtain rfl := Value.eq_any_of_conforms_list conforms
    exact v.conforms_any
  truth _ := ends_any _
  index _ _ := ends_any _
  full _ := trivial
  operate place leftKnown rightKnown heap _ _ left right :=
    (typed.takes place leftKnown rightKnown).apply_conforms left right (fun _ _ => trivial)
      (fun _ _ => ends_any _) heap
  element _ _ := trivial
  immutable _ _ _ := trivial
  declared place := by cases initialized.locals _ place.mem
  global place given _ := by
    have value := initialized.globals _ (place.mem List.mem_cons_self)
    rw [given] at value
    cases value

theorem Discipline.keeps_conforming {p : Program} (typed : p.WellTyped)
    (initialized : p.Initialized) (returns : p.AlwaysReturns) : conforming.Keeps p where
  toKeepsWithin := keepsWithin_conforming typed initialized
  any := Value.conforms_any
  ends {f s} member slot falls := by
    apply Value.conforms_nil.mpr
    by_contra other
    have never := returns f member s slot (not_or.mp other)
    exact Bool.false_ne_true (never.symm.trans falls)

namespace Machine

/-- The call of a function has come to a value after so many steps of its own. -/
def Config.CallGives (c : Config) (f : Function) (k : Nat) (v : Value) : Prop :=
  ∃ arguments store, c.focus = .call f arguments ∧ c.alone.after k = ⟨.value v, [], store⟩

def Config.CallFallsOff (c : Config) (f : Function) (k : Nat) : Prop :=
  ∃ arguments inner store, c.focus = .call f arguments ∧
    c.alone.after k = ⟨.done, [.leaveCall inner], store⟩

/-- Such a call gives nil with the next step. -/
theorem Config.CallFallsOff.gives {c : Config} {f : Function} {k : Nat}
    (falls : c.CallFallsOff f k) : c.CallGives f (k + 1) .nil := by
  obtain ⟨arguments, inner, store, focus, ended⟩ := falls
  refine ⟨arguments, store.withInner inner, focus, ?_⟩
  rw [after, ended]
  rfl

variable {d : Discipline} {p : Program} {base : Ty} {c : Config} {n : Nat}

/-- The caller goes on behind a body that ends without a `RETURN`. Its own names mean what they did
when it began the call, and the root frame is as the body leaves it. -/
theorem sound_behindCall (keeps : d.KeepsWithin p) {view body : View} {store after : Store}
    {f : Function} {arguments : List Value} {pending : List Pending}
    (called : Sound d p base ⟨view, ⟨.call f arguments, pending, store⟩⟩)
    (ended : Sound d p base ⟨body, ⟨.done, .leaveCall store.scope.inner :: pending, after⟩⟩)
    (nil : ∀ s ∈ f.slot, d.fits s.result .nil) :
    Sound d p base ⟨view, ⟨.value .nil, pending, after.withInner store.scope.inner⟩⟩ := by
  obtain ⟨kept, task⟩ := called
  obtain ⟨⟨names, _, lists⟩, bodyTask⟩ := ended
  obtain ⟨scope, callers⟩ := view
  obtain ⟨bodyScope, bodyCallers⟩ := body
  cases task with
  | call member slot _ root accepted stack =>
    have bodyRoot : bodyScope.root = p.scope.root := by
      cases bodyTask with
      | done stack => cases stack with | leaveCall _ _ _ root => exact root
      | loaded stack => cases stack
    have same : bodyScope.root = scope.root := bodyRoot.trans root.symm
    have rootNames := names.root
    change RootAgrees d.fits p bodyScope.root _ at rootNames
    change Lists d.fits bodyScope.root _ _ at lists
    rw [same] at rootNames lists
    exact ⟨⟨⟨kept.names.inner, rootNames⟩, kept.callers, lists⟩,
      .value (keeps.accepts accepted (nil _ slot)) stack⟩

/-- No body ends without a `RETURN` within so many steps, but of a function that gives nil, or
anything. -/
def Config.Returns (c : Config) (n : Nat) : Prop :=
  ∀ m k f, m + k < n → (c.after m).CallFallsOff f k →
    ∀ s ∈ f.slot, s.result = .nil ∨ s.result = .any

theorem Config.Returns.mono {m : Nat} (returns : c.Returns n) (before : m ≤ n) : c.Returns m :=
  fun i k f sooner => returns i k f (Nat.lt_of_lt_of_le sooner before)

/-- A step that falls off no end keeps all values to their types. -/
theorem Sound.nextConforming (typed : p.WellTyped) (initialized : p.Initialized)
    (direct : p.ElementsDirect) {x : Point} (sound : Sound .conforming p base x)
    (within : ¬ x.config.FallsOff) : Sound .conforming p base x.next := by
  have keeps := Discipline.keepsWithin_conforming typed initialized
  by_cases taken : ∃ e, x.config.focus = .evaluate e ∧ e.wholeList?.isSome = true
  · obtain ⟨e, focus, whole⟩ := taken
    exact sound.nextEvaluate keeps Value.conforms_any typed focus
  · refine sound.nextWithin keeps typed (sound.harmless_of_direct direct _) ?_ within
    intro e focus
    exact Option.not_isSome_iff_eq_none.mp fun whole => taken ⟨e, focus, whole⟩

theorem exists_sound_of_returns (typed : p.WellTyped) (initialized : p.Initialized)
    (direct : p.ElementsDirect) {view : View} (sound : Sound .conforming p base ⟨view, c⟩)
    (outside : saved c.pending = []) (returns : c.Returns n) :
    ∃ view, Sound .conforming p base ⟨view, c.after n⟩ := by
  have keeps := Discipline.keepsWithin_conforming typed initialized
  -- Strong induction: where a body falls off its end, what counts is the point at which it was
  -- called.
  induction n using Nat.strongRecOn with
  | ind n ih =>
    cases n with
    | zero => exact ⟨view, sound⟩
    | succ n =>
      obtain ⟨body, here⟩ := ih n (Nat.lt_succ_self n) (returns.mono (Nat.le_succ n))
      by_cases falls : (c.after n).FallsOff
      · obtain ⟨done, inner, pending, top⟩ := falls
        have within : c.Within n [] inner pending := c.within_of_pending outside n top
        obtain ⟨m, k, rfl, ⟨⟨f, arguments, called⟩, rfl, rfl⟩, alone⟩ := within
        obtain ⟨view, there⟩ := ih m (by omega) (returns.mono (by omega))
        have nil : ∀ s ∈ f.slot, Value.nil.conforms s.result = true := by
          intro s slot
          rw [done] at alone
          have falls : (c.after m).CallFallsOff f k := ⟨arguments, _, _, called, alone⟩
          exact Value.conforms_nil.mpr (returns m k f (Nat.lt_succ_self _) falls s slot)
        refine ⟨view, ?_⟩
        show Sound .conforming p base ⟨view, (c.after (m + k)).next⟩
        clear alone returns ih
        generalize c.after (m + k) = last at here done top
        generalize c.after m = first at there called top
        obtain ⟨_, _, after⟩ := last
        obtain ⟨_, pending, store⟩ := first
        cases done
        cases top
        cases called
        exact sound_behindCall keeps there here nil
      · have next := here.nextConforming typed initialized direct falls
        refine ⟨(Point.next ⟨body, c.after n⟩).view, ?_⟩
        show Sound .conforming p base ⟨_, (c.after n).next⟩
        rw [← Point.config_next ⟨body, c.after n⟩]
        exact next

/-- What holds of the calls of a run holds of those that one of them makes when it runs alone. -/
theorem Config.Returns.alone {m k : Nat} (returns : c.Returns n) (bound : m + k ≤ n) :
    (c.after m).alone.Returns k := by
  intro i j f sooner falls
  obtain ⟨i', notLater, reached⟩ :=
    (c.after m).alone.exists_after_below (c.after m).pending i
  rw [Config.below_alone, ← Config.after_add] at reached
  refine returns (m + i') j f (by omega) ?_
  rw [reached]
  exact falls

/-- A call that a point begins may also be made on its own. -/
theorem Sound.callAlone {x : Point} (sound : Sound d p base x) {f : Function}
    {arguments : List Value} (focus : x.config.focus = .call f arguments) :
    ∃ s, f.slot = some s ∧ Sound d p s.result ⟨⟨x.view.scope, []⟩, x.config.alone⟩ := by
  obtain ⟨⟨scope, callers⟩, ⟨_, pending, store⟩⟩ := x
  obtain ⟨kept, task⟩ := sound
  cases focus
  cases task with
  | @call _ s _ _ _ member slot fit root accepted stack =>
    exact ⟨s, slot, ⟨kept.names, .nil, kept.lists⟩,
      .call member slot fit root (Ty.accepts_self s.result) .nil⟩

theorem exists_sound_of_alwaysReturns (typed : p.WellTyped) (initialized : p.Initialized)
    (direct : p.ElementsDirect) (always : p.AlwaysReturns) {view : View}
    (sound : Sound .conforming p base ⟨view, c⟩) (n : Nat) :
    ∃ view, Sound .conforming p base ⟨view, c.after n⟩ := by
  have keeps := Discipline.keeps_conforming typed initialized always
  refine ⟨(Point.after ⟨view, c⟩ n).view, ?_⟩
  have here := sound.after_of_direct keeps typed direct n
  rw [← Point.config_after ⟨view, c⟩ n]
  exact here

theorem returns_of_alwaysReturns (typed : p.WellTyped) (initialized : p.Initialized)
    (direct : p.ElementsDirect) (always : p.AlwaysReturns) {view : View}
    (sound : Sound .conforming p base ⟨view, c⟩) (n : Nat) : c.Returns n := by
  intro m k f _ falls s slot
  obtain ⟨arguments, store, called, given⟩ := falls.gives
  obtain ⟨_, here⟩ := exists_sound_of_alwaysReturns typed initialized direct always sound m
  obtain ⟨s', slot', alone⟩ := here.callAlone called
  obtain rfl := Option.some.inj (slot.symm.trans slot')
  obtain ⟨_, there⟩ :=
    exists_sound_of_alwaysReturns typed initialized direct always alone (k + 1)
  exact Value.conforms_nil.mp (there.fits_of_value given)

/-- Up to any point of a run, every call that comes to a value comes to one that conforms to the
result of its function exactly if no body ends without a `RETURN`, but of functions that give nil,
or anything. If none does so in the whole run, `main` gives an integer; and none does if every path
through the other functions comes to a `RETURN`. -/
theorem results_conform_iff_returns {text : String} {p : Program} (compiled : compile text = .ok p)
    (initialized : p.Initialized) (direct : p.ElementsDirect) (room : Option Nat)
    (report : String) :
    (∀ n, (∀ m k f v, m + k ≤ n → (((Store.initial room report).start p).after m).CallGives f k v →
        ∃ s, f.slot = some s ∧ v.conforms s.result = true) ↔
      ((Store.initial room report).start p).Returns n) ∧
    ((∀ n, ((Store.initial room report).start p).Returns n) → ∀ limit v store,
      (Store.initial room report).runProgram limit p = some (.ok v, store) → ∃ i, v = .integer i) ∧
    (p.AlwaysReturns → ∀ n, ((Store.initial room report).start p).Returns n) := by
  have typed := Program.wellTyped_of_compile compiled
  have start := sound_start .conforming p room report
  have outside : saved ((Store.initial room report).start p).pending = [] := rfl
  change Sound .conforming p .integer ⟨_, (Store.initial room report).start p⟩ at start
  simp only [Store.runProgram]
  generalize (Store.initial room report).start p = c at start outside
  refine ⟨fun n => ⟨?_, ?_⟩, ?_, ?_⟩
  -- A body that falls off its end gives nil, which conforms to none but the types of nil and of
  -- anything.
  · intro conform m k f before falls s slot
    obtain ⟨s', slot', conforms⟩ := conform m (k + 1) f .nil before falls.gives
    obtain rfl := Option.some.inj (slot.symm.trans slot')
    exact Value.conforms_nil.mp conforms
  -- The call is a run of its own, in which no body falls off either.
  · rintro returns m k f v bound ⟨arguments, store, called, given⟩
    obtain ⟨view, here⟩ := exists_sound_of_returns typed initialized direct start outside
      (returns.mono (Nat.le_of_add_right_le bound))
    obtain ⟨s, slot, alone⟩ := here.callAlone called
    obtain ⟨last, there⟩ := exists_sound_of_returns typed initialized direct alone rfl
      (returns.alone bound)
    refine ⟨s, slot, ?_⟩
    exact there.fits_of_value given
  · intro returns limit v store ran
    obtain ⟨last, stops, same⟩ := Option.map_eq_some_iff.mp ran
    obtain ⟨⟨n, rfl⟩, stopped⟩ := exists_after_of_run stops
    obtain ⟨view, there⟩ := exists_sound_of_returns typed initialized direct start outside
      (returns n)
    have ends := there.answer stopped
    rw [(Prod.mk.inj same).1] at ends
    exact Value.exists_integer ends
  · exact fun always n => returns_of_alwaysReturns typed initialized direct always start n

/-- Every way through the branches and the cases ends in a `RETURN`. -/
example : ∃ p, compile
    "FUN main(): Integer DO
      IF TRUE DO RETURN 1; ELSE
        SWITCH 5 CASE 5: RETURN 2; DEFAULT IF FALSE DO LET x = 3; END RETURN 4; END END
    END" = .ok p ∧ p.AlwaysReturns := by
  decide +kernel

def silent : String :=
  "FUN sign(x: Integer): Integer DO
    IF x < 0 DO RETURN 0 - 1; END
    IF 0 < x DO RETURN 1; END END
  FUN main(): Integer DO RETURN sign(0); END"

theorem results_conform_iff_returns_silent : ∃ p, compile silent = .ok p ∧ p.Initialized ∧
    p.ElementsDirect ∧ ∃ m k f, (((Store.initial none).start p).after m).CallFallsOff f k ∧
      ∃ s, f.slot = some s ∧ s.result ≠ .nil ∧ s.result ≠ .any := by
  have runs : ∃ p, compile silent = .ok p ∧ p.Initialized ∧ p.ElementsDirect ∧
      ((Store.initial none).runProgram 100 p).map Prod.fst = some (.ok .nil) := by
    decide +kernel
  obtain ⟨p, compiled, initialized, direct, ran⟩ := runs
  refine ⟨p, compiled, initialized, direct, ?_⟩
  obtain ⟨⟨_, store⟩, ends, rfl⟩ := Option.map_eq_some_iff.mp ran
  by_contra never
  have returns : ∀ n, ((Store.initial none).start p).Returns n := by
    intro n m k f _ falls s slot
    by_contra other
    exact never ⟨m, k, f, falls, s, slot, not_or.mp other⟩
  obtain ⟨i, given⟩ :=
    (results_conform_iff_returns compiled initialized direct none _).2.1 returns 100 .nil store ends
  cases given

/-- The result of `main` is nil. -/
theorem exists_result_nil : ∃ p, compile silent = .ok p ∧ p.Initialized ∧ p.ElementsDirect ∧
    ((Store.initial none).runProgram 100 p).map Prod.fst = some (.ok .nil) := by
  decide +kernel

end Machine
end Plc
