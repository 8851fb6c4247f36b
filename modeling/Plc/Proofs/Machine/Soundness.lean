import Plc.Proofs.Machine.Preservation

/-! Runs that begin at a point that fits the program. Every point of the run fits, and where the run
stops there is a value of the type at the bottom, or an allowed fault. -/
namespace Plc.Machine

variable {d : Discipline} {p : Program} {base : Ty} {x : Point}

theorem Sound.next_of_step (sound : Sound d p base x)
    (steps : ∀ c, Step x.config c → Sound d p base ⟨x.view.next x.config, c⟩) :
    Sound d p base x.next := by
  cases stepped : step? x.config with
  | none => rwa [Point.next, stepped]
  | some c =>
    have step := step?_eq_some_iff.mp stepped
    exact Point.next_of_step step ▸ steps c step

/-- A step from a point that fits comes to one that fits, unless it takes a list as a whole or
spoils one, or falls off the end of a function. -/
theorem Sound.nextWithin (keeps : d.KeepsWithin p) (typed : p.WellTyped)
    (sound : Sound d p base x) (harmless : x.Harmless d.fits)
    (single : ∀ e, x.config.focus = .evaluate e → e.wholeList? = none)
    (within : ¬ x.config.FallsOff) : Sound d p base x.next :=
  sound.next_of_step fun _ step =>
    step.sound keeps typed sound harmless (.inl single) fun falls => absurd falls within

/-- A step from a point that fits comes to one that fits, unless it takes a list as a whole or
spoils one. -/
theorem Sound.nextSingle (keeps : d.KeepsSingle p) (typed : p.WellTyped)
    (sound : Sound d p base x) (harmless : x.Harmless d.fits)
    (single : ∀ e, x.config.focus = .evaluate e → e.wholeList? = none) :
    Sound d p base x.next :=
  sound.next_of_step fun _ step =>
    step.sound keeps.toKeepsWithin typed sound harmless (.inl single) fun _ => keeps

/-- What is evaluated may be a whole list, where any list fits. -/
theorem Sound.nextEvaluate (keeps : d.KeepsWithin p) (any : ∀ v, d.fits .any v)
    (typed : p.WellTyped) (sound : Sound d p base x) {e : Expr}
    (focus : x.config.focus = .evaluate e) : Sound d p base x.next := by
  refine sound.next_of_step fun _ step => step.sound keeps typed sound ?_ (.inr any) ?_
  · rintro a i v ⟨_, _, _, _, other, _⟩
    cases focus.symm.trans other
  · rintro ⟨other, _⟩
    cases focus.symm.trans other

/-- A step from a point that fits comes to one that fits, unless it spoils a list. -/
theorem Sound.next (keeps : d.Keeps p) (typed : p.WellTyped) (sound : Sound d p base x)
    (harmless : x.Harmless d.fits) : Sound d p base x.next :=
  sound.next_of_step fun _ step =>
    step.sound keeps.toKeepsWithin typed sound harmless (.inr keeps.any)
      fun _ => keeps.toKeepsSingle

theorem Sound.after (keeps : d.Keeps p) (typed : p.WellTyped) (sound : Sound d p base x) (n : Nat)
    (harmless : ∀ m < n, Sound d p base (x.after m) → (x.after m).Harmless d.fits) :
    Sound d p base (x.after n) := by
  induction n with
  | zero => exact sound
  | succ n ih =>
    have here := ih fun m before => harmless m (Nat.lt_succ_of_lt before)
    exact here.next keeps typed (harmless n (Nat.lt_succ_self n) here)

theorem agrees_initial (fits : Ty → Value → Prop) (p : Program) (room : Option Nat)
    (report : String) :
    Agrees fits p TypeScope.initial (Store.initial room report).scope := by
  refine ⟨.nil, ⟨fun _ => .none, ?_⟩, fun _ _ found => nomatch found⟩
  intro name arity
  have types : TypeScope.initial.root.getFunction? name arity =
      (Frame.bindFunction {} "print" 1 TypeScope.printSignature).getFunction? name arity := rfl
  have frame : (Store.initial room report).scope.root.getFunction? name arity =
      (Frame.bindFunction {} "print" 1 Callable.print).getFunction? name arity := rfl
  rw [types, frame, Frame.getFunction?_bindFunction, Frame.getFunction?_bindFunction]
  split
  · rename_i same
    refine .some ⟨?_, ?_⟩
    · exact (Prod.mk.inj same).2.symm
    · rw [if_pos same]
      exact ⟨rfl, rfl⟩
  · exact .none

theorem sound_start (d : Discipline) (p : Program) (room : Option Nat) (report : String) :
    Sound d p .integer (start room p report) where
  kept :=
    { names := agrees_initial d.fits p room report
      callers := .nil
      lists := ⟨fun _ _ _ here => (nomatch here.1), fun _ _ _ here => (nomatch here.1),
        fun _ _ _ _ _ here => (nomatch here.1)⟩ }
  task := .globals .first rfl rfl .nil

/-- Where the machine stops, it has a value of the type at the bottom, or an allowed fault. -/
theorem Sound.stopped (sound : Sound d p base x)
    (stopped : step? x.config = none) :
    x.config.pending = [] ∧ ((∃ v, x.config.focus = .value v ∧ d.fits base v) ∨
      ∃ fault, x.config.focus = .failing fault ∧ d.fault fault) := by
  obtain ⟨⟨scope, callers⟩, ⟨focus, pending, store⟩⟩ := x
  obtain ⟨kept, task⟩ := sound
  cases task with
  | @value ty v _ fit stack =>
    cases stack with
    | nil => exact ⟨rfl, .inl ⟨v, rfl, fit⟩⟩
    | _ => cases stopped
  | fresh _ _ _ stack =>
    cases stack with
    | _ => cases stopped
  | done stack =>
    cases stack with
    | _ => cases stopped
  | loaded stack =>
    cases stack with
    | _ => cases stopped
  | returning _ _ stack =>
    cases stack with
    | _ => cases stopped
  | @failing fault _ allowed =>
    cases pending with
    | nil => exact ⟨rfl, .inr ⟨fault, rfl, allowed⟩⟩
    | cons first pending => cases stopped
  | @block _ ss =>
    cases ss with
    | nil => cases stopped
    | cons s ss => cases stopped
  | _ => cases stopped

theorem Sound.fits_of_value (sound : Sound d p base x) {v : Value} {store : Store}
    (ended : x.config = ⟨.value v, [], store⟩) : d.fits base v := by
  obtain ⟨view, _⟩ := x
  cases ended
  rcases (sound.stopped rfl).2 with ⟨w, focus, fits⟩ | ⟨fault, focus, _⟩
  · cases focus
    exact fits
  · cases focus

theorem Sound.answer (sound : Sound d p base x) (stopped : step? x.config = none) :
    Ends d.fault (d.fits base) x.config.answer := by
  rw [Config.answer]
  rcases (sound.stopped stopped).2 with ⟨v, focus, fit⟩ | ⟨fault, focus, allowed⟩
  · rw [focus]
    exact fit
  · rw [focus]
    exact allowed

/-- An expression that a point looks at may also be evaluated on its own. -/
theorem Sound.alone (sound : Sound d p base x) {e : Expr}
    (focus : x.config.focus = .evaluate e) (single : e.isList = false) :
    ∃ ty, e.outcome? = some ty ∧
      Sound d p ty ⟨⟨x.view.scope, []⟩, ⟨.evaluate e, [], x.config.store⟩⟩ := by
  obtain ⟨⟨scope, callers⟩, ⟨_, pending, store⟩⟩ := x
  obtain ⟨kept, task⟩ := sound
  cases focus
  cases task with
  | @evaluate _ ty _ _ place _ outcome accepted stack =>
    exact ⟨ty, outcome, ⟨kept.names, .nil, kept.lists⟩,
      .evaluate place single outcome (Ty.accepts_self ty) .nil⟩
  | list => cases single

theorem exists_sound_of_run {limit : Nat} {last : Config}
    (sound : ∀ n, Sound d p base (x.after n)) (ran : run limit x.config = some last) :
    (∃ view, Sound d p base ⟨view, last⟩) ∧ step? last = none := by
  obtain ⟨⟨n, reached⟩, stopped⟩ := exists_after_of_run ran
  have same : (x.after n).config = last := by rw [Point.config_after, reached]
  refine ⟨⟨(x.after n).view, ?_⟩, stopped⟩
  rw [← same]
  exact sound n

end Plc.Machine
