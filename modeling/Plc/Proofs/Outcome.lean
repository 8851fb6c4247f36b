/-! Computations that end in a value or in an error: how a computation of several steps came to
its value, and what can be said of both ends. -/
namespace Plc

variable {ε α β : Type}

theorem bind_eq_ok {x : Except ε α} {f : α → Except ε β} {b : β} :
    (x >>= f) = .ok b ↔ ∃ a, x = .ok a ∧ f a = .ok b := by
  cases x with
  | error e =>
    constructor
    · intro h
      cases h
    · rintro ⟨a, h, _⟩
      cases h
  | ok a =>
    constructor
    · exact fun h => ⟨a, rfl, h⟩
    · rintro ⟨a', h', h⟩
      cases h'
      exact h

theorem pure_eq_ok {a b : α} : (pure a : Except ε α) = .ok b ↔ a = b :=
  ⟨fun h => Except.ok.inj h, fun h => congrArg Except.ok h⟩

theorem map_eq_ok {f : α → β} {x : Except ε α} {b : β} :
    x.map f = .ok b ↔ ∃ a, x = .ok a ∧ f a = b := by
  cases x with
  | error e =>
    constructor
    · intro h
      cases h
    · rintro ⟨a, h, _⟩
      cases h
  | ok a =>
    constructor
    · exact fun h => ⟨a, rfl, Except.ok.inj h⟩
    · rintro ⟨a', h', h⟩
      cases h'
      exact congrArg Except.ok h

theorem mapError_eq_ok {ε' : Type} {f : ε → ε'} {x : Except ε α} {a : α} :
    x.mapError f = .ok a ↔ x = .ok a := by
  cases x with
  | error e =>
    constructor
    · intro h
      cases h
    · intro h
      cases h
  | ok a' => exact ⟨fun h => congrArg _ (Except.ok.inj h), fun h => congrArg _ (Except.ok.inj h)⟩

theorem bind_eq_error {x : Except ε α} {f : α → Except ε β} {e : ε} :
    (x >>= f) = .error e ↔ x = .error e ∨ ∃ a, x = .ok a ∧ f a = .error e := by
  cases x with
  | error e' =>
    constructor
    · intro h
      cases h
      exact .inl rfl
    · rintro (h | ⟨a, h, _⟩) <;> cases h
      rfl
  | ok a =>
    constructor
    · exact fun h => .inr ⟨a, rfl, h⟩
    · rintro (h | ⟨a', h, failed⟩)
      · cases h
      · cases h
        exact failed

theorem mapError_eq_error {ε' : Type} {f : ε → ε'} {x : Except ε α} {e' : ε'} :
    x.mapError f = .error e' ↔ ∃ e, x = .error e ∧ f e = e' := by
  cases x with
  | error e =>
    constructor
    · exact fun h => ⟨e, rfl, Except.error.inj h⟩
    · rintro ⟨_, h, rfl⟩
      cases h
      rfl
  | ok a =>
    constructor
    · intro h
      cases h
    · rintro ⟨_, h, _⟩
      cases h

theorem length_of_mapM {f : α → Except ε β} {xs : List α} {ys : List β}
    (mapped : xs.mapM f = .ok ys) : ys.length = xs.length := by
  induction xs generalizing ys with
  | nil =>
    cases mapped
    rfl
  | cons x xs ih =>
    simp only [List.mapM_cons, bind_eq_ok, pure_eq_ok] at mapped
    obtain ⟨y, _, rest, others, rfl⟩ := mapped
    rw [List.length_cons, List.length_cons, ih others]

theorem map_eq_of_mapM {f : α → Except ε β} {g : α → β} (agree : ∀ x y, f x = .ok y → g x = y)
    {xs : List α} {ys : List β} (mapped : xs.mapM f = .ok ys) : xs.map g = ys := by
  induction xs generalizing ys with
  | nil =>
    cases mapped
    rfl
  | cons x xs ih =>
    simp only [List.mapM_cons, bind_eq_ok, pure_eq_ok] at mapped
    obtain ⟨y, first, rest, others, rfl⟩ := mapped
    rw [List.map_cons, agree x y first, ih others]

instance decidableExistsOk {x : Except ε α} {holds : α → Prop} [DecidablePred holds] :
    Decidable (∃ a, x = .ok a ∧ holds a) :=
  match x with
  | .error _ => .isFalse fun ⟨_, failed, _⟩ => nomatch failed
  | .ok a => decidable_of_iff (holds a)
      ⟨fun h => ⟨a, rfl, h⟩, fun ⟨_, same, h⟩ => Except.ok.inj same ▸ h⟩

/-- A value has a property, or an error is one of those allowed. -/
def Ends (allowed : ε → Prop) (holds : α → Prop) : Except ε α → Prop
  | .ok a => holds a
  | .error e => allowed e

theorem ends_bind {allowed : ε → Prop} {holds : α → Prop} {then_ : β → Prop} {x : Except ε α}
    {f : α → Except ε β} (first : Ends allowed holds x)
    (second : ∀ a, holds a → Ends allowed then_ (f a)) : Ends allowed then_ (x >>= f) := by
  cases x with
  | error e => exact first
  | ok a => exact second a first

theorem ends_mono {allowed : ε → Prop} {holds holds' : α → Prop} {x : Except ε α}
    (ends : Ends allowed holds x) (weaker : ∀ a, holds a → holds' a) : Ends allowed holds' x := by
  cases x with
  | error e => exact ends
  | ok a => exact weaker a ends

theorem ends_allow {allowed allowed' : ε → Prop} {holds : α → Prop} {x : Except ε α}
    (ends : Ends allowed holds x) (weaker : ∀ e, allowed e → allowed' e) :
    Ends allowed' holds x := by
  cases x with
  | error e => exact weaker e ends
  | ok a => exact ends

theorem ends_any (x : Except ε α) : Ends (fun _ => True) (fun _ => True) x := by
  cases x <;> trivial

end Plc
