import Plc.Proofs.UpToNil

/-! The elements of lists. A list of a global is written to under other names too, once it has gone
where anything may go. It stays homogeneous exactly as long as nothing is written to it under such
a name that its own type would not take. -/
namespace Plc

def Value.IsListOf (heap : Heap) (ty : Ty) : Value → Prop
  | .list a => ∀ x ∈ heap.elements a, ty.Holds x
  | _ => False

instance (heap : Heap) (ty : Ty) (v : Value) : Decidable (v.IsListOf heap ty) :=
  match v with
  | .list a => inferInstanceAs (Decidable (∀ x ∈ heap.elements a, ty.Holds x))
  | .nil | .boolean _ | .character _ | .string _ | .integer _ | .decimal _ =>
    inferInstanceAs (Decidable False)

namespace Machine

/-- The lists of the list globals that are defined so far have the elements that their types
promise. -/
def Homogeneous (p : Program) (c : Config) : Prop :=
  ∀ g ∈ p.globals, ∀ v ∈ g.slot, v.list = true →
    ∀ b ∈ c.store.scope.root.getVariable? g.name, b.value.IsListOf c.store.heap v.ty

instance (p : Program) (c : Config) : Decidable (Homogeneous p c) :=
  inferInstanceAs (Decidable (∀ g ∈ p.globals, ∀ v ∈ g.slot, v.list = true →
    ∀ b ∈ c.store.scope.root.getVariable? g.name, b.value.IsListOf c.store.heap v.ty))

/-- The next step writes to the list of a list global, through a variable that is no list variable,
what is neither nil nor of the type of the elements. -/
def Spoils (p : Program) (c : Config) : Prop :=
  ∃ a i x, c.AliasWrite a i x ∧ ∃ g ∈ p.globals, ∃ v ∈ g.slot, v.list = true ∧
    (∃ b ∈ c.store.scope.root.getVariable? g.name, b.value = .list a) ∧ ¬ v.ty.Holds x

variable {p : Program} {base : Ty} {x : Point}

theorem Sound.homogeneous (typed : p.WellTyped) (sound : Sound .upToNil p base x) :
    Homogeneous p x.config := by
  intro g member v slot list b found
  obtain ⟨⟨names, _, lists⟩, _⟩ := sound
  have related := names.root.vars g.name
  rw [show _ = some b from found] at related
  cases known : x.view.scope.root.getVariable? g.name with
  | none =>
    rw [known] at related
    cases related
  | some w =>
    obtain ⟨g', member', name, slot'⟩ := names.root.declared g.name w known
    obtain rfl := typed.global_unique member' member name
    obtain rfl := Option.some.inj (slot'.symm.trans slot)
    rw [known] at related
    cases related with
    | some cell =>
      obtain ⟨a, holds⟩ := cell.list list
      rw [holds]
      exact lists.fit g'.name w a ⟨known, list, b, found, holds⟩

theorem Sound.harmless_of_not_spoils (sound : Sound .upToNil p base x)
    (kept : ¬ Spoils p x.config) : x.Harmless Ty.Holds := by
  rintro a i y write name v ⟨known, list, b, found, holds⟩
  obtain ⟨g, member, rfl, slot⟩ := sound.kept.names.root.declared name v known
  by_contra spoiled
  exact kept ⟨a, i, y, write, g, member, v, slot, list, ⟨b, found, holds⟩, spoiled⟩

theorem Sound.after_of_not_spoils (typed : p.WellTyped) (sound : Sound .upToNil p base x) {n : Nat}
    (clean : ∀ m < n, ¬ Spoils p (x.after m).config) : Sound .upToNil p base (x.after n) :=
  sound.after (Discipline.keeps_upToNil typed) typed n fun m before here =>
    here.harmless_of_not_spoils (clean m before)

/-- What is written to a list is an element of it. -/
theorem not_homogeneous_of_spoils {c : Config} (spoils : Spoils p c) :
    ¬ Homogeneous p c.next := by
  obtain ⟨a, i, x, ⟨name, w, offset, pending, focus, top, _, located⟩, g, member, v, slot, list,
    ⟨b, found, holds⟩, spoiled⟩ := spoils
  obtain ⟨_, _, _, inside⟩ := locate_eq_ok located
  obtain ⟨_, _, store⟩ := c
  cases focus
  cases top
  have next : Config.next ⟨.value x, .assignElement name (some w) offset :: pending, store⟩ =
      ⟨.done, pending, { store with heap := store.heap.write a i x }⟩ := by
    apply Config.next_eq
    show some (change store pending (store.assignElement name offset x)) = _
    rw [Store.assignElement, show store.locate name offset = .ok (a, i) from located]
    rfl
  rw [next]
  intro homogeneous
  have still : b.value.IsListOf (store.heap.write a i x) v.ty :=
    homogeneous g member v slot list b found
  rw [holds] at still
  apply spoiled
  apply still x
  rw [Heap.elements_write, if_pos rfl]
  exact Array.mem_setIfInBounds inside

/-- Up to any point of a run, the lists are homogeneous all along exactly if no step before that
point spoils one. -/
theorem homogeneous_iff_not_spoils {text : String} {p : Program}
    (compiled : compile text = .ok p) (room : Option Nat) (report : String) (n : Nat) :
    (∀ m ≤ n, Homogeneous p (((Store.initial room report).start p).after m)) ↔
      ∀ m < n, ¬ Spoils p (((Store.initial room report).start p).after m) := by
  have typed := Program.wellTyped_of_compile compiled
  constructor
  -- What spoils a list is in it behind the step.
  · intro homogeneous m before spoils
    exact not_homogeneous_of_spoils spoils (homogeneous (m + 1) before)
  · intro kept m before
    have sound : Sound .upToNil p .integer ((start room p report).after m) := by
      apply (sound_start .upToNil p room report).after_of_not_spoils typed
      intro k earlier
      rw [Point.config_after]
      exact kept k (Nat.lt_of_lt_of_le earlier before)
    have here := sound.homogeneous typed
    rw [Point.config_after] at here
    exact here

def spoiled : String :=
  "LIST l: Integer = [1];
  FUN main(): Integer DO LET a: Any = l; a[0] = \"x\"; RETURN l[0]; END"

theorem homogeneous_iff_not_spoils_spoiled : ∃ p, compile spoiled = .ok p ∧
    ∃ m < 30, Spoils p (((Store.initial none).start p).after m) := by
  have runs : ∃ p, compile spoiled = .ok p ∧
      ¬ Homogeneous p (((Store.initial none).start p).after 30) := by
    decide +kernel
  obtain ⟨p, compiled, mixed⟩ := runs
  refine ⟨p, compiled, ?_⟩
  by_contra clean
  have homogeneous := (homogeneous_iff_not_spoils compiled none _ 30).mpr
    fun m before spoils => clean ⟨m, before, spoils⟩
  exact mixed (homogeneous 30 (Nat.le_refl 30))

theorem exists_not_homogeneous : ∃ p, compile spoiled = .ok p ∧
    ¬ Homogeneous p (((Store.initial none).start p).after 30) ∧
    ((Store.initial none).runProgram 100 p).map Prod.fst = some (.ok (.string "x")) := by
  decide +kernel

end Machine
end Plc
