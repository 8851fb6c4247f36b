import Plc.Proofs.Homogeneity
import Plc.Proofs.Machine.Faults
import Plc.Proofs.Names

/-! The two checks that a run makes of a variable: that it may be assigned to, and that it has a
list. The analysis makes neither of them, but what it has noted of the variable decides them. -/
namespace Plc

/-- What cannot be assigned to has been introduced by a constant global. -/
theorem Program.Introduces.constant {p : Program} (typed : p.WellTyped) {name : String}
    {v : Variable} (introduced : p.Introduces name v) (fixed : v.mutable = false) :
    ∃ g ∈ p.globals, g.name = name ∧ g.slot = some v ∧ g.mutable = false := by
  cases introduced with
  | @global scope g gs v place slot =>
    obtain ⟨w, slot', _, mutable, _⟩ := typed.globals place
    obtain rfl := Option.some.inj (slot.symm.trans slot')
    exact ⟨g, place.mem List.mem_cons_self, rfl, slot, mutable.symm.trans fixed⟩
  | parameter _ _ among =>
    obtain ⟨_, _, same⟩ := List.mem_map.mp among
    cases same
    cases fixed
  | declare place =>
    obtain ⟨ty, slot, _⟩ := typed.stmts place
    cases slot
    cases fixed

namespace Store

variable {store : Store} {name : String} {b : Binding}

theorem requireMutable_eq (looked : store.scope.lookupVariable name = .ok b) :
    store.requireMutable name =
      if b.mutable then .ok () else .error (.immutableAssignment name) := by
  rw [requireMutable, looked]
  show (if (!b.mutable) = true then _ else _) = _
  cases b.mutable <;> rfl

theorem locate_eq_notAList_iff (looked : store.scope.lookupVariable name = .ok b)
    (offset : Value) :
    store.locate name offset = .error (.notAList name) ↔ ∀ a, b.value ≠ .list a := by
  obtain ⟨other, mutable, value⟩ := b
  rw [locate, looked]
  cases value with
  | list a =>
    constructor
    · intro failed
      have found : Unguarded ((offset.index (store.heap.elements a).size).map fun i => (a, i)) :=
        unguarded_map (unguarded_ofValues (offset.index_ofValues _)) _
      change (offset.index (store.heap.elements a).size).map (fun i => (a, i)) = _ at failed
      rw [failed] at found
      cases found
    · exact fun single => absurd rfl (single a)
  | _ =>
    refine iff_of_true rfl ?_
    rintro a ⟨⟩

end Store

namespace Machine

def Config.Raises (c : Config) (fault : Fault) : Prop :=
  (∀ earlier, c.focus ≠ .failing earlier) ∧ c.next.focus = .failing fault

theorem Config.Raises.checks {c : Config} {fault : Fault} (raises : c.Raises fault)
    (guard : fault.isGuard = true) : c.Checks fault := by
  obtain ⟨going, failing⟩ := raises
  rw [Config.next] at failing
  cases stepped : step? c with
  | none =>
    rw [stepped] at failing
    exact absurd failing (going fault)
  | some next =>
    rw [stepped] at failing
    exact checks_of_step stepped going failing guard

/-- A fault that is there has come at some point. -/
theorem Config.exists_raises {c : Config} (going : ∀ earlier, c.focus ≠ .failing earlier) {n : Nat}
    {fault : Fault} (failing : (c.after n).focus = .failing fault) :
    ∃ m < n, (c.after m).Raises fault := by
  induction n with
  | zero => exact absurd failing (going fault)
  | succ n ih =>
    by_cases before : ∃ earlier, (c.after n).focus = .failing earlier
    · obtain ⟨earlier, before⟩ := before
      have same : earlier = fault := by
        rw [Config.after, Config.next] at failing
        generalize c.after n = last at before failing
        obtain ⟨_, pending, store⟩ := last
        cases before
        cases pending with
        | nil => exact Focus.failing.inj failing
        | cons p pending => cases p <;> exact Focus.failing.inj failing
      obtain ⟨m, sooner, raises⟩ := ih (same ▸ before)
      exact ⟨m, Nat.lt_succ_of_lt sooner, raises⟩
    · exact ⟨n, Nat.lt_succ_self n, not_exists.mp before, failing⟩

section Raises

variable {c : Config} {name : String} {slot : Option Variable} {b : Binding}

theorem Config.Assigns.uses (assigns : c.Assigns name slot) : c.Uses name slot := by
  cases assigns with
  | access => exact .assign
  | element => exact .assignElement

theorem Config.Offsets.uses (offsets : c.Offsets name slot) : c.Uses name slot := by
  cases offsets with
  | read => exact .read
  | write => exact .writeElement

theorem Config.Assigns.raises_iff (assigns : c.Assigns name slot) {fault : Fault} :
    c.Raises fault ↔ c.store.requireMutable name = .error fault := by
  cases assigns with
  | @access _ _ value pending store =>
    have next : Config.next ⟨.execute (.assign (.access name slot) value), pending, store⟩ =
        beginAssign store pending value (.access name slot) := Config.next_eq rfl
    rw [Config.Raises, next, beginAssign]
    cases store.requireMutable name <;> simp
  | @element _ offset _ value pending store =>
    have next : Config.next ⟨.execute (.assign (.element name offset slot) value), pending, store⟩ =
        beginAssign store pending value (.element name offset slot) := Config.next_eq rfl
    rw [Config.Raises, next, beginAssign]
    cases store.requireMutable name <;> simp

/-- Every offset is looked up behind the check that there is a list. -/
theorem Config.Offsets.raises_iff (offsets : c.Offsets name slot) :
    ∃ offset, ∀ fault, c.Raises fault ↔ c.store.locate name offset = .error fault := by
  cases offsets with
  | @read v _ _ pending store =>
    refine ⟨v, fun fault => ?_⟩
    have next : Config.next ⟨.value v, .element name slot :: pending, store⟩ =
        settle store pending (store.readElement name v) := Config.next_eq rfl
    rw [Config.Raises, next, Store.readElement]
    cases store.locate name v <;> simp [settle]
  | @write v _ _ offset pending store =>
    refine ⟨offset, fun fault => ?_⟩
    have next : Config.next ⟨.value v, .assignElement name slot offset :: pending, store⟩ =
        change store pending (store.assignElement name offset v) := Config.next_eq rfl
    rw [Config.Raises, next, Store.assignElement]
    cases store.locate name offset <;> simp [change]

end Raises

def Config.reads? : Config → Option (String × Variable)
  | ⟨.value _, .element name (some v) :: _, _⟩ => some (name, v)
  | _ => none

theorem Config.offsets_of_reads? {c : Config} {name : String} {v : Variable}
    (reads : c.reads? = some (name, v)) : c.Offsets name (some v) := by
  rw [Config.reads?.eq_def] at reads
  split at reads
  · cases reads
    exact .read
  · cases reads

/-- The checks of variables that a configuration makes come out as the analysis has noted. -/
structure GuardsAgree (p : Program) (c : Config) : Prop where
  immutable : ∀ name, c.Raises (.immutableAssignment name) ↔
    ∃ v, c.Assigns name (some v) ∧ v.mutable = false
  constant : ∀ name v, c.Assigns name (some v) → v.mutable = false →
    ∃ g ∈ p.globals, g.name = name ∧ g.slot = some v ∧ g.mutable = false
  single : ∀ name, c.Raises (.notAList name) → ∃ v, c.Offsets name (some v) ∧ v.list = false

variable {d : Discipline} {p : Program} {base : Ty} {x : Point}

theorem Sound.introduces (typed : p.WellTyped) (sound : Sound d p base x) {name : String}
    {v : Variable} (assigns : x.config.Assigns name (some v)) : p.Introduces name v := by
  obtain ⟨view, c⟩ := x
  obtain ⟨_, task⟩ := sound
  cases assigns with
  | access =>
    cases task with
    | execute place =>
      obtain ⟨w, known, slot⟩ := variable_of_assign typed place
      exact place.introduces (slot ▸ known)
  | element =>
    cases task with
    | execute place =>
      obtain ⟨_, w, known, slot⟩ := variable_of_assign typed place
      exact place.introduces (slot ▸ known)

theorem Sound.guardsAgree (typed : p.WellTyped) (sound : Sound d p base x) :
    GuardsAgree p x.config where
  immutable name := by
    have refused {slot : Option Variable} (assigns : x.config.Assigns name slot) :
        ∃ v, slot = some v ∧
          (x.config.Raises (.immutableAssignment name) ↔ v.mutable = false) := by
      obtain ⟨v, b, slot, looked, cell⟩ := sound.uses typed assigns.uses
      refine ⟨v, slot, ?_⟩
      rw [assigns.raises_iff, Store.requireMutable_eq looked, cell.mutable]
      cases v.mutable <;> simp
    constructor
    · intro raises
      obtain ⟨_, slot, ⟨assigns, same⟩ | ⟨_, same⟩⟩ := raises.checks rfl
      · cases same
        obtain ⟨v, rfl, fixed⟩ := refused assigns
        exact ⟨v, assigns, fixed.mp raises⟩
      · cases same
    · rintro ⟨v, assigns, fixed⟩
      obtain ⟨_, same, raises⟩ := refused assigns
      cases same
      exact raises.mpr fixed
  constant _ _ assigns fixed := (sound.introduces typed assigns).constant typed fixed
  single name raises := by
    obtain ⟨_, slot, ⟨_, same⟩ | ⟨offsets, same⟩⟩ := raises.checks rfl
    · cases same
    · cases same
      obtain ⟨v, b, rfl, looked, cell⟩ := sound.uses typed offsets.uses
      obtain ⟨offset, raised⟩ := offsets.raises_iff
      refine ⟨v, offsets, ?_⟩
      by_contra list
      obtain ⟨a, holds⟩ := cell.list (Bool.not_eq_false _ ▸ list)
      exact (Store.locate_eq_notAList_iff looked offset).mp ((raised _).mp raises) a holds

/-- Only a variable of type `Any` can have a list without being a list variable. -/
theorem Sound.raises_notAList (typed : p.WellTyped) (sound : Sound .upToNil p base x)
    {name : String} {v : Variable} (offsets : x.config.Offsets name (some v))
    (single : v.list = false) (narrow : v.ty ≠ .any) : x.config.Raises (.notAList name) := by
  obtain ⟨_, b, same, looked, cell⟩ := sound.uses typed offsets.uses
  cases same
  obtain ⟨offset, raised⟩ := offsets.raises_iff
  refine (raised _).mpr ((Store.locate_eq_notAList_iff looked offset).mpr ?_)
  intro a holds
  rcases cell.single single with absent | conforms
  · rw [holds] at absent
    cases absent
  · exact narrow (Value.eq_any_of_conforms_list (holds ▸ conforms))

/-- Whether a variable may be assigned to and whether it has a list is checked where the run comes
to it, and what the analysis has noted of the variable decides the outcome: an assignment is
refused exactly if the variable is not mutable, which makes it a constant global, and an offset is
refused for nothing but a variable that is no list, and for every such one whose type is not `Any`,
if no list was spoiled until then. -/
theorem guards_agree {text : String} {p : Program} (compiled : compile text = .ok p)
    (room : Option Nat) (report : String) :
    (∀ n, GuardsAgree p (((Store.initial room report).start p).after n)) ∧
      (∀ n name v, (∀ m < n, ¬ Spoils p (((Store.initial room report).start p).after m)) →
        (((Store.initial room report).start p).after n).Offsets name (some v) → v.list = false →
        v.ty ≠ .any → (((Store.initial room report).start p).after n).Raises (.notAList name)) ∧
      ∀ limit fault store,
        (Store.initial room report).runProgram limit p = some (.error fault, store) →
        ∃ n, (((Store.initial room report).start p).after n).Raises fault := by
  have typed := Program.wellTyped_of_compile compiled
  have config (m : Nat) : ((start room p report).after m).config =
      ((Store.initial room report).start p).after m := Point.config_after (start room p report) m
  refine ⟨?_, ?_, ?_⟩
  · intro n
    exact config n ▸ ((sound_start .naming p room report).naming_after typed n).guardsAgree typed
  · intro n name v clean offsets single narrow
    have sound : Sound .upToNil p .integer ((start room p report).after n) := by
      apply (sound_start .upToNil p room report).after_of_not_spoils typed
      intro m before
      rw [config]
      exact clean m before
    rw [← config] at offsets ⊢
    exact sound.raises_notAList typed offsets single narrow
  · intro limit fault store ran
    -- A run does not begin with a fault, so there is a step that brings it.
    have going : ∀ earlier, ((Store.initial room report).start p).focus ≠ .failing earlier := by
      rintro _ ⟨⟩
    obtain ⟨n, failing⟩ := exists_failing_of_runProgram ran
    obtain ⟨m, _, raises⟩ := Config.exists_raises going failing
    exact ⟨m, raises⟩

def misread : String := "VAR x: Integer = 1; FUN main(): Integer DO RETURN x[0]; END"

theorem guards_agree_misread : ∃ p, compile misread = .ok p ∧
    (((Store.initial none).start p).after 12).Raises (.notAList "x") ∧
    ∃ n v, (((Store.initial none).start p).after n).Offsets "x" (some v) ∧ v.list = false := by
  have runs : ∃ p, compile misread = .ok p ∧
      ((Store.initial none).runProgram 40 p).map Prod.fst = some (.error (.notAList "x")) ∧
      (∀ g ∈ p.globals, ∀ v ∈ g.slot, v.list = false) ∧
      (((Store.initial none).start p).after 12).reads?.map
        (fun read => (read.1, read.2.list, read.2.ty)) = some ("x", false, .integer) := by
    decide +kernel
  obtain ⟨p, compiled, ran, noLists, here⟩ := runs
  obtain ⟨agree, refused, raised⟩ := guards_agree compiled none _
  refine ⟨p, compiled, ?_, ?_⟩
  · have clean : ∀ m < 12, ¬ Spoils p (((Store.initial none).start p).after m) := by
      rintro m _ ⟨_, _, _, _, g, member, v, slot, list, _⟩
      exact Bool.false_ne_true ((noLists g member v slot).symm.trans list)
    obtain ⟨⟨name, v⟩, reads, same⟩ := Option.map_eq_some_iff.mp here
    obtain ⟨rfl, single, integer⟩ : name = "x" ∧ v.list = false ∧ v.ty = .integer := by
      simpa using same
    exact refused 12 "x" v clean (Config.offsets_of_reads? reads) single (integer ▸ nofun)
  · obtain ⟨⟨_, store⟩, ends, rfl⟩ := Option.map_eq_some_iff.mp ran
    obtain ⟨n, raises⟩ := raised 40 _ store ends
    exact ⟨n, (agree n).single "x" raises⟩

def reassigned : String := "VAL x = 1; FUN main(): Integer DO x = 2; RETURN x; END"

theorem exists_refused : (∃ p, compile reassigned = .ok p ∧
    ((Store.initial none).runProgram 40 p).map Prod.fst =
      some (.error (.immutableAssignment "x"))) ∧
    ∃ p, compile misread = .ok p ∧
      ((Store.initial none).runProgram 40 p).map Prod.fst = some (.error (.notAList "x")) := by
  decide +kernel

end Machine
end Plc
