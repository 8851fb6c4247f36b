import Plc.Proofs.UpToNil

/-! Programs that say the type of everything. Their runs cannot go wrong, but for the arithmetic,
for an index or for the output. -/
namespace Plc

def Fault.IsArithmeticOrBounds (fault : Fault) : Prop :=
  fault = .divisionByZero ∨ (∃ index length, fault = .indexOutOfBounds index length) ∨
    (∃ exponent, fault = .exponentRange exponent) ∨ ∃ report, fault = .outputFull report

def Discipline.strict : Discipline where
  fits ty v := v.conforms ty = true
  fault := Fault.IsArithmeticOrBounds

namespace Stmt

def isInitialized : Stmt → Bool
  | .declare _ _ value _ => value.isSome
  | _ => true

def declaresPlain : Stmt → Bool
  | .declare _ _ _ slot => slot.all (·.ty.isPlain)
  | _ => true

def assignsMutable : Stmt → Bool
  | .assign receiver _ => receiver.variable?.all (·.2.mutable)
  | _ => true

end Stmt

def Expr.indexesList : Expr → Bool
  | .element _ _ slot => slot.any (·.list)
  | _ => true

/-- All variables have a first value and, like the elements of lists, the parameters and the results
of functions, a plain type; a function with a result ends in giving it; nothing but list variables
is indexed, and no constant is assigned to. -/
structure Program.FullyTyped (p : Program) : Prop where
  globalsInitialized : ∀ g ∈ p.globals, g.value.isSome = true
  localsInitialized : ∀ s ∈ p.statements, s.isInitialized = true
  globalsPlain : ∀ g ∈ p.globals, ∀ v ∈ g.slot, v.ty.isPlain = true
  localsPlain : ∀ s ∈ p.statements, s.declaresPlain = true
  functionsPlain : ∀ f ∈ p.functions, ∀ s ∈ f.slot,
    (∀ ty ∈ s.parameters, ty.isPlain = true) ∧ s.result.isPlain = true
  returns : ∀ f ∈ p.functions, ∀ s ∈ f.slot, s.result ≠ .nil →
    f.body.getLast?.any (·.isRet) = true
  indexed : ∀ e ∈ p.expressions, e.indexesList = true
  assigned : ∀ s ∈ p.statements, s.assignsMutable = true

instance (p : Program) : Decidable p.FullyTyped :=
  decidable_of_iff
    ((∀ g ∈ p.globals, g.value.isSome = true ∧ ∀ v ∈ g.slot, v.ty.isPlain = true) ∧
      (∀ s ∈ p.statements, s.isInitialized = true ∧ s.declaresPlain = true ∧
        s.assignsMutable = true) ∧
      (∀ f ∈ p.functions, ∀ s ∈ f.slot, ((∀ ty ∈ s.parameters, ty.isPlain = true) ∧
        s.result.isPlain = true) ∧ (s.result ≠ .nil → f.body.getLast?.any (·.isRet) = true)) ∧
      ∀ e ∈ p.expressions, e.indexesList = true)
    ⟨fun ⟨globals, statements, functions, indexed⟩ => {
        globalsInitialized := fun g member => (globals g member).1
        localsInitialized := fun s member => (statements s member).1
        globalsPlain := fun g member => (globals g member).2
        localsPlain := fun s member => (statements s member).2.1
        functionsPlain := fun f member s slot => (functions f member s slot).1
        returns := fun f member s slot => (functions f member s slot).2
        indexed
        assigned := fun s member => (statements s member).2.2 },
      fun full =>
        ⟨fun g member => ⟨full.globalsInitialized g member, full.globalsPlain g member⟩,
          fun s member => ⟨full.localsInitialized s member, full.localsPlain s member,
            full.assigned s member⟩,
          fun f member s slot => ⟨full.functionsPlain f member s slot,
            full.returns f member s slot⟩,
          full.indexed⟩⟩

namespace Program

variable {p : Program} {scope : TypeScope}

theorem mem_expressions_of_part {s : Stmt} (member : s ∈ p.statements) {e : Expr}
    (part : e ∈ s.parts) : e ∈ p.expressions :=
  List.mem_append_right _ (List.mem_flatMap.mpr
    ⟨s, member, List.mem_flatMap.mpr ⟨e, part, e.mem_within_self⟩⟩)

namespace FullyTyped

theorem plain_variable (full : p.FullyTyped) {name : String} {v : Variable}
    (introduced : p.Introduces name v) : v.ty.isPlain = true := by
  cases introduced with
  | global place slot => exact full.globalsPlain _ (place.mem List.mem_cons_self) v slot
  | @parameter f s _ _ member slot among =>
    obtain ⟨⟨other, ty⟩, zipped, same⟩ := List.mem_map.mp among
    cases same
    exact (full.functionsPlain f member s slot).1 ty (List.of_mem_zip zipped).2
  | declare place => exact full.localsPlain _ place.mem

theorem plain_result (full : p.FullyTyped) {s : Signature} (provided : p.Provides s) :
    s.result.isPlain = true := by
  rcases provided with rfl | ⟨f, member, slot⟩
  · rfl
  · exact (full.functionsPlain f member s slot).2

end FullyTyped
end Program

theorem Literal.isPlain_of_type {value : Literal} {ty : Ty} (typed : value.type = .ok ty) :
    ty.isPlain = true := by
  cases value with
  | integer i =>
    rw [type] at typed
    split at typed
    · cases typed
      rfl
    · cases typed
  | decimal x =>
    rw [type] at typed
    split at typed
    · cases typed
      rfl
    · cases typed
  | _ =>
    cases typed
    rfl

namespace Program.FullyTyped

variable {p : Program} {scope : TypeScope}

/-- Every expression that is no list literal has a plain type. -/
theorem isPlain_of_ty (full : p.FullyTyped) (typed : p.WellTyped) {e : Expr} {t : Ty}
    (place : p.ExprAt scope e) (single : e.isList = false) (known : e.ty = some t) :
    t.isPlain = true := by
  have rule := typed.exprs place
  cases e with
  | literal value ty =>
    obtain ⟨_, literalTyped, rfl⟩ := rule
    cases known
    exact Literal.isPlain_of_type literalTyped
  | group inner ty =>
    obtain ⟨binary, _, innerKnown, rfl⟩ := rule
    cases known
    have innerPlace :=
      place.part (List.mem_singleton_self inner : inner ∈ Expr.parts (.group inner _))
    -- A group is there for an operation, whose result is plain.
    cases inner with
    | binary op left right ty =>
      obtain ⟨_, _, _, _, _, opTyped, rfl⟩ := typed.exprs innerPlace
      obtain ⟨_, same⟩ := Expr.valueType_eq_ok.mp innerKnown
      cases same
      exact (Operator.type_eq_ok.mp opTyped).isPlain
    | _ => cases binary
  | binary op left right ty =>
    obtain ⟨_, _, _, _, _, opTyped, rfl⟩ := rule
    cases known
    exact (Operator.type_eq_ok.mp opTyped).isPlain
  | access name slot =>
    obtain ⟨v, found, rfl⟩ := rule
    cases known
    exact full.plain_variable (place.introduces found)
  | element name offset slot =>
    obtain ⟨_, v, found, rfl⟩ := rule
    cases known
    exact full.plain_variable (place.introduces found)
  | call name arguments slot =>
    obtain ⟨s, found, _, rfl⟩ := rule
    cases known
    exact full.plain_result (place.provides found)
  | list => cases single

theorem elementsDirect (full : p.FullyTyped) : p.ElementsDirect := by
  intro s member
  cases s with
  | assign receiver value =>
    cases receiver with
    | element name offset slot =>
      have part : Expr.element name offset slot ∈
          (Stmt.assign (.element name offset slot) value).parts := List.mem_cons_self
      exact full.indexed _ (p.mem_expressions_of_part member part)
    | _ => rfl
  | _ => rfl

end Program.FullyTyped

theorem Value.index_ends {v : Value} (conforms : v.conforms .integer = true) (length : Nat) :
    Ends Fault.IsArithmeticOrBounds (fun _ => True) (v.index length) := by
  obtain ⟨i, rfl⟩ := exists_integer conforms
  rw [index]
  split
  · trivial
  · exact .inr (.inl ⟨i, length, rfl⟩)

theorem Operator.Arithmetical.isArithmeticOrBounds {fault : Fault} (h : Arithmetical fault) :
    fault.IsArithmeticOrBounds := by
  rcases h with rfl | ⟨exponent, rfl⟩
  · exact .inl rfl
  · exact .inr (.inr (.inl ⟨exponent, rfl⟩))

theorem Stmt.fallsThrough_eq_false {ss : List Stmt}
    (returns : ss.getLast?.any (·.isRet) = true) : fallsThrough ss = false := by
  induction ss with
  | nil => cases returns
  | cons s ss ih =>
    rw [fallsThrough]
    cases ss with
    | nil =>
      cases s with
      | ret value => rfl
      | _ => cases returns
    | cons next ss => rw [ih returns, Bool.and_false]

theorem Discipline.keeps_strict {p : Program} (typed : p.WellTyped) (full : p.FullyTyped) :
    strict.Keeps p where
  any := Value.conforms_any
  nil := rfl
  boolean _ := rfl
  accepts := Value.conforms_accepts
  literal := Value.conforms_literal
  listed {_ _} conforms v := by
    obtain rfl := Value.eq_any_of_conforms_list conforms
    exact v.conforms_any
  truth conforms := ends_allow (Operator.truth_ends conforms) fun _ h => h.isArithmeticOrBounds
  index := Value.index_ends
  full report := .inr (.inr (.inr ⟨report, rfl⟩))
  operate place leftKnown rightKnown heap x y left right := by
    have plain := full.isPlain_of_ty typed (place.part List.mem_cons_self)
      (typed.exprParts place _ List.mem_cons_self) leftKnown
    have ends := (typed.takes place leftKnown rightKnown).apply_ends plain heap left right
    exact ends_allow ends fun _ h => h.isArithmeticOrBounds
  element {_ _ _ v} place single := by
    have list : v.list = true := full.indexed _ place.mem
    rw [single] at list
    cases list
  immutable {_ _ receiver _ _ _ v} place named fixed := by
    have assigned : receiver.variable?.all (·.2.mutable) = true := full.assigned _ place.mem
    rw [named, Option.all_some, fixed] at assigned
    cases assigned
  declared place := by cases full.localsInitialized _ place.mem
  global place given _ := by
    have initialized := full.globalsInitialized _ (place.mem List.mem_cons_self)
    rw [given] at initialized
    cases initialized
  ends {f s} member slot falls := by
    by_cases result : s.result = .nil
    · rw [result]
      rfl
    · rw [Stmt.fallsThrough_eq_false (full.returns f member s slot result)] at falls
      cases falls

namespace Machine

/-- A run of a fully typed program that ends gives an integer, or fails in arithmetic, at an index
or at the output. -/
theorem fully_typed_run_ends {text : String} {p : Program} (compiled : compile text = .ok p)
    (full : p.FullyTyped) {room : Option Nat} {report : String} {limit : Nat}
    {answer : Except Fault Value}
    {store : Store} (ran : (Store.initial room report).runProgram limit p = some (answer, store)) :
    (∃ i, answer = .ok (.integer i)) ∨
      ∃ fault, answer = .error fault ∧ fault.IsArithmeticOrBounds := by
  have typed := Program.wellTyped_of_compile compiled
  have keeps := Discipline.keeps_strict typed full
  have sound := (sound_start .strict p room report).after_of_direct keeps typed
    full.elementsDirect
  obtain ⟨last, stops, same⟩ := Option.map_eq_some_iff.mp ran
  obtain ⟨rfl, _⟩ := Prod.mk.inj same
  obtain ⟨⟨view, soundLast⟩, stopped⟩ := exists_sound_of_run sound stops
  have ends := soundLast.answer stopped
  cases answered : last.answer with
  | ok v =>
    rw [answered] at ends
    obtain ⟨i, rfl⟩ := Value.exists_integer ends
    exact .inl ⟨i, rfl⟩
  | error fault =>
    rw [answered] at ends
    exact .inr ⟨fault, rfl, ends⟩

def overrun : String :=
  "LIST sums = [0, 0];
  FUN add(x: Integer, y: Integer): Integer DO RETURN x + y; END
  FUN main(): Integer DO LET i = 0;
    WHILE sums[0] < 9 DO sums[i] = add(sums[0], 3); i = i + 1; END
    RETURN i; END"

theorem fully_typed_run_ends_overrun : ∃ p, compile overrun = .ok p ∧ p.FullyTyped ∧
    ∃ fault, ((Store.initial none).runProgram 200 p).map Prod.fst = some (.error fault) ∧
      fault.IsArithmeticOrBounds := by
  have runs : ∃ p, compile overrun = .ok p ∧ p.FullyTyped ∧
      ((Store.initial none).runProgram 200 p).map Prod.fst =
        some (.error (.indexOutOfBounds 2 2)) := by
    decide +kernel
  obtain ⟨p, compiled, full, ran⟩ := runs
  obtain ⟨⟨answer, store⟩, ends, rfl⟩ := Option.map_eq_some_iff.mp ran
  refine ⟨p, compiled, full, _, ran, ?_⟩
  rcases fully_typed_run_ends compiled full ends with ⟨i, answered⟩ | ⟨fault, answered, allowed⟩
  · cases answered
  · cases answered
    exact allowed

end Machine
end Plc
