import Plc.Proofs.Reading.Bare
import Plc.Proofs.Typing.Cases
import Plc.Proofs.Typing.WellTyped
import Plc.Proofs.Typing.Within
import Plc.Reading.Phrase
import Plc.Store

/-! The shape of whatever is read, and what may be relied on because of it: the analysis need not
look out for switches without a default, and counts the parameters of a function as a run does. -/
namespace Plc

/-- Cases that end in their only one without a value are all the others and that one. -/
theorem Case.EndInDefault.split {cs : List Case} (ordered : EndInDefault cs) :
    ∃ front body, cs = front ++ [.default body] ∧ ∀ c ∈ front, c.value?.isSome := by
  induction cs with
  | nil => exact ordered.elim
  | cons c cs ih =>
    cases c with
    | on value body =>
      obtain ⟨front, last, rfl, valued⟩ := ih ordered
      exact ⟨.on value body :: front, last, rfl, List.forall_mem_cons.mpr ⟨rfl, valued⟩⟩
    | default body =>
      cases cs with
      | nil => exact ⟨[], body, rfl, nofun⟩
      | cons d cs => exact ordered.elim

theorem Global.Bare.of_list {g : Global} (bare : g.Bare) {elements : List Expr} {ty : Option Ty}
    (value : g.value = some (.list elements ty)) : elements ≠ [] ∧ g.mutable = true := by
  have shape := bare.value
  rw [value] at shape
  exact ⟨shape.1, shape.2.2.2⟩

theorem Global.Bare.value_isSome {g : Global} (bare : g.Bare) (constant : g.mutable = false) :
    g.value.isSome := by
  have shape := bare.value
  cases value : g.value with
  | some e => rfl
  | none =>
    rw [value, constant] at shape
    cases shape

namespace Phrase

def globals : Phrase → List Global
  | .program p => p.globals
  | .global g => [g]
  | _ => []

def functions : Phrase → List Function
  | .program p => p.functions
  | .function f => [f]
  | _ => []

def statements (p : Phrase) : List Stmt :=
  let alone := match p with
    | .statement s => [s]
    | _ => []
  Stmt.allWithin alone ++ p.functions.flatMap fun f => Stmt.allWithin f.body

/-- All expressions of a phrase, at any depth, except for the whole values of its globals. -/
def innerExpressions (p : Phrase) : List Expr :=
  let alone := match p with
    | .expression e => [e]
    | _ => []
  let parts := (p.globals.flatMap fun g => g.value.toList.flatMap Expr.parts) ++
    p.statements.flatMap Stmt.parts
  Expr.allWithin (alone ++ parts)

def erase : Phrase → Phrase
  | .program p => .program p.erase
  | .global g => .global g.erase
  | .function f => .function f.erase
  | .statement s => .statement s.erase
  | .expression e => .expression e.erase

/-- There is nothing in any slot. A function has a type name for each parameter. A switch has cases,
and of these the last one and no other is without a value. A list literal stands nowhere but as the
whole value of a global; it has elements, and the global is mutable. A global that is not mutable
has a value. -/
structure WellShaped (p : Phrase) : Prop where
  unannotated : p.erase = p
  typeNames : ∀ f ∈ p.functions, f.typeNames.length = f.parameters.length
  switches : ∀ condition cases, .switch condition cases ∈ p.statements →
    ∃ front body, cases = front ++ [.default body] ∧ ∀ c ∈ front, c.value?.isSome
  listless : ∀ e ∈ p.innerExpressions, e.isList = false
  lists : ∀ g ∈ p.globals, ∀ elements ty, g.value = some (.list elements ty) →
    elements ≠ [] ∧ g.mutable = true
  constants : ∀ g ∈ p.globals, g.mutable = false → g.value.isSome

namespace Bare

variable {p : Phrase}

theorem erase_eq (bare : p.Bare) : p.erase = p := by
  cases p with
  | program p => exact congrArg program (Program.erase_of_bare bare)
  | global g => exact congrArg global (Global.erase_of_bare bare)
  | function f => exact congrArg function (Function.erase_of_bare bare)
  | statement s => exact congrArg statement (s.erase_of_bare bare)
  | expression e => exact congrArg expression (e.erase_of_bare bare)

theorem of_mem_globals (bare : p.Bare) : ∀ g ∈ p.globals, g.Bare := by
  cases p with
  | program p => exact Program.Bare.globals bare
  | global g => exact List.forall_mem_singleton.mpr bare
  | _ => exact nofun

theorem of_mem_functions (bare : p.Bare) : ∀ f ∈ p.functions, f.Bare := by
  cases p with
  | program p => exact Program.Bare.functions bare
  | function f => exact List.forall_mem_singleton.mpr bare
  | _ => exact nofun

theorem of_mem_statements (bare : p.Bare) : ∀ s ∈ p.statements, s.Bare := by
  have all (ss : List Stmt) (each : ∀ s ∈ ss, s.Bare) : ∀ s ∈ Stmt.allWithin ss, s.Bare :=
    Stmt.forall_allWithin (fun _ made => made)
      (fun _ made body member _ inside => (made.of_mem_bodies member).of_mem inside) ss each
  refine List.forall_mem_append.mpr ⟨all _ ?_, ?_⟩
  · cases p with
    | statement s => exact List.forall_mem_singleton.mpr bare
    | _ => exact nofun
  · intro s member
    obtain ⟨f, found, inside⟩ := List.mem_flatMap.mp member
    exact all f.body (fun _ => (of_mem_functions bare f found).body.of_mem) s inside

theorem of_mem_innerExpressions (bare : p.Bare) : ∀ e ∈ p.innerExpressions, e.Bare := by
  refine Expr.forall_allWithin (fun _ made => made) (fun _ made _ => made.of_mem_parts) _ ?_
  refine List.forall_mem_append.mpr ⟨?_, List.forall_mem_append.mpr ⟨?_, ?_⟩⟩
  · cases p with
    | expression e => exact List.forall_mem_singleton.mpr bare
    | _ => exact nofun
  · intro e member
    obtain ⟨g, found, member⟩ := List.mem_flatMap.mp member
    obtain ⟨whole, value, part⟩ := List.mem_flatMap.mp member
    have bareValue := (of_mem_globals bare g found).value
    rw [Option.mem_toList.mp value] at bareValue
    exact Global.bare_of_mem_parts bareValue part
  · intro e member
    obtain ⟨s, found, part⟩ := List.mem_flatMap.mp member
    exact (of_mem_statements bare s found).of_mem_parts part

end Bare

theorem wellShaped_of_bare {p : Phrase} (bare : p.Bare) : p.WellShaped where
  unannotated := bare.erase_eq
  typeNames := fun f member => (bare.of_mem_functions f member).arity
  switches := fun _ _ member => (bare.of_mem_statements _ member).2.2.split
  listless := fun e member => (bare.of_mem_innerExpressions e member).isList_eq_false
  lists := fun g member _ _ value => (bare.of_mem_globals g member).of_list value
  constants := fun g member constant => (bare.of_mem_globals g member).value_isSome constant

end Phrase

namespace Reading

variable {kind : Phrase.Kind} {ts rest : List Token} {p : Phrase}

theorem bare_of_phrase (read : phrase kind ts = .ok (p, rest)) : p.Bare := by
  cases kind <;> obtain ⟨answer, given, same⟩ := map_eq_ok.mp read <;>
    obtain ⟨rfl, _⟩ := Prod.mk.inj same
  case program => exact definitions_bare false ts answer given
  case global => exact global_bare ts answer given
  case function => exact function_bare ts answer given
  case statement => exact statement_bare ts answer given
  case expression => exact expression_bare ts answer given

/-- Also behind calls that failed. -/
theorem bare_of_mem_phrasesFrom {kinds : List Phrase.Kind}
    (read : .ok p ∈ phrasesFrom ts kinds rest) : p.Bare := by
  induction kinds generalizing rest with
  | nil => cases read
  | cons kind kinds ih =>
    rw [phrasesFrom] at read
    split at read
    · rename_i answer behind given
      rcases List.mem_cons.mp read with same | read
      · cases same
        exact bare_of_phrase given
      · exact ih read
    · rcases List.mem_cons.mp read with same | read
      · cases same
      · exact ih read

end Reading

/-- Whatever the analysis registers for a function has as many parameters as the function itself.
Hence each of the analysis and a run finds what it has registered by the number of parameters under
which the other has. -/
structure Function.RegisteredAlike (f : Function) : Prop where
  arity : ∀ scope, (f.annotate scope).2 = scope ∨
    ∃ s, s.arity = f.parameters.length ∧
      scope.defineFunction f.name s.arity s = .ok (f.annotate scope).2
  found : ∀ scope f' behind (store store' : Store), f.annotate scope = (.ok f', behind) →
    store.defineFunction f' = .ok store' →
    ∃ s, f'.slot = some s ∧ behind.lookupFunction f'.name f'.parameters.length = .ok s ∧
      store'.scope.lookupFunction f'.name s.arity = .ok (.declared f')

section Registered

variable {V F : Type}

/-- A function is found under the name and the arity under which it was defined. -/
theorem Scope.lookupFunction_of_defineFunction {scope scope' : Scope V F} {name : String}
    {arity : Nat} {value : F} (defined : scope.defineFunction name arity value = .ok scope') :
    scope'.lookupFunction name arity = .ok value := by
  obtain ⟨_, rfl⟩ := defineFunction_eq_ok.mp defined
  rw [lookupFunction_eq_ok, getFunction?_bindFunction, if_pos rfl]

theorem Function.arity_of_signature {f : Function} {s : Signature} (bare : f.Bare)
    (signed : f.signature = .ok s) : s.arity = f.parameters.length :=
  (length_of_signature signed).trans bare.arity

/-- The analysis of a function leaves its signature behind, or nothing. -/
theorem Function.annotate_cases (f : Function) (scope : TypeScope) :
    (∃ fault, f.annotate scope = (.error fault, scope)) ∨
      ∃ s behind, f.signature = .ok s ∧ scope.defineFunction f.name s.arity s = .ok behind ∧
        f.annotate scope = (f.annotateBody behind s, behind) := by
  rw [annotate]
  split
  · exact .inl ⟨_, rfl⟩
  · rename_i s signed
    split
    · exact .inl ⟨_, rfl⟩
    · rename_i behind defined
      exact .inr ⟨s, behind, signed, defined, rfl⟩

theorem Function.registeredAlike_of_bare {f : Function} (bare : f.Bare) : f.RegisteredAlike where
  arity := by
    intro scope
    rcases f.annotate_cases scope with ⟨fault, failed⟩ | ⟨s, behind, signed, defined, made⟩
    · exact .inl (by rw [failed])
    · exact .inr ⟨s, arity_of_signature bare signed, by rw [made, defined]⟩
  found := by
    intro scope f' behind store store' annotated registered
    rcases f.annotate_cases scope with ⟨fault, failed⟩ | ⟨s, behind', signed, defined, made⟩
    · rw [failed] at annotated
      cases annotated
    · rw [made] at annotated
      obtain ⟨body, rfl⟩ := Prod.mk.inj annotated
      simp only [annotateBody, bind_eq_ok, pure_eq_ok] at body
      obtain ⟨frame, _, block, _, rfl⟩ := body
      obtain ⟨scope', run, rfl⟩ := map_eq_ok.mp registered
      have arity := arity_of_signature bare signed
      refine ⟨s, rfl, ?_, ?_⟩
      · rw [← arity]
        exact Scope.lookupFunction_of_defineFunction defined
      · rw [arity]
        exact Scope.lookupFunction_of_defineFunction run

end Registered

namespace Reading

/-- Whatever the tokens are, and whichever phrases are read from them one behind the other, each
tree that comes of it is well shaped. So the analysis of it finds no fault with the order of cases,
and each of its functions is registered with the number of its parameters by the analysis as by a
run. -/
theorem trees_are_well_shaped (ts : List Token) (kinds : List Phrase.Kind) (p : Phrase)
    (read : .ok p ∈ phrases ts kinds) :
    p.WellShaped ∧
    (∀ scope fault, (p.annotate scope).1 = .error fault →
      fault ≠ .missingDefault ∧ fault ≠ .earlyDefault ∧
        fault.message ∉ ["SWITCH statements must end with a DEFAULT case.",
          "The DEFAULT case must be the last case of a SWITCH."]) ∧
    ∀ f ∈ p.functions, f.RegisteredAlike := by
  have bare : p.Bare := bare_of_mem_phrasesFrom read
  refine ⟨Phrase.wellShaped_of_bare bare, ?_, ?_⟩
  · intro scope fault failed
    have elsewhere : fault.IsElsewhere := by
      have inOrder := Phrase.inOrder_annotate scope bare
      rwa [failed] at inOrder
    exact ⟨elsewhere.1, elsewhere.2, elsewhere.message_notMem⟩
  · exact fun f member => Function.registeredAlike_of_bare (bare.of_mem_functions f member)

/-- A function with a switch, read behind a global that could not be. -/
theorem trees_are_well_shaped_behind_error :
    ∃ ts p, Token.lex "LIST 1 FUN f(x, y: Integer) DO SWITCH y CASE 1: f(x); DEFAULT END END" =
        .ok ts ∧
      .ok p ∈ phrases ts [.global, .expression, .function] ∧
      p.functions.map (fun f => (f.name, f.parameters)) = [("f", ["x", "y"])] ∧
      p.WellShaped ∧ (p.annotate TypeScope.initial).1 ≠ .error .missingDefault ∧
      ∀ f ∈ p.functions, f.RegisteredAlike := by
  have goes : ∃ ts,
      Token.lex "LIST 1 FUN f(x, y: Integer) DO SWITCH y CASE 1: f(x); DEFAULT END END" = .ok ts ∧
      (phrases ts [.global, .expression, .function]).map (fun answer =>
          answer.toOption.map fun p => p.functions.map fun f => (f.name, f.parameters)) =
        [none, some [], some [("f", ["x", "y"])]] := by
    decide +kernel
  obtain ⟨ts, lexed, goes⟩ := goes
  have third : some [("f", ["x", "y"])] ∈ (phrases ts [.global, .expression, .function]).map
      fun answer => answer.toOption.map fun p =>
        p.functions.map fun f => (f.name, f.parameters) := by
    rw [goes]
    simp
  obtain ⟨answer, member, same⟩ := List.mem_map.mp third
  cases answer with
  | error e => cases same
  | ok p =>
    obtain ⟨shaped, inOrder, registered⟩ :=
      trees_are_well_shaped ts [.global, .expression, .function] p member
    exact ⟨ts, p, lexed, member, Option.some.inj same, shaped,
      fun failed => (inOrder _ _ failed).1 rfl, registered⟩

end Reading
end Plc
