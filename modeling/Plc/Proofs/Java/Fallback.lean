import Plc.Proofs.Java.Locals
import Plc.Proofs.Typing.Order

/-! The code of a program before its analysis. It takes names and types from what is written, and
the code behind the analysis takes them from the slots. Both are the same wherever the slots hold
what is written. -/
namespace Plc

section Lowering

def Variable.Restates (slot : Option Variable) (name : String) (typeName : Option String) : Prop :=
  ∃ v, slot = some v ∧ v.target = name ∧ typeName.bind Ty.ofName? = some v.ty

def Expr.Restated : Expr → Prop
  | .access name slot => Variable.targetOr slot name = name
  | .element name _ slot => Variable.targetOr slot name = name
  | .call name _ slot => Signature.targetOr slot name = name
  | _ => True

def Stmt.Restated : Stmt → Prop
  | .declare name typeName _ slot => Variable.Restates slot name typeName
  | _ => True

def Global.Restated (g : Global) : Prop := Variable.Restates g.slot g.name g.typeName

def Function.Restated (f : Function) : Prop := ∃ s, f.slot = some s ∧ f.signature = .ok s

/-- The slots of a program hold nothing for its code but what is written. -/
structure Program.Restated (p : Program) : Prop where
  exprs : ∀ e ∈ p.expressions, e.Restated
  stmts : ∀ s ∈ p.statements, s.Restated
  globals : ∀ g ∈ p.globals, g.Restated
  functions : ∀ f ∈ p.functions, f.Restated

theorem Variable.Restates.targetOr_eq {slot : Option Variable} {name : String}
    {typeName : Option String} (restates : Restates slot name typeName) :
    targetOr slot name = name := by
  obtain ⟨v, rfl, target, _⟩ := restates
  exact target

theorem Ty.declared_of_restates {slot : Option Variable} {name : String}
    {typeName : Option String} (restates : Variable.Restates slot name typeName)
    (value value' : Option Expr) :
    declared none typeName value = declared slot typeName value' := by
  obtain ⟨v, rfl, _, ty⟩ := restates
  simp only [declared, ty, Option.map_none, Option.map_some, Option.none_or, Option.some_or]

mutual

theorem Expr.toJava_erase (e : Expr) (restated : ∀ x ∈ e.within, x.Restated) :
    e.erase.toJava = e.toJava := by
  have here := restated e e.mem_within_self
  cases e with
  | literal => rfl
  | access name slot => exact congrArg Java.Expr.name here.symm
  | group inner ty =>
    rw [within, List.forall_mem_cons] at restated
    rw [erase, toJava, toJava, toJava_erase inner restated.2]
  | binary op left right ty =>
    rw [within, List.forall_mem_cons, List.forall_mem_append] at restated
    rw [erase, toJava, toJava, toJava_erase left restated.2.1, toJava_erase right restated.2.2]
  | element name offset slot =>
    rw [within, List.forall_mem_cons] at restated
    rw [erase, toJava, toJava, toJava_erase offset restated.2]
    exact congrArg (Java.Expr.element · _) here.symm
  | call name arguments slot =>
    rw [within, List.forall_mem_cons] at restated
    rw [erase, toJava, toJava, allToJava_eraseAll arguments restated.2]
    exact congrArg (Java.Expr.call · _) here.symm
  | list elements ty =>
    rw [within, List.forall_mem_cons] at restated
    rw [erase, toJava, toJava, allToJava_eraseAll elements restated.2]

theorem Expr.allToJava_eraseAll (es : List Expr) (restated : ∀ x ∈ allWithin es, x.Restated) :
    allToJava (eraseAll es) = allToJava es := by
  cases es with
  | nil => rfl
  | cons e es =>
    rw [allWithin, List.forall_mem_append] at restated
    rw [eraseAll, allToJava, allToJava, toJava_erase e restated.1,
      allToJava_eraseAll es restated.2]

end

def Stmt.RestatedParts (s : Stmt) : Prop :=
  s.Restated ∧ ∀ part ∈ s.parts, ∀ x ∈ part.within, x.Restated

theorem map_toJava_erase {value : Option Expr}
    (restated : ∀ e ∈ value, ∀ x ∈ e.within, x.Restated) :
    (value.map Expr.erase).map Expr.toJava = value.map Expr.toJava := by
  cases value with
  | none => rfl
  | some e => exact congrArg some (e.toJava_erase (restated e rfl))

mutual

theorem Stmt.toJava_erase (s : Stmt) (restated : ∀ x ∈ s.within, x.RestatedParts) :
    s.erase.toJava = s.toJava := by
  obtain ⟨here, parts⟩ := restated s s.mem_within_self
  cases s with
  | expression value =>
    exact congrArg Java.Stmt.expression (value.toJava_erase (parts value List.mem_cons_self))
  | declare name typeName value slot =>
    have single := map_toJava_erase fun e given => parts e (Option.mem_toList.mpr given)
    rw [Stmt.erase, Stmt.toJava, Stmt.toJava, single, here.targetOr_eq,
      Ty.declared_of_restates here _ value]
    rfl
  | assign receiver value =>
    rw [Stmt.erase, Stmt.toJava, Stmt.toJava,
      receiver.toJava_erase (parts receiver List.mem_cons_self),
      value.toJava_erase (parts value (List.mem_cons_of_mem _ List.mem_cons_self))]
  | branch condition thenBody elseBody =>
    rw [Stmt.within, List.forall_mem_cons, List.forall_mem_append] at restated
    rw [Stmt.erase, Stmt.toJava, Stmt.toJava,
      condition.toJava_erase (parts condition List.mem_cons_self),
      Stmt.allToJava_eraseAll thenBody restated.2.1, Stmt.allToJava_eraseAll elseBody restated.2.2]
  | switch condition cases =>
    rw [Stmt.within, List.forall_mem_cons] at restated
    rw [Stmt.parts, List.forall_mem_cons] at parts
    rw [Stmt.erase, Stmt.toJava, Stmt.toJava, condition.toJava_erase parts.1,
      Case.allToJava_eraseAll cases parts.2 restated.2]
  | loop condition body =>
    rw [Stmt.within, List.forall_mem_cons] at restated
    rw [Stmt.erase, Stmt.toJava, Stmt.toJava,
      condition.toJava_erase (parts condition List.mem_cons_self),
      Stmt.allToJava_eraseAll body restated.2]
  | ret value => exact congrArg Java.Stmt.ret (value.toJava_erase (parts value List.mem_cons_self))

theorem Stmt.allToJava_eraseAll (ss : List Stmt)
    (restated : ∀ x ∈ Stmt.allWithin ss, x.RestatedParts) :
    Stmt.allToJava (Stmt.eraseAll ss) = Stmt.allToJava ss := by
  cases ss with
  | nil => rfl
  | cons s ss =>
    rw [Stmt.allWithin, List.forall_mem_append] at restated
    rw [Stmt.eraseAll, Stmt.allToJava, Stmt.allToJava, Stmt.toJava_erase s restated.1,
      Stmt.allToJava_eraseAll ss restated.2]

theorem Case.toJava_erase (c : Case) (value : ∀ e ∈ c.value?, ∀ x ∈ e.within, x.Restated)
    (restated : ∀ x ∈ c.within, x.RestatedParts) : c.erase.toJava = c.toJava := by
  cases c with
  | on e body =>
    rw [Case.erase, Case.toJava, Case.toJava, e.toJava_erase (value e rfl),
      Stmt.allToJava_eraseAll body restated]
  | default body => exact congrArg Java.Case.default (Stmt.allToJava_eraseAll body restated)

theorem Case.allToJava_eraseAll (cs : List Case)
    (values : ∀ e ∈ cs.filterMap Case.value?, ∀ x ∈ e.within, x.Restated)
    (restated : ∀ x ∈ Case.allWithin cs, x.RestatedParts) :
    Case.allToJava (Case.eraseAll cs) = Case.allToJava cs := by
  cases cs with
  | nil => rfl
  | cons c cs =>
    have first : ∀ e ∈ c.value?, e ∈ (c :: cs).filterMap Case.value? :=
      fun e given => List.mem_filterMap.mpr ⟨c, List.mem_cons_self, given⟩
    have others : ∀ e ∈ cs.filterMap Case.value?, e ∈ (c :: cs).filterMap Case.value? :=
      ((List.sublist_cons_self c cs).filterMap _).subset
    rw [Case.allWithin, List.forall_mem_append] at restated
    rw [Case.eraseAll, Case.allToJava, Case.allToJava,
      Case.toJava_erase c (fun e given => values e (first e given)) restated.1,
      Case.allToJava_eraseAll cs (fun e given => values e (others e given)) restated.2]

end

theorem Global.toJava_erase {g : Global} (restated : g.Restated)
    (value : ∀ e ∈ g.value, ∀ x ∈ e.within, x.Restated) : g.erase.toJava = g.toJava := by
  have array : g.erase.isList = g.isList := g.isList_erase
  have ty := Ty.declared_of_restates restated g.erase.value g.value
  have single := map_toJava_erase value
  rw [toJava, toJava, array, restated.targetOr_eq, ← single, ← ty]
  rfl

/-- The types of a signature are those of the type names. -/
theorem Function.javaTypes_erase {f : Function} {s : Signature} (signed : f.signature = .ok s) :
    f.erase.javaTypes = (s.parameters, s.result) := by
  obtain ⟨parameters, resolved, made⟩ := bind_eq_ok.mp signed
  have each : (f.typeNames.map fun name => (Ty.ofName? name).getD .any) = parameters :=
    map_eq_of_mapM (fun name ty known => by rw [Ty.resolve_eq_ok.mp known]; rfl) resolved
  have types : f.erase.javaTypes = (parameters, (f.resultName.bind Ty.ofName?).getD .nil) :=
    congrArg (·, _) each
  rw [types]
  split at made
  · rename_i name written
    obtain ⟨result, known, same⟩ := bind_eq_ok.mp made
    obtain rfl := pure_eq_ok.mp same
    rw [written, Option.bind_some, Ty.resolve_eq_ok.mp known]
    rfl
  · rename_i none
    obtain rfl := pure_eq_ok.mp made
    rw [none]
    rfl

theorem Function.toJava_erase {f : Function} (restated : f.Restated)
    (body : ∀ x ∈ Stmt.allWithin f.body, x.RestatedParts) : f.erase.toJava = f.toJava := by
  obtain ⟨s, slot, signed⟩ := restated
  have types : f.erase.javaTypes = f.javaTypes := by
    rw [javaTypes_erase signed, javaTypes, slot]
  have name : Signature.targetOr f.slot f.name = f.name := by
    rw [slot]
    exact target_of_signature signed
  rw [toJava, toJava, types, name, ← Stmt.allToJava_eraseAll f.body body]
  rfl

/-- Where the slots hold what is written, the code is the same without them. -/
theorem Program.toJava_erase {p : Program} (restated : p.Restated) :
    p.erase.toJava = p.toJava := by
  have globals : ∀ g ∈ p.globals, g.erase.toJava = g.toJava := by
    intro g member
    refine Global.toJava_erase (restated.globals g member) fun e given x inside => ?_
    refine restated.exprs x (List.mem_append_left _ (List.mem_flatMap.mpr ⟨g, member, ?_⟩))
    exact List.mem_flatMap.mpr ⟨e, Option.mem_toList.mpr given, inside⟩
  have functions : ∀ f ∈ p.functions, f.erase.toJava = f.toJava := by
    intro f member
    refine Function.toJava_erase (restated.functions f member) fun s inside => ?_
    have among : s ∈ p.statements := List.mem_flatMap.mpr ⟨f, member, inside⟩
    refine ⟨restated.stmts s among, fun part given x within => ?_⟩
    refine restated.exprs x (List.mem_append_right _ (List.mem_flatMap.mpr ⟨s, among, ?_⟩))
    exact List.mem_flatMap.mpr ⟨part, given, within⟩
  rw [toJava, toJava, erase, List.map_map, List.map_map]
  exact congrArg₂ Java.Class.mk (List.map_congr_left globals) (List.map_congr_left functions)

end Lowering

section Analysed

def Stmt.isTyped : Stmt → Bool
  | .declare _ typeName _ _ => typeName.isSome
  | _ => true

def Expr.callsPrint : Expr → Bool
  | .call name arguments _ => name == "print" && arguments.length == 1
  | _ => false

structure Program.Explicit (p : Program) : Prop where
  globals : ∀ g ∈ p.globals, g.typeName.isSome = true
  locals : ∀ s ∈ p.statements, s.isTyped = true
  calls : ∀ e ∈ p.expressions, e.callsPrint = false

theorem Program.explicit_iff {p : Program} : p.Explicit ↔
    (∀ g ∈ p.globals, g.typeName.isSome = true) ∧ (∀ s ∈ p.statements, s.isTyped = true) ∧
      ∀ e ∈ p.expressions, e.callsPrint = false :=
  ⟨fun ⟨globals, locals, calls⟩ => ⟨globals, locals, calls⟩,
    fun ⟨globals, locals, calls⟩ => ⟨globals, locals, calls⟩⟩

instance (p : Program) : Decidable p.Explicit := decidable_of_iff _ Program.explicit_iff.symm

theorem Stmt.isTyped_erase (s : Stmt) : s.erase.isTyped = s.isTyped := by
  cases s <;> rfl

theorem Expr.length_eraseAll (es : List Expr) : (eraseAll es).length = es.length := by
  induction es with
  | nil => rfl
  | cons e es ih => exact congrArg (· + 1) ih

theorem Expr.callsPrint_erase (e : Expr) : e.erase.callsPrint = e.callsPrint := by
  cases e with
  | call name arguments slot => rw [erase, callsPrint, length_eraseAll, callsPrint]
  | _ => rfl

/-- Nothing of this is in the slots. -/
theorem Program.explicit_erase {p : Program} : p.erase.Explicit ↔ p.Explicit := by
  rw [explicit_iff, explicit_iff, statements_erase, expressions_erase, erase]
  simp only [List.forall_mem_map, Stmt.isTyped_erase, Expr.callsPrint_erase]
  rfl

theorem ofName?_of_declarationType {name : String} {typeName : Option String} {declared : Option Ty}
    {value : Option Expr} {ty : Ty} (written : typeName.isSome)
    (resolved : typeName.mapM Ty.resolve = .ok declared)
    (typed : declarationType name declared value = .ok ty) :
    typeName.bind Ty.ofName? = some ty := by
  obtain ⟨text, rfl⟩ := Option.isSome_iff_exists.mp written
  rw [Option.mapM_some] at resolved
  obtain ⟨t, known, rfl⟩ := map_eq_ok.mp resolved
  rw [Option.bind_some, Ty.resolve_eq_ok.mp known, (requireFits_of_declarationType typed).1 t rfl]

theorem Stmt.restated_of_annotate {scope behind : TypeScope} {result : Option Ty} {raw : Stmt}
    {name : String} {typeName : Option String} {value : Option Expr} {slot : Option Variable}
    (made : raw.annotate scope result = .ok (.declare name typeName value slot, behind))
    (written : typeName.isSome) : Variable.Restates slot name typeName := by
  obtain ⟨declared, ty, resolved, typed, slot⟩ := declared_of_annotate made
  exact ⟨_, slot, rfl, ofName?_of_declarationType written resolved typed⟩

theorem Global.restated_of_annotate {scope behind : TypeScope} {raw g : Global}
    (made : raw.annotate scope = .ok (g, behind)) (written : g.typeName.isSome) : g.Restated := by
  obtain ⟨declared, ty, resolved, typed, slot⟩ := declared_of_annotate made
  exact ⟨_, slot, rfl, ofName?_of_declarationType written resolved typed⟩

namespace Program

variable {p q : Program}

/-- Every variable has the name in generated code that it was introduced with. -/
theorem target_of_introduces (typed : p.WellTyped) (unrenamed : p.Unrenamed) {name : String}
    {v : Variable} (introduced : p.Introduces name v) : v.target = name := by
  cases introduced with
  | @global scope g gs v place slot =>
    exact unrenamed.globals g (place.mem List.mem_cons_self) v slot
  | parameter member slot among =>
    obtain ⟨⟨name, ty⟩, _, same⟩ := List.mem_map.mp among
    obtain ⟨rfl, rfl⟩ := Prod.mk.inj same
    rfl
  | declare place =>
    obtain ⟨ty, slot, _⟩ := typed.stmts place
    cases slot
    rfl

/-- Names come from the scope, where each stands for itself, but for the builtin. -/
theorem restated_expression (bare : p.Bare) (annotated : (p.annotate TypeScope.initial).1 = .ok q)
    {e : Expr} (member : e ∈ q.expressions) (other : e.callsPrint = false) : e.Restated := by
  have typed := (analysed_of_annotate bare (Prod.ext annotated rfl)).wellTyped
  have unrenamed := unrenamed_of_annotate annotated
  -- A variable in force has been introduced somewhere, and under the name that is looked up.
  obtain ⟨scope, place⟩ := exists_exprAt (filled_of_annotate annotated).functions member
  cases e with
  | access name slot =>
    obtain ⟨v, found, rfl⟩ := typed.exprs place
    exact target_of_introduces typed unrenamed (place.introduces found)
  | element name offset slot =>
    obtain ⟨_, v, found, rfl⟩ := typed.exprs place
    exact target_of_introduces typed unrenamed (place.introduces found)
  | call name arguments slot =>
    obtain ⟨s, rfl, ⟨print, _⟩ | ⟨f, among, rfl, slot, _⟩⟩ :=
      callsAmong_expressions annotated member
    · obtain ⟨rfl, one⟩ := Prod.mk.inj print
      rw [Expr.callsPrint, one] at other
      cases other
    · exact unrenamed.functions f among s slot
  | _ => trivial

theorem restated_statement (annotated : (p.annotate TypeScope.initial).1 = .ok q) {s : Stmt}
    (member : s ∈ q.statements) (written : s.isTyped = true) : s.Restated := by
  obtain ⟨f, among, inside⟩ := List.mem_flatMap.mp member
  obtain ⟨_, _, _, made⟩ := (exists_of_annotate annotated).2 f among
  obtain ⟨_, _, body, _, _, _, madeBody, rfl⟩ := Function.steps_of_annotate made
  have whole := Stmt.madeReturning_of_annotateBlock madeBody
  obtain ⟨_, _, raw, made⟩ := Stmt.madeReturning_allWithin whole s inside
  cases s with
  | declare name typeName value slot => exact Stmt.restated_of_annotate made written
  | _ => trivial

/-- With all types written and no call of `print`, the analysis finds out nothing that makes a
difference to the code. -/
theorem restated_of_annotate (bare : p.Bare)
    (annotated : (p.annotate TypeScope.initial).1 = .ok q) (explicit : q.Explicit) :
    q.Restated := by
  obtain ⟨globals, functions⟩ := exists_of_annotate annotated
  constructor
  · intro e member
    exact restated_expression bare annotated member (explicit.calls e member)
  · intro s member
    exact restated_statement annotated member (explicit.locals s member)
  · intro g member
    obtain ⟨_, _, _, made⟩ := globals g member
    exact Global.restated_of_annotate made (explicit.globals g member)
  · intro f member
    obtain ⟨_, _, _, made⟩ := functions f member
    obtain ⟨s, _, _, signed, _, _, _, rfl⟩ := Function.steps_of_annotate made
    exact ⟨s, rfl, signed⟩

/-- If all types are written and `print` is not called, the code of a program is the same before and
behind its analysis. -/
theorem code_agrees_before_analysis {tokens : List Token}
    (read : Reading.readProgram tokens = .ok p)
    (annotated : (p.annotate TypeScope.initial).1 = .ok q) (explicit : p.Explicit) :
    q.toJava.render = p.toJava.render := by
  -- What has been read is what is left of the analysed program without its slots.
  have bare := Reading.readProgram_bare tokens p read
  have erased : q.erase = p := (erase_of_annotate annotated).trans (erase_of_bare bare)
  have restated := restated_of_annotate bare annotated (explicit_erase.mp (erased ▸ explicit))
  rw [← erased, toJava_erase restated]

def explicit : String :=
  "LIST xs: Integer = [1];
FUN print(a: Any, b: Integer) DO LET c: Any = a; END
FUN main(): Integer DO LET xs: Integer = xs[0]; print(xs, xs); RETURN xs; END"

theorem code_agrees_before_analysis_explicit : ∃ tokens p q,
    Token.lex explicit = .ok tokens ∧ Reading.readProgram tokens = .ok p ∧
      (p.annotate TypeScope.initial).1 = .ok q ∧ p.Explicit ∧
      q.toJava.render = p.toJava.render := by
  have accepted : ∃ tokens, Token.lex explicit = .ok tokens ∧
      ∃ p, Reading.readProgram tokens = .ok p ∧
        ∃ q, (p.annotate TypeScope.initial).1 = .ok q ∧ p.Explicit := by
    decide +kernel
  obtain ⟨tokens, lexed, p, read, q, annotated, explicit⟩ := accepted
  exact ⟨tokens, p, q, lexed, read, annotated, explicit,
    code_agrees_before_analysis read annotated explicit⟩

def unexplicit : List String :=
  ["VAR x = 1; FUN main(): Integer DO RETURN x; END",
    "FUN main(): Integer DO LET x = 1; RETURN x; END",
    "FUN main(): Integer DO print(1); RETURN 1; END"]

/-- None of the conditions can be left out. -/
theorem code_disagrees_unexplicit : ∀ text ∈ unexplicit, ∃ tokens, Token.lex text = .ok tokens ∧
    ∃ p, Reading.readProgram tokens = .ok p ∧
      ∃ q, (p.annotate TypeScope.initial).1 = .ok q ∧ q.toJava.render ≠ p.toJava.render := by
  -- Sizes are faster to evaluate than the comparison of two texts.
  have sizes : ∀ text ∈ unexplicit, ∃ tokens, Token.lex text = .ok tokens ∧
      ∃ p, Reading.readProgram tokens = .ok p ∧ ∃ q, (p.annotate TypeScope.initial).1 = .ok q ∧
        q.toJava.render.utf8ByteSize ≠ p.toJava.render.utf8ByteSize := by
    decide +kernel
  intro text member
  obtain ⟨tokens, lexed, p, read, q, annotated, differs⟩ := sizes text member
  exact ⟨tokens, lexed, p, read, q, annotated, fun same => differs (congrArg _ same)⟩

end Program

end Analysed

end Plc
