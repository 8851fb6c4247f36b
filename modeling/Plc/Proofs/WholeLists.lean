import Plc.Proofs.Typing.Order

/-! Where lists stand that are named as a whole. Every expression of a program has a role: it is the
value of something, or an operand, a condition and so on. Lists as a whole have no role but that of
a value where one of any type is taken. -/
namespace Plc

/-- What an expression is there for. An argument goes with the type of its parameter, a first value
with the type that is written, an assigned value with the type of the receiver, and a returned one
with that of the result. -/
inductive Role where
  | argument (parameter : Option Ty)
  | first (typeName : Option String)
  | assigned (target : Option Ty)
  | returned (result : Option Ty)
  | statement
  | operand
  | grouped
  | condition
  | subject
  | caseValue
  | offset
  | element
  | receiver
deriving DecidableEq

namespace Role

def TakesAny : Role → Prop
  | argument ty => ty = some .any
  | first typeName => typeName = some Ty.any.name
  | assigned ty => ty = some .any
  | returned ty => ty = some .any
  | _ => False

end Role

def Expr.rolesOfArguments : List Ty → List Expr → List (Role × Expr)
  | _, [] => []
  | types, e :: es => (.argument types.head?, e) :: Expr.rolesOfArguments types.tail es

def Expr.roles : Expr → List (Role × Expr)
  | .literal .. => []
  | .group inner _ => [(.grouped, inner)]
  | .binary _ left right _ => [(.operand, left), (.operand, right)]
  | .access .. => []
  | .element _ offset _ => [(.offset, offset)]
  | .call _ arguments slot => rolesOfArguments (slot.elim [] (·.parameters)) arguments
  | .list elements _ => elements.map fun e => (.element, e)

def Stmt.roles (result : Option Ty) : Stmt → List (Role × Expr)
  | .expression value => [(.statement, value)]
  | .declare _ typeName value _ => value.toList.map fun e => (.first typeName, e)
  | .assign receiver value => [(.receiver, receiver), (.assigned receiver.ty, value)]
  | .branch condition _ _ => [(.condition, condition)]
  | .switch condition cases =>
    (.subject, condition) :: (cases.filterMap Case.value?).map fun e => (.caseValue, e)
  | .loop condition _ => [(.condition, condition)]
  | .ret value => [(.returned result, value)]

inductive Program.Stands (p : Program) : Role → Expr → Prop
  | global {g : Global} {e : Expr} :
      g ∈ p.globals → g.value = some e → Stands p (.first g.typeName) e
  | statement {f : Function} {s : Stmt} {role : Role} {e : Expr} :
      f ∈ p.functions → s ∈ Stmt.allWithin f.body →
        (role, e) ∈ s.roles (f.slot.map (·.result)) → Stands p role e
  | part {outer role : Role} {e part : Expr} :
      Stands p outer e → (role, part) ∈ e.roles → Stands p role part

section Roles

theorem Expr.map_rolesOfArguments (types : List Ty) (es : List Expr) :
    (rolesOfArguments types es).map (·.2) = es := by
  induction es generalizing types with
  | nil => rfl
  | cons e es ih => exact congrArg (e :: ·) (ih types.tail)

theorem Expr.map_roles (e : Expr) : e.roles.map (·.2) = e.parts := by
  cases e with
  | call name arguments slot => exact map_rolesOfArguments _ arguments
  | list elements ty => exact (List.map_map ..).trans (List.map_id elements)
  | _ => rfl

theorem Stmt.map_roles (result : Option Ty) (s : Stmt) :
    (s.roles result).map (·.2) = s.parts := by
  cases s with
  | declare name typeName value slot => exact (List.map_map ..).trans (List.map_id value.toList)
  | switch condition cases =>
    exact congrArg (condition :: ·) ((List.map_map ..).trans (List.map_id _))
  | _ => rfl

theorem Expr.exists_role {e part : Expr} (member : part ∈ e.parts) :
    ∃ role, (role, part) ∈ e.roles := by
  rw [← map_roles] at member
  obtain ⟨⟨role, _⟩, among, rfl⟩ := List.mem_map.mp member
  exact ⟨role, among⟩

theorem Expr.mem_parts_of_roles {e part : Expr} {role : Role} (member : (role, part) ∈ e.roles) :
    part ∈ e.parts :=
  map_roles e ▸ List.mem_map_of_mem member

theorem Stmt.exists_role {s : Stmt} {part : Expr} (result : Option Ty) (member : part ∈ s.parts) :
    ∃ role, (role, part) ∈ s.roles result := by
  rw [← map_roles result] at member
  obtain ⟨⟨role, _⟩, among, rfl⟩ := List.mem_map.mp member
  exact ⟨role, among⟩

theorem Stmt.mem_parts_of_roles {s : Stmt} {part : Expr} {role : Role} {result : Option Ty}
    (member : (role, part) ∈ s.roles result) : part ∈ s.parts :=
  map_roles result s ▸ List.mem_map_of_mem member

namespace Program

variable {p : Program} {e : Expr} {role : Role}

theorem Stands.within (stands : p.Stands role e) : ∀ x ∈ e.within, ∃ role, p.Stands role x := by
  refine @Expr.forall_within (fun e => ∃ role, p.Stands role e) _ (fun _ made => made) ?_ e
    ⟨role, stands⟩
  rintro e ⟨outer, stands⟩ part member
  obtain ⟨role, among⟩ := Expr.exists_role member
  exact ⟨role, stands.part among⟩

theorem Stands.mem_all (stands : p.Stands role e) : ∀ x ∈ e.within, x ∈ p.expressions := by
  induction stands with
  | @global g e member value =>
    intro x inside
    refine List.mem_append_left _ (List.mem_flatMap.mpr ⟨g, member, ?_⟩)
    exact List.mem_flatMap.mpr ⟨e, Option.mem_toList.mpr value, inside⟩
  | @statement f s role e member inBody among =>
    intro x inside
    refine List.mem_append_right _ (List.mem_flatMap.mpr ⟨s, ?_, ?_⟩)
    · exact List.mem_flatMap.mpr ⟨f, member, inBody⟩
    · exact List.mem_flatMap.mpr ⟨e, Stmt.mem_parts_of_roles among, inside⟩
  | part _ among ih =>
    exact fun x inside => ih x (Expr.mem_within_of_part (Expr.mem_parts_of_roles among) inside)

/-- Every expression of a program has a role in it. -/
theorem mem_expressions_iff : e ∈ p.expressions ↔ ∃ role, p.Stands role e := by
  constructor
  · intro member
    rcases List.mem_append.mp member with member | member
    · obtain ⟨g, among, member⟩ := List.mem_flatMap.mp member
      obtain ⟨value, given, inside⟩ := List.mem_flatMap.mp member
      exact (Stands.global among (Option.mem_toList.mp given)).within e inside
    · obtain ⟨s, among, member⟩ := List.mem_flatMap.mp member
      obtain ⟨part, given, inside⟩ := List.mem_flatMap.mp member
      obtain ⟨f, inProgram, inBody⟩ := List.mem_flatMap.mp among
      obtain ⟨role, given⟩ := Stmt.exists_role (f.slot.map (·.result)) given
      exact (Stands.statement inProgram inBody given).within e inside
  · rintro ⟨role, stands⟩
    exact stands.mem_all e e.mem_within_self

end Program

end Roles

section Checks

variable {e part : Expr} {role : Role}

theorem Expr.eq_any_of_requireFits {target : Ty} (fits : e.requireFits target = .ok ()) :
    e.wholeList? = none ∨ target = .any := by
  rcases requireFits_eq_ok.mp fits with whole | ⟨ty, typed, _⟩
  · exact .inr whole.1
  · exact .inl (valueType_eq_ok.mp typed).1

theorem Ty.eq_of_resolve {name : String} {ty : Ty} (resolved : Ty.resolve name = .ok ty) :
    name = ty.name := by
  have found : all.find? (fun ty => ty.name == name) = some ty := resolve_eq_ok.mp resolved
  have same := List.find?_some found
  exact (beq_iff_eq.mp same).symm

theorem eq_any_of_declarationType {typeName : Option String} {declared : Option Ty} {name : String}
    {ty : Ty} (resolved : typeName.mapM Ty.resolve = .ok declared)
    (typed : declarationType name declared (some e) = .ok ty) :
    e.wholeList? = none ∨ typeName = some Ty.any.name := by
  cases typeName with
  | none =>
    cases resolved
    exact .inl (Expr.valueType_eq_ok.mp typed).1
  | some written =>
    rw [Option.mapM_some] at resolved
    obtain ⟨t, known, rfl⟩ := map_eq_ok.mp resolved
    have fits := (requireFits_of_declarationType typed).2 e rfl
    obtain rfl := (requireFits_of_declarationType typed).1 t rfl
    refine (Expr.eq_any_of_requireFits fits).imp_right ?_
    rintro rfl
    exact congrArg some (Ty.eq_of_resolve known)

/-- Arguments that fit as many parameters. -/
theorem Expr.takesAny_of_requireAllFit {types : List Ty} {es : List Expr}
    (fit : requireAllFit types es = .ok ()) (enough : es.length ≤ types.length)
    (among : (role, part) ∈ rolesOfArguments types es) :
    part.wholeList? = none ∨ role.TakesAny := by
  induction es generalizing types with
  | nil => cases among
  | cons e es ih =>
    cases types with
    | nil => cases enough
    | cons ty types =>
      obtain ⟨_, fits, others⟩ := bind_eq_ok.mp fit
      rcases List.mem_cons.mp among with here | among
      · obtain ⟨rfl, rfl⟩ := Prod.mk.inj here
        exact (eq_any_of_requireFits fits).imp_right (congrArg some)
      · exact ih others (Nat.le_of_succ_le_succ enough) among

theorem Expr.takesAny_of_rule {scope : TypeScope} {fs : List Function} (rule : e.Rule scope)
    (calls : e.CallsAmong fs) (among : (role, part) ∈ e.roles) :
    part.wholeList? = none ∨ role.TakesAny := by
  cases e with
  | literal => cases among
  | access => cases among
  | group inner ty =>
    obtain ⟨_, t, typed, _⟩ := rule
    obtain ⟨rfl, rfl⟩ := Prod.mk.inj (List.mem_singleton.mp among)
    exact .inl (valueType_eq_ok.mp typed).1
  | binary op left right ty =>
    obtain ⟨_, _, _, leftTyped, rightTyped, _, _⟩ := rule
    rcases List.mem_cons.mp among with here | among
    · obtain ⟨rfl, rfl⟩ := Prod.mk.inj here
      exact .inl (valueType_eq_ok.mp leftTyped).1
    · obtain ⟨rfl, rfl⟩ := Prod.mk.inj (List.mem_singleton.mp among)
      exact .inl (valueType_eq_ok.mp rightTyped).1
  | element name offset slot =>
    obtain ⟨rfl, rfl⟩ := Prod.mk.inj (List.mem_singleton.mp among)
    exact .inl (valueType_eq_ok.mp rule.1).1
  | call name arguments slot =>
    obtain ⟨s, _, fit, rfl⟩ := rule
    obtain ⟨_, ⟨⟩, resolves⟩ := calls
    have arity : s.parameters.length = arguments.length := by
      rcases resolves with ⟨print, rfl⟩ | ⟨_, _, _, _, arity⟩
      · exact (Prod.mk.inj print).2.symm
      · exact arity
    exact takesAny_of_requireAllFit fit (Nat.le_of_eq arity.symm) among
  | list elements ty =>
    obtain ⟨t, _, typed⟩ := rule
    obtain ⟨x, member, same⟩ := List.mem_map.mp among
    obtain ⟨rfl, rfl⟩ := Prod.mk.inj same
    obtain ⟨a, typed, _⟩ := typed x member
    exact .inl (valueType_eq_ok.mp typed).1

theorem Stmt.takesAny_of_annotate {scope behind : TypeScope} {result : Ty} {raw s : Stmt}
    (made : raw.annotate scope (some result) = .ok (s, behind))
    (among : (role, part) ∈ s.roles (some result)) : part.wholeList? = none ∨ role.TakesAny := by
  have rule := (rule_of_annotate made).2.1
  cases s with
  | expression value =>
    obtain ⟨rfl, rfl⟩ := Prod.mk.inj (List.mem_singleton.mp among)
    left
    cases part with
    | access => cases rule
    | _ => rfl
  | declare name typeName value slot =>
    obtain ⟨declared, ty, resolved, typed, _⟩ := declared_of_annotate made
    obtain ⟨x, member, same⟩ := List.mem_map.mp among
    obtain ⟨rfl, rfl⟩ := Prod.mk.inj same
    obtain rfl := Option.mem_toList.mp member
    exact eq_any_of_declarationType resolved typed
  | assign receiver value =>
    obtain ⟨_, ty, typed, fits⟩ := rule
    obtain ⟨single, known⟩ := Expr.valueType_eq_ok.mp typed
    rcases List.mem_cons.mp among with here | among
    · obtain ⟨rfl, rfl⟩ := Prod.mk.inj here
      exact .inl single
    · obtain ⟨rfl, rfl⟩ := Prod.mk.inj (List.mem_singleton.mp among)
      exact (Expr.eq_any_of_requireFits fits).imp_right fun any => known.trans (congrArg some any)
  | branch condition thenBody elseBody =>
    obtain ⟨rfl, rfl⟩ := Prod.mk.inj (List.mem_singleton.mp among)
    exact .inl (Expr.valueType_eq_ok.mp rule).1
  | switch condition cases =>
    obtain ⟨ty, typed, values⟩ := rule
    rcases List.mem_cons.mp among with here | among
    · obtain ⟨rfl, rfl⟩ := Prod.mk.inj here
      exact .inl (Expr.valueType_eq_ok.mp typed).1
    · obtain ⟨x, member, same⟩ := List.mem_map.mp among
      obtain ⟨rfl, rfl⟩ := Prod.mk.inj same
      exact .inl (Expr.valueType_eq_ok.mp (values x member)).1
  | loop condition body =>
    obtain ⟨rfl, rfl⟩ := Prod.mk.inj (List.mem_singleton.mp among)
    exact .inl (Expr.valueType_eq_ok.mp rule).1
  | ret value =>
    obtain ⟨rfl, rfl⟩ := Prod.mk.inj (List.mem_singleton.mp among)
    exact (Expr.eq_any_of_requireFits rule).imp_right (congrArg some)

/-- In what the analysis makes of a global. -/
theorem Global.takesAny_of_annotate {scope behind : TypeScope} {raw g : Global}
    (made : raw.annotate scope = .ok (g, behind)) (given : g.value = some e) :
    e.wholeList? = none ∨ g.typeName = some Ty.any.name := by
  obtain ⟨declared, ty, resolved, typed, _⟩ := declared_of_annotate made
  rw [given] at typed
  exact eq_any_of_declarationType resolved typed

end Checks

namespace Program

variable {p q : Program} {e : Expr} {role : Role}

theorem Stands.takesAny (annotated : (p.annotate TypeScope.initial).1 = .ok q)
    (stands : q.Stands role e) : e.Annotated ∧ (e.wholeList? = none ∨ role.TakesAny) := by
  obtain ⟨globals, functions⟩ := exists_of_annotate annotated
  induction stands with
  | global member given =>
    obtain ⟨g, scope, behind, made⟩ := globals _ member
    exact ⟨(Global.filled_of_annotate made).2 _ given, Global.takesAny_of_annotate made given⟩
  | statement member inBody among =>
    obtain ⟨f, scope, behind, made⟩ := functions _ member
    obtain ⟨s, _, body, _, _, _, madeBody, rfl⟩ := Function.steps_of_annotate made
    have whole := Stmt.madeReturning_of_annotateBlock madeBody
    obtain ⟨inner, next, raw, made⟩ := Stmt.madeReturning_allWithin whole _ inBody
    obtain ⟨r, _, madePart⟩ := (Stmt.rule_of_annotate made).2.2.1 _ (Stmt.mem_parts_of_roles among)
    exact ⟨Expr.annotated_of_annotate madePart, Stmt.takesAny_of_annotate made among⟩
  | @part outer role e part stands among ih =>
    obtain ⟨scope, declared, raw, made⟩ := ih.1
    obtain ⟨rule, _, _, parts⟩ := Global.annotateValue_eq_ok made
    obtain ⟨r, _, madePart⟩ := parts part (Expr.mem_parts_of_roles among)
    have calls := callsAmong_expressions annotated (mem_expressions_iff.mpr ⟨outer, stands⟩)
    exact ⟨Expr.annotated_of_annotate madePart, Expr.takesAny_of_rule rule calls among⟩

/-- In what the analysis makes of a program, whatever tree that is, each expression has a role, and
a list that is named as a whole has no role but that of a value where one of any type is taken. -/
theorem whole_lists_flow_into_any (annotated : (p.annotate TypeScope.initial).1 = .ok q) :
    (∀ e, e ∈ q.expressions ↔ ∃ role, q.Stands role e) ∧
    ∀ role name slot, q.Stands role (.access name slot) →
      ∃ v, slot = some v ∧ (v.list = true → role.TakesAny) := by
  refine ⟨fun e => mem_expressions_iff, ?_⟩
  intro role name slot stands
  obtain ⟨⟨scope, declared, raw, made⟩, single⟩ := stands.takesAny annotated
  obtain ⟨v, _, rfl⟩ := (Global.annotateValue_eq_ok made).1
  refine ⟨v, rfl, fun whole => single.resolve_left ?_⟩
  rw [Expr.wholeList?, if_pos whole]
  exact Option.some_ne_none _

def shadowing : Program where
  globals :=
    [{ name := "xs"
       typeName := none
       mutable := true
       value := some (.list [.literal (.integer 1) none] none)
       slot := none }]
  functions :=
    [{ name := "whole"
       parameters := []
       typeNames := []
       resultName := some "Any"
       body := [.ret (.access "xs" none)]
       slot := none },
     { name := "main"
       parameters := []
       typeNames := []
       resultName := some "Integer"
       body :=
        [.declare "all" (some "Any") (some (.access "xs" none)) none,
          .expression (.call "print" [.access "xs" none] none),
          .declare "xs" none (some (.element "xs" (.literal (.integer 0) none) none)) none,
          .declare "one" none (some (.access "xs" none)) none,
          .ret (.access "one" none)]
       slot := none }]

def shadowed : Variable := ⟨"xs", "xs", .integer, true, true⟩

theorem whole_lists_flow_into_any_shadowing : ∃ q,
    (shadowing.annotate TypeScope.initial).1 = .ok q ∧
      (∀ e, e ∈ q.expressions ↔ ∃ role, q.Stands role e) ∧
      q.Stands (.returned (some .any)) (.access "xs" (some shadowed)) ∧
      q.Stands (.first (some "Any")) (.access "xs" (some shadowed)) ∧
      q.Stands (.argument (some .any)) (.access "xs" (some shadowed)) ∧
      q.Stands (.first none) (.access "xs" (some { shadowed with list := false })) ∧
      ¬ q.Stands (.first none) (.access "xs" (some shadowed)) := by
  obtain ⟨q, annotated, returned, first, passed, element⟩ : ∃ q,
      (shadowing.annotate TypeScope.initial).1 = .ok q ∧
      q.Stands (.returned (some .any)) (.access "xs" (some shadowed)) ∧
      q.Stands (.first (some "Any")) (.access "xs" (some shadowed)) ∧
      q.Stands (.argument (some .any)) (.access "xs" (some shadowed)) ∧
      q.Stands (.first none) (.access "xs" (some { shadowed with list := false })) := by
    refine ⟨_, rfl, ?_, ?_, ?_, ?_⟩
    · exact .statement (.head _) (.head _) (.head _)
    · exact .statement (.tail _ (.head _)) (.head _) (.head _)
    · exact .part (.statement (.tail _ (.head _)) (.tail _ (.head _)) (.head _)) (.head _)
    · exact .statement (.tail _ (.head _)) (.tail _ (.tail _ (.tail _ (.head _)))) (.head _)
  obtain ⟨every, lists⟩ := whole_lists_flow_into_any annotated
  refine ⟨q, annotated, every, returned, first, passed, element, ?_⟩
  intro stands
  obtain ⟨v, same, takes⟩ := lists _ _ _ stands
  obtain rfl := Option.some.inj same
  cases takes rfl

end Program

end Plc
