import Mathlib.Data.List.Nodup
import Plc.Proofs.Reading.Shape
import Plc.Proofs.Typing.Operators
import Plc.Proofs.Typing.Places

/-! What the analysis has checked at each place of a program, one node at a time. A program is well
typed if this holds at all of its places. -/
namespace Plc

namespace Expr

theorem valueType_eq_ok {e : Expr} {ty : Ty} :
    e.valueType = .ok ty ↔ e.wholeList? = none ∧ e.ty = some ty := by
  rw [valueType]
  cases e.wholeList? with
  | some name => simp
  | none =>
    cases e.ty with
    | none => simp
    | some t => simp

theorem requireFits_eq_ok {target : Ty} {e : Expr} {u : Unit} :
    e.requireFits target = .ok u ↔
      (target = .any ∧ e.wholeList?.isSome = true) ∨
        ∃ ty, e.valueType = .ok ty ∧ target.accepts ty = true := by
  rw [requireFits]
  by_cases whole : target = .any ∧ e.wholeList?.isSome = true
  · simp only [whole, and_self, if_true, true_or, iff_true]
    rfl
  · simp only [whole, if_false, false_or]
    constructor
    · intro fits
      obtain ⟨ty, typed, accepted⟩ := bind_eq_ok.mp fits
      exact ⟨ty, typed, Ty.requireAccepts_eq_ok.mp accepted⟩
    · rintro ⟨ty, typed, accepted⟩
      exact bind_eq_ok.mpr ⟨ty, typed, Ty.requireAccepts_eq_ok.mpr accepted⟩

/-- What holds of an expression besides what holds of its parts. -/
def Rule (scope : TypeScope) : Expr → Prop
  | .literal value ty => ∃ t, value.type = .ok t ∧ ty = some t
  | .group inner ty => inner.isBinary = true ∧ ∃ t, inner.valueType = .ok t ∧ ty = some t
  | .binary op left right ty =>
    ∃ a b t, left.valueType = .ok a ∧ right.valueType = .ok b ∧ op.type a b = .ok t ∧
      ty = some t
  | .access name slot => ∃ v, scope.getVariable? name = some v ∧ slot = some v
  | .element name offset slot =>
    offset.valueType = .ok .integer ∧ ∃ v, scope.getVariable? name = some v ∧ slot = some v
  | .call name arguments slot =>
    ∃ s, scope.getFunction? name arguments.length = some s ∧
      requireAllFit s.parameters arguments = .ok () ∧ slot = some s
  | .list elements ty =>
    ∃ t, ty = some t ∧ ∀ e ∈ elements, ∃ a, e.valueType = .ok a ∧ t.accepts a = true

theorem Rule.below {sub scope : TypeScope} {e : Expr} (rule : e.Rule sub)
    (below : sub.Below scope) : e.Rule scope := by
  cases e with
  | access name slot =>
    obtain ⟨v, found, slot⟩ := rule
    exact ⟨v, below.getVariable?_eq name ▸ found, slot⟩
  | element name offset slot =>
    obtain ⟨typed, v, found, slot⟩ := rule
    exact ⟨typed, v, below.getVariable?_eq name ▸ found, slot⟩
  | call name arguments slot =>
    obtain ⟨s, found, fit, slot⟩ := rule
    exact ⟨s, below.getFunction?_eq found, fit, slot⟩
  | literal => exact rule
  | group => exact rule
  | binary => exact rule
  | list => exact rule

end Expr

def Stmt.Rule (scope : TypeScope) (result : Ty) : Stmt → Prop
  | .expression value => value.isCall = true
  | .declare name _ value slot =>
    ∃ ty, slot = some (.plain name ty true) ∧ scope.current.getVariable? name = none ∧
      ∀ e ∈ value, e.requireFits ty = .ok ()
  | .assign receiver value =>
    receiver.isPlace = true ∧
      ∃ ty, receiver.valueType = .ok ty ∧ value.requireFits ty = .ok ()
  | .branch condition _ _ => condition.valueType = .ok .boolean
  | .switch condition cases =>
    ∃ ty, condition.valueType = .ok ty ∧
      ∀ e ∈ cases.filterMap Case.value?, e.valueType = .ok ty
  | .loop condition _ => condition.valueType = .ok .boolean
  | .ret value => value.requireFits result = .ok ()

theorem Stmt.Rule.below {sub scope : TypeScope} {result : Ty} {s : Stmt}
    (rule : s.Rule sub result) (below : sub.Below scope) : s.Rule scope result := by
  cases s with
  | declare name typeName value slot =>
    obtain ⟨ty, slot, free, fits⟩ := rule
    exact ⟨ty, slot, below.current_eq name ▸ free, fits⟩
  | expression => exact rule
  | assign => exact rule
  | branch => exact rule
  | switch => exact rule
  | loop => exact rule
  | ret => exact rule

def Global.Rule (scope : TypeScope) (g : Global) : Prop :=
  ∃ v, g.slot = some v ∧ v.name = g.name ∧ v.mutable = g.mutable ∧ v.list = g.isList ∧
    scope.current.getVariable? g.name = none ∧
    ∀ e ∈ g.value, if e.isList then e.ty = some v.ty else e.requireFits v.ty = .ok ()

def Function.Rule (scope : TypeScope) (f : Function) : Prop :=
  ∃ s, f.slot = some s ∧ s.parameters.length = f.parameters.length ∧
    scope.current.getFunction? f.name s.arity = none ∧
    Frame.defineVariables {} (f.parameterVariables s) = .ok (f.frame s)

/-- Every node has been checked in the scope where it stands, and list literals are nothing but
whole values of globals. -/
structure Program.WellTyped (p : Program) : Prop where
  exprs : ∀ {scope e}, p.ExprAt scope e → e.Rule scope
  exprParts : ∀ {scope e}, p.ExprAt scope e → ∀ part ∈ e.parts, part.isList = false
  stmts : ∀ {scope result s ss}, p.BlockAt scope result (s :: ss) → s.Rule scope result
  stmtParts : ∀ {scope result s ss}, p.BlockAt scope result (s :: ss) →
    ∀ part ∈ s.parts, part.isList = false
  globals : ∀ {scope g gs}, p.GlobalsAt scope (g :: gs) → g.Rule scope
  functions : ∀ {scope f fs}, p.FunctionsAt scope (f :: fs) → f.Rule scope
  main : ∃ s, p.scope.getFunction? "main" 0 = some s ∧ s.result = .integer

namespace Program.WellTyped

variable {p : Program} {scope : TypeScope}

theorem takes (typed : p.WellTyped) {op : Operator} {left right : Expr} {t a b : Ty}
    (place : p.ExprAt scope (.binary op left right (some t))) (leftKnown : left.ty = some a)
    (rightKnown : right.ty = some b) : op.Takes a b t := by
  obtain ⟨a', b', t', leftTyped, rightTyped, opTyped, same⟩ := typed.exprs place
  obtain rfl := Option.some.inj same
  obtain rfl := Option.some.inj (leftKnown.symm.trans (Expr.valueType_eq_ok.mp leftTyped).2)
  obtain rfl := Option.some.inj (rightKnown.symm.trans (Expr.valueType_eq_ok.mp rightTyped).2)
  exact Operator.type_eq_ok.mp opTyped

/-- A function binds its own name and arity, and leaves the others. -/
theorem getFunction?_scopeBehind (typed : p.WellTyped) {f : Function} {fs : List Function}
    (place : p.FunctionsAt scope (f :: fs)) :
    ∃ s, f.slot = some s ∧ s.arity = f.parameters.length ∧
      scope.root.getFunction? f.name s.arity = none ∧
      ∀ name arity, (f.scopeBehind scope).root.getFunction? name arity =
        if (name, arity) = (f.name, s.arity) then some s
        else scope.root.getFunction? name arity := by
  obtain ⟨s, slot, length, free, _⟩ := typed.functions place
  obtain ⟨inner, root⟩ := scope
  obtain rfl : inner = [] := place.inner_eq
  refine ⟨s, slot, length, free, ?_⟩
  intro name arity
  rw [Function.scopeBehind, slot]
  exact Frame.getFunction?_bindFunction root f.name name s.arity arity s

theorem print_eq (typed : p.WellTyped) {fs : List Function} (place : p.FunctionsAt scope fs) :
    scope.root.getFunction? "print" 1 = some TypeScope.printSignature := by
  induction place with
  | first place =>
    rw [Frame.getFunction?, place.funs_eq]
    rfl
  | next place ih =>
    obtain ⟨s, _, _, free, behind⟩ := typed.getFunction?_scopeBehind place
    rw [behind, if_neg, ih]
    intro same
    obtain ⟨name, arity⟩ := Prod.mk.inj same
    rw [name, arity, free] at ih
    cases ih

theorem ne_of_bound (typed : p.WellTyped) {fs : List Function} (place : p.FunctionsAt scope fs)
    {name : String} {arity : Nat} {s : Signature}
    (bound : scope.root.getFunction? name arity = some s) :
    ∀ g ∈ fs, (g.name, g.parameters.length) ≠ (name, arity) := by
  induction fs generalizing scope s with
  | nil => simp
  | cons f fs ih =>
    obtain ⟨t, _, length, free, behind⟩ := typed.getFunction?_scopeBehind place
    have differs : (name, arity) ≠ (f.name, t.arity) := by
      intro same
      obtain ⟨rfl, rfl⟩ := Prod.mk.inj same
      rw [free] at bound
      cases bound
    intro g member
    rcases List.mem_cons.mp member with rfl | member
    · rw [← length]
      exact differs.symm
    · refine ih place.next (s := s) ?_ g member
      rw [behind, if_neg differs, bound]

theorem pairwise_functions (typed : p.WellTyped) {fs : List Function}
    (place : p.FunctionsAt scope fs) :
    fs.Pairwise fun f g => (g.name, g.parameters.length) ≠ (f.name, f.parameters.length) := by
  induction fs generalizing scope with
  | nil => exact .nil
  | cons f fs ih =>
    obtain ⟨s, _, length, _, behind⟩ := typed.getFunction?_scopeBehind place
    refine .cons (typed.ne_of_bound place.next (s := s) ?_) (ih place.next)
    rw [behind, ← length, if_pos rfl]

theorem filter_functions_eq (typed : p.WellTyped) {f : Function} (member : f ∈ p.functions) :
    (p.functions.filter fun g => g.name = f.name ∧ g.parameters.length = f.parameters.length) =
      [f] := by
  obtain ⟨scope, place⟩ := p.exists_functionsAt_first
  have distinct := typed.pairwise_functions place
  generalize p.functions = fs at member distinct
  induction fs with
  | nil => cases member
  | cons first fs ih =>
    obtain ⟨others, distinct⟩ := List.pairwise_cons.mp distinct
    rcases List.mem_cons.mp member with rfl | member
    · rw [List.filter_cons_of_pos (by simp), List.filter_eq_nil_iff.mpr]
      intro g here
      have differs := others g here
      simpa [Prod.ext_iff] using differs
    · have differs := others f member
      rw [List.filter_cons_of_neg, ih member distinct]
      intro same
      obtain ⟨name, length⟩ := of_decide_eq_true same
      exact differs (by rw [name, length])

theorem getVariable?_scopeBehind (typed : p.WellTyped) {g : Global} {gs : List Global}
    (place : p.GlobalsAt scope (g :: gs)) :
    scope.root.getVariable? g.name = none ∧ ∃ v, ∀ name,
      (g.scopeBehind scope).root.getVariable? name =
        if name = g.name then some v else scope.root.getVariable? name := by
  obtain ⟨v, slot, _, _, _, free, _⟩ := typed.globals place
  obtain ⟨inner, root⟩ := scope
  obtain rfl : inner = [] := place.inner_eq
  refine ⟨free, v, ?_⟩
  intro name
  rw [Global.scopeBehind, slot]
  exact Frame.getVariable?_bindVariable root g.name name v

theorem name_ne_of_bound (typed : p.WellTyped) {gs : List Global} (place : p.GlobalsAt scope gs)
    {name : String} {v : Variable} (bound : scope.root.getVariable? name = some v) :
    ∀ g ∈ gs, g.name ≠ name := by
  induction gs generalizing scope v with
  | nil => simp
  | cons first gs ih =>
    obtain ⟨free, w, behind⟩ := typed.getVariable?_scopeBehind place
    have differs : name ≠ first.name := by
      rintro rfl
      rw [free] at bound
      cases bound
    intro g member
    rcases List.mem_cons.mp member with rfl | member
    · exact differs.symm
    · refine ih place.next (v := v) ?_ g member
      rw [behind, if_neg differs, bound]

theorem nodup_names (typed : p.WellTyped) {gs : List Global} (place : p.GlobalsAt scope gs) :
    (gs.map (·.name)).Nodup := by
  induction gs generalizing scope with
  | nil => exact .nil
  | cons g gs ih =>
    obtain ⟨_, v, behind⟩ := typed.getVariable?_scopeBehind place
    refine List.nodup_cons.mpr ⟨?_, ih place.next⟩
    intro again
    obtain ⟨other, member, same⟩ := List.mem_map.mp again
    have bound : (g.scopeBehind scope).root.getVariable? g.name = some v := by
      rw [behind, if_pos rfl]
    exact typed.name_ne_of_bound place.next bound other member same

theorem global_unique (typed : p.WellTyped) {g h : Global} (left : g ∈ p.globals)
    (right : h ∈ p.globals) (same : g.name = h.name) : g = h :=
  List.inj_on_of_nodup_map (typed.nodup_names .first) left right same

end Program.WellTyped
end Plc
