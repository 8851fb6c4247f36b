import Plc.Proofs.Scope
import Plc.Typing.Program

/-! The places of an analysed program: which blocks, statements and expressions stand in it, and
the scope in which each of them was analysed, as the slots tell it. Functions are seen from behind
the analysis, where all of them are in force. -/
namespace Plc

def Stmt.scopeBehind (scope : TypeScope) : Stmt → TypeScope
  | .declare name _ _ (some v) => scope.bindVariable name v
  | _ => scope

def Stmt.scopeBehindAll (scope : TypeScope) (ss : List Stmt) : TypeScope :=
  ss.foldl Stmt.scopeBehind scope

def Global.scopeBehind (scope : TypeScope) (g : Global) : TypeScope :=
  match g.slot with
  | some v => scope.bindVariable g.name v
  | none => scope

def Function.scopeBehind (scope : TypeScope) (f : Function) : TypeScope :=
  match f.slot with
  | some s => scope.bindFunction f.name s.arity s
  | none => scope

def Function.frame (f : Function) (s : Signature) : Frame Variable Signature :=
  Frame.bindVariables {} (f.parameterVariables s)

def Expr.parts : Expr → List Expr
  | .literal .. => []
  | .group inner _ => [inner]
  | .binary _ left right _ => [left, right]
  | .access .. => []
  | .element _ offset _ => [offset]
  | .call _ arguments _ => arguments
  | .list elements _ => elements

def Case.value? : Case → Option Expr
  | .on value _ => some value
  | .default _ => none

def Case.body : Case → List Stmt
  | .on _ body => body
  | .default body => body

def Stmt.parts : Stmt → List Expr
  | .expression value => [value]
  | .declare _ _ value _ => value.toList
  | .assign receiver value => [receiver, value]
  | .branch condition _ _ => [condition]
  | .switch condition cases => condition :: cases.filterMap Case.value?
  | .loop condition _ => [condition]
  | .ret value => [value]

def Stmt.bodies : Stmt → List (List Stmt)
  | .branch _ thenBody elseBody => [thenBody, elseBody]
  | .switch _ cases => cases.map Case.body
  | .loop _ body => [body]
  | _ => []

theorem TypeScope.getFunction?_initial (name : String) (arity : Nat) :
    TypeScope.initial.getFunction? name arity =
      if (name, arity) = ("print", 1) then some TypeScope.printSignature else none := by
  have root : TypeScope.initial.root =
      Frame.bindFunction {} "print" 1 TypeScope.printSignature := rfl
  have outside : TypeScope.initial = ⟨[], TypeScope.initial.root⟩ := rfl
  rw [outside, Scope.getFunction?_nil, root, Frame.getFunction?_bindFunction]
  rfl

namespace Program

def scope (p : Program) : TypeScope :=
  p.functions.foldl Function.scopeBehind (p.globals.foldl Global.scopeBehind TypeScope.initial)

/-- The last globals of the program, and the scope in front of them. -/
inductive GlobalsAt (p : Program) : TypeScope → List Global → Prop
  | first : GlobalsAt p TypeScope.initial p.globals
  | next {scope g gs} : GlobalsAt p scope (g :: gs) → GlobalsAt p (g.scopeBehind scope) gs

inductive FunctionsAt (p : Program) : TypeScope → List Function → Prop
  | first {scope} : GlobalsAt p scope [] → FunctionsAt p scope p.functions
  | next {scope f fs} : FunctionsAt p scope (f :: fs) → FunctionsAt p (f.scopeBehind scope) fs

/-- The last statements of a block of the program, the scope in front of them, and the type of
what may be returned from there. -/
inductive BlockAt (p : Program) : TypeScope → Ty → List Stmt → Prop
  | body {f s} : f ∈ p.functions → f.slot = some s →
      BlockAt p (p.scope.enter (f.frame s)) s.result f.body
  | next {scope result s ss} :
      BlockAt p scope result (s :: ss) → BlockAt p (s.scopeBehind scope) result ss
  | inner {scope result s ss body} :
      BlockAt p scope result (s :: ss) → body ∈ s.bodies → BlockAt p (scope.enter {}) result body

inductive ExprAt (p : Program) : TypeScope → Expr → Prop
  | global {scope g gs e} : GlobalsAt p scope (g :: gs) → g.value = some e → ExprAt p scope e
  | stmt {scope result s ss e} :
      BlockAt p scope result (s :: ss) → e ∈ s.parts → ExprAt p scope e
  | part {scope e part} : ExprAt p scope e → part ∈ e.parts → ExprAt p scope part

theorem inner_bindVariable {scope : TypeScope} (outside : scope.inner = []) (name : String)
    (v : Variable) : (scope.bindVariable name v).inner = [] := by
  obtain ⟨inner, root⟩ := scope
  obtain rfl : inner = [] := outside
  rfl

theorem inner_bindFunction {scope : TypeScope} (outside : scope.inner = []) (name : String)
    (arity : Nat) (s : Signature) : (scope.bindFunction name arity s).inner = [] := by
  obtain ⟨inner, root⟩ := scope
  obtain rfl : inner = [] := outside
  rfl

theorem inner_global {scope : TypeScope} (outside : scope.inner = []) (g : Global) :
    (g.scopeBehind scope).inner = [] := by
  rw [Global.scopeBehind]
  split
  · exact inner_bindVariable outside _ _
  · exact outside

theorem inner_function {scope : TypeScope} (outside : scope.inner = []) (f : Function) :
    (f.scopeBehind scope).inner = [] := by
  rw [Function.scopeBehind]
  split
  · exact inner_bindFunction outside _ _ _
  · exact outside

theorem GlobalsAt.foldl_eq {p : Program} {scope : TypeScope} {gs : List Global}
    (place : p.GlobalsAt scope gs) :
    gs.foldl Global.scopeBehind scope = p.globals.foldl Global.scopeBehind TypeScope.initial := by
  induction place with
  | first => rfl
  | next _ ih => exact ih

theorem FunctionsAt.foldl_eq {p : Program} {scope : TypeScope} {fs : List Function}
    (place : p.FunctionsAt scope fs) : fs.foldl Function.scopeBehind scope = p.scope := by
  induction place with
  | first place => rw [Program.scope, ← place.foldl_eq, List.foldl_nil]
  | next _ ih => exact ih

theorem FunctionsAt.eq_scope {p : Program} {scope : TypeScope} (place : p.FunctionsAt scope []) :
    scope = p.scope := place.foldl_eq

theorem GlobalsAt.mem {p : Program} {scope : TypeScope} {gs : List Global}
    (place : p.GlobalsAt scope gs) {g : Global} (member : g ∈ gs) : g ∈ p.globals := by
  induction place with
  | first => exact member
  | next _ ih => exact ih (List.mem_cons_of_mem _ member)

theorem GlobalsAt.inner_eq {p : Program} {scope : TypeScope} {gs : List Global}
    (place : p.GlobalsAt scope gs) : scope.inner = [] := by
  induction place with
  | first => rfl
  | next _ ih => exact inner_global ih _

/-- In front of the functions there is none but the builtin. -/
theorem GlobalsAt.funs_eq {p : Program} {scope : TypeScope} {gs : List Global}
    (place : p.GlobalsAt scope gs) : scope.root.funs = TypeScope.initial.root.funs := by
  induction place with
  | first => rfl
  | @next scope g gs place ih =>
    obtain ⟨inner, root⟩ := scope
    obtain rfl : inner = [] := place.inner_eq
    rw [Global.scopeBehind]
    split
    · exact ih
    · exact ih

theorem FunctionsAt.inner_eq {p : Program} {scope : TypeScope} {fs : List Function}
    (place : p.FunctionsAt scope fs) : scope.inner = [] := by
  induction place with
  | first place => exact place.inner_eq
  | next _ ih => exact inner_function ih _

theorem FunctionsAt.mem {p : Program} {scope : TypeScope} {fs : List Function}
    (place : p.FunctionsAt scope fs) {f : Function} (member : f ∈ fs) : f ∈ p.functions := by
  induction place with
  | first => exact member
  | next _ ih => exact ih (List.mem_cons_of_mem _ member)

theorem exists_functionsAt_first (p : Program) : ∃ scope, p.FunctionsAt scope p.functions := by
  have atEnd : ∀ (gs : List Global) (scope : TypeScope), p.GlobalsAt scope gs →
      ∃ scope, p.GlobalsAt scope [] := by
    intro gs
    induction gs with
    | nil => exact fun scope place => ⟨scope, place⟩
    | cons g gs ih => exact fun scope place => ih _ place.next
  obtain ⟨scope, place⟩ := atEnd _ _ .first
  exact ⟨scope, .first place⟩

theorem exists_functionsAt {p : Program} {f : Function} (member : f ∈ p.functions) :
    ∃ scope fs, p.FunctionsAt scope (f :: fs) := by
  have reach : ∀ (fs : List Function) (scope : TypeScope), p.FunctionsAt scope fs → f ∈ fs →
      ∃ scope fs, p.FunctionsAt scope (f :: fs) := by
    intro fs
    induction fs with
    | nil =>
      intro scope place found
      cases found
    | cons first fs ih =>
      intro scope place found
      rcases List.mem_cons.mp found with rfl | found
      · exact ⟨scope, fs, place⟩
      · exact ih _ place.next found
  obtain ⟨scope, place⟩ := p.exists_functionsAt_first
  exact reach _ _ place member

theorem functionsAt_nil (p : Program) : p.FunctionsAt p.scope [] := by
  have atEnd : ∀ (fs : List Function) (scope : TypeScope), p.FunctionsAt scope fs →
      ∃ scope, p.FunctionsAt scope [] := by
    intro fs
    induction fs with
    | nil => exact fun scope place => ⟨scope, place⟩
    | cons f fs ih => exact fun scope place => ih _ place.next
  obtain ⟨_, first⟩ := p.exists_functionsAt_first
  obtain ⟨scope, place⟩ := atEnd _ _ first
  exact place.eq_scope ▸ place

theorem inner_scope (p : Program) : p.scope.inner = [] := p.functionsAt_nil.inner_eq

theorem scopeBehind_of_inner {scope : TypeScope} (inside : scope.inner ≠ []) (s : Stmt) :
    ∃ frame, s.scopeBehind scope = { scope with inner := frame :: scope.inner.tail } := by
  obtain ⟨inner, root⟩ := scope
  cases inner with
  | nil => exact absurd rfl inside
  | cons frame inner =>
    cases s with
    | declare name typeName value slot =>
      cases slot with
      | none => exact ⟨frame, rfl⟩
      | some v => exact ⟨frame.bindVariable name v, rfl⟩
    | _ => exact ⟨frame, rfl⟩

theorem scopeBehindAll_of_inner {scope : TypeScope} (inside : scope.inner ≠ [])
    (ss : List Stmt) :
    ∃ frame, Stmt.scopeBehindAll scope ss =
      { scope with inner := frame :: scope.inner.tail } := by
  induction ss generalizing scope with
  | nil =>
    obtain ⟨inner, root⟩ := scope
    cases inner with
    | nil => exact absurd rfl inside
    | cons frame inner => exact ⟨frame, rfl⟩
  | cons s ss ih =>
    obtain ⟨frame, behind⟩ := scopeBehind_of_inner inside s
    show ∃ frame, Stmt.scopeBehindAll (s.scopeBehind scope) ss = _
    rw [behind]
    exact ih (List.cons_ne_nil _ _)

/-- A block stands inside the scope of the whole program. -/
theorem BlockAt.root_eq {p : Program} {scope : TypeScope} {result : Ty} {ss : List Stmt}
    (place : p.BlockAt scope result ss) : scope.root = p.scope.root ∧ scope.inner ≠ [] := by
  induction place with
  | body => exact ⟨rfl, List.cons_ne_nil _ _⟩
  | @next scope result s ss _ ih =>
    obtain ⟨frame, behind⟩ := scopeBehind_of_inner ih.2 s
    rw [behind]
    exact ⟨ih.1, List.cons_ne_nil _ _⟩
  | inner _ _ ih => exact ⟨ih.1, List.cons_ne_nil _ _⟩

inductive Introduces (p : Program) : String → Variable → Prop
  | global {scope g gs v} : p.GlobalsAt scope (g :: gs) → g.slot = some v →
      Introduces p g.name v
  | parameter {f s name v} : f ∈ p.functions → f.slot = some s →
      (name, v) ∈ f.parameterVariables s → Introduces p name v
  | declare {scope result name typeName value v ss} :
      p.BlockAt scope result (.declare name typeName value (some v) :: ss) → Introduces p name v

section InForce

variable {p : Program} {scope : TypeScope} {name : String} {v : Variable}

theorem introduces_bindVariable {other : String} {w : Variable} (new : p.Introduces other w)
    (old : scope.getVariable? name = some v → p.Introduces name v)
    (found : (scope.bindVariable other w).getVariable? name = some v) : p.Introduces name v := by
  rw [Scope.getVariable?_bindVariable] at found
  split at found
  · rename_i same
    cases found
    exact same ▸ new
  · exact old found

theorem GlobalsAt.introduces {gs : List Global} (place : p.GlobalsAt scope gs)
    (found : scope.getVariable? name = some v) : p.Introduces name v := by
  induction place with
  | first => cases found
  | @next scope g gs place ih =>
    rw [Global.scopeBehind] at found
    split at found
    · rename_i w slot
      exact introduces_bindVariable (.global place slot) ih found
    · exact ih found

theorem FunctionsAt.introduces {fs : List Function} (place : p.FunctionsAt scope fs)
    (found : scope.getVariable? name = some v) : p.Introduces name v := by
  induction place with
  | first place => exact place.introduces found
  | @next scope f fs place ih =>
    rw [Function.scopeBehind] at found
    split at found
    · rw [Scope.getVariable?_bindFunction] at found
      exact ih found
    · exact ih found

/-- A variable in force in a block has been introduced somewhere. -/
theorem BlockAt.introduces {result : Ty} {ss : List Stmt} (place : p.BlockAt scope result ss)
    (found : scope.getVariable? name = some v) : p.Introduces name v := by
  induction place with
  | body member slot =>
    rw [Scope.getVariable?_enter] at found
    rcases Option.or_eq_some_iff.mp found with here | ⟨_, outside⟩
    · rcases Frame.mem_of_getVariable?_bindVariables here with among | absurd
      · exact .parameter member slot among
      · cases absurd
    · exact p.functionsAt_nil.introduces outside
  | @next scope result s ss place ih =>
    cases s with
    | declare other typeName value slot =>
      cases slot with
      | none => exact ih found
      | some w => exact introduces_bindVariable (.declare place) ih found
    | _ => exact ih found
  | inner place _ ih =>
    rw [Scope.getVariable?_enter] at found
    rcases Option.or_eq_some_iff.mp found with here | ⟨_, outside⟩
    · cases here
    · exact ih outside

theorem ExprAt.introduces {e : Expr} (place : p.ExprAt scope e)
    (found : scope.getVariable? name = some v) : p.Introduces name v := by
  induction place with
  | global place _ => exact place.introduces found
  | stmt place _ => exact place.introduces found
  | part _ _ ih => exact ih

def Provides (p : Program) (s : Signature) : Prop :=
  s = TypeScope.printSignature ∨ ∃ f ∈ p.functions, f.slot = some s

variable {arity : Nat} {s : Signature}

theorem GlobalsAt.provides {gs : List Global} (place : p.GlobalsAt scope gs)
    (found : scope.getFunction? name arity = some s) : p.Provides s := by
  have initial : scope.getFunction? name arity = TypeScope.initial.getFunction? name arity := by
    obtain ⟨inner, root⟩ := scope
    obtain rfl : inner = [] := place.inner_eq
    rw [Scope.getFunction?_nil, Frame.getFunction?, show root.funs = _ from place.funs_eq]
    exact (Scope.getFunction?_nil _ name arity).symm
  rw [initial, TypeScope.getFunction?_initial] at found
  split at found
  · exact .inl (Option.some.inj found).symm
  · cases found

theorem FunctionsAt.provides {fs : List Function} (place : p.FunctionsAt scope fs)
    (found : scope.getFunction? name arity = some s) : p.Provides s := by
  induction place with
  | first place => exact place.provides found
  | @next scope f fs place ih =>
    rw [Function.scopeBehind] at found
    split at found
    · rename_i t slot
      rw [Scope.getFunction?_bindFunction] at found
      split at found
      · cases found
        exact .inr ⟨f, place.mem List.mem_cons_self, slot⟩
      · exact ih found
    · exact ih found

/-- Blocks bind no functions. -/
theorem BlockAt.provides {result : Ty} {ss : List Stmt} (place : p.BlockAt scope result ss)
    (found : scope.getFunction? name arity = some s) : p.Provides s := by
  induction place with
  | @body f t member slot =>
    rw [Scope.getFunction?_enter, Frame.getFunction?, Function.frame,
      Frame.funs_bindVariables] at found
    exact p.functionsAt_nil.provides found
  | @next scope result s ss place ih =>
    cases s with
    | declare other typeName value slot =>
      cases slot with
      | none => exact ih found
      | some w =>
        rw [Stmt.scopeBehind, Scope.getFunction?_bindVariable] at found
        exact ih found
    | _ => exact ih found
  | inner place _ ih =>
    rw [Scope.getFunction?_enter] at found
    exact ih found

theorem ExprAt.provides {e : Expr} (place : p.ExprAt scope e)
    (found : scope.getFunction? name arity = some s) : p.Provides s := by
  induction place with
  | global place _ => exact place.provides found
  | stmt place _ => exact place.provides found
  | part _ _ ih => exact ih

end InForce

/-- Where a function other than the builtin is in force, all functions are. -/
theorem ExprAt.root_eq {p : Program} {scope : TypeScope} {e : Expr} (place : p.ExprAt scope e)
    {name : String} {arity : Nat} {s : Signature}
    (found : scope.getFunction? name arity = some s) (other : (name, arity) ≠ ("print", 1)) :
    scope.root = p.scope.root := by
  induction place with
  | global place _ =>
    have initial : scope.getFunction? name arity = TypeScope.initial.getFunction? name arity := by
      obtain ⟨inner, root⟩ := scope
      obtain rfl : inner = [] := place.inner_eq
      rw [Scope.getFunction?_nil, Frame.getFunction?, show root.funs = _ from place.funs_eq]
      exact (Scope.getFunction?_nil _ name arity).symm
    rw [initial, TypeScope.getFunction?_initial, if_neg other] at found
    cases found
  | stmt place _ => exact place.root_eq.1
  | part _ _ ih => exact ih

end Program

structure TypeScope.Below (sub scope : TypeScope) : Prop where
  inner : sub.inner = scope.inner
  vars : sub.root.vars = scope.root.vars
  funs : ∀ name arity s, sub.root.getFunction? name arity = some s →
    scope.root.getFunction? name arity = some s

namespace TypeScope.Below

variable {sub scope : TypeScope}

theorem refl (scope : TypeScope) : scope.Below scope :=
  ⟨rfl, rfl, fun _ _ _ found => found⟩

theorem trans {top : TypeScope} (first : sub.Below scope) (second : scope.Below top) :
    sub.Below top :=
  ⟨first.inner.trans second.inner, first.vars.trans second.vars,
    fun name arity s found => second.funs name arity s (first.funs name arity s found)⟩

theorem getVariable?_eq (below : sub.Below scope) (name : String) :
    sub.getVariable? name = scope.getVariable? name := by
  have root : sub.root.getVariable? name = scope.root.getVariable? name := by
    rw [Frame.getVariable?, Frame.getVariable?, below.vars]
  obtain ⟨inner, subRoot⟩ := sub
  obtain ⟨_, scopeRoot⟩ := scope
  obtain rfl := below.inner
  induction inner with
  | nil => rw [Scope.getVariable?_nil, Scope.getVariable?_nil, root]
  | cons frame inner ih =>
    rw [Scope.getVariable?_cons, Scope.getVariable?_cons, ih ⟨rfl, below.vars, below.funs⟩ root]

theorem getFunction?_eq (below : sub.Below scope) {name : String} {arity : Nat} {s : Signature}
    (found : sub.getFunction? name arity = some s) : scope.getFunction? name arity = some s := by
  obtain ⟨inner, subRoot⟩ := sub
  obtain ⟨_, scopeRoot⟩ := scope
  obtain rfl := below.inner
  induction inner with
  | nil =>
    rw [Scope.getFunction?_nil] at found ⊢
    exact below.funs name arity s found
  | cons frame inner ih =>
    rw [Scope.getFunction?_cons] at found ⊢
    cases here : frame.getFunction? name arity with
    | some other =>
      rw [here] at found
      exact found
    | none =>
      rw [here, Option.none_or] at found
      rw [Option.none_or]
      exact ih found ⟨rfl, below.vars, below.funs⟩

theorem current_eq (below : sub.Below scope) (name : String) :
    sub.current.getVariable? name = scope.current.getVariable? name := by
  obtain ⟨inner, subRoot⟩ := sub
  obtain ⟨_, scopeRoot⟩ := scope
  obtain rfl := below.inner
  cases inner with
  | nil =>
    show subRoot.vars.lookup name = scopeRoot.vars.lookup name
    rw [below.vars]
  | cons frame inner => rfl

theorem enter (below : sub.Below scope) (frame : Frame Variable Signature) :
    TypeScope.Below (sub.enter frame) (scope.enter frame) :=
  ⟨congrArg (frame :: ·) below.inner, below.vars, below.funs⟩

theorem bindVariable (below : sub.Below scope) (name : String) (v : Variable) :
    TypeScope.Below (sub.bindVariable name v) (scope.bindVariable name v) := by
  obtain ⟨inner, subRoot⟩ := sub
  obtain ⟨_, scopeRoot⟩ := scope
  obtain rfl := below.inner
  cases inner with
  | nil => exact ⟨rfl, congrArg ((name, v) :: ·) below.vars, below.funs⟩
  | cons frame inner => exact ⟨rfl, below.vars, below.funs⟩

theorem scopeBehind (below : sub.Below scope) (s : Stmt) :
    (s.scopeBehind sub).Below (s.scopeBehind scope) := by
  cases s with
  | declare name typeName value slot =>
    cases slot with
    | none => exact below
    | some v => exact below.bindVariable name v
  | _ => exact below

/-- A function that is free can come in addition. -/
theorem bindFunction {name : String} {arity : Nat} (s : Signature)
    (free : scope.current.getFunction? name arity = none) (outside : scope.inner = []) :
    scope.Below (scope.bindFunction name arity s) := by
  obtain ⟨inner, root⟩ := scope
  obtain rfl : inner = [] := outside
  refine ⟨rfl, rfl, ?_⟩
  intro other count t found
  show (root.bindFunction name arity s).getFunction? other count = some t
  rw [Frame.getFunction?_bindFunction]
  split
  · rename_i same
    cases same
    rw [show root.getFunction? name arity = none from free] at found
    cases found
  · exact found

end TypeScope.Below
end Plc
