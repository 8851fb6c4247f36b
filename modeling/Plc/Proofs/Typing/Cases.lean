import Plc.Proofs.Reading.Shape
import Plc.Proofs.Typing.Places
import Plc.Typing.Phrase

/-! What the analysis cannot find wrong with a bare phrase: how the cases of its switches are
ordered. Nothing but the step that goes through cases looks at their order, and in a bare phrase it
has no reason to complain. -/
namespace Plc

def Fault.IsElsewhere (fault : Fault) : Prop := fault ≠ .missingDefault ∧ fault ≠ .earlyDefault

/-- What is said of the order of cases is said of nothing else. -/
theorem Fault.IsElsewhere.message_notMem {fault : Fault} (elsewhere : fault.IsElsewhere) :
    fault.message ∉ ["SWITCH statements must end with a DEFAULT case.",
      "The DEFAULT case must be the last case of a SWITCH."] := by
  -- five letters are enough to tell the two from all other messages
  have front : fault.message.toList.take 5 ∉ ["SWITC".toList, "The D".toList] := by
    cases fault with
    | missingDefault => exact absurd rfl elsewhere.1
    | earlyDefault => exact absurd rfl elsewhere.2
    | divisionByZero | unannotated | idleExpression | assignmentReceiver | emptyThen
    | returnOutsideFunction | groupedPrimary | mainArity => decide +kernel
    | _ =>
      delta message
      simp only [String.toList_append, List.append_assoc]
      rw [List.take_append_of_le_length (by decide)]
      decide +kernel
  intro member
  apply front
  rcases List.mem_cons.mp member with same | member
  · rw [same]
    decide +kernel
  · rw [List.mem_singleton.mp member]
    decide +kernel

def InOrder {α : Type} (x : Except Fault α) : Prop := Ends Fault.IsElsewhere (fun _ => True) x

namespace InOrder

variable {α β : Type} {x : Except Fault α} {f : α → Except Fault β}

theorem pure (a : α) : InOrder (pure a) := trivial

theorem test {c : Prop} [Decidable c] (a : α) {fault : Fault} (elsewhere : fault.IsElsewhere) :
    InOrder (if c then .ok a else .error fault) := by
  split
  · exact trivial
  · exact elsewhere

theorem bind (first : InOrder x) (second : ∀ a, InOrder (f a)) : InOrder (x >>= f) :=
  ends_bind first fun a _ => second a

theorem map (first : InOrder x) (g : α → β) : InOrder (x.map g) := by
  cases x with
  | error fault => exact first
  | ok a => exact trivial

theorem ofOption {value : Option α} (each : ∀ a, InOrder (f a)) : InOrder (value.mapM f) := by
  cases value with
  | none => exact pure _
  | some a => exact (each a).bind fun b => pure (some b)

theorem ofList {values : List α} (each : ∀ a, InOrder (f a)) : InOrder (values.mapM f) := by
  induction values with
  | nil => exact pure []
  | cons a values ih =>
    rw [List.mapM_cons]
    exact (each a).bind fun b => ih.bind fun bs => pure (b :: bs)

theorem forM {check : α → Except Fault Unit} {values : List α} (each : ∀ a, InOrder (check a)) :
    InOrder (values.forM check) := by
  induction values with
  | nil => exact pure ()
  | cons a values ih => exact (each a).bind fun _ => ih

end InOrder

section Checks

theorem Ty.inOrder_resolve (name : String) : InOrder (resolve name) := by
  rw [resolve]
  split
  · exact trivial
  · exact ⟨nofun, nofun⟩

theorem Ty.inOrder_requireAccepts (target source : Ty) : InOrder (target.requireAccepts source) :=
  .test () ⟨nofun, nofun⟩

theorem Ty.inOrder_requireSame (expected received : Ty) :
    InOrder (expected.requireSame received) :=
  .test () ⟨nofun, nofun⟩

theorem Literal.inOrder_type (l : Literal) : InOrder l.type := by
  cases l with
  | integer value => exact .test _ ⟨nofun, nofun⟩
  | decimal value => exact .test _ ⟨nofun, nofun⟩
  | _ => exact trivial

theorem Operator.inOrder_arithmeticType (op : Operator) (left right : Ty) :
    InOrder (op.arithmeticType left right) := by
  rw [arithmeticType]
  split
  · exact (left.inOrder_requireSame right).bind fun _ => .pure left
  · exact ⟨nofun, nofun⟩

theorem Operator.inOrder_type (op : Operator) (left right : Ty) : InOrder (op.type left right) := by
  have accepted (a b t : Ty) : InOrder (do
      a.requireAccepts left
      b.requireAccepts right
      return t) :=
    (a.inOrder_requireAccepts left).bind fun _ =>
      (b.inOrder_requireAccepts right).bind fun _ => .pure t
  have same : InOrder (do
      left.requireSame right
      return Ty.boolean) :=
    (left.inOrder_requireSame right).bind fun _ => .pure _
  cases op with
  | and => exact accepted .boolean .boolean .boolean
  | or => exact accepted .boolean .boolean .boolean
  | power => exact accepted .integer .integer .integer
  | less => exact (Ty.inOrder_requireAccepts _ left).bind fun _ => same
  | greater => exact (Ty.inOrder_requireAccepts _ left).bind fun _ => same
  | equal => exact same
  | notEqual => exact same
  | add =>
    rw [type]
    split
    · exact trivial
    · exact inOrder_arithmeticType _ left right
  | subtract => exact inOrder_arithmeticType _ left right
  | multiply => exact inOrder_arithmeticType _ left right
  | divide => exact inOrder_arithmeticType _ left right

namespace Expr

theorem inOrder_valueType (e : Expr) : InOrder e.valueType := by
  rw [valueType]
  split
  · exact ⟨nofun, nofun⟩
  · split
    · exact trivial
    · exact ⟨nofun, nofun⟩

theorem inOrder_requireFits (target : Ty) (e : Expr) : InOrder (e.requireFits target) := by
  rw [requireFits]
  split
  · exact trivial
  · exact e.inOrder_valueType.bind fun ty => target.inOrder_requireAccepts ty

theorem inOrder_requireAllFit (targets : List Ty) (es : List Expr) :
    InOrder (requireAllFit targets es) := by
  fun_induction requireAllFit targets es with
  | case1 target targets e es ih => exact (inOrder_requireFits target e).bind fun _ => ih
  | case2 => exact trivial

theorem inOrder_elementType (given : Option Ty) (elements : List Expr) :
    InOrder (elementType given elements) := by
  have checked (ty : Ty) : InOrder (do
      elements.forM fun e => do ty.requireAccepts (← e.valueType)
      return ty) :=
    (InOrder.forM fun e => e.inOrder_valueType.bind fun source =>
      ty.inOrder_requireAccepts source).bind fun _ => .pure ty
  cases given with
  | some ty => exact checked ty
  | none =>
    cases elements with
    | nil => exact checked .any
    | cons first others => exact first.inOrder_valueType.bind checked

end Expr

theorem inOrder_declarationType (name : String) (declared : Option Ty) (value : Option Expr) :
    InOrder (declarationType name declared value) := by
  cases declared with
  | some ty =>
    cases value with
    | some e => exact (e.inOrder_requireFits ty).bind fun _ => .pure ty
    | none => exact trivial
  | none =>
    cases value with
    | some e => exact e.inOrder_valueType
    | none => exact ⟨nofun, nofun⟩

variable {V F : Type}

theorem Scope.inOrder_lookupVariable (scope : Scope V F) (name : String) :
    InOrder (scope.lookupVariable name) := by
  rw [lookupVariable]
  cases scope.getVariable? name with
  | none => exact ⟨by simp, by simp⟩
  | some value => exact trivial

theorem Scope.inOrder_lookupFunction (scope : Scope V F) (name : String) (arity : Nat) :
    InOrder (scope.lookupFunction name arity) := by
  rw [lookupFunction]
  cases scope.getFunction? name arity with
  | none => exact ⟨by simp, by simp⟩
  | some value => exact trivial

theorem Frame.inOrder_defineVariable (frame : Frame V F) (name : String) (value : V) :
    InOrder (frame.defineVariable name value) := by
  rw [defineVariable]
  cases frame.getVariable? name with
  | none => exact trivial
  | some old => exact ⟨by simp, by simp⟩

theorem Frame.inOrder_defineVariables (frame : Frame V F) (entries : List (String × V)) :
    InOrder (frame.defineVariables entries) := by
  induction entries generalizing frame with
  | nil => exact trivial
  | cons entry entries ih =>
    have first := frame.inOrder_defineVariable entry.1 entry.2
    rw [defineVariables]
    split
    · rename_i failed
      rwa [failed] at first
    · exact ih _

theorem Scope.inOrder_defineVariable (scope : Scope V F) (name : String) (value : V) :
    InOrder (scope.defineVariable name value) :=
  (scope.current.inOrder_defineVariable name value).map _

theorem Scope.inOrder_defineFunction (scope : Scope V F) (name : String) (arity : Nat) (value : F) :
    InOrder (scope.defineFunction name arity value) := by
  refine InOrder.map ?_ _
  rw [Frame.defineFunction]
  cases scope.current.getFunction? name arity with
  | none => exact trivial
  | some old => exact ⟨by simp, by simp⟩

end Checks

section Expressions

mutual

theorem Expr.inOrder_annotate (scope : TypeScope) (e : Expr) : InOrder (e.annotate scope) := by
  cases e with
  | literal value ty => exact value.inOrder_type.bind fun _ => .pure _
  | group inner ty =>
    rw [annotate]
    split
    · exact (inOrder_annotate scope inner).bind fun inner =>
        inner.inOrder_valueType.bind fun _ => .pure _
    · exact ⟨nofun, nofun⟩
  | binary op left right ty =>
    exact (inOrder_annotate scope left).bind fun left =>
      (inOrder_annotate scope right).bind fun right =>
      left.inOrder_valueType.bind fun leftType => right.inOrder_valueType.bind fun rightType =>
      (op.inOrder_type leftType rightType).bind fun _ => .pure _
  | access name slot => exact (scope.inOrder_lookupVariable name).bind fun _ => .pure _
  | element name offset slot =>
    exact (inOrder_annotate scope offset).bind fun offset =>
      offset.inOrder_valueType.bind fun ty => (Ty.inOrder_requireAccepts _ ty).bind fun _ =>
      (scope.inOrder_lookupVariable name).bind fun _ => .pure _
  | call name arguments slot =>
    exact (inOrder_annotateAll scope arguments).bind fun arguments =>
      (scope.inOrder_lookupFunction name arguments.length).bind fun f =>
      (inOrder_requireAllFit f.parameters arguments).bind fun _ => .pure _
  | list elements ty =>
    exact (inOrder_annotateAll scope elements).bind fun elements =>
      (inOrder_elementType none elements).bind fun _ => .pure _

theorem Expr.inOrder_annotateAll (scope : TypeScope) (es : List Expr) :
    InOrder (annotateAll scope es) := by
  cases es with
  | nil => exact trivial
  | cons e es =>
    exact (inOrder_annotate scope e).bind fun _ =>
      (inOrder_annotateAll scope es).bind fun _ => .pure _

end

theorem Expr.inOrder_annotateCondition (scope : TypeScope) (e : Expr) :
    InOrder (e.annotateCondition scope) :=
  (e.inOrder_annotate scope).bind fun e => e.inOrder_valueType.bind fun ty =>
    (Ty.inOrder_requireAccepts _ ty).bind fun _ => .pure e

end Expressions

section Statements

/-- A case is the last one just if it has no value. -/
theorem Case.EndInDefault.cons {c : Case} {cs : List Case} (ordered : EndInDefault (c :: cs)) :
    cs.isEmpty = c.value?.isNone ∧ (¬ cs.isEmpty → EndInDefault cs) := by
  cases c with
  | on value body =>
    cases cs with
    | nil => exact ordered.elim
    | cons d cs => exact ⟨rfl, fun _ => ordered⟩
  | default body =>
    cases cs with
    | nil => exact ⟨rfl, fun others => absurd rfl others⟩
    | cons d cs => exact ordered.elim

mutual

theorem Stmt.inOrder_annotate (scope : TypeScope) (result : Option Ty) (s : Stmt) (bare : s.Bare) :
    InOrder (s.annotate scope result) := by
  cases s with
  | expression value =>
    rw [Stmt.annotate]
    split
    · exact (value.inOrder_annotate scope).bind fun _ => .pure _
    · exact ⟨nofun, nofun⟩
  | declare name typeName value slot =>
    exact (InOrder.ofOption Ty.inOrder_resolve).bind fun declared =>
      (InOrder.ofOption (Expr.inOrder_annotate scope)).bind fun value =>
      (inOrder_declarationType name declared value).bind fun _ =>
      (scope.inOrder_defineVariable name _).bind fun _ => .pure _
  | assign receiver value =>
    rw [Stmt.annotate]
    split
    · exact (receiver.inOrder_annotate scope).bind fun receiver =>
        (value.inOrder_annotate scope).bind fun value => receiver.inOrder_valueType.bind fun ty =>
        (value.inOrder_requireFits ty).bind fun _ => .pure _
    · exact ⟨nofun, nofun⟩
  | branch condition thenBody elseBody =>
    rw [Stmt.annotate]
    refine (condition.inOrder_annotateCondition scope).bind fun condition => ?_
    split
    · exact ⟨nofun, nofun⟩
    · exact (Stmt.inOrder_annotateBlock _ result thenBody bare.2.1).bind fun _ =>
        (Stmt.inOrder_annotateBlock _ result elseBody bare.2.2).bind fun _ => .pure _
  | switch condition cases =>
    exact (condition.inOrder_annotate scope).bind fun condition =>
      condition.inOrder_valueType.bind fun ty =>
      (Case.inOrder_annotateAll scope result ty cases bare.2.1 bare.2.2).bind fun _ => .pure _
  | loop condition body =>
    exact (condition.inOrder_annotateCondition scope).bind fun _ =>
      (Stmt.inOrder_annotateBlock _ result body bare.2).bind fun _ => .pure _
  | ret value =>
    cases result with
    | none => exact ⟨nofun, nofun⟩
    | some ty =>
      exact (value.inOrder_annotate scope).bind fun value =>
        (value.inOrder_requireFits ty).bind fun _ => .pure _

theorem Stmt.inOrder_annotateBlock (scope : TypeScope) (result : Option Ty) (ss : List Stmt)
    (bare : Stmt.AllBare ss) : InOrder (Stmt.annotateBlock scope result ss) := by
  cases ss with
  | nil => exact trivial
  | cons s ss =>
    exact (Stmt.inOrder_annotate scope result s bare.1).bind fun made =>
      (Stmt.inOrder_annotateBlock made.2 result ss bare.2).bind fun _ => .pure _

theorem Case.inOrder_annotate (scope : TypeScope) (result : Option Ty) (ty : Ty) (c : Case)
    (bare : c.Bare) : InOrder (c.annotate scope result ty c.value?.isNone) := by
  cases c with
  | on value body =>
    exact (value.inOrder_annotate scope).bind fun value => value.inOrder_valueType.bind fun found =>
      (ty.inOrder_requireSame found).bind fun _ =>
      (Stmt.inOrder_annotateBlock _ result body bare.2).bind fun _ => .pure _
  | default body => exact (Stmt.inOrder_annotateBlock _ result body bare).bind fun _ => .pure _

theorem Case.inOrder_annotateAll (scope : TypeScope) (result : Option Ty) (ty : Ty)
    (cs : List Case) (bare : Case.AllBare cs) (ordered : Case.EndInDefault cs) :
    InOrder (Case.annotateAll scope result ty cs) := by
  cases cs with
  | nil => exact ordered.elim
  | cons c cs =>
    obtain ⟨last, more⟩ := ordered.cons
    have first := Case.inOrder_annotate scope result ty c bare.1
    rw [← last] at first
    rw [Case.annotateAll]
    refine first.bind fun _ => ?_
    split
    · exact trivial
    · rename_i others
      exact (Case.inOrder_annotateAll scope result ty cs bare.2 (more others)).bind fun _ => .pure _

end

end Statements

section Phrases

theorem Global.inOrder_annotateValue (scope : TypeScope) (declared : Option Ty) (e : Expr) :
    InOrder (annotateValue scope declared e) := by
  cases e with
  | list elements ty =>
    exact (Expr.inOrder_annotateAll scope elements).bind fun elements =>
      (Expr.inOrder_elementType declared elements).bind fun _ => .pure _
  | _ => exact Expr.inOrder_annotate scope _

theorem Global.inOrder_annotate (scope : TypeScope) (g : Global) : InOrder (g.annotate scope) :=
  (InOrder.ofOption Ty.inOrder_resolve).bind fun declared =>
    (InOrder.ofOption (inOrder_annotateValue scope declared)).bind fun value =>
    (inOrder_declarationType g.name declared value).bind fun _ =>
    (scope.inOrder_defineVariable g.name _).bind fun _ => .pure _

theorem Function.inOrder_signature (f : Function) : InOrder f.signature := by
  refine (InOrder.ofList Ty.inOrder_resolve).bind fun parameters => ?_
  split
  · exact (Ty.inOrder_resolve _).bind fun _ => .pure _
  · exact trivial

theorem Function.inOrder_annotateBody (scope : TypeScope) (s : Signature) {f : Function}
    (bare : f.Bare) : InOrder (f.annotateBody scope s) :=
  (Frame.inOrder_defineVariables {} (f.parameterVariables s)).bind fun frame =>
    (Stmt.inOrder_annotateBlock (scope.enter frame) (some s.result) f.body bare.body).bind
      fun _ => .pure _

theorem Function.inOrder_annotate (scope : TypeScope) {f : Function} (bare : f.Bare) :
    InOrder (f.annotate scope).1 := by
  have signed := f.inOrder_signature
  rw [annotate]
  split
  · rename_i failed
    rwa [failed] at signed
  · rename_i s _
    have defined := scope.inOrder_defineFunction f.name s.arity s
    split
    · rename_i failed
      rwa [failed] at defined
    · exact inOrder_annotateBody _ s bare

namespace Program

theorem inOrder_annotateGlobals (scope : TypeScope) (gs : List Global) :
    InOrder (annotateGlobals scope gs).1 := by
  induction gs generalizing scope with
  | nil => exact trivial
  | cons g gs ih =>
    have first := g.inOrder_annotate scope
    rw [annotateGlobals]
    split
    · rename_i failed
      rwa [failed] at first
    · exact (ih _).map _

theorem inOrder_annotateFunctions (scope : TypeScope) {fs : List Function}
    (bare : ∀ f ∈ fs, f.Bare) : InOrder (annotateFunctions scope fs).1 := by
  induction fs generalizing scope with
  | nil => exact trivial
  | cons f fs ih =>
    have first := Function.inOrder_annotate scope (bare f List.mem_cons_self)
    rw [annotateFunctions]
    split
    · rename_i failed
      rwa [failed] at first
    · exact (ih _ fun g member => bare g (List.mem_cons_of_mem _ member)).map _

theorem inOrder_annotate (scope : TypeScope) {p : Program} (bare : p.Bare) :
    InOrder (p.annotate scope).1 := by
  have globals := inOrder_annotateGlobals scope p.globals
  rw [annotate]
  split
  · rename_i failed
    rwa [failed] at globals
  · rename_i gs scope _
    have functions := inOrder_annotateFunctions scope bare.functions
    split
    · rename_i failed
      rwa [failed] at functions
    · refine InOrder.map ?_ _
      exact (Scope.inOrder_lookupFunction _ _ _).bind fun _ => Ty.inOrder_requireAccepts _ _

end Program

theorem InOrder.behind {α : Type} {x : Except Fault (α × TypeScope)} (made : InOrder x)
    (scope : TypeScope) : InOrder (scope.behind x).1 := by
  cases x with
  | error fault => exact made
  | ok answer => exact trivial

/-- Whatever else is wrong with a bare phrase, its cases are in order. -/
theorem Phrase.inOrder_annotate (scope : TypeScope) {p : Phrase} (bare : p.Bare) :
    InOrder (p.annotate scope).1 := by
  cases p with
  | program p => exact (Program.inOrder_annotate scope bare).map _
  | function f => exact (Function.inOrder_annotate scope bare).map _
  | expression e => exact (e.inOrder_annotate scope).map _
  | global g => exact ((g.inOrder_annotate scope).behind scope).map _
  | statement s => exact ((Stmt.inOrder_annotate scope none s bare).behind scope).map _

end Phrases

end Plc
