import Plc.Proofs.Typing.Filled

/-! What calls mean. Functions come into force one after the other, each just before its own body is
analysed, so a call means `print`, or a function that stands no further down than the one in whose
body the call stands. -/
namespace Plc

/-- The signature is that of `print`, or of a function of the list with the name and the number of
parameters. -/
def Resolves (fs : List Function) (name : String) (arity : Nat) (s : Signature) : Prop :=
  (name, arity) = ("print", 1) ∧ s = TypeScope.printSignature ∨
    ∃ f ∈ fs, f.name = name ∧ f.slot = some s ∧ s.arity = arity

theorem Resolves.mono {fs gs : List Function} {name : String} {arity : Nat} {s : Signature}
    (resolves : Resolves fs name arity s) (more : ∀ f ∈ fs, f ∈ gs) : Resolves gs name arity s := by
  rcases resolves with print | ⟨f, member, known⟩
  · exact .inl print
  · exact .inr ⟨f, more f member, known⟩

def Expr.CallsAmong (fs : List Function) : Expr → Prop
  | .call name arguments slot => ∃ s, slot = some s ∧ Resolves fs name arguments.length s
  | _ => True

theorem Expr.CallsAmong.mono {fs gs : List Function} {e : Expr} (calls : e.CallsAmong fs)
    (more : ∀ f ∈ fs, f ∈ gs) : e.CallsAmong gs := by
  cases e with
  | call name arguments slot =>
    obtain ⟨s, slot, resolves⟩ := calls
    exact ⟨s, slot, resolves.mono more⟩
  | _ => trivial

def Function.expressions (f : Function) : List Expr :=
  (Stmt.allWithin f.body).flatMap fun s => s.parts.flatMap Expr.within

def Global.expressions (g : Global) : List Expr := g.value.toList.flatMap Expr.within

namespace TypeScope

def Knows (scope : TypeScope) (fs : List Function) : Prop :=
  ∀ name arity s, scope.getFunction? name arity = some s → Resolves fs name arity s

variable {scope : TypeScope} {fs : List Function}

theorem knows_initial : initial.Knows [] := by
  intro name arity s found
  rw [getFunction?_initial] at found
  split at found
  · rename_i print
    exact .inl ⟨print, (Option.some.inj found).symm⟩
  · cases found

theorem Knows.bindVariable (knows : scope.Knows fs) (name : String) (v : Variable) :
    Knows (scope.bindVariable name v) fs := by
  intro other arity s found
  rw [Scope.getFunction?_bindVariable] at found
  exact knows other arity s found

theorem Knows.enter (knows : scope.Knows fs) {frame : Frame Variable Signature}
    (none : frame.funs = []) : Knows (scope.enter frame) fs := by
  intro name arity s found
  rw [Scope.getFunction?_enter, Frame.getFunction?, none, List.lookup_nil, Option.none_or] at found
  exact knows name arity s found

theorem Knows.scopeBehind (knows : scope.Knows fs) (s : Stmt) : Knows (s.scopeBehind scope) fs := by
  cases s with
  | declare name typeName value slot =>
    cases slot with
    | none => exact knows
    | some v => exact knows.bindVariable name v
  | _ => exact knows

theorem Knows.bindFunction (knows : scope.Knows fs) {f : Function} {s : Signature}
    (slot : f.slot = some s) : Knows (scope.bindFunction f.name s.arity s) (fs ++ [f]) := by
  intro name arity t found
  rw [Scope.getFunction?_bindFunction] at found
  split at found
  · rename_i same
    obtain ⟨rfl, rfl⟩ := Prod.mk.inj same
    obtain rfl := Option.some.inj found
    exact .inr ⟨f, List.mem_append_right _ List.mem_cons_self, rfl, slot, rfl⟩
  · exact (knows name arity t found).mono fun _ => List.mem_append_left _

end TypeScope

section Made

variable {fs : List Function} {scope : TypeScope}

def Expr.MadeAmong (fs : List Function) (e : Expr) : Prop :=
  ∃ (scope : TypeScope) (declared : Option Ty) (raw : Expr),
    scope.Knows fs ∧ Global.annotateValue scope declared raw = .ok e

theorem Expr.madeAmong_of_annotate {raw e : Expr} (knows : scope.Knows fs)
    (made : raw.annotate scope = .ok e) : e.MadeAmong fs :=
  ⟨scope, none, raw, knows, (Global.annotateValue_none scope raw).trans made⟩

theorem Expr.callsAmong_of_rule {e : Expr} (rule : e.Rule scope) (knows : scope.Knows fs) :
    e.CallsAmong fs := by
  cases e with
  | call name arguments slot =>
    obtain ⟨s, found, _, slot⟩ := rule
    exact ⟨s, slot, knows name arguments.length s found⟩
  | _ => trivial

theorem Expr.MadeAmong.within {e : Expr} (made : e.MadeAmong fs) :
    ∀ x ∈ e.within, x.CallsAmong fs := by
  refine @forall_within (MadeAmong fs) _ ?_ ?_ e made
  · rintro e ⟨scope, declared, raw, knows, made⟩
    exact callsAmong_of_rule (Global.annotateValue_eq_ok made).1 knows
  · rintro e ⟨scope, declared, raw, knows, made⟩ part member
    obtain ⟨r, _, made⟩ := (Global.annotateValue_eq_ok made).2.2.2 part member
    exact madeAmong_of_annotate knows made

def Stmt.MadeAmong (fs : List Function) (s : Stmt) : Prop :=
  ∃ (scope behind : TypeScope) (result : Ty) (raw : Stmt),
    scope.Knows fs ∧ raw.annotate scope (some result) = .ok (s, behind)

theorem Stmt.madeAmong_of_annotateBlock {result : Ty} {ss ss' : List Stmt}
    (knows : scope.Knows fs) (annotated : annotateBlock scope (some result) ss = .ok ss') :
    ∀ s ∈ ss', s.MadeAmong fs := by
  induction ss generalizing scope ss' with
  | nil =>
    cases annotated
    exact nofun
  | cons s ss ih =>
    obtain ⟨s', behind, others', first, others, rfl⟩ := steps_of_annotateBlock annotated
    obtain ⟨rfl, _⟩ := rule_of_annotate first
    exact List.forall_mem_cons.mpr
      ⟨⟨scope, _, result, s, knows, first⟩, ih (knows.scopeBehind s') others⟩

theorem Stmt.madeAmong_allWithin {ss : List Stmt} (made : ∀ s ∈ ss, s.MadeAmong fs) :
    ∀ x ∈ allWithin ss, ∀ part ∈ x.parts, part.MadeAmong fs := by
  refine @forall_allWithin (MadeAmong fs) _ ?_ ?_ ss made
  · rintro s ⟨scope, behind, result, raw, knows, made⟩ part member
    obtain ⟨r, _, made⟩ := (rule_of_annotate made).2.2.1 part member
    exact Expr.madeAmong_of_annotate knows made
  · rintro s ⟨scope, behind, result, raw, knows, made⟩ body member
    obtain ⟨r, _, made⟩ := (rule_of_annotate made).2.2.2 body member
    exact madeAmong_of_annotateBlock (knows.enter rfl) made

end Made

namespace Function

/-- A function comes into force, and then its body is analysed. -/
theorem knows_of_annotate {fs : List Function} {scope scope' : TypeScope} {f f' : Function}
    (knows : scope.Knows fs) (annotated : f.annotate scope = (.ok f', scope')) :
    scope'.Knows (fs ++ [f']) ∧ ∀ s ∈ f'.body, s.MadeAmong (fs ++ [f']) := by
  obtain ⟨s, frame, body, _, defined, parameters, madeBody, rfl⟩ := steps_of_annotate annotated
  obtain ⟨_, rfl⟩ := Scope.defineFunction_eq_ok.mp defined
  obtain rfl := Frame.eq_bindVariables_of_defineVariables parameters
  have behind := @TypeScope.Knows.bindFunction scope fs knows
    { f with body := body, slot := some s } s rfl
  refine ⟨behind, Stmt.madeAmong_of_annotateBlock (behind.enter ?_) madeBody⟩
  exact Frame.funs_bindVariables _ _

end Function

namespace Program

variable {scope : TypeScope}

theorem callsAmong_of_annotateGlobals {gs gs' : List Global} {behind : TypeScope}
    (knows : scope.Knows []) (annotated : annotateGlobals scope gs = (.ok gs', behind)) :
    behind.Knows [] ∧ ∀ g ∈ gs', ∀ e ∈ g.expressions, e.CallsAmong [] := by
  induction gs generalizing scope gs' with
  | nil =>
    cases annotated
    exact ⟨knows, nofun⟩
  | cons g gs ih =>
    obtain ⟨g', next, others', made, others, rfl⟩ := steps_of_annotateGlobals annotated
    obtain ⟨declared, value, _, _, madeValue, _, defined, rfl⟩ := Global.steps_of_annotate made
    obtain ⟨_, rfl⟩ := Scope.defineVariable_eq_ok.mp defined
    obtain ⟨last, rest⟩ := ih (knows.bindVariable _ _) others
    refine ⟨last, List.forall_mem_cons.mpr ⟨fun e member => ?_, rest⟩⟩
    obtain ⟨whole, given, inside⟩ := List.mem_flatMap.mp member
    obtain rfl : value = some whole := Option.mem_toList.mp given
    cases raw : g.value with
    | none =>
      rw [raw] at madeValue
      cases madeValue
    | some r =>
      rw [raw, Option.mapM_some] at madeValue
      obtain ⟨_, madeRaw, same⟩ := map_eq_ok.mp madeValue
      obtain rfl := Option.some.inj same
      exact Expr.MadeAmong.within ⟨scope, declared, r, knows, madeRaw⟩ e inside

theorem callsAmong_of_annotateFunctions {before fs fs' : List Function}
    (knows : scope.Knows before) (annotated : (annotateFunctions scope fs).1 = .ok fs') {i : Nat}
    {f : Function} (there : fs'[i]? = some f) :
    ∀ e ∈ f.expressions, e.CallsAmong (before ++ fs'.take (i + 1)) := by
  induction fs generalizing scope before fs' i with
  | nil =>
    cases annotated
    cases there
  | cons g fs ih =>
    obtain ⟨g', next, others', made, others, rfl⟩ :=
      steps_of_annotateFunctions (Prod.ext annotated rfl)
    obtain ⟨behind, body⟩ := Function.knows_of_annotate knows made
    cases i with
    | zero =>
      obtain rfl := Option.some.inj there
      intro e inside
      obtain ⟨s, among, inside⟩ := List.mem_flatMap.mp inside
      obtain ⟨part, given, inside⟩ := List.mem_flatMap.mp inside
      exact (Stmt.madeAmong_allWithin body s among part given).within e inside
    | succ i =>
      have rest := ih behind (congrArg Prod.fst others) there
      rwa [List.append_assoc, List.singleton_append, ← List.take_succ_cons] at rest

/-- In an analysed program, whatever tree it was made of, each call means `print` or a function that
stands no further down, and the calls in the values of globals mean `print`. -/
theorem callsAmong_of_annotate {p q : Program}
    (annotated : (p.annotate TypeScope.initial).1 = .ok q) :
    (∀ (i : Nat) (f : Function), q.functions[i]? = some f →
      ∀ e ∈ f.expressions, e.CallsAmong (q.functions.take (i + 1))) ∧
    ∀ g ∈ q.globals, ∀ e ∈ g.expressions, e.CallsAmong [] := by
  obtain ⟨globals, behind, functions, madeGlobals, madeFunctions, _, rfl⟩ :=
    steps_of_annotate (Prod.ext annotated rfl)
  obtain ⟨knows, inGlobals⟩ := callsAmong_of_annotateGlobals TypeScope.knows_initial madeGlobals
  refine ⟨fun i f there => ?_, inGlobals⟩
  exact callsAmong_of_annotateFunctions knows (congrArg Prod.fst madeFunctions) there

/-- Wherever a call stands, it means `print` or a function of the program. -/
theorem callsAmong_expressions {p q : Program} {e : Expr}
    (annotated : (p.annotate TypeScope.initial).1 = .ok q) (member : e ∈ q.expressions) :
    e.CallsAmong q.functions := by
  obtain ⟨inFunctions, inGlobals⟩ := callsAmong_of_annotate annotated
  rcases List.mem_append.mp member with member | member
  · obtain ⟨g, among, member⟩ := List.mem_flatMap.mp member
    exact (inGlobals g among e member).mono nofun
  · obtain ⟨s, among, member⟩ := List.mem_flatMap.mp member
    obtain ⟨f, inProgram, inBody⟩ := List.mem_flatMap.mp among
    obtain ⟨i, there⟩ := List.mem_iff_getElem?.mp inProgram
    have inside : e ∈ f.expressions := List.mem_flatMap.mpr ⟨s, inBody, member⟩
    exact (inFunctions i f there e inside).mono fun g => List.mem_of_mem_take

end Program
end Plc
