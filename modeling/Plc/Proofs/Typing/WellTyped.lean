import Plc.Compile
import Plc.Proofs.Reading.Bare
import Plc.Proofs.Typing.Analysis

/-! A program that was compiled is well typed. The globals and the functions are followed as the
analysis takes them, and from the functions one gets to every block. -/
namespace Plc

namespace Global

theorem bare_of_mem_parts {mutable : Bool} {e part : Expr} (bare : BareValue mutable (some e))
    (member : part ∈ e.parts) : part.Bare := by
  cases e with
  | list elements ty => exact bare.2.1.of_mem member
  | literal value ty => exact Expr.Bare.of_mem_parts bare member
  | group inner ty => exact Expr.Bare.of_mem_parts bare member
  | binary op left right ty => exact Expr.Bare.of_mem_parts bare member
  | access name slot => exact Expr.Bare.of_mem_parts bare member
  | element name offset slot => exact Expr.Bare.of_mem_parts bare member
  | call name arguments slot => exact Expr.Bare.of_mem_parts bare member

/-- The value of a global is analysed as any other expression, but for the type of a list. -/
theorem annotateValue_eq_ok {scope : TypeScope} {declared : Option Ty} {raw e : Expr}
    (annotated : annotateValue scope declared raw = .ok e) :
    e.Rule scope ∧ e.isList = raw.isList ∧ (raw.isList = true → ∀ t ∈ declared, e.ty = some t) ∧
      ∀ part ∈ e.parts, ∃ r ∈ raw.parts, r.annotate scope = .ok part := by
  have other : raw.isList = false → raw.annotate scope = .ok e →
      e.Rule scope ∧ e.isList = raw.isList ∧
        (raw.isList = true → ∀ t ∈ declared, e.ty = some t) ∧
        ∀ part ∈ e.parts, ∃ r ∈ raw.parts, r.annotate scope = .ok part := by
    intro single annotated
    obtain ⟨rule, still, parts⟩ := Expr.rule_of_annotate annotated
    exact ⟨rule, still, by simp [single], parts⟩
  cases raw with
  | list elements ty =>
    simp only [annotateValue, bind_eq_ok, pure_eq_ok] at annotated
    obtain ⟨elements', made, t, typed, rfl⟩ := annotated
    obtain ⟨chosen, accepted⟩ := Expr.elementType_eq_ok typed
    refine ⟨⟨t, rfl, accepted⟩, rfl, ?_, (Expr.annotateAll_eq_ok made).2⟩
    intro _ u given
    rw [chosen u given]
    rfl
  | literal => exact other rfl annotated
  | group => exact other rfl annotated
  | binary => exact other rfl annotated
  | access => exact other rfl annotated
  | element => exact other rfl annotated
  | call => exact other rfl annotated

theorem rule_of_annotate {scope scope' : TypeScope} {raw g : Global} (bare : raw.Bare)
    (annotated : raw.annotate scope = .ok (g, scope')) :
    scope' = g.scopeBehind scope ∧ g.Rule scope ∧
      ∀ e ∈ g.value, e.Rule scope ∧ ∀ part ∈ e.parts, part.Analysed scope := by
  obtain ⟨declared, value, ty, _, made, typed, defined, rfl⟩ := steps_of_annotate annotated
  obtain ⟨free, rfl⟩ := Scope.defineVariable_eq_ok.mp defined
  obtain ⟨chosen, fits⟩ := requireFits_of_declarationType typed
  cases given : raw.value with
  | none =>
    rw [given] at made
    cases made
    refine ⟨rfl, ⟨_, rfl, rfl, rfl, by simp [isList, given], free, by simp⟩, by simp⟩
  | some r =>
    rw [given] at made
    obtain ⟨e, madeValue, same⟩ := bind_eq_ok.mp made
    obtain rfl := pure_eq_ok.mp same
    obtain ⟨rule, still, element, parts⟩ := annotateValue_eq_ok madeValue
    refine ⟨rfl, ⟨_, rfl, rfl, rfl, by simp [isList, given, still], free, ?_⟩, ?_⟩
    · rintro _ ⟨⟩
      split
      · rename_i literal
        cases declared with
        | some t =>
          rw [element (still ▸ literal) t rfl, chosen t rfl]
        | none => exact (Expr.valueType_eq_ok.mp typed).2
      · exact fits e rfl
    · rintro _ ⟨⟩
      refine ⟨rule, ?_⟩
      intro part member
      obtain ⟨r', found, made⟩ := parts part member
      exact ⟨scope, r', .refl scope, bare_of_mem_parts (given ▸ bare.value) found, made⟩

end Global

namespace Function

theorem length_of_signature {f : Function} {s : Signature} (made : f.signature = .ok s) :
    s.parameters.length = f.typeNames.length := by
  obtain ⟨parameters, mapped, made⟩ := bind_eq_ok.mp made
  split at made
  · obtain ⟨result, _, same⟩ := bind_eq_ok.mp made
    obtain rfl := pure_eq_ok.mp same
    exact length_of_mapM mapped
  · obtain ⟨result, _, same⟩ := bind_eq_ok.mp made
    obtain rfl := pure_eq_ok.mp same
    exact length_of_mapM mapped

/-- A function is in force when its body is analysed. -/
theorem rule_of_annotate {scope scope' : TypeScope} {raw f : Function} (bare : raw.Bare)
    (annotated : raw.annotate scope = (.ok f, scope')) :
    scope' = f.scopeBehind scope ∧ f.Rule scope ∧
      ∃ s, f.slot = some s ∧
        Stmt.annotateBlock (scope'.enter (f.frame s)) (some s.result) raw.body = .ok f.body := by
  obtain ⟨s, frame, body, signed, defined, parameters, madeBody, rfl⟩ := steps_of_annotate annotated
  obtain ⟨free, rfl⟩ := Scope.defineFunction_eq_ok.mp defined
  obtain rfl := Frame.eq_bindVariables_of_defineVariables parameters
  have arity : s.parameters.length = raw.parameters.length :=
    (length_of_signature signed).trans bare.arity
  exact ⟨rfl, ⟨s, rfl, arity, free, parameters⟩, s, rfl, madeBody⟩

end Function

namespace Program

def GlobalsAnalysed (scope : TypeScope) (gs : List Global) : Prop :=
  scope.inner = [] ∧ ∃ raws : List Global, (∀ raw ∈ raws, raw.Bare) ∧
    annotateGlobals scope raws = (.ok gs, gs.foldl Global.scopeBehind scope)

theorem globalsAnalysed_of_annotate {scope scope' : TypeScope} {raws gs : List Global}
    (outside : scope.inner = []) (bare : ∀ raw ∈ raws, raw.Bare)
    (annotated : annotateGlobals scope raws = (.ok gs, scope')) :
    scope' = gs.foldl Global.scopeBehind scope ∧ scope'.inner = [] ∧
      GlobalsAnalysed scope gs := by
  suffices behind : scope' = gs.foldl Global.scopeBehind scope ∧ scope'.inner = [] by
    exact ⟨behind.1, behind.2, outside, raws, bare, behind.1 ▸ annotated⟩
  induction raws generalizing scope gs with
  | nil =>
    cases annotated
    exact ⟨rfl, outside⟩
  | cons raw raws ih =>
    obtain ⟨g, behind, gs, first, others, rfl⟩ := steps_of_annotateGlobals annotated
    obtain ⟨rfl, _, _⟩ := Global.rule_of_annotate (bare raw List.mem_cons_self) first
    have next := ih (inner_global outside g)
      (fun r member => bare r (List.mem_cons_of_mem _ member)) others
    exact next

theorem GlobalsAnalysed.cons {scope : TypeScope} {g : Global} {gs : List Global}
    (analysed : GlobalsAnalysed scope (g :: gs)) :
    GlobalsAnalysed (g.scopeBehind scope) gs ∧ g.Rule scope ∧
      ∀ e ∈ g.value, e.Rule scope ∧ ∀ part ∈ e.parts, part.Analysed scope := by
  obtain ⟨outside, raws, bare, made⟩ := analysed
  cases raws with
  | nil => cases made
  | cons raw raws =>
    obtain ⟨first, behind, others, annotated, madeOthers, same⟩ := steps_of_annotateGlobals made
    obtain ⟨rfl, rfl⟩ := List.cons.inj same
    obtain ⟨rfl, rule, value⟩ := Global.rule_of_annotate (bare raw List.mem_cons_self) annotated
    have next := globalsAnalysed_of_annotate (inner_global outside g)
      (fun r member => bare r (List.mem_cons_of_mem _ member)) madeOthers
    exact ⟨next.2.2, rule, value⟩

def FunctionsAnalysed (scope : TypeScope) (fs : List Function) : Prop :=
  scope.inner = [] ∧ ∃ raws : List Function, (∀ raw ∈ raws, raw.Bare) ∧
    annotateFunctions scope raws = (.ok fs, fs.foldl Function.scopeBehind scope)

theorem functionsAnalysed_of_annotate {scope scope' : TypeScope} {raws fs : List Function}
    (outside : scope.inner = []) (bare : ∀ raw ∈ raws, raw.Bare)
    (annotated : annotateFunctions scope raws = (.ok fs, scope')) :
    scope' = fs.foldl Function.scopeBehind scope ∧ scope.Below scope' ∧
      FunctionsAnalysed scope fs := by
  suffices behind : scope' = fs.foldl Function.scopeBehind scope ∧ scope.Below scope' by
    exact ⟨behind.1, behind.2, outside, raws, bare, behind.1 ▸ annotated⟩
  induction raws generalizing scope fs with
  | nil =>
    cases annotated
    exact ⟨rfl, .refl _⟩
  | cons raw raws ih =>
    obtain ⟨f, behind, fs, first, others, rfl⟩ := steps_of_annotateFunctions annotated
    obtain ⟨rfl, ⟨s, slot, _, free, _⟩, _⟩ :=
      Function.rule_of_annotate (bare raw List.mem_cons_self) first
    obtain ⟨eq, below⟩ := ih (inner_function outside f)
      (fun r member => bare r (List.mem_cons_of_mem _ member)) others
    refine ⟨eq, .trans ?_ below⟩
    rw [Function.scopeBehind, slot]
    exact TypeScope.Below.bindFunction s free outside

theorem FunctionsAnalysed.cons {scope : TypeScope} {f : Function} {fs : List Function}
    (analysed : FunctionsAnalysed scope (f :: fs)) :
    FunctionsAnalysed (f.scopeBehind scope) fs ∧ f.Rule scope ∧
      ∃ s, f.slot = some s ∧ Stmt.BlockAnalysed
        (Scope.enter ((f :: fs).foldl Function.scopeBehind scope) (f.frame s)) s.result f.body := by
  obtain ⟨outside, raws, bare, made⟩ := analysed
  cases raws with
  | nil => cases made
  | cons raw raws =>
    obtain ⟨first, behind, others, annotated, madeOthers, same⟩ := steps_of_annotateFunctions made
    obtain ⟨rfl, rfl⟩ := List.cons.inj same
    have bareRaw := bare raw List.mem_cons_self
    obtain ⟨rfl, rule, s, slot, madeBody⟩ := Function.rule_of_annotate bareRaw annotated
    obtain ⟨eq, below, next⟩ := functionsAnalysed_of_annotate (inner_function outside f)
      (fun r member => bare r (List.mem_cons_of_mem _ member)) madeOthers
    exact ⟨next, rule, s, slot, _, raw.body, .enter below _, bareRaw.body, madeBody⟩

structure Analysed (p : Program) : Prop where
  globals : GlobalsAnalysed TypeScope.initial p.globals
  functions : FunctionsAnalysed (p.globals.foldl Global.scopeBehind TypeScope.initial) p.functions
  main : ∃ s, p.scope.getFunction? "main" 0 = some s ∧ s.result = .integer

theorem analysed_of_annotate {raw p : Program} {scope : TypeScope} (bare : raw.Bare)
    (annotated : raw.annotate TypeScope.initial = (.ok p, scope)) : p.Analysed := by
  obtain ⟨globals, behind, functions, madeGlobals, madeFunctions, main, rfl⟩ :=
    steps_of_annotate annotated
  obtain ⟨rfl, outside, globalsAnalysed⟩ :=
    globalsAnalysed_of_annotate rfl bare.globals madeGlobals
  obtain ⟨eq, _, functionsAnalysed⟩ :=
    functionsAnalysed_of_annotate outside bare.functions madeFunctions
  simp only [requireMain, bind_eq_ok, Scope.lookupFunction_eq_ok,
    Ty.requireAccepts_eq_ok] at main
  obtain ⟨s, found, accepted⟩ := main
  rw [eq] at found
  exact ⟨globalsAnalysed, functionsAnalysed, s, found, Ty.eq_of_integer_accepts accepted⟩

namespace Analysed

variable {p : Program} {scope : TypeScope}

theorem globalsAt (analysed : p.Analysed) {gs : List Global} (place : p.GlobalsAt scope gs) :
    GlobalsAnalysed scope gs := by
  induction place with
  | first => exact analysed.globals
  | next _ ih => exact ih.cons.1

theorem functionsAt (analysed : p.Analysed) {fs : List Function}
    (place : p.FunctionsAt scope fs) : FunctionsAnalysed scope fs := by
  induction place with
  | first place =>
    obtain rfl := place.foldl_eq
    exact analysed.functions
  | next _ ih => exact ih.cons.1

theorem blockAt (analysed : p.Analysed) {result : Ty} {ss : List Stmt}
    (place : p.BlockAt scope result ss) : Stmt.BlockAnalysed scope result ss := by
  induction place with
  | body member slot =>
    obtain ⟨scope, fs, place⟩ := exists_functionsAt member
    obtain ⟨s, found, body⟩ := (analysed.functionsAt place).cons.2.2
    obtain rfl := Option.some.inj (slot.symm.trans found)
    exact place.foldl_eq ▸ body
  | next _ ih => exact ih.cons.1
  | inner _ member ih => exact ih.cons.2.2.2 _ member

theorem exprAt (analysed : p.Analysed) {e : Expr} (place : p.ExprAt scope e) :
    e.Rule scope ∧ ∀ part ∈ e.parts, part.Analysed scope := by
  induction place with
  | global place value => exact (analysed.globalsAt place).cons.2.2 _ value
  | stmt place member =>
    have here := (analysed.blockAt place).cons.2.2.1 _ member
    exact ⟨here.rule, here.part⟩
  | part _ member ih =>
    have here := ih.2 _ member
    exact ⟨here.rule, here.part⟩

theorem wellTyped (analysed : p.Analysed) : p.WellTyped where
  exprs place := (analysed.exprAt place).1
  exprParts place part member := ((analysed.exprAt place).2 part member).isList_eq_false
  stmts place := (analysed.blockAt place).cons.2.1
  stmtParts place part member :=
    ((analysed.blockAt place).cons.2.2.1 part member).isList_eq_false
  globals place := (analysed.globalsAt place).cons.2.1
  functions place := (analysed.functionsAt place).cons.2.1
  main := analysed.main

end Analysed

theorem wellTyped_of_compile {text : String} {p : Program} (compiled : compile text = .ok p) :
    p.WellTyped := by
  obtain ⟨tokens, _, compiled⟩ := bind_eq_ok.mp compiled
  obtain ⟨raw, read, annotated⟩ := bind_eq_ok.mp compiled
  have bare := Reading.readProgram_bare tokens raw (mapError_eq_ok.mp read)
  exact (analysed_of_annotate bare (Prod.ext (mapError_eq_ok.mp annotated) rfl)).wellTyped

end Program

end Plc
