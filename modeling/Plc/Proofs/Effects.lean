import Plc.Proofs.Typing.Effects
import Plc.Proofs.Typing.Erasure
import Plc.Proofs.Typing.WellTyped

/-! What the analysis of each phrase leaves behind it, whether or not it fails. It is back in the
frame where it began, with the same type of what may be returned. In the frames there were before,
it has defined the variable of a declaration or of a global that has an answer, the function of a
head whose types are known, and nothing else. -/
namespace Plc

section Expressions

open Analysis

mutual

theorem Expr.reads_visit : (e : Expr) → Reads e.visit fun scope => e.annotate scope
  | .literal value _ => by
    simp only [Expr.visit, Expr.annotate]
    exact (Reads.lift _).bind fun _ => .pure _
  | .group inner _ => by
    simp only [Expr.visit, Expr.annotate]
    split
    · exact (Expr.reads_visit inner).bind fun _ => (Reads.lift _).bind fun _ => .pure _
    · exact Reads.fail _
  | .binary op left right _ => by
    simp only [Expr.visit, Expr.annotate]
    exact (Expr.reads_visit left).bind fun _ => (Expr.reads_visit right).bind fun _ =>
      (Reads.lift _).bind fun _ => (Reads.lift _).bind fun _ => (Reads.lift _).bind fun _ => .pure _
  | .access name _ => by
    simp only [Expr.visit, Expr.annotate]
    exact (Reads.lookupVariable name).bind fun _ => .pure _
  | .element name offset _ => by
    simp only [Expr.visit, Expr.annotate]
    exact (Expr.reads_visit offset).bind fun _ => (Reads.lift _).bind fun _ =>
      (Reads.lift _).bind fun _ => (Reads.lookupVariable name).bind fun _ => .pure _
  | .call name arguments _ => by
    simp only [Expr.visit, Expr.annotate]
    exact (Expr.reads_visitAll arguments).bind fun _ => (Reads.lookupFunction name _).bind fun _ =>
      (Reads.lift _).bind fun _ => .pure _
  | .list elements _ => by
    simp only [Expr.visit, Expr.annotate]
    exact (Expr.reads_visitAll elements).bind fun _ => (Reads.lift _).bind fun _ => .pure _

theorem Expr.reads_visitAll : (es : List Expr) →
    Reads (Expr.visitAll es) fun scope => Expr.annotateAll scope es
  | [] => by
    simp only [Expr.visitAll, Expr.annotateAll]
    exact Reads.pure _
  | e :: es => by
    simp only [Expr.visitAll, Expr.annotateAll]
    exact (Expr.reads_visit e).bind fun _ => (Expr.reads_visitAll es).bind fun _ => .pure _

end

theorem Expr.reads_visitCondition (e : Expr) :
    Reads e.visitCondition fun scope => e.annotateCondition scope :=
  e.reads_visit.bind fun _ => (Reads.lift _).bind fun _ => (Reads.lift _).bind fun _ => .pure _

end Expressions

section Statements

open Analysis

def Stmt.definition? : Stmt → Option (Definition Variable Signature)
  | .declare name _ _ (some v) => some (.ofVariable name v)
  | _ => none

mutual

theorem Stmt.makes_visit : (s : Stmt) →
    Makes s.visit Stmt.definition? fun scope result => s.annotate scope result
  | .expression value => by
    simp only [Stmt.visit, Stmt.annotate]
    split
    · exact .bind value.reads_visit.rests fun _ => .pure rfl
    · exact .fail _
  | .declare name typeName value _ => by
    simp only [Stmt.visit, Stmt.annotate]
    exact .bind (Reads.lift _).rests fun _ =>
      .bind (Reads.optional Expr.reads_visit value).rests fun _ =>
      .bind (Reads.lift _).rests fun _ => .defineVariable rfl
  | .assign receiver value => by
    simp only [Stmt.visit, Stmt.annotate]
    split
    · exact .bind receiver.reads_visit.rests fun _ => .bind value.reads_visit.rests fun _ =>
        .bind (Reads.lift _).rests fun _ => .bind (Reads.lift _).rests fun _ => .pure rfl
    · exact .fail _
  | .branch condition thenBody elseBody => by
    simp only [Stmt.visit, Stmt.annotate]
    refine .bind condition.reads_visitCondition.rests fun _ => ?_
    split
    · exact .fail _
    · exact .bind (Rests.inChild (Stmt.runs_visitBlock thenBody)) fun _ =>
        .bind (Rests.inChild (Stmt.runs_visitBlock elseBody)) fun _ => .pure rfl
  | .switch condition cases => by
    simp only [Stmt.visit, Stmt.annotate]
    exact .bind condition.reads_visit.rests fun _ => .bind (Reads.lift _).rests fun ty =>
      .bind (Case.rests_visitAll ty cases) fun _ => .pure rfl
  | .loop condition body => by
    simp only [Stmt.visit, Stmt.annotate]
    exact .bind condition.reads_visitCondition.rests fun _ =>
      .bind (Rests.inChild (Stmt.runs_visitBlock body)) fun _ => .pure rfl
  | .ret value => by
    simp only [Stmt.visit, Stmt.annotate]
    refine .get fun a => ?_
    obtain ⟨tree, current, _ | ty⟩ := a
    · exact ⟨_, .fail _, fun _ => rfl⟩
    · have fits (e : Expr) := (Reads.lift (e.requireFits ty)).rests
      exact ⟨_, .bind value.reads_visit.rests fun e => .bind (fits e) fun _ => .pure rfl,
        fun _ => rfl⟩

theorem Stmt.runs_visitBlock : (ss : List Stmt) →
    Runs (Stmt.visitBlock ss) fun scope result => Stmt.annotateBlock scope result ss
  | [] => by
    simp only [Stmt.visitBlock, Stmt.annotateBlock]
    exact .pure []
  | s :: ss => by
    simp only [Stmt.visitBlock, Stmt.annotateBlock]
    exact .bind s.makes_visit.moves fun s => (Stmt.runs_visitBlock ss).map (s :: ·)

theorem Case.rests_visit (ty : Ty) (last : Bool) : (c : Case) →
    Rests (c.visit ty last) fun scope result => c.annotate scope result ty last
  | .on value body => by
    simp only [Case.visit, Case.annotate]
    split
    · exact (Reads.fail _).rests
    · exact value.reads_visit.rests.bind fun _ => (Reads.lift _).rests.bind fun _ =>
        (Reads.lift _).rests.bind fun _ =>
        (Rests.inChild (Stmt.runs_visitBlock body)).bind fun _ => (Reads.pure _).rests
  | .default body => by
    simp only [Case.visit, Case.annotate]
    split
    · exact (Rests.inChild (Stmt.runs_visitBlock body)).bind fun _ => (Reads.pure _).rests
    · exact (Reads.fail _).rests

theorem Case.rests_visitAll (ty : Ty) : (cs : List Case) →
    Rests (Case.visitAll ty cs) fun scope result => Case.annotateAll scope result ty cs
  | [] => by
    simp only [Case.visitAll, Case.annotateAll]
    exact (Reads.fail _).rests
  | c :: cs => by
    simp only [Case.visitAll, Case.annotateAll]
    refine (Case.rests_visit ty cs.isEmpty c).bind fun _ => ?_
    split
    · exact (Reads.pure _).rests
    · exact (Case.rests_visitAll ty cs).bind fun _ => (Reads.pure _).rests

end

/-- Declarations define their variable, and other statements define nothing. -/
theorem Stmt.definition?_of_annotate {s s' : Stmt} {scope scope' : TypeScope} {result : Option Ty}
    (made : s.annotate scope result = .ok (s', scope')) :
    match s with
    | .declare name _ _ _ => ∃ v, s'.definition? = some (.ofVariable name v)
    | _ => s'.definition? = none := by
  cases s with
  | declare name typeName value slot =>
    simp only [Stmt.annotate, bind_eq_ok, pure_eq_ok, Prod.mk.injEq] at made
    obtain ⟨_, _, _, _, _, _, _, _, rfl, _⟩ := made
    exact ⟨_, rfl⟩
  | _ =>
    have shape := Stmt.erase_of_annotate _ made
    cases s' with
    | declare =>
      simp only [Stmt.erase] at shape
      cases shape
    | _ => rfl

end Statements

section Programs

open Analysis

def Global.definition? (g : Global) : Option (Definition Variable Signature) :=
  g.slot.map (.ofVariable g.name)

theorem Global.reads_visitValue (declared : Option Ty) (value : Expr) :
    Reads (Global.visitValue declared value) fun scope =>
      Global.annotateValue scope declared value := by
  cases value with
  | list elements ty =>
    exact (Expr.reads_visitAll elements).bind fun _ => (Reads.lift _).bind fun _ => .pure _
  | _ => exact Expr.reads_visit _

theorem Global.makes_visit (g : Global) :
    Makes g.visit Global.definition? fun scope _ => g.annotate scope :=
  .bind (Reads.lift _).rests fun declared =>
    .bind (Reads.optional (Global.reads_visitValue declared) g.value).rests fun _ =>
    .bind (Reads.lift _).rests fun _ => .defineVariable rfl

theorem Global.definition?_of_annotate {g g' : Global} {scope scope' : TypeScope}
    (made : g.annotate scope = .ok (g', scope')) :
    ∃ v, g'.definition? = some (.ofVariable g.name v) := by
  obtain ⟨_, _, _, _, _, _, _, rfl⟩ := steps_of_annotate made
  exact ⟨_, rfl⟩

namespace Function

def definition? (f : Function) (frame : Frame Variable Signature) :
    Option (Definition Variable Signature) :=
  match f.signature with
  | .error _ => none
  | .ok s =>
    match frame.getFunction? f.name s.arity with
    | some _ => none
    | none => some (.ofFunction f.name s.arity s)

theorem exists_mapM_resolve_iff (names : List String) :
    (∃ types, names.mapM Ty.resolve = .ok types) ↔
      ∀ name ∈ names, (Ty.ofName? name).isSome := by
  induction names with
  | nil => exact ⟨fun _ => nofun, fun _ => ⟨[], rfl⟩⟩
  | cons name names ih =>
    rw [List.forall_mem_cons, ← ih]
    simp only [List.mapM_cons, bind_eq_ok, pure_eq_ok, Ty.resolve]
    cases Ty.ofName? name with
    | none => simp
    | some ty => simp

def NamesTypes (f : Function) : Prop :=
  (∀ name ∈ f.typeNames, (Ty.ofName? name).isSome) ∧ ∀ name ∈ f.resultName, (Ty.ofName? name).isSome

theorem exists_signature_iff (f : Function) : (∃ s, f.signature = .ok s) ↔ f.NamesTypes := by
  rw [NamesTypes, ← exists_mapM_resolve_iff, signature]
  cases f.typeNames.mapM Ty.resolve with
  | error fault =>
    constructor
    · rintro ⟨s, failed⟩
      cases failed
    · rintro ⟨⟨types, failed⟩, _⟩
      cases failed
  | ok types =>
    cases f.resultName with
    | none => exact ⟨fun _ => ⟨⟨types, rfl⟩, nofun⟩, fun _ => ⟨_, rfl⟩⟩
    | some name =>
      simp only [Ty.resolve, Option.mem_some_iff, forall_eq']
      cases Ty.ofName? name with
      | none =>
        constructor
        · rintro ⟨s, failed⟩
          cases failed
        · rintro ⟨_, failed⟩
          cases failed
      | some ty => exact ⟨fun _ => ⟨⟨types, rfl⟩, rfl⟩, fun _ => ⟨_, rfl⟩⟩

theorem definition?_isSome (f : Function) (frame : Frame Variable Signature) :
    (f.definition? frame).isSome ↔
      f.NamesTypes ∧ frame.getFunction? f.name f.typeNames.length = none := by
  rw [← exists_signature_iff, definition?]
  cases signed : f.signature with
  | error fault => simp
  | ok s =>
    have arity : s.arity = f.typeNames.length := length_of_signature signed
    show (match frame.getFunction? f.name s.arity with
      | some _ => none
      | none => some _).isSome ↔ _
    rw [arity]
    cases frame.getFunction? f.name f.typeNames.length with
    | some old => simp
    | none => simp

theorem eq_of_mem_definition? {f : Function} {frame : Frame Variable Signature}
    {d : Definition Variable Signature} (made : d ∈ f.definition? frame) :
    ∃ s, f.signature = .ok s ∧ d = .ofFunction f.name f.typeNames.length s := by
  rw [definition?] at made
  cases signed : f.signature with
  | error fault =>
    rw [signed] at made
    cases made
  | ok s =>
    rw [signed] at made
    refine ⟨s, rfl, ?_⟩
    rw [← length_of_signature signed]
    cases bound : frame.getFunction? f.name s.arity with
    | some old =>
      rw [Option.mem_def] at made
      simp only [bound] at made
      cases made
    | none =>
      rw [Option.mem_def] at made
      simp only [bound] at made
      exact (Option.some.inj made).symm

/-- The body of a function is analysed in a frame of its own. -/
theorem rests_body (f : Function) (s : Signature) :
    Rests (returning s.result <| inChild do
      defineAll (f.parameterVariables s)
      let body ← Stmt.visitBlock f.body
      return { f with body := body, slot := some s }) fun scope _ => f.annotateBody scope s := by
  have within := Runs.bind (.defineAll (f.parameterVariables s)) fun _ =>
    (Stmt.runs_visitBlock f.body).map fun body => { f with body := body, slot := some s }
  refine ((Rests.inChild within).returning s.result).congr fun scope _ => ?_
  show (Frame.defineVariables {} (f.parameterVariables s)).map _ >>= _ = _
  rw [annotateBody]
  cases Frame.defineVariables {} (f.parameterVariables s) with
  | error fault => rfl
  | ok frame => rfl

/-- What a function defines stays, whatever is wrong with its body. -/
theorem leads_visit (f : Function) {a : Analyzer} (formed : a.Formed) : ∃ b,
    f.visit.Leads a b (f.annotate a.scope) ∧
      a.Leaves (f.definition? (a.tree.frame a.current)) b := by
  rw [annotate, definition?]
  cases signed : f.signature with
  | error fault =>
    exact ⟨a, ⟨by rw [visit, on_bind, on_lift, signed], rfl⟩, Analyzer.leaves_self formed⟩
  | ok s =>
    have current : a.scope.current = a.tree.frame a.current :=
      formed.tree.current_scope formed.there
    let d : Definition Variable Signature := .ofFunction f.name s.arity s
    have stepped := on_define formed d
    simp only [Scope.defineFunction, Frame.defineFunction, current]
    cases bound : (a.tree.frame a.current).getFunction? f.name s.arity with
    | some old =>
      rw [Definition.key, Frame.get?, bound] at stepped
      refine ⟨a, ⟨?_, rfl⟩, Analyzer.leaves_self formed⟩
      rw [visit, on_bind, on_lift, signed]
      show (define d >>= _).on a = _
      rw [on_bind, stepped]
      rfl
    | none =>
      have free : (a.tree.frame a.current).get? d.key = none := by
        rw [Definition.key, Frame.get?, bound]
        rfl
      rw [free] at stepped
      have leaves := Analyzer.leaves_of_bind formed free
      obtain ⟨b, on_eq, rest⟩ := f.rests_body s _ leaves.formed
      have behind := leaves.scope_eq formed
      rw [Option.elim_some, current] at behind
      refine ⟨b, ⟨?_, ?_⟩, leaves.trans_none rest⟩
      · rw [visit, on_bind, on_lift, signed]
        show (define d >>= _).on a = _
        rw [on_bind, stepped]
        exact on_eq.trans (by rw [behind]; rfl)
      · exact (rest.scope_eq leaves.formed).trans behind

theorem passes_visit (f : Function) : Passes f.visit fun scope => f.annotate scope := by
  intro a formed
  obtain ⟨b, leads, leaves⟩ := f.leads_visit formed
  exact ⟨b, leads, leaves.toReturns⟩

end Function

namespace Program

theorem passes_visitGlobals (gs : List Global) :
    Passes (visitGlobals gs) fun scope => annotateGlobals scope gs := by
  induction gs with
  | nil => exact .ofReads (Reads.pure [])
  | cons g gs ih =>
    refine (g.makes_visit.passes.bind fun g => ih.bind fun gs =>
      .ofReads (Reads.pure (g :: gs))).congr fun scope => ?_
    rw [annotateGlobals]
    cases g.annotate scope with
    | error fault => rfl
    | ok made =>
      obtain ⟨g, scope⟩ := made
      simp only [TypeScope.behind]
      rcases annotateGlobals scope gs with ⟨_ | _, _⟩ <;> rfl

theorem passes_visitFunctions (fs : List Function) :
    Passes (visitFunctions fs) fun scope => annotateFunctions scope fs := by
  induction fs with
  | nil => exact .ofReads (Reads.pure [])
  | cons f fs ih =>
    refine (f.passes_visit.bind fun f => ih.bind fun fs =>
      .ofReads (Reads.pure (f :: fs))).congr fun scope => ?_
    rw [annotateFunctions]
    rcases f.annotate scope with ⟨_ | f, scope⟩
    · rfl
    · simp only
      rcases annotateFunctions scope fs with ⟨_ | _, _⟩ <;> rfl

theorem passes_visit (p : Program) : Passes p.visit fun scope => p.annotate scope := by
  refine ((passes_visitGlobals p.globals).bind fun globals =>
    (passes_visitFunctions p.functions).bind fun functions => .ofReads <|
    (Reads.lookupFunction "main" 0).bind fun main => (Reads.lift _).bind fun _ =>
    Reads.pure (⟨globals, functions⟩ : Program)).congr fun scope => ?_
  rw [annotate]
  rcases annotateGlobals scope p.globals with ⟨_ | globals, scope⟩
  · rfl
  · simp only
    rcases annotateFunctions scope p.functions with ⟨_ | functions, scope⟩
    · rfl
    · simp only [requireMain]
      cases scope.lookupFunction "main" 0 with
      | error fault => rfl
      | ok main =>
        show (Ty.integer.requireAccepts main.result >>= _, scope) =
          ((Ty.integer.requireAccepts main.result).map _, scope)
        cases Ty.integer.requireAccepts main.result <;> rfl

end Program

end Programs

namespace Analyzer

inductive Binds (a : Analyzer) (name : String) {α : Type} : Except Fault α → Analyzer → Prop
  | bound {answer : α} {b : Analyzer} (v : Variable)
      (leaves : a.Leaves (some (.ofVariable name v)) b) : Binds a name (.ok answer) b
  | failed {fault : Fault} {b : Analyzer} (leaves : a.Leaves none b) : Binds a name (.error fault) b

/-- What an analysis leaves behind it, from any state and whether or not it fails. The answers, and
the scopes behind them, are those of the analysis that is given a scope. -/
theorem effects_are_exact {a : Analyzer} (formed : a.Formed) :
    (∀ e : Expr, e.visit.on a = (e.annotate a.scope, a)) ∧
    (∀ s : Stmt, ∃ b, s.visit.Leads a b (a.scope.behind (s.annotate a.scope a.result)) ∧
      match s with
      | .declare name _ _ _ => a.Binds name (s.annotate a.scope a.result) b
      | _ => a.Leaves none b) ∧
    (∀ g : Global, ∃ b, g.visit.Leads a b (a.scope.behind (g.annotate a.scope)) ∧
      a.Binds g.name (g.annotate a.scope) b) ∧
    (∀ f : Function, ∃ b, f.visit.Leads a b (f.annotate a.scope) ∧
      ∃ made, a.Leaves made b ∧
        (∀ d ∈ made, ∃ s, f.signature = .ok s ∧ d = .ofFunction f.name f.typeNames.length s) ∧
        (made.isSome ↔ f.NamesTypes ∧
          (a.tree.frame a.current).getFunction? f.name f.typeNames.length = none)) ∧
    ∀ p : Program, ∃ b, p.visit.Leads a b (p.annotate a.scope) ∧ a.Returns b := by
  refine ⟨fun e => e.reads_visit a, fun s => ?_, fun g => ?_, fun f => ?_,
    fun p => p.passes_visit a formed⟩
  -- A declaration is the only statement that defines something, and only if it does not fail.
  · obtain ⟨b, leads, leaves⟩ := s.makes_visit a formed
    refine ⟨b, leads, ?_⟩
    cases answer : s.annotate a.scope a.result with
    | error fault =>
      simp only [answer] at leaves
      cases s with
      | declare => exact .failed leaves
      | _ => exact leaves
    | ok made =>
      simp only [answer] at leaves
      have defines := Stmt.definition?_of_annotate answer
      cases s with
      | declare =>
        obtain ⟨v, defines⟩ := defines
        exact .bound v (defines ▸ leaves)
      | _ => exact defines ▸ leaves
  · obtain ⟨b, leads, leaves⟩ := g.makes_visit a formed
    refine ⟨b, leads, ?_⟩
    cases answer : g.annotate a.scope with
    | error fault =>
      simp only [answer] at leaves
      exact .failed leaves
    | ok made =>
      simp only [answer] at leaves
      obtain ⟨v, defines⟩ := Global.definition?_of_annotate answer
      exact .bound v (defines ▸ leaves)
  · obtain ⟨b, leads, leaves⟩ := f.leads_visit formed
    exact ⟨b, leads, _, leaves, fun d => Function.eq_of_mem_definition?, f.definition?_isSome _⟩

def inner : Analyzer := { initial.child with result := some .integer }

def undefinedWithin : Function where
  name := "f"
  parameters := ["n"]
  typeNames := ["Integer"]
  resultName := none
  body := [.loop (.literal (.boolean true) none)
    [.branch (.literal (.boolean true) none)
      [.declare "k" none (some (.access "n" none)) none, .ret (.access "y" none)] []]]
  slot := none

theorem effects_are_exact_nested : inner.Formed ∧ ∃ b,
    undefinedWithin.visit.on inner = (.error (.undefinedVariable "y"), b) ∧
      b.current = 1 ∧ b.result = some .integer ∧
      (b.tree.frame 0).funs = [(("print", 1), TypeScope.printSignature)] ∧
      (b.tree.frame 1).vars = [] ∧
      (b.tree.frame 1).funs = [(("f", 1), ⟨"f", "f", [.integer], .nil⟩)] := by
  have formed : inner.Formed := ⟨initial_formed.child.tree, initial_formed.child.there⟩
  obtain ⟨_, _, _, functions, _⟩ := effects_are_exact formed
  obtain ⟨b, leads, made, leaves, defines, when⟩ := functions undefinedWithin
  have named : undefinedWithin.NamesTypes := ⟨by decide, nofun⟩
  obtain ⟨d, rfl⟩ := Option.isSome_iff_exists.mp (when.mpr ⟨named, rfl⟩)
  obtain ⟨s, signed, rfl⟩ := defines d rfl
  obtain rfl := Except.ok.inj signed
  have failed : (undefinedWithin.annotate inner.scope).1 = .error (.undefinedVariable "y") := rfl
  have outer : b.tree.frame 0 = inner.tree.frame 0 :=
    leaves.others 0 Nat.zero_lt_two Nat.zero_ne_one
  have here : b.tree.frame 1 = _ := leaves.here
  refine ⟨formed, b, failed ▸ leads.on_eq, leaves.current, leaves.result, ?_, ?_, ?_⟩
  · rw [outer]
    rfl
  · rw [here]
    rfl
  · rw [here]
    rfl

end Analyzer
end Plc
