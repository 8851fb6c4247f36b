import Plc.Proofs.Reading.Shape
import Plc.Proofs.Typing.Inversion

/-! Erasing the slots of a tree. The analysis gives the same for a tree and for what is left of it
when its slots are erased, and what it gives has the same erasure. In a bare tree there is nothing
to erase. -/
namespace Plc

section Expressions

mutual

def Expr.erase : Expr → Expr
  | .literal value _ => .literal value none
  | .group inner _ => .group inner.erase none
  | .binary op left right _ => .binary op left.erase right.erase none
  | .access name _ => .access name none
  | .element name offset _ => .element name offset.erase none
  | .call name arguments _ => .call name (Expr.eraseAll arguments) none
  | .list elements _ => .list (Expr.eraseAll elements) none

def Expr.eraseAll : List Expr → List Expr
  | [] => []
  | e :: es => e.erase :: Expr.eraseAll es

end

variable {scope : TypeScope}

@[simp] theorem Expr.isBinary_erase (e : Expr) : e.erase.isBinary = e.isBinary := by
  cases e <;> rfl

@[simp] theorem Expr.isCall_erase (e : Expr) : e.erase.isCall = e.isCall := by
  cases e <;> rfl

@[simp] theorem Expr.isList_erase (e : Expr) : e.erase.isList = e.isList := by
  cases e <;> rfl

@[simp] theorem Expr.isPlace_erase (e : Expr) : e.erase.isPlace = e.isPlace := by
  cases e <;> rfl

mutual

/-- The analysis does not look at what the slots hold. -/
theorem Expr.annotate_erase (scope : TypeScope) (e : Expr) :
    e.erase.annotate scope = e.annotate scope := by
  cases e with
  | literal value ty => rfl
  | group inner ty =>
    rw [erase, annotate, annotate, isBinary_erase, annotate_erase scope inner]
  | binary op left right ty =>
    rw [erase, annotate, annotate, annotate_erase scope left, annotate_erase scope right]
  | access name slot => rfl
  | element name offset slot => rw [erase, annotate, annotate, annotate_erase scope offset]
  | call name arguments slot =>
    rw [erase, annotate, annotate, annotateAll_eraseAll scope arguments]
  | list elements ty => rw [erase, annotate, annotate, annotateAll_eraseAll scope elements]

theorem Expr.annotateAll_eraseAll (scope : TypeScope) (es : List Expr) :
    annotateAll scope (eraseAll es) = annotateAll scope es := by
  cases es with
  | nil => rfl
  | cons e es =>
    rw [eraseAll, annotateAll, annotateAll, annotate_erase scope e, annotateAll_eraseAll scope es]

end

mutual

/-- The analysis changes nothing but slots. -/
theorem Expr.erase_of_annotate (e : Expr) {e' : Expr} (annotated : e.annotate scope = .ok e') :
    e'.erase = e.erase := by
  cases e with
  | literal value ty =>
    simp only [annotate, bind_eq_ok, pure_eq_ok] at annotated
    obtain ⟨_, _, rfl⟩ := annotated
    rfl
  | group inner ty =>
    rw [annotate] at annotated
    split at annotated
    · simp only [bind_eq_ok, pure_eq_ok] at annotated
      obtain ⟨inner', made, _, _, rfl⟩ := annotated
      rw [erase, erase, erase_of_annotate inner made]
    · cases annotated
  | binary op left right ty =>
    simp only [annotate, bind_eq_ok, pure_eq_ok] at annotated
    obtain ⟨left', madeLeft, right', madeRight, _, _, _, _, _, _, rfl⟩ := annotated
    rw [erase, erase, erase_of_annotate left madeLeft, erase_of_annotate right madeRight]
  | access name slot =>
    simp only [annotate, bind_eq_ok, pure_eq_ok] at annotated
    obtain ⟨_, _, rfl⟩ := annotated
    rfl
  | element name offset slot =>
    simp only [annotate, bind_eq_ok, pure_eq_ok] at annotated
    obtain ⟨offset', made, _, _, _, _, _, _, rfl⟩ := annotated
    rw [erase, erase, erase_of_annotate offset made]
  | call name arguments slot =>
    simp only [annotate, bind_eq_ok, pure_eq_ok] at annotated
    obtain ⟨arguments', made, _, _, _, _, rfl⟩ := annotated
    rw [erase, erase, eraseAll_of_annotateAll arguments made]
  | list elements ty =>
    simp only [annotate, bind_eq_ok, pure_eq_ok] at annotated
    obtain ⟨elements', made, _, _, rfl⟩ := annotated
    rw [erase, erase, eraseAll_of_annotateAll elements made]

theorem Expr.eraseAll_of_annotateAll (es : List Expr) {es' : List Expr}
    (annotated : annotateAll scope es = .ok es') : eraseAll es' = eraseAll es := by
  cases es with
  | nil =>
    cases annotated
    rfl
  | cons e es =>
    simp only [annotateAll, bind_eq_ok, pure_eq_ok] at annotated
    obtain ⟨e', first, others', others, rfl⟩ := annotated
    rw [eraseAll, eraseAll, erase_of_annotate e first, eraseAll_of_annotateAll es others]

end

theorem Expr.annotateCondition_erase (scope : TypeScope) (e : Expr) :
    e.erase.annotateCondition scope = e.annotateCondition scope := by
  rw [annotateCondition, annotateCondition, annotate_erase]

theorem Expr.erase_of_annotateCondition {e e' : Expr}
    (annotated : e.annotateCondition scope = .ok e') : e'.erase = e.erase := by
  simp only [annotateCondition, bind_eq_ok, pure_eq_ok] at annotated
  obtain ⟨_, made, _, _, _, _, rfl⟩ := annotated
  exact erase_of_annotate e made

/-- Also where there may be no value, the slots are not looked at. -/
theorem mapM_map_erase {annotate : Expr → Except Fault Expr}
    (same : ∀ e, annotate e.erase = annotate e) (value : Option Expr) :
    (value.map Expr.erase).mapM annotate = value.mapM annotate := by
  cases value with
  | none => rfl
  | some e => simp only [Option.map_some, Option.mapM_some, same]

theorem map_erase_of_mapM {annotate : Expr → Except Fault Expr} {value value' : Option Expr}
    (same : ∀ e e', annotate e = .ok e' → e'.erase = e.erase)
    (annotated : value.mapM annotate = .ok value') :
    value'.map Expr.erase = value.map Expr.erase := by
  cases value with
  | none =>
    cases annotated
    rfl
  | some e =>
    rw [Option.mapM_some] at annotated
    obtain ⟨e', made, rfl⟩ := map_eq_ok.mp annotated
    exact congrArg some (same e e' made)

end Expressions

section Statements

mutual

def Stmt.erase : Stmt → Stmt
  | .expression value => .expression value.erase
  | .declare name typeName value _ => .declare name typeName (value.map Expr.erase) none
  | .assign receiver value => .assign receiver.erase value.erase
  | .branch condition thenBody elseBody =>
    .branch condition.erase (Stmt.eraseAll thenBody) (Stmt.eraseAll elseBody)
  | .switch condition cases => .switch condition.erase (Case.eraseAll cases)
  | .loop condition body => .loop condition.erase (Stmt.eraseAll body)
  | .ret value => .ret value.erase

def Stmt.eraseAll : List Stmt → List Stmt
  | [] => []
  | s :: ss => s.erase :: Stmt.eraseAll ss

def Case.erase : Case → Case
  | .on value body => .on value.erase (Stmt.eraseAll body)
  | .default body => .default (Stmt.eraseAll body)

def Case.eraseAll : List Case → List Case
  | [] => []
  | c :: cs => c.erase :: Case.eraseAll cs

end

@[simp] theorem Stmt.isEmpty_eraseAll (ss : List Stmt) : (eraseAll ss).isEmpty = ss.isEmpty := by
  cases ss <;> rfl

@[simp] theorem Case.isEmpty_eraseAll (cs : List Case) : (eraseAll cs).isEmpty = cs.isEmpty := by
  cases cs <;> rfl

mutual

theorem Stmt.annotate_erase (scope : TypeScope) (result : Option Ty) (s : Stmt) :
    s.erase.annotate scope result = s.annotate scope result := by
  cases s with
  | expression value =>
    rw [Stmt.erase, Stmt.annotate, Stmt.annotate, Expr.isCall_erase, Expr.annotate_erase]
  | declare name typeName value slot =>
    rw [Stmt.erase, Stmt.annotate, Stmt.annotate, mapM_map_erase (Expr.annotate_erase scope)]
  | assign receiver value =>
    rw [Stmt.erase, Stmt.annotate, Stmt.annotate, Expr.isPlace_erase, Expr.annotate_erase,
      Expr.annotate_erase]
  | branch condition thenBody elseBody =>
    rw [Stmt.erase, Stmt.annotate, Stmt.annotate, Expr.annotateCondition_erase,
      Stmt.isEmpty_eraseAll, Stmt.annotateBlock_eraseAll (scope.enter {}) result thenBody,
      Stmt.annotateBlock_eraseAll (scope.enter {}) result elseBody]
  | switch condition cases =>
    simp only [Stmt.erase, Stmt.annotate, Expr.annotate_erase,
      Case.annotateAll_eraseAll scope result _ cases]
  | loop condition body =>
    rw [Stmt.erase, Stmt.annotate, Stmt.annotate, Expr.annotateCondition_erase,
      Stmt.annotateBlock_eraseAll (scope.enter {}) result body]
  | ret value =>
    cases result with
    | none => rfl
    | some ty => simp only [Stmt.erase, Stmt.annotate, Expr.annotate_erase]

theorem Stmt.annotateBlock_eraseAll (scope : TypeScope) (result : Option Ty) (ss : List Stmt) :
    Stmt.annotateBlock scope result (Stmt.eraseAll ss) = Stmt.annotateBlock scope result ss := by
  cases ss with
  | nil => rfl
  | cons s ss =>
    simp only [Stmt.eraseAll, Stmt.annotateBlock, Stmt.annotate_erase scope result s,
      Stmt.annotateBlock_eraseAll _ result ss]

theorem Case.annotate_erase (scope : TypeScope) (result : Option Ty) (ty : Ty) (last : Bool)
    (c : Case) : c.erase.annotate scope result ty last = c.annotate scope result ty last := by
  cases c with
  | on value body =>
    rw [Case.erase, Case.annotate, Case.annotate, Expr.annotate_erase,
      Stmt.annotateBlock_eraseAll (scope.enter {}) result body]
  | default body =>
    rw [Case.erase, Case.annotate, Case.annotate,
      Stmt.annotateBlock_eraseAll (scope.enter {}) result body]

theorem Case.annotateAll_eraseAll (scope : TypeScope) (result : Option Ty) (ty : Ty)
    (cs : List Case) : Case.annotateAll scope result ty (Case.eraseAll cs) =
      Case.annotateAll scope result ty cs := by
  cases cs with
  | nil => rfl
  | cons c cs =>
    rw [Case.eraseAll, Case.annotateAll, Case.annotateAll, Case.isEmpty_eraseAll,
      Case.annotate_erase scope result ty _ c, Case.annotateAll_eraseAll scope result ty cs]

end

mutual

theorem Stmt.erase_of_annotate (s : Stmt) {scope scope' : TypeScope} {result : Option Ty}
    {s' : Stmt}
    (annotated : s.annotate scope result = .ok (s', scope')) : s'.erase = s.erase := by
  cases s with
  | expression value =>
    rw [Stmt.annotate] at annotated
    split at annotated
    · simp only [bind_eq_ok, pure_eq_ok, Prod.mk.injEq] at annotated
      obtain ⟨value', made, rfl, rfl⟩ := annotated
      rw [Stmt.erase, Stmt.erase, Expr.erase_of_annotate value made]
    · cases annotated
  | declare name typeName value slot =>
    simp only [Stmt.annotate, bind_eq_ok, pure_eq_ok, Prod.mk.injEq] at annotated
    obtain ⟨_, _, value', made, _, _, _, _, rfl, rfl⟩ := annotated
    rw [Stmt.erase, Stmt.erase, map_erase_of_mapM (fun e _ => Expr.erase_of_annotate e) made]
  | assign receiver value =>
    rw [Stmt.annotate] at annotated
    split at annotated
    · simp only [bind_eq_ok, pure_eq_ok, Prod.mk.injEq] at annotated
      obtain ⟨receiver', made, value', madeValue, _, _, _, _, rfl, rfl⟩ := annotated
      rw [Stmt.erase, Stmt.erase, Expr.erase_of_annotate receiver made,
        Expr.erase_of_annotate value madeValue]
    · cases annotated
  | branch condition thenBody elseBody =>
    simp only [Stmt.annotate, bind_eq_ok] at annotated
    obtain ⟨condition', made, annotated⟩ := annotated
    split at annotated
    · cases annotated
    · simp only [bind_eq_ok, pure_eq_ok, Prod.mk.injEq] at annotated
      obtain ⟨thenBody', madeThen, elseBody', madeElse, rfl, rfl⟩ := annotated
      rw [Stmt.erase, Stmt.erase, Expr.erase_of_annotateCondition made,
        Stmt.eraseAll_of_annotateBlock thenBody madeThen,
        Stmt.eraseAll_of_annotateBlock elseBody madeElse]
  | switch condition cases =>
    simp only [Stmt.annotate, bind_eq_ok, pure_eq_ok, Prod.mk.injEq] at annotated
    obtain ⟨condition', made, _, _, cases', madeCases, rfl, rfl⟩ := annotated
    rw [Stmt.erase, Stmt.erase, Expr.erase_of_annotate condition made,
      Case.eraseAll_of_annotateAll cases madeCases]
  | loop condition body =>
    simp only [Stmt.annotate, bind_eq_ok, pure_eq_ok, Prod.mk.injEq] at annotated
    obtain ⟨condition', made, body', madeBody, rfl, rfl⟩ := annotated
    rw [Stmt.erase, Stmt.erase, Expr.erase_of_annotateCondition made,
      Stmt.eraseAll_of_annotateBlock body madeBody]
  | ret value =>
    cases result with
    | none => cases annotated
    | some ty =>
      simp only [Stmt.annotate, bind_eq_ok, pure_eq_ok, Prod.mk.injEq] at annotated
      obtain ⟨value', made, _, _, rfl, rfl⟩ := annotated
      rw [Stmt.erase, Stmt.erase, Expr.erase_of_annotate value made]

theorem Stmt.eraseAll_of_annotateBlock (ss : List Stmt) {scope : TypeScope} {result : Option Ty}
    {ss' : List Stmt}
    (annotated : Stmt.annotateBlock scope result ss = .ok ss') :
    Stmt.eraseAll ss' = Stmt.eraseAll ss := by
  cases ss with
  | nil =>
    cases annotated
    rfl
  | cons s ss =>
    obtain ⟨s', behind, others', first, others, rfl⟩ := Stmt.steps_of_annotateBlock annotated
    rw [Stmt.eraseAll, Stmt.eraseAll, Stmt.erase_of_annotate s first,
      Stmt.eraseAll_of_annotateBlock ss others]

theorem Case.erase_of_annotate (c : Case) {scope : TypeScope} {result : Option Ty} {ty : Ty}
    {last : Bool} {c' : Case}
    (annotated : c.annotate scope result ty last = .ok c') : c'.erase = c.erase := by
  cases c with
  | on value body =>
    rw [Case.annotate] at annotated
    split at annotated
    · cases annotated
    · simp only [bind_eq_ok, pure_eq_ok] at annotated
      obtain ⟨value', made, _, _, _, _, body', madeBody, rfl⟩ := annotated
      rw [Case.erase, Case.erase, Expr.erase_of_annotate value made,
        Stmt.eraseAll_of_annotateBlock body madeBody]
  | default body =>
    rw [Case.annotate] at annotated
    split at annotated
    · simp only [bind_eq_ok, pure_eq_ok] at annotated
      obtain ⟨body', madeBody, rfl⟩ := annotated
      rw [Case.erase, Case.erase, Stmt.eraseAll_of_annotateBlock body madeBody]
    · cases annotated

theorem Case.eraseAll_of_annotateAll (cs : List Case) {scope : TypeScope} {result : Option Ty}
    {ty : Ty} {cs' : List Case}
    (annotated : Case.annotateAll scope result ty cs = .ok cs') :
    Case.eraseAll cs' = Case.eraseAll cs := by
  cases cs with
  | nil => cases annotated
  | cons c cs =>
    obtain ⟨c', made, annotated⟩ := bind_eq_ok.mp annotated
    split at annotated
    · rename_i empty
      obtain rfl := pure_eq_ok.mp annotated
      rw [List.isEmpty_iff.mp empty, Case.eraseAll, Case.eraseAll, Case.erase_of_annotate c made]
      rfl
    · simp only [bind_eq_ok, pure_eq_ok] at annotated
      obtain ⟨others', others, rfl⟩ := annotated
      rw [Case.eraseAll, Case.eraseAll, Case.erase_of_annotate c made,
        Case.eraseAll_of_annotateAll cs others]

end

end Statements

section Programs

variable {scope scope' : TypeScope}

def Global.erase (g : Global) : Global := { g with value := g.value.map Expr.erase, slot := none }

def Function.erase (f : Function) : Function :=
  { f with body := Stmt.eraseAll f.body, slot := none }

def Program.erase (p : Program) : Program :=
  ⟨p.globals.map Global.erase, p.functions.map Function.erase⟩

namespace Global

theorem annotateValue_erase (scope : TypeScope) (declared : Option Ty) (e : Expr) :
    annotateValue scope declared e.erase = annotateValue scope declared e := by
  cases e with
  | list elements ty =>
    rw [Expr.erase, annotateValue, annotateValue, Expr.annotateAll_eraseAll]
  | _ => exact Expr.annotate_erase scope _

theorem erase_of_annotateValue {declared : Option Ty} {e e' : Expr}
    (annotated : annotateValue scope declared e = .ok e') : e'.erase = e.erase := by
  cases e with
  | list elements ty =>
    simp only [annotateValue, bind_eq_ok, pure_eq_ok] at annotated
    obtain ⟨elements', made, _, _, rfl⟩ := annotated
    rw [Expr.erase, Expr.erase, Expr.eraseAll_of_annotateAll elements made]
  | _ => exact @Expr.erase_of_annotate scope _ _ annotated

@[simp] theorem isList_erase (g : Global) : g.erase.isList = g.isList := by
  rw [isList, isList, erase]
  cases g.value with
  | none => rfl
  | some e => exact e.isList_erase

theorem annotate_erase (scope : TypeScope) (g : Global) :
    g.erase.annotate scope = g.annotate scope := by
  have value (declared : Option Ty) : g.erase.value.mapM (annotateValue scope declared) =
      g.value.mapM (annotateValue scope declared) :=
    mapM_map_erase (annotateValue_erase scope declared) g.value
  simp only [annotate, isList_erase, value]
  rfl

theorem erase_of_annotate {g g' : Global} (annotated : g.annotate scope = .ok (g', scope')) :
    g'.erase = g.erase := by
  obtain ⟨_, value, _, _, made, _, _, rfl⟩ := steps_of_annotate annotated
  rw [erase, erase, map_erase_of_mapM (fun _ _ => erase_of_annotateValue) made]

end Global

namespace Function

theorem annotate_erase (scope : TypeScope) (f : Function) :
    f.erase.annotate scope = f.annotate scope := by
  have body (scope : TypeScope) (s : Signature) :
      f.erase.annotateBody scope s = f.annotateBody scope s := by
    simp only [annotateBody, erase, Stmt.annotateBlock_eraseAll]
    rfl
  simp only [annotate, body]
  rfl

theorem erase_of_annotate {f f' : Function} (annotated : f.annotate scope = (.ok f', scope')) :
    f'.erase = f.erase := by
  obtain ⟨s, _, body, _, _, _, made, rfl⟩ := steps_of_annotate annotated
  rw [erase, erase, Stmt.eraseAll_of_annotateBlock f.body made]

end Function

namespace Program

theorem annotateGlobals_erase (scope : TypeScope) (gs : List Global) :
    annotateGlobals scope (gs.map Global.erase) = annotateGlobals scope gs := by
  induction gs generalizing scope with
  | nil => rfl
  | cons g gs ih => simp only [List.map_cons, annotateGlobals, Global.annotate_erase, ih]

theorem annotateFunctions_erase (scope : TypeScope) (fs : List Function) :
    annotateFunctions scope (fs.map Function.erase) = annotateFunctions scope fs := by
  induction fs generalizing scope with
  | nil => rfl
  | cons f fs ih => simp only [List.map_cons, annotateFunctions, Function.annotate_erase, ih]

/-- The analysis of a program is that of its erasure. -/
theorem annotate_erase (scope : TypeScope) (p : Program) :
    p.erase.annotate scope = p.annotate scope := by
  rw [annotate, annotate, erase]
  simp only [annotateGlobals_erase, annotateFunctions_erase]

theorem erase_of_annotateGlobals {gs gs' : List Global}
    (annotated : (annotateGlobals scope gs).1 = .ok gs') :
    gs'.map Global.erase = gs.map Global.erase := by
  induction gs generalizing scope gs' with
  | nil =>
    cases annotated
    rfl
  | cons g gs ih =>
    obtain ⟨g', behind, others', made, others, rfl⟩ :=
      steps_of_annotateGlobals (Prod.ext annotated rfl)
    rw [List.map_cons, List.map_cons, Global.erase_of_annotate made, ih (congrArg Prod.fst others)]

theorem erase_of_annotateFunctions {fs fs' : List Function}
    (annotated : (annotateFunctions scope fs).1 = .ok fs') :
    fs'.map Function.erase = fs.map Function.erase := by
  induction fs generalizing scope fs' with
  | nil =>
    cases annotated
    rfl
  | cons f fs ih =>
    obtain ⟨f', behind, others', made, others, rfl⟩ :=
      steps_of_annotateFunctions (Prod.ext annotated rfl)
    rw [List.map_cons, List.map_cons, Function.erase_of_annotate made,
      ih (congrArg Prod.fst others)]

theorem erase_of_annotate {p p' : Program} (annotated : (p.annotate scope).1 = .ok p') :
    p'.erase = p.erase := by
  obtain ⟨globals, behind, functions, madeGlobals, madeFunctions, _, rfl⟩ :=
    steps_of_annotate (Prod.ext annotated rfl)
  rw [erase, erase, erase_of_annotateGlobals (congrArg Prod.fst madeGlobals),
    erase_of_annotateFunctions (congrArg Prod.fst madeFunctions)]

end Program

end Programs

section Bare

mutual

theorem Expr.erase_of_bare (e : Expr) (bare : e.Bare) : e.erase = e := by
  cases e with
  | literal value ty =>
    obtain rfl : ty = none := bare
    rfl
  | group inner ty =>
    obtain ⟨bare, rfl⟩ := bare
    rw [erase, erase_of_bare inner bare]
  | binary op left right ty =>
    obtain ⟨bareLeft, bareRight, rfl⟩ := bare
    rw [erase, erase_of_bare left bareLeft, erase_of_bare right bareRight]
  | access name slot =>
    obtain rfl : slot = none := bare
    rfl
  | element name offset slot =>
    obtain ⟨bare, rfl⟩ := bare
    rw [erase, erase_of_bare offset bare]
  | call name arguments slot =>
    obtain ⟨bare, rfl⟩ := bare
    rw [erase, eraseAll_of_bare arguments bare]
  | list => exact bare.elim

theorem Expr.eraseAll_of_bare (es : List Expr) (bare : AllBare es) : eraseAll es = es := by
  cases es with
  | nil => rfl
  | cons e es => rw [eraseAll, erase_of_bare e bare.1, eraseAll_of_bare es bare.2]

end

mutual

theorem Stmt.erase_of_bare (s : Stmt) (bare : s.Bare) : s.erase = s := by
  cases s with
  | expression value => exact congrArg _ (value.erase_of_bare bare)
  | declare name typeName value slot =>
    obtain ⟨bare, rfl⟩ := bare
    cases value with
    | none => rfl
    | some e => rw [Stmt.erase, Option.map_some, e.erase_of_bare (bare e rfl)]
  | assign receiver value =>
    rw [Stmt.erase, receiver.erase_of_bare bare.1, value.erase_of_bare bare.2]
  | branch condition thenBody elseBody =>
    rw [Stmt.erase, condition.erase_of_bare bare.1, Stmt.eraseAll_of_bare thenBody bare.2.1,
      Stmt.eraseAll_of_bare elseBody bare.2.2]
  | switch condition cases =>
    rw [Stmt.erase, condition.erase_of_bare bare.1, Case.eraseAll_of_bare cases bare.2.1]
  | loop condition body =>
    rw [Stmt.erase, condition.erase_of_bare bare.1, Stmt.eraseAll_of_bare body bare.2]
  | ret value => exact congrArg _ (value.erase_of_bare bare)

theorem Stmt.eraseAll_of_bare (ss : List Stmt) (bare : Stmt.AllBare ss) :
    Stmt.eraseAll ss = ss := by
  cases ss with
  | nil => rfl
  | cons s ss => rw [Stmt.eraseAll, Stmt.erase_of_bare s bare.1, Stmt.eraseAll_of_bare ss bare.2]

theorem Case.erase_of_bare (c : Case) (bare : c.Bare) : c.erase = c := by
  cases c with
  | on value body =>
    rw [Case.erase, value.erase_of_bare bare.1, Stmt.eraseAll_of_bare body bare.2]
  | default body => exact congrArg _ (Stmt.eraseAll_of_bare body bare)

theorem Case.eraseAll_of_bare (cs : List Case) (bare : Case.AllBare cs) :
    Case.eraseAll cs = cs := by
  cases cs with
  | nil => rfl
  | cons c cs => rw [Case.eraseAll, Case.erase_of_bare c bare.1, Case.eraseAll_of_bare cs bare.2]

end

theorem Global.erase_of_bare {g : Global} (bare : g.Bare) : g.erase = g := by
  obtain ⟨name, typeName, mutable, value, slot⟩ := g
  obtain ⟨bare, rfl : slot = none⟩ := bare
  have same : value.map Expr.erase = value := by
    cases value with
    | none => rfl
    | some e =>
      cases e with
      | list elements ty =>
        obtain ⟨_, bare, rfl, _⟩ := bare
        rw [Option.map_some, Expr.erase, Expr.eraseAll_of_bare elements bare]
      | _ => exact congrArg some (Expr.erase_of_bare _ bare)
  rw [erase, same]

theorem Function.erase_of_bare {f : Function} (bare : f.Bare) : f.erase = f := by
  obtain ⟨name, parameters, typeNames, resultName, body, slot⟩ := f
  obtain ⟨bare, _, rfl : slot = none⟩ := bare
  rw [erase, Stmt.eraseAll_of_bare body bare]

theorem Program.erase_of_bare {p : Program} (bare : p.Bare) : p.erase = p := by
  have globals : p.globals.map Global.erase = p.globals :=
    (List.map_congr_left fun g member => Global.erase_of_bare (bare.globals g member)).trans
      (List.map_id' _)
  have functions : p.functions.map Function.erase = p.functions :=
    (List.map_congr_left fun f member => Function.erase_of_bare (bare.functions f member)).trans
      (List.map_id' _)
  rw [erase, globals, functions]

end Bare

end Plc
