import Plc.Proofs.Typing.Erasure
import Plc.Proofs.Typing.WellTyped
import Plc.Proofs.Typing.Within

/-! The analysis depends on a program without its slots, and fills all of them. Hence it changes
nothing in what it has made itself. -/
namespace Plc

/-- The slot of the expression holds what belongs there, and integers fit in 32 bits. -/
def Expr.Filled : Expr → Prop
  | .literal value ty => ty.isSome ∧ ∀ i, value = .integer i → -Int.pow 2 31 ≤ i ∧ i < Int.pow 2 31
  | .group _ ty => ty.isSome
  | .binary _ _ _ ty => ty.isSome
  | .access _ slot => slot.isSome
  | .element _ _ slot => slot.isSome
  | .call _ _ slot => slot.isSome
  | .list _ ty => ty.isSome

def Stmt.Filled : Stmt → Prop
  | .declare _ _ _ slot => slot.isSome
  | _ => True

structure Program.Filled (p : Program) : Prop where
  exprs : ∀ e ∈ p.expressions, e.Filled ∧ e.ty.isSome
  stmts : ∀ s ∈ p.statements, s.Filled
  globals : ∀ g ∈ p.globals, g.slot.isSome
  functions : ∀ f ∈ p.functions, f.slot.isSome

namespace Program

variable {p : Program} {scope : TypeScope}

theorem exists_globalsAt {g : Global} (member : g ∈ p.globals) :
    ∃ scope gs, p.GlobalsAt scope (g :: gs) := by
  have reach : ∀ (gs : List Global) (scope : TypeScope), p.GlobalsAt scope gs → g ∈ gs →
      ∃ scope gs, p.GlobalsAt scope (g :: gs) := by
    intro gs
    induction gs with
    | nil =>
      intro scope place found
      cases found
    | cons first gs ih =>
      intro scope place found
      rcases List.mem_cons.mp found with rfl | found
      · exact ⟨scope, gs, place⟩
      · exact ih _ place.next found
  exact reach _ _ .first member

theorem BlockAt.exists_of_mem {result : Ty} {s : Stmt} {ss : List Stmt}
    (place : p.BlockAt scope result ss) (member : s ∈ ss) :
    ∃ scope more, p.BlockAt scope result (s :: more) := by
  induction ss generalizing scope with
  | nil => cases member
  | cons first ss ih =>
    rcases List.mem_cons.mp member with rfl | member
    · exact ⟨scope, ss, place⟩
    · exact ih place.next member

/-- Where all functions are signed, every statement has its place. -/
theorem exists_blockAt (signed : ∀ f ∈ p.functions, f.slot.isSome) {s : Stmt}
    (member : s ∈ p.statements) : ∃ scope result ss, p.BlockAt scope result (s :: ss) := by
  obtain ⟨f, among, inside⟩ := List.mem_flatMap.mp member
  obtain ⟨signature, slot⟩ := Option.isSome_iff_exists.mp (signed f among)
  refine @Stmt.forall_allWithin (fun s => ∃ scope result ss, p.BlockAt scope result (s :: ss)) _
    (fun _ placed => placed) ?_ f.body ?_ s inside
  · rintro s ⟨scope, result, ss, place⟩ body within t here
    obtain ⟨scope, more, place⟩ := (place.inner within).exists_of_mem here
    exact ⟨scope, result, more, place⟩
  · intro s here
    obtain ⟨scope, more, place⟩ := (BlockAt.body among slot).exists_of_mem here
    exact ⟨scope, _, more, place⟩

theorem ExprAt.exists_within {e : Expr} (place : p.ExprAt scope e) :
    ∀ x ∈ e.within, ∃ scope, p.ExprAt scope x := by
  refine @Expr.forall_within (fun e => ∃ scope, p.ExprAt scope e) _ (fun _ placed => placed) ?_ e
    ⟨scope, place⟩
  rintro e ⟨scope, place⟩ part member
  exact ⟨scope, place.part member⟩

theorem exists_exprAt (signed : ∀ f ∈ p.functions, f.slot.isSome) {e : Expr}
    (member : e ∈ p.expressions) : ∃ scope, p.ExprAt scope e := by
  rcases List.mem_append.mp member with member | member
  · obtain ⟨g, among, member⟩ := List.mem_flatMap.mp member
    obtain ⟨value, given, inside⟩ := List.mem_flatMap.mp member
    obtain ⟨scope, gs, place⟩ := exists_globalsAt among
    exact (ExprAt.global place (Option.mem_toList.mp given)).exists_within e inside
  · obtain ⟨s, among, member⟩ := List.mem_flatMap.mp member
    obtain ⟨part, given, inside⟩ := List.mem_flatMap.mp member
    obtain ⟨scope, result, ss, place⟩ := exists_blockAt signed among
    exact (ExprAt.stmt place given).exists_within e inside

end Program

section Made

/-- Whatever has passed the check of its node has its slot filled. -/
theorem Expr.filled_of_rule {scope : TypeScope} {e : Expr} (rule : e.Rule scope) :
    e.Filled ∧ e.ty.isSome := by
  cases e with
  | literal value ty =>
    obtain ⟨t, typed, rfl⟩ := rule
    refine ⟨⟨rfl, ?_⟩, rfl⟩
    rintro i rfl
    rw [Literal.type] at typed
    split at typed
    · rename_i fits
      exact decide_eq_true_iff.mp fits
    · cases typed
  | group inner ty =>
    obtain ⟨_, t, _, rfl⟩ := rule
    exact ⟨rfl, rfl⟩
  | binary op left right ty =>
    obtain ⟨_, _, t, _, _, _, rfl⟩ := rule
    exact ⟨rfl, rfl⟩
  | access name slot =>
    obtain ⟨v, _, rfl⟩ := rule
    exact ⟨rfl, rfl⟩
  | element name offset slot =>
    obtain ⟨_, v, _, rfl⟩ := rule
    exact ⟨rfl, rfl⟩
  | call name arguments slot =>
    obtain ⟨s, _, _, rfl⟩ := rule
    exact ⟨rfl, rfl⟩
  | list elements ty =>
    obtain ⟨t, rfl, _⟩ := rule
    exact ⟨rfl, rfl⟩

theorem Global.annotateValue_none (scope : TypeScope) (e : Expr) :
    annotateValue scope none e = e.annotate scope := by
  cases e with
  | list elements ty => rw [annotateValue, Expr.annotate]
  | _ => rfl

def Expr.Annotated (e : Expr) : Prop :=
  ∃ scope declared raw, Global.annotateValue scope declared raw = .ok e

theorem Expr.annotated_of_annotate {scope : TypeScope} {raw e : Expr}
    (made : raw.annotate scope = .ok e) : e.Annotated :=
  ⟨scope, none, raw, (Global.annotateValue_none scope raw).trans made⟩

theorem Expr.Annotated.filled_within {e : Expr} (annotated : e.Annotated) :
    ∀ x ∈ e.within, x.Filled ∧ x.ty.isSome := by
  refine @forall_within Annotated _ ?_ ?_ e annotated
  · rintro e ⟨scope, declared, raw, made⟩
    exact filled_of_rule (Global.annotateValue_eq_ok made).1
  · rintro e ⟨scope, declared, raw, made⟩ part member
    obtain ⟨r, _, made⟩ := (Global.annotateValue_eq_ok made).2.2.2 part member
    exact annotated_of_annotate made

def Stmt.MadeReturning (result : Ty) (s : Stmt) : Prop :=
  ∃ (scope behind : TypeScope) (raw : Stmt), raw.annotate scope (some result) = .ok (s, behind)

theorem Stmt.madeReturning_of_annotateBlock {scope : TypeScope} {result : Ty} {ss ss' : List Stmt}
    (annotated : annotateBlock scope (some result) ss = .ok ss') :
    ∀ s ∈ ss', s.MadeReturning result := by
  induction ss generalizing scope ss' with
  | nil =>
    cases annotated
    exact nofun
  | cons s ss ih =>
    obtain ⟨s', behind, others', first, others, rfl⟩ := steps_of_annotateBlock annotated
    exact List.forall_mem_cons.mpr ⟨⟨scope, behind, s, first⟩, ih others⟩

def Stmt.Annotated (s : Stmt) : Prop :=
  ∃ (scope behind : TypeScope) (result : Ty) (raw : Stmt),
    raw.annotate scope (some result) = .ok (s, behind)

theorem Stmt.annotated_of_annotateBlock {scope : TypeScope} {result : Ty} {ss ss' : List Stmt}
    (annotated : annotateBlock scope (some result) ss = .ok ss') : ∀ s ∈ ss', s.Annotated := by
  intro s member
  obtain ⟨before, behind, raw, made⟩ := madeReturning_of_annotateBlock annotated s member
  exact ⟨before, behind, result, raw, made⟩

theorem Stmt.filled_of_rule {scope : TypeScope} {result : Ty} {s : Stmt}
    (rule : s.Rule scope result) : s.Filled := by
  cases s with
  | declare name typeName value slot =>
    obtain ⟨ty, rfl, _⟩ := rule
    rfl
  | _ => trivial

/-- In what the analysis makes of statements, each statement is filled and made of what the
analysis makes of expressions. -/
theorem Stmt.filled_allWithin {ss : List Stmt} (annotated : ∀ s ∈ ss, s.Annotated) :
    ∀ x ∈ allWithin ss, x.Filled ∧ ∀ part ∈ x.parts, part.Annotated := by
  refine @forall_allWithin Annotated _ ?_ ?_ ss annotated
  · rintro s ⟨scope, behind, result, raw, made⟩
    obtain ⟨_, rule, parts, _⟩ := rule_of_annotate made
    refine ⟨filled_of_rule rule, ?_⟩
    intro part member
    obtain ⟨r, _, made⟩ := parts part member
    exact Expr.annotated_of_annotate made
  · rintro s ⟨scope, behind, result, raw, made⟩ body member
    obtain ⟨r, _, made⟩ := (rule_of_annotate made).2.2.2 body member
    exact annotated_of_annotateBlock made

/-- The same may be returned in all blocks of a function. -/
theorem Stmt.madeReturning_allWithin {result : Ty} {ss : List Stmt}
    (made : ∀ s ∈ ss, s.MadeReturning result) : ∀ s ∈ allWithin ss, s.MadeReturning result := by
  refine forall_allWithin (fun _ made => made) ?_ ss made
  rintro s ⟨scope, behind, raw, made⟩ body member
  obtain ⟨r, _, made⟩ := (rule_of_annotate made).2.2.2 body member
  exact madeReturning_of_annotateBlock made

end Made

/-- What the analysis makes of a declaration has a type in its slot that goes with what is written,
whatever it was made of. -/
theorem Stmt.declared_of_annotate {scope behind : TypeScope} {result : Option Ty} {raw : Stmt}
    {name : String} {typeName : Option String} {value : Option Expr} {slot : Option Variable}
    (made : raw.annotate scope result = .ok (.declare name typeName value slot, behind)) :
    ∃ declared ty, typeName.mapM Ty.resolve = .ok declared ∧
      declarationType name declared value = .ok ty ∧ slot = some (.plain name ty true) := by
  cases raw with
  | declare rawName rawType rawValue rawSlot =>
    simp only [annotate, bind_eq_ok, pure_eq_ok, Prod.mk.injEq, declare.injEq] at made
    obtain ⟨declared, resolved, _, _, ty, typed, _, _, ⟨rfl, rfl, rfl, rfl⟩, _⟩ := made
    exact ⟨declared, ty, resolved, typed, rfl⟩
  | _ =>
    have shape := erase_of_annotate _ made
    simp only [erase] at shape
    cases shape

theorem Global.declared_of_annotate {scope behind : TypeScope} {raw g : Global}
    (made : raw.annotate scope = .ok (g, behind)) :
    ∃ declared ty, g.typeName.mapM Ty.resolve = .ok declared ∧
      declarationType g.name declared g.value = .ok ty ∧
        g.slot = some ⟨g.name, g.name, ty, raw.mutable, raw.isList⟩ := by
  obtain ⟨declared, value, ty, resolved, _, typed, _, rfl⟩ := steps_of_annotate made
  exact ⟨declared, ty, resolved, typed, rfl⟩

theorem Global.filled_of_annotate {scope behind : TypeScope} {g g' : Global}
    (made : g.annotate scope = .ok (g', behind)) :
    g'.slot.isSome ∧ ∀ e ∈ g'.value, e.Annotated := by
  obtain ⟨declared, value, _, _, madeValue, _, _, rfl⟩ := steps_of_annotate made
  refine ⟨rfl, ?_⟩
  cases given : g.value with
  | none =>
    rw [given] at madeValue
    cases madeValue
    intro e none
    cases none
  | some raw =>
    rw [given, Option.mapM_some] at madeValue
    obtain ⟨e, madeRaw, rfl⟩ := map_eq_ok.mp madeValue
    rintro _ ⟨⟩
    exact ⟨scope, declared, raw, madeRaw⟩

namespace Program

variable {scope : TypeScope}

theorem exists_of_annotateGlobals {gs gs' : List Global}
    (annotated : (annotateGlobals scope gs).1 = .ok gs') :
    ∀ g' ∈ gs', ∃ (g : Global) (before behind : TypeScope),
      g.annotate before = .ok (g', behind) := by
  induction gs generalizing scope gs' with
  | nil =>
    cases annotated
    exact nofun
  | cons g gs ih =>
    obtain ⟨g', behind, others', made, others, rfl⟩ :=
      steps_of_annotateGlobals (Prod.ext annotated rfl)
    exact List.forall_mem_cons.mpr ⟨⟨g, scope, behind, made⟩, ih (congrArg Prod.fst others)⟩

theorem exists_of_annotateFunctions {fs fs' : List Function}
    (annotated : (annotateFunctions scope fs).1 = .ok fs') :
    ∀ f' ∈ fs', ∃ (f : Function) (before behind : TypeScope),
      f.annotate before = (.ok f', behind) := by
  induction fs generalizing scope fs' with
  | nil =>
    cases annotated
    exact nofun
  | cons f fs ih =>
    obtain ⟨f', behind, others', made, others, rfl⟩ :=
      steps_of_annotateFunctions (Prod.ext annotated rfl)
    exact List.forall_mem_cons.mpr ⟨⟨f, scope, behind, made⟩, ih (congrArg Prod.fst others)⟩

/-- Each part of an analysed program was analysed in some scope. -/
theorem exists_of_annotate {p q : Program} (annotated : (p.annotate scope).1 = .ok q) :
    (∀ g' ∈ q.globals, ∃ (g : Global) (before behind : TypeScope),
      g.annotate before = .ok (g', behind)) ∧
    ∀ f' ∈ q.functions, ∃ (f : Function) (before behind : TypeScope),
      f.annotate before = (.ok f', behind) := by
  obtain ⟨globals, behind, functions, madeGlobals, madeFunctions, _, rfl⟩ :=
    steps_of_annotate (Prod.ext annotated rfl)
  exact ⟨exists_of_annotateGlobals (congrArg Prod.fst madeGlobals),
    exists_of_annotateFunctions (congrArg Prod.fst madeFunctions)⟩

theorem filled_of_annotate {p q : Program} (annotated : (p.annotate scope).1 = .ok q) :
    q.Filled := by
  obtain ⟨globals, functions⟩ := exists_of_annotate annotated
  have globalsFilled : ∀ g ∈ q.globals, g.slot.isSome ∧ ∀ e ∈ g.value, e.Annotated := by
    intro g member
    obtain ⟨_, _, _, made⟩ := globals g member
    exact Global.filled_of_annotate made
  have functionsFilled : ∀ f ∈ q.functions, f.slot.isSome ∧ ∀ s ∈ f.body, s.Annotated := by
    intro f member
    obtain ⟨_, _, _, made⟩ := functions f member
    obtain ⟨s, _, body, _, _, _, madeBody, rfl⟩ := Function.steps_of_annotate made
    exact ⟨rfl, Stmt.annotated_of_annotateBlock madeBody⟩
  have stmts : ∀ s ∈ q.statements, s.Filled ∧ ∀ part ∈ s.parts, part.Annotated := by
    intro s member
    obtain ⟨f, among, inside⟩ := List.mem_flatMap.mp member
    exact Stmt.filled_allWithin (functionsFilled f among).2 s inside
  exact
    { exprs := by
        intro e member
        rcases List.mem_append.mp member with member | member
        · obtain ⟨g, among, member⟩ := List.mem_flatMap.mp member
          obtain ⟨value, given, inside⟩ := List.mem_flatMap.mp member
          have whole := (globalsFilled g among).2 value (Option.mem_toList.mp given)
          exact whole.filled_within e inside
        · obtain ⟨s, among, member⟩ := List.mem_flatMap.mp member
          obtain ⟨part, given, inside⟩ := List.mem_flatMap.mp member
          exact ((stmts s among).2 part given).filled_within e inside
      stmts := fun s member => (stmts s member).1
      globals := fun g member => (globalsFilled g member).1
      functions := fun f member => (functionsFilled f member).1 }

/-- What the slots hold before the analysis makes no difference to it, and behind it they are all
filled. What it makes of a program differs from it in nothing but slots, and it makes the same of
that again. -/
theorem annotate_depends_on_erasure (p : Program) :
    (∀ q, (p.annotate TypeScope.initial).1 = .ok q →
      q.Filled ∧ q.erase = p.erase ∧ (q.annotate TypeScope.initial).1 = .ok q) ∧
    ∀ p' : Program, p'.erase = p.erase →
      (p'.annotate TypeScope.initial).1 = (p.annotate TypeScope.initial).1 := by
  have same (p' : Program) (erased : p'.erase = p.erase) :
      (p'.annotate TypeScope.initial).1 = (p.annotate TypeScope.initial).1 := by
    rw [← annotate_erase, erased, annotate_erase]
  refine ⟨?_, same⟩
  intro q annotated
  have erased := erase_of_annotate annotated
  exact ⟨filled_of_annotate annotated, erased, (same q erased).trans annotated⟩

def misled : Program where
  globals := []
  functions :=
    [{ name := "main"
       parameters := []
       typeNames := []
       resultName := some "Integer"
       body :=
        [.declare "x" none (some (.literal (.integer 1) (some .string))) none,
          .ret (.access "x" (some ⟨"y", "y", .string, false, true⟩))]
       slot := some ⟨"main", "main", [.string], .nil⟩ }]

/-- What the slots say is not looked at, whatever would follow from it. -/
theorem annotate_depends_on_erasure_misled : ∃ q,
    (misled.annotate TypeScope.initial).1 = .ok q ∧
      q.Filled ∧ q.erase = misled.erase ∧ (q.annotate TypeScope.initial).1 = .ok q ∧
      misled.erase.erase = misled.erase ∧ (misled.erase.annotate TypeScope.initial).1 = .ok q := by
  obtain ⟨q, annotated⟩ : ∃ q, (misled.annotate TypeScope.initial).1 = .ok q := ⟨_, rfl⟩
  obtain ⟨made, same⟩ := annotate_depends_on_erasure misled
  obtain ⟨filled, erased, again⟩ := made q annotated
  exact ⟨q, annotated, filled, erased, again, rfl, (same misled.erase rfl).trans annotated⟩

end Program

end Plc
