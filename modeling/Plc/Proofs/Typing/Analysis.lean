import Plc.Proofs.Typing.Inversion
import Plc.Proofs.Typing.Rules

/-! What the analysis makes of bare expressions and blocks passes the checks of every place. The
scope of the analysis may lack functions that are in force when the program runs, which changes
nothing for the names that were found. -/
namespace Plc

namespace Expr

theorem annotateAll_eq_ok {scope : TypeScope} {es es' : List Expr}
    (annotated : annotateAll scope es = .ok es') :
    es'.length = es.length ∧ ∀ e' ∈ es', ∃ e ∈ es, e.annotate scope = .ok e' := by
  induction es generalizing es' with
  | nil =>
    cases annotated
    exact ⟨rfl, by simp⟩
  | cons e es ih =>
    simp only [annotateAll, bind_eq_ok, pure_eq_ok] at annotated
    obtain ⟨e', first, rest', others, rfl⟩ := annotated
    obtain ⟨length, each⟩ := ih others
    refine ⟨by simp [length], ?_⟩
    intro x member
    rcases List.mem_cons.mp member with rfl | member
    · exact ⟨e, List.mem_cons_self, first⟩
    · obtain ⟨y, found, made⟩ := each x member
      exact ⟨y, List.mem_cons_of_mem _ found, made⟩

theorem forM_eq_ok {elements : List Expr} {check : Expr → Except Fault Unit}
    (passed : elements.forM check = .ok ()) : ∀ e ∈ elements, check e = .ok () := by
  induction elements with
  | nil => simp
  | cons e es ih =>
    obtain ⟨_, first, others⟩ := bind_eq_ok.mp passed
    exact List.forall_mem_cons.mpr ⟨first, ih others⟩

theorem elementType_eq_ok {given : Option Ty} {elements : List Expr} {ty : Ty}
    (typed : elementType given elements = .ok ty) :
    (∀ t ∈ given, t = ty) ∧
      ∀ e ∈ elements, ∃ a, e.valueType = .ok a ∧ ty.accepts a = true := by
  have checked : ∀ t : Ty, (∀ u ∈ given, u = t) →
      (do
        elements.forM fun e => do t.requireAccepts (← e.valueType)
        return t : Except Fault Ty) = .ok ty →
      (∀ u ∈ given, u = ty) ∧
        ∀ e ∈ elements, ∃ a, e.valueType = .ok a ∧ ty.accepts a = true := by
    intro t chosen passed
    simp only [bind_eq_ok, pure_eq_ok] at passed
    obtain ⟨_, passed, rfl⟩ := passed
    refine ⟨chosen, ?_⟩
    intro e member
    obtain ⟨a, found, accepted⟩ := bind_eq_ok.mp (forM_eq_ok passed e member)
    exact ⟨a, found, Ty.requireAccepts_eq_ok.mp accepted⟩
  cases given with
  | some t => exact checked t (by simp) typed
  | none =>
    cases elements with
    | nil => exact checked .any (by simp) typed
    | cons first others =>
      obtain ⟨t, _, passed⟩ := bind_eq_ok.mp typed
      exact checked t (by simp) passed

/-- The analysis checks a node and goes through its parts in the same scope. -/
theorem rule_of_annotate {scope : TypeScope} {raw e : Expr}
    (annotated : raw.annotate scope = .ok e) :
    e.Rule scope ∧ e.isList = raw.isList ∧
      ∀ part ∈ e.parts, ∃ r ∈ raw.parts, r.annotate scope = .ok part := by
  cases raw with
  | literal value ty =>
    simp only [annotate, bind_eq_ok, pure_eq_ok] at annotated
    obtain ⟨t, typed, rfl⟩ := annotated
    exact ⟨⟨t, typed, rfl⟩, rfl, by simp [parts]⟩
  | group inner ty =>
    rw [annotate] at annotated
    split at annotated
    · rename_i binary
      simp only [bind_eq_ok, pure_eq_ok] at annotated
      obtain ⟨inner', made, t, typed, rfl⟩ := annotated
      have still : inner'.isBinary = true := by
        cases inner with
        | binary op left right ty =>
          simp only [annotate, bind_eq_ok, pure_eq_ok] at made
          obtain ⟨_, _, _, _, _, _, _, _, _, _, rfl⟩ := made
          rfl
        | _ => cases binary
      exact ⟨⟨still, t, typed, rfl⟩, rfl, by simp [parts, made]⟩
    · cases annotated
  | binary op left right ty =>
    simp only [annotate, bind_eq_ok, pure_eq_ok] at annotated
    obtain ⟨left', madeLeft, right', madeRight, a, leftTyped, b, rightTyped, t, typed, rfl⟩ :=
      annotated
    exact ⟨⟨a, b, t, leftTyped, rightTyped, typed, rfl⟩, rfl,
      by simp [parts, madeLeft, madeRight]⟩
  | access name slot =>
    simp only [annotate, bind_eq_ok, pure_eq_ok, Scope.lookupVariable_eq_ok] at annotated
    obtain ⟨v, found, rfl⟩ := annotated
    exact ⟨⟨v, found, rfl⟩, rfl, by simp [parts]⟩
  | element name offset slot =>
    simp only [annotate, bind_eq_ok, pure_eq_ok, Scope.lookupVariable_eq_ok,
      Ty.requireAccepts_eq_ok] at annotated
    obtain ⟨offset', made, ty, typed, _, accepted, v, found, rfl⟩ := annotated
    obtain rfl := Ty.eq_of_integer_accepts accepted
    exact ⟨⟨typed, v, found, rfl⟩, rfl, by simp [parts, made]⟩
  | call name arguments slot =>
    simp only [annotate, bind_eq_ok, pure_eq_ok, Scope.lookupFunction_eq_ok] at annotated
    obtain ⟨arguments', made, s, found, _, fit, rfl⟩ := annotated
    obtain ⟨_, each⟩ := annotateAll_eq_ok made
    exact ⟨⟨s, found, fit, rfl⟩, rfl, each⟩
  | list elements ty =>
    simp only [annotate, bind_eq_ok, pure_eq_ok] at annotated
    obtain ⟨elements', made, t, typed, rfl⟩ := annotated
    obtain ⟨_, each⟩ := annotateAll_eq_ok made
    exact ⟨⟨t, rfl, (elementType_eq_ok typed).2⟩, rfl, each⟩

theorem annotateCondition_eq_ok {scope : TypeScope} {raw e : Expr}
    (annotated : raw.annotateCondition scope = .ok e) :
    raw.annotate scope = .ok e ∧ e.valueType = .ok .boolean := by
  simp only [annotateCondition, bind_eq_ok, pure_eq_ok, Ty.requireAccepts_eq_ok] at annotated
  obtain ⟨e', made, ty, typed, _, accepted, rfl⟩ := annotated
  obtain rfl := Ty.eq_of_boolean_accepts accepted
  exact ⟨made, typed⟩

theorem Bare.of_mem_parts {e part : Expr} (bare : e.Bare) (member : part ∈ e.parts) :
    part.Bare := by
  cases e with
  | literal => cases member
  | group inner ty =>
    obtain rfl := List.mem_singleton.mp member
    exact bare.1
  | binary op left right ty =>
    rcases List.mem_cons.mp member with rfl | member
    · exact bare.1
    · obtain rfl := List.mem_singleton.mp member
      exact bare.2.1
  | access => cases member
  | element name offset slot =>
    obtain rfl := List.mem_singleton.mp member
    exact bare.1
  | call name arguments slot => exact bare.1.of_mem member
  | list => exact bare.elim

def Analysed (scope : TypeScope) (e : Expr) : Prop :=
  ∃ (sub : TypeScope) (raw : Expr), sub.Below scope ∧ raw.Bare ∧ raw.annotate sub = .ok e

theorem Analysed.rule {scope : TypeScope} {e : Expr} (analysed : e.Analysed scope) :
    e.Rule scope := by
  obtain ⟨sub, raw, below, _, made⟩ := analysed
  exact (rule_of_annotate made).1.below below

theorem Analysed.isList_eq_false {scope : TypeScope} {e : Expr} (analysed : e.Analysed scope) :
    e.isList = false := by
  obtain ⟨sub, raw, _, bare, made⟩ := analysed
  rw [(rule_of_annotate made).2.1, bare.isList_eq_false]

theorem Analysed.part {scope : TypeScope} {e : Expr} (analysed : e.Analysed scope) :
    ∀ part ∈ e.parts, part.Analysed scope := by
  obtain ⟨sub, raw, below, bare, made⟩ := analysed
  intro part member
  obtain ⟨r, found, made⟩ := (rule_of_annotate made).2.2 part member
  exact ⟨sub, r, below, bare.of_mem_parts found, made⟩

end Expr

theorem requireFits_of_declarationType {name : String} {declared : Option Ty}
    {value : Option Expr} {ty : Ty} (typed : declarationType name declared value = .ok ty) :
    (∀ t ∈ declared, t = ty) ∧ ∀ e ∈ value, e.requireFits ty = .ok () := by
  cases declared with
  | some t =>
    cases value with
    | some e =>
      simp only [declarationType, bind_eq_ok, pure_eq_ok] at typed
      obtain ⟨_, fits, rfl⟩ := typed
      exact ⟨by simp, by simpa using fits⟩
    | none =>
      cases typed
      exact ⟨by simp, by simp⟩
  | none =>
    cases value with
    | some e =>
      have fits : e.requireFits ty = .ok () :=
        Expr.requireFits_eq_ok.mpr (.inr ⟨ty, typed, Ty.accepts_self ty⟩)
      exact ⟨by simp, by simpa using fits⟩
    | none => cases typed

namespace Stmt

theorem Bare.of_mem_parts {s : Stmt} {part : Expr} (bare : s.Bare) (member : part ∈ s.parts) :
    part.Bare := by
  cases s with
  | expression value =>
    obtain rfl := List.mem_singleton.mp member
    exact bare
  | declare name typeName value slot => exact bare.1 part (Option.mem_toList.mp member)
  | assign receiver value =>
    rcases List.mem_cons.mp member with rfl | member
    · exact bare.1
    · obtain rfl := List.mem_singleton.mp member
      exact bare.2
  | branch condition thenBody elseBody =>
    obtain rfl := List.mem_singleton.mp member
    exact bare.1
  | switch condition cases =>
    rcases List.mem_cons.mp member with rfl | member
    · exact bare.1
    · obtain ⟨c, found, value⟩ := List.mem_filterMap.mp member
      have bareCase := bare.2.1.of_mem found
      cases c with
      | on e body =>
        cases value
        exact bareCase.1
      | default body => cases value
  | loop condition body =>
    obtain rfl := List.mem_singleton.mp member
    exact bare.1
  | ret value =>
    obtain rfl := List.mem_singleton.mp member
    exact bare

theorem Bare.of_mem_bodies {s : Stmt} {body : List Stmt} (bare : s.Bare)
    (member : body ∈ s.bodies) : AllBare body := by
  cases s with
  | branch condition thenBody elseBody =>
    rcases List.mem_cons.mp member with rfl | member
    · exact bare.2.1
    · obtain rfl := List.mem_singleton.mp member
      exact bare.2.2
  | switch condition cases =>
    obtain ⟨c, found, rfl⟩ := List.mem_map.mp member
    have bareCase := bare.2.1.of_mem found
    cases c with
    | on e body => exact bareCase.2
    | default body => exact bareCase
  | loop condition body =>
    obtain rfl := List.mem_singleton.mp member
    exact bare.2
  | expression => cases member
  | declare => cases member
  | assign => cases member
  | ret => cases member

end Stmt

def Case.Makes (scope : TypeScope) (result : Option Ty) (ty : Ty) (c c' : Case) : Prop :=
  (∀ e' ∈ c'.value?, e'.valueType = .ok ty ∧ ∃ e ∈ c.value?, e.annotate scope = .ok e') ∧
    Stmt.annotateBlock (scope.enter {}) result c.body = .ok c'.body

theorem Case.makes_of_annotate {scope : TypeScope} {result : Option Ty} {ty : Ty} {last : Bool}
    {c c' : Case} (annotated : c.annotate scope result ty last = .ok c') :
    c.Makes scope result ty c' := by
  cases c with
  | on value body =>
    rw [annotate] at annotated
    split at annotated
    · cases annotated
    · simp only [bind_eq_ok, pure_eq_ok, Ty.requireSame_eq_ok] at annotated
      obtain ⟨value', made, t, typed, _, rfl, body', bodyMade, rfl⟩ := annotated
      exact ⟨by simp [value?, typed, made], bodyMade⟩
  | default body =>
    rw [annotate] at annotated
    split at annotated
    · simp only [bind_eq_ok, pure_eq_ok] at annotated
      obtain ⟨body', bodyMade, rfl⟩ := annotated
      exact ⟨by simp [value?], bodyMade⟩
    · cases annotated

theorem Case.makes_of_annotateAll {scope : TypeScope} {result : Option Ty} {ty : Ty}
    {cs cs' : List Case} (annotated : Case.annotateAll scope result ty cs = .ok cs') :
    ∀ c' ∈ cs', ∃ c ∈ cs, c.Makes scope result ty c' := by
  induction cs generalizing cs' with
  | nil => cases annotated
  | cons c cs ih =>
    obtain ⟨first, made, rest⟩ := bind_eq_ok.mp annotated
    have here : ∃ x ∈ c :: cs, x.Makes scope result ty first :=
      ⟨c, List.mem_cons_self, makes_of_annotate made⟩
    split at rest
    · obtain rfl := pure_eq_ok.mp rest
      simpa using here
    · simp only [bind_eq_ok, pure_eq_ok] at rest
      obtain ⟨others, behind, rfl⟩ := rest
      intro c' member
      rcases List.mem_cons.mp member with rfl | member
      · exact here
      · obtain ⟨x, found, makes⟩ := ih behind c' member
        exact ⟨x, List.mem_cons_of_mem _ found, makes⟩

namespace Stmt

/-- The analysis checks a statement and goes through its parts in the same scope, and through its
blocks in a frame of their own. -/
theorem rule_of_annotate {scope scope' : TypeScope} {result : Ty} {raw s : Stmt}
    (annotated : raw.annotate scope (some result) = .ok (s, scope')) :
    scope' = s.scopeBehind scope ∧ s.Rule scope result ∧
      (∀ part ∈ s.parts, ∃ r ∈ raw.parts, r.annotate scope = .ok part) ∧
      ∀ body ∈ s.bodies, ∃ r ∈ raw.bodies,
        annotateBlock (scope.enter {}) (some result) r = .ok body := by
  cases raw with
  | expression value =>
    rw [annotate] at annotated
    split at annotated
    · rename_i call
      simp only [bind_eq_ok, pure_eq_ok, Prod.mk.injEq] at annotated
      obtain ⟨value', made, rfl, rfl⟩ := annotated
      have still : value'.isCall = true := by
        cases value with
        | call name arguments slot =>
          simp only [Expr.annotate, bind_eq_ok, pure_eq_ok] at made
          obtain ⟨_, _, _, _, _, _, rfl⟩ := made
          rfl
        | _ => cases call
      exact ⟨rfl, still, by simp [parts, made], by simp [bodies]⟩
    · cases annotated
  | declare name typeName value slot =>
    simp only [annotate, bind_eq_ok, pure_eq_ok, Prod.mk.injEq, Scope.defineVariable_eq_ok]
      at annotated
    obtain ⟨declared, _, value', made, ty, typed, _, ⟨free, rfl⟩, rfl, rfl⟩ := annotated
    have fits := (requireFits_of_declarationType typed).2
    refine ⟨rfl, ⟨ty, rfl, free, fits⟩, ?_, by simp [bodies]⟩
    cases value with
    | none =>
      cases made
      simp [parts]
    | some e =>
      obtain ⟨e', madeValue, same⟩ := bind_eq_ok.mp made
      obtain rfl := pure_eq_ok.mp same
      simp [parts, madeValue]
  | assign receiver value =>
    rw [annotate] at annotated
    split at annotated
    · rename_i place
      simp only [bind_eq_ok, pure_eq_ok, Prod.mk.injEq] at annotated
      obtain ⟨receiver', made, value', madeValue, ty, typed, _, fits, rfl, rfl⟩ := annotated
      have still : receiver'.isPlace = true := by
        cases receiver with
        | access name slot =>
          simp only [Expr.annotate, bind_eq_ok, pure_eq_ok] at made
          obtain ⟨_, _, rfl⟩ := made
          rfl
        | element name offset slot =>
          simp only [Expr.annotate, bind_eq_ok, pure_eq_ok] at made
          obtain ⟨_, _, _, _, _, _, _, _, rfl⟩ := made
          rfl
        | _ => cases place
      exact ⟨rfl, ⟨still, ty, typed, fits⟩, by simp [parts, made, madeValue], by simp [bodies]⟩
    · cases annotated
  | branch condition thenBody elseBody =>
    simp only [annotate, bind_eq_ok] at annotated
    obtain ⟨condition', made, annotated⟩ := annotated
    obtain ⟨made, typed⟩ := Expr.annotateCondition_eq_ok made
    split at annotated
    · cases annotated
    · simp only [bind_eq_ok, pure_eq_ok, Prod.mk.injEq] at annotated
      obtain ⟨thenBody', madeThen, elseBody', madeElse, rfl, rfl⟩ := annotated
      exact ⟨rfl, typed, by simp [parts, made], by simp [bodies, madeThen, madeElse]⟩
  | switch condition cases =>
    simp only [annotate, bind_eq_ok, pure_eq_ok, Prod.mk.injEq] at annotated
    obtain ⟨condition', made, ty, typed, cases', madeCases, rfl, rfl⟩ := annotated
    have each := Case.makes_of_annotateAll madeCases
    refine ⟨rfl, ⟨ty, typed, ?_⟩, ?_, ?_⟩
    · intro e member
      obtain ⟨c', found, value⟩ := List.mem_filterMap.mp member
      obtain ⟨c, _, makes⟩ := each c' found
      exact (makes.1 e value).1
    · intro part member
      rcases List.mem_cons.mp member with rfl | member
      · exact ⟨condition, List.mem_cons_self, made⟩
      · obtain ⟨c', found, value⟩ := List.mem_filterMap.mp member
        obtain ⟨c, foundRaw, makes⟩ := each c' found
        obtain ⟨_, e, valueRaw, madeValue⟩ := makes.1 part value
        exact ⟨e, List.mem_cons_of_mem _ (List.mem_filterMap.mpr ⟨c, foundRaw, valueRaw⟩),
          madeValue⟩
    · intro body member
      obtain ⟨c', found, rfl⟩ := List.mem_map.mp member
      obtain ⟨c, foundRaw, makes⟩ := each c' found
      exact ⟨c.body, List.mem_map.mpr ⟨c, foundRaw, rfl⟩, makes.2⟩
  | loop condition body =>
    simp only [annotate, bind_eq_ok, pure_eq_ok, Prod.mk.injEq] at annotated
    obtain ⟨condition', made, body', madeBody, rfl, rfl⟩ := annotated
    obtain ⟨made, typed⟩ := Expr.annotateCondition_eq_ok made
    exact ⟨rfl, typed, by simp [parts, made], by simp [bodies, madeBody]⟩
  | ret value =>
    simp only [annotate, bind_eq_ok, pure_eq_ok, Prod.mk.injEq] at annotated
    obtain ⟨value', made, _, fits, rfl, rfl⟩ := annotated
    exact ⟨rfl, fits, by simp [parts, made], by simp [bodies]⟩

def BlockAnalysed (scope : TypeScope) (result : Ty) (ss : List Stmt) : Prop :=
  ∃ (sub : TypeScope) (raws : List Stmt),
    sub.Below scope ∧ AllBare raws ∧ annotateBlock sub (some result) raws = .ok ss

theorem BlockAnalysed.cons {scope : TypeScope} {result : Ty} {s : Stmt} {ss : List Stmt}
    (analysed : BlockAnalysed scope result (s :: ss)) :
    BlockAnalysed (s.scopeBehind scope) result ss ∧ s.Rule scope result ∧
      (∀ part ∈ s.parts, part.Analysed scope) ∧
      ∀ body ∈ s.bodies, BlockAnalysed (scope.enter {}) result body := by
  obtain ⟨sub, raws, below, bare, made⟩ := analysed
  cases raws with
  | nil => cases made
  | cons raw raws =>
    obtain ⟨s', sub', ss', first, others, same⟩ := steps_of_annotateBlock made
    obtain ⟨rfl, rfl⟩ := List.cons.inj same
    obtain ⟨rfl, rule, parts, bodies⟩ := rule_of_annotate first
    refine ⟨⟨_, raws, below.scopeBehind s, bare.2, others⟩, rule.below below, ?_, ?_⟩
    · intro part member
      obtain ⟨r, found, made⟩ := parts part member
      exact ⟨sub, r, below, bare.1.of_mem_parts found, made⟩
    · intro body member
      obtain ⟨r, found, made⟩ := bodies body member
      exact ⟨_, r, below.enter {}, bare.1.of_mem_bodies found, made⟩

end Stmt

end Plc
