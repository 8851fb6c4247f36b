import Plc.Compile
import Plc.Java.Lowering
import Plc.Proofs.Java.Marks
import Plc.Proofs.Reading.Identifiers
import Plc.Proofs.Typing.Filled

/-! The locals of a function in Java. Blocks keep their own locals apart, but Java goes further: a
local may not have the name of one around it, and all cases of a switch are one block. -/
namespace Plc

open Token (IsIdentifier)

section Targets

structure Program.Unrenamed (p : Program) : Prop where
  globals : ∀ g ∈ p.globals, ∀ v, g.slot = some v → v.target = g.name
  functions : ∀ f ∈ p.functions, ∀ s, f.slot = some s → s.target = f.name

theorem Function.target_of_signature {f : Function} {s : Signature}
    (signed : f.signature = .ok s) : s.target = f.name := by
  obtain ⟨parameters, _, made⟩ := bind_eq_ok.mp signed
  split at made
  · obtain ⟨result, _, same⟩ := bind_eq_ok.mp made
    obtain rfl := pure_eq_ok.mp same
    rfl
  · obtain rfl := pure_eq_ok.mp made
    rfl

theorem Global.target_of_annotate {scope behind : TypeScope} {g g' : Global}
    (made : g.annotate scope = .ok (g', behind)) {v : Variable} (slot : g'.slot = some v) :
    v.target = g'.name := by
  obtain ⟨_, _, _, _, known⟩ := declared_of_annotate made
  obtain rfl := Option.some.inj (slot.symm.trans known)
  rfl

theorem Program.unrenamed_of_annotate {scope : TypeScope} {raw p : Program}
    (annotated : (raw.annotate scope).1 = .ok p) : p.Unrenamed := by
  obtain ⟨globals, functions⟩ := exists_of_annotate annotated
  constructor
  · intro g member v slot
    obtain ⟨_, _, _, made⟩ := globals g member
    exact Global.target_of_annotate made slot
  · intro f member s slot
    obtain ⟨_, _, _, made⟩ := functions f member
    obtain ⟨_, _, _, signed, _, _, _, rfl⟩ := Function.steps_of_annotate made
    cases slot
    exact Function.target_of_signature signed

theorem Program.unrenamed_of_compile {text : String} {p : Program}
    (compiled : compile text = .ok p) : p.Unrenamed := by
  obtain ⟨tokens, _, compiled⟩ := bind_eq_ok.mp compiled
  obtain ⟨raw, _, annotated⟩ := bind_eq_ok.mp compiled
  exact unrenamed_of_annotate (mapError_eq_ok.mp annotated)

end Targets

structure Program.Lowerable (p : Program) : Prop where
  typed : p.WellTyped
  unrenamed : p.Unrenamed
  named : ∀ name ∈ p.names, IsIdentifier name

namespace Program.Lowerable

variable {p : Program} {scope : TypeScope} {result : Ty}

theorem of_compile {text : String} (compiled : compile text = .ok p) : p.Lowerable :=
  ⟨wellTyped_of_compile compiled, unrenamed_of_compile compiled, names_of_compile compiled⟩

theorem function (lowerable : p.Lowerable) {f : Function} (member : f ∈ p.functions) {name : String}
    (here : name ∈ f.names) : IsIdentifier name :=
  lowerable.named name (List.mem_append_right _ (List.mem_flatMap.mpr ⟨f, member, here⟩))

theorem declared (lowerable : p.Lowerable) {name : String} {typeName : Option String}
    {value : Option Expr} {slot : Option Variable} {ss : List Stmt}
    (place : p.BlockAt scope result (.declare name typeName value slot :: ss)) :
    IsIdentifier name := by
  obtain ⟨f, member, inside⟩ := List.mem_flatMap.mp place.mem
  exact lowerable.function member
    (List.mem_append_right _ (List.mem_filterMap.mpr ⟨_, inside, rfl⟩))

theorem target (lowerable : p.Lowerable) {name : String} {v : Variable}
    (introduced : p.Introduces name v) : IsIdentifier v.target := by
  cases introduced with
  | @global _ g _ _ place slot =>
    have member := place.mem List.mem_cons_self
    rw [lowerable.unrenamed.globals g member v slot]
    exact lowerable.named g.name (List.mem_append_left _ (List.mem_map_of_mem member))
  | @parameter f s name v member slot among =>
    obtain ⟨⟨name, ty⟩, paired, same⟩ := List.mem_map.mp among
    obtain ⟨rfl, rfl⟩ := Prod.mk.inj same
    exact lowerable.function member (List.mem_cons_of_mem _
      (List.mem_append_left _ (List.of_mem_zip paired).1))
  | declare place =>
    obtain ⟨ty, slot, _⟩ := lowerable.typed.stmts place
    cases slot
    exact lowerable.declared place

theorem method (lowerable : p.Lowerable) {s : Signature} (provided : p.Provides s) :
    Java.IsMethod s.target := by
  rcases provided with rfl | ⟨f, member, slot⟩
  · exact .inr rfl
  · rw [lowerable.unrenamed.functions f member s slot]
    exact .inl (lowerable.function member List.mem_cons_self)

mutual

theorem local_expr (lowerable : p.Lowerable) (e : Expr) (place : p.ExprAt scope e)
    (single : e.isList = false) : e.toJava.Local := by
  have rule := lowerable.typed.exprs place
  have singles := lowerable.typed.exprParts place
  cases e with
  | literal => trivial
  | group inner ty =>
    have here : inner ∈ (Expr.group inner ty).parts := List.mem_cons_self
    exact local_expr lowerable inner (place.part here) (singles _ here)
  | binary op left right ty =>
    have here : left ∈ (Expr.binary op left right ty).parts := List.mem_cons_self
    have there : right ∈ (Expr.binary op left right ty).parts :=
      List.mem_cons_of_mem _ List.mem_cons_self
    have both := And.intro (local_expr lowerable left (place.part here) (singles _ here))
      (local_expr lowerable right (place.part there) (singles _ there))
    rw [Expr.toJava]
    split
    · exact both
    · exact both
  | access name slot =>
    obtain ⟨v, known, rfl⟩ := rule
    exact lowerable.target (place.introduces known)
  | element name offset slot =>
    obtain ⟨_, v, known, rfl⟩ := rule
    have here : offset ∈ (Expr.element name offset (some v)).parts := List.mem_cons_self
    exact ⟨lowerable.target (place.introduces known),
      local_expr lowerable offset (place.part here) (singles _ here)⟩
  | call name arguments slot =>
    obtain ⟨s, known, _, rfl⟩ := rule
    exact ⟨lowerable.method (place.provides known),
      local_exprs lowerable arguments fun e member => ⟨place.part member, singles e member⟩⟩
  | list => cases single

theorem local_exprs (lowerable : p.Lowerable) (es : List Expr)
    (each : ∀ e ∈ es, p.ExprAt scope e ∧ e.isList = false) :
    Java.Expr.AllLocal (Expr.allToJava es) := by
  cases es with
  | nil => trivial
  | cons e es =>
    obtain ⟨⟨place, single⟩, others⟩ := List.forall_mem_cons.mp each
    exact ⟨local_expr lowerable e place single, local_exprs lowerable es others⟩

end

theorem local_part (lowerable : p.Lowerable) {s : Stmt} {ss : List Stmt}
    (place : p.BlockAt scope result (s :: ss)) {e : Expr} (member : e ∈ s.parts) :
    e.toJava.Local :=
  lowerable.local_expr e (.stmt place member) (lowerable.typed.stmtParts place e member)

end Program.Lowerable

theorem Java.Stmt.AllLocal.append {ss more : List Java.Stmt} (front : AllLocal ss)
    (behind : AllLocal more) : AllLocal (ss ++ more) := by
  induction ss with
  | nil => exact behind
  | cons s ss ih => exact ⟨front.1, ih front.2⟩

namespace Program.Lowerable

variable {p : Program}

mutual

theorem local_stmt {scope : TypeScope} {result : Ty} (lowerable : p.Lowerable) (s : Stmt)
    {ss : List Stmt} (place : p.BlockAt scope result (s :: ss)) : s.toJava.Local := by
  cases s with
  | expression value => exact lowerable.local_part place List.mem_cons_self
  | declare name typeName value slot =>
    obtain ⟨ty, rfl, _⟩ := lowerable.typed.stmts place
    refine ⟨lowerable.declared place, ?_⟩
    intro e member
    obtain ⟨raw, given, rfl⟩ := Option.map_eq_some_iff.mp member
    exact lowerable.local_part place (Option.mem_toList.mpr given)
  | assign receiver value =>
    exact ⟨lowerable.local_part place List.mem_cons_self,
      lowerable.local_part place (List.mem_cons_of_mem _ List.mem_cons_self)⟩
  | branch condition thenBody elseBody =>
    exact ⟨lowerable.local_part place List.mem_cons_self,
      local_block lowerable thenBody (place.inner List.mem_cons_self),
      local_block lowerable elseBody (place.inner (List.mem_cons_of_mem _ List.mem_cons_self))⟩
  | switch condition cs =>
    have bodies : ∀ c ∈ cs, p.BlockAt (scope.enter {}) result c.body :=
      fun c member => place.inner (List.mem_map_of_mem member)
    exact ⟨lowerable.local_part place List.mem_cons_self, local_cases lowerable cs
      (fun e member => lowerable.local_part place (List.mem_cons_of_mem _ member)) bodies⟩
  | loop condition body =>
    exact ⟨lowerable.local_part place List.mem_cons_self,
      local_block lowerable body (place.inner List.mem_cons_self)⟩
  | ret value => exact lowerable.local_part place List.mem_cons_self

theorem local_block {scope : TypeScope} {result : Ty} (lowerable : p.Lowerable) (ss : List Stmt)
    (place : p.BlockAt scope result ss) : Java.Stmt.AllLocal (Stmt.allToJava ss) := by
  cases ss with
  | nil => trivial
  | cons s ss => exact ⟨local_stmt lowerable s place, local_block lowerable ss place.next⟩

theorem local_cases {scope : TypeScope} {result : Ty} (lowerable : p.Lowerable) (cs : List Case)
    (values : ∀ e ∈ cs.filterMap Case.value?, e.toJava.Local)
    (bodies : ∀ c ∈ cs, p.BlockAt scope result c.body) :
    Java.Case.AllLocal (Case.allToJava cs) := by
  cases cs with
  | nil => trivial
  | cons c cs =>
    obtain ⟨here, behind⟩ := List.forall_mem_cons.mp bodies
    cases c with
    | on value body =>
      obtain ⟨inside, others⟩ := List.forall_mem_cons.mp values
      have ends : Java.Stmt.AllLocal [.breakOff] := ⟨trivial, trivial⟩
      exact ⟨⟨inside, (local_block lowerable body here).append ends⟩,
        local_cases lowerable cs others behind⟩
    | default body =>
      exact ⟨local_block lowerable body here, local_cases lowerable cs values behind⟩

end

theorem local_method (lowerable : p.Lowerable) {f : Function} (member : f ∈ p.functions) :
    f.toJava.Local := by
  obtain ⟨scope, fs, place⟩ := exists_functionsAt member
  obtain ⟨s, slot, _⟩ := lowerable.typed.functions place
  refine ⟨?_, ?_, lowerable.local_block f.body (.body member slot)⟩
  · have target : f.toJava.name = s.target := by rw [Function.toJava, slot]; rfl
    rw [target, lowerable.unrenamed.functions f member s slot]
    exact lowerable.function member List.mem_cons_self
  · intro parameter among
    obtain ⟨⟨name, ty⟩, paired, rfl⟩ := List.mem_map.mp among
    exact lowerable.function member (List.mem_cons_of_mem _
      (List.mem_append_left _ (List.of_mem_zip paired).1))

end Program.Lowerable

mutual

/-- Nothing inside declares a local with the name of one around it. -/
def Stmt.unshadowed (around : List String) : Stmt → Bool
  | .branch _ thenBody elseBody =>
    Stmt.allUnshadowed around [] thenBody && Stmt.allUnshadowed around [] elseBody
  | .switch _ cases => Case.allUnshadowed around cases
  | .loop _ body => Stmt.allUnshadowed around [] body
  | .expression _ | .declare .. | .assign .. | .ret _ => true

/-- The block has some locals of its own already, which are around the blocks inside it. -/
def Stmt.allUnshadowed (around own : List String) : List Stmt → Bool
  | [] => true
  | s :: ss =>
    s.declared?.all (· ∉ around) && s.unshadowed (own ++ around) &&
      Stmt.allUnshadowed around (s.declared?.toList ++ own) ss

def Case.unshadowed (around : List String) : Case → Bool
  | .on _ body | .default body => Stmt.allUnshadowed around [] body

/-- The locals of a case are around the cases behind it. -/
def Case.allUnshadowed (around : List String) : List Case → Bool
  | [] => true
  | c :: cs =>
    c.unshadowed around && Case.allUnshadowed (c.body.filterMap Stmt.declared? ++ around) cs

end

def Function.unshadowed (f : Function) : Bool := Stmt.allUnshadowed [] f.parameters f.body

section Fresh

theorem Stmt.eq_declare_of_declared? {s : Stmt} {name : String}
    (declared : s.declared? = some name) :
    ∃ typeName value slot, s = .declare name typeName value slot := by
  cases s with
  | declare other typeName value slot =>
    cases declared
    exact ⟨typeName, value, slot, rfl⟩
  | _ => cases declared

theorem Stmt.scopeBehind_eq_of_silent (scope : TypeScope) {s : Stmt} (silent : s.declared? = none) :
    s.scopeBehind scope = scope := by
  cases s with
  | declare => cases silent
  | _ => rfl

open Java (Mark Fresh declareIn declareAll declareAll_append mem_flatten_declareIn
  mem_flatten_declareAll tail_declareAll fresh_cons_declares fresh_append_declares)

variable {p : Program}

theorem allMarks_append (ss more : List Java.Stmt) :
    Java.Stmt.allMarks (ss ++ more) = Java.Stmt.allMarks ss ++ Java.Stmt.allMarks more := by
  induction ss with
  | nil => rfl
  | cons s ss ih => rw [List.cons_append, Java.Stmt.allMarks, Java.Stmt.allMarks, ih,
      List.append_assoc]

/-- What is between braces leaves the scopes as they were. -/
theorem fresh_braces {scopes : List (List String)} {ms rest : List Mark} {names : List String}
    {holds : Prop} (inside : Fresh ([] :: scopes) (ms ++ .closing :: rest) ↔
      holds ∧ Fresh (declareAll names ([] :: scopes)) (.closing :: rest)) :
    Fresh scopes (.opening :: ms ++ [.closing] ++ rest) ↔ holds ∧ Fresh scopes rest := by
  rw [List.append_assoc, List.singleton_append, List.cons_append, Fresh, inside, Fresh,
    tail_declareAll]

mutual

theorem fresh_marks {scope : TypeScope} {result : Ty} (typed : p.WellTyped) (s : Stmt)
    (bodies : ∀ body ∈ s.bodies, p.BlockAt (scope.enter {}) result body)
    (silent : s.declared? = none) {scopes : List (List String)} {around : List String}
    (seen : ∀ name, name ∈ scopes.flatten ↔ name ∈ around) (rest : List Mark) :
    Fresh scopes (s.toJava.marks ++ rest) ↔
      s.unshadowed around = true ∧ Fresh scopes rest := by
  have opened : ∀ name, name ∈ ([] :: scopes).flatten ↔ name ∈ around := seen
  cases s with
  | expression => exact (and_iff_right rfl).symm
  | declare => cases silent
  | assign => exact (and_iff_right rfl).symm
  | branch condition thenBody elseBody =>
    -- What stands behind the first body is the second one, so `rest` differs between the two.
    have first (rest : List Mark) := fresh_braces (fresh_allMarks typed thenBody
      (bodies thenBody List.mem_cons_self) (List.forall_mem_nil _) opened (.closing :: rest))
    have second := fresh_braces (fresh_allMarks typed elseBody
      (bodies elseBody (List.mem_cons_of_mem _ List.mem_cons_self)) (List.forall_mem_nil _) opened
      (.closing :: rest))
    rw [Stmt.unshadowed, Bool.and_eq_true, and_assoc]
    -- An empty else part has no braces.
    cases elseBody with
    | nil =>
      rw [and_iff_right (show Stmt.allUnshadowed around [] [] = true from rfl), ← first rest]
      simp [Stmt.toJava, Stmt.allToJava, Java.Stmt.marks]
    | cons s ss =>
      rw [← second, ← first]
      simp [Stmt.toJava, Stmt.allToJava, Java.Stmt.marks]
  | switch condition cs =>
    have inside : ∀ c ∈ cs, p.BlockAt (scope.enter {}) result c.body :=
      fun c member => bodies c.body (List.mem_map_of_mem member)
    exact fresh_braces (fresh_allCases typed cs inside opened _)
  | loop condition body =>
    exact fresh_braces (fresh_allMarks typed body (bodies body List.mem_cons_self)
      (List.forall_mem_nil _) opened _)
  | ret => exact (and_iff_right rfl).symm

theorem fresh_allMarks {scope : TypeScope} {result : Ty} (typed : p.WellTyped) (ss : List Stmt)
    (place : p.BlockAt scope result ss) {scopes : List (List String)} {around own : List String}
    (bound : ∀ name ∈ own, (scope.current.getVariable? name).isSome)
    (seen : ∀ name, name ∈ scopes.flatten ↔ name ∈ own ++ around) (rest : List Mark) :
    Fresh scopes (Java.Stmt.allMarks (Stmt.allToJava ss) ++ rest) ↔
      Stmt.allUnshadowed around own ss = true ∧
        Fresh (declareAll (ss.filterMap Stmt.declared?) scopes) rest := by
  cases ss with
  | nil => exact (and_iff_right rfl).symm
  | cons s ss =>
    have split (more : List Mark) : Java.Stmt.allMarks (Stmt.allToJava (s :: ss)) ++ more =
        s.toJava.marks ++ (Java.Stmt.allMarks (Stmt.allToJava ss) ++ more) :=
      List.append_assoc _ _ _
    rw [split, Stmt.allUnshadowed, List.filterMap_cons]
    cases declared : s.declared? with
    | none =>
      have still : p.BlockAt scope result ss := by
        rw [← Stmt.scopeBehind_eq_of_silent scope declared]
        exact place.next
      have here := fresh_marks typed s (fun body member => place.inner member) declared seen
      simp only [here, fresh_allMarks typed ss still bound seen rest, Option.all_none,
        Option.toList_none, List.nil_append, Bool.true_and, Bool.and_eq_true, and_assoc]
    | some name =>
      obtain ⟨typeName, value, slot, rfl⟩ := Stmt.eq_declare_of_declared? declared
      obtain ⟨ty, rfl, free, _⟩ := typed.stmts place
      have other : name ∉ own := by
        intro member
        rw [← Option.not_isSome_iff_eq_none] at free
        exact free (bound name member)
      have own_bound : ∀ n ∈ name :: own,
          ((scope.bindVariable name (.plain name ty true)).current.getVariable? n).isSome := by
        intro n member
        rw [Scope.bindVariable, Scope.current_withCurrent, Frame.getVariable?_bindVariable]
        split_ifs with same
        · rfl
        · exact bound n ((List.mem_cons.mp member).resolve_left same)
      have own_seen : ∀ n, n ∈ (declareIn name scopes).flatten ↔ n ∈ (name :: own) ++ around := by
        intro n
        rw [mem_flatten_declareIn, seen, List.cons_append, List.mem_cons]
      have here : Fresh scopes (.declares name ::
          (Java.Stmt.allMarks (Stmt.allToJava ss) ++ rest)) ↔ _ := fresh_cons_declares
      rw [fresh_allMarks typed ss place.next own_bound own_seen rest, seen, List.mem_append,
        or_iff_right other] at here
      simp only [Option.all_some, Option.toList_some, List.singleton_append, Stmt.unshadowed,
        Bool.and_true, Bool.and_eq_true, decide_eq_true_eq, and_assoc]
      exact here

theorem fresh_allCases {scope : TypeScope} {result : Ty} (typed : p.WellTyped) (cs : List Case)
    (inside : ∀ c ∈ cs, p.BlockAt (scope.enter {}) result c.body) {scopes : List (List String)}
    {around : List String} (seen : ∀ name, name ∈ scopes.flatten ↔ name ∈ around)
    (rest : List Mark) :
    Fresh scopes (Java.Case.allMarks (Case.allToJava cs) ++ rest) ↔
      Case.allUnshadowed around cs = true ∧
        Fresh (declareAll (cs.flatMap fun c => c.body.filterMap Stmt.declared?) scopes) rest := by
  cases cs with
  | nil => exact (and_iff_right rfl).symm
  | cons c cs =>
    have split (more : List Mark) : Java.Case.allMarks (Case.allToJava (c :: cs)) ++ more =
        c.toJava.marks ++ (Java.Case.allMarks (Case.allToJava cs) ++ more) :=
      List.append_assoc _ _ _
    have both := declareAll_append (c.body.filterMap Stmt.declared?)
      (cs.flatMap fun c => c.body.filterMap Stmt.declared?) scopes
    have behind_seen : ∀ name,
        name ∈ (declareAll (c.body.filterMap Stmt.declared?) scopes).flatten ↔
          name ∈ c.body.filterMap Stmt.declared? ++ around := by
      intro name
      rw [mem_flatten_declareAll, seen, List.mem_append]
    obtain ⟨place, places⟩ := List.forall_mem_cons.mp inside
    have behind := fresh_allCases typed cs places behind_seen rest
    rw [split, Case.allUnshadowed, List.flatMap_cons, both, Bool.and_eq_true, and_assoc, ← behind]
    cases c with
    | on value body =>
      have here : (Case.on value body).toJava.marks = Java.Stmt.allMarks (Stmt.allToJava body) := by
        rw [Case.toJava, Java.Case.marks, allMarks_append]
        exact List.append_nil _
      rw [here]
      exact fresh_allMarks typed body place (List.forall_mem_nil _) seen _
    | default body => exact fresh_allMarks typed body place (List.forall_mem_nil _) seen _

end

theorem Function.names_parameterVariables {f : Function} {s : Signature}
    (arity : s.parameters.length = f.parameters.length) :
    (f.parameterVariables s).map (·.1) = f.parameters := by
  rw [parameterVariables, List.map_map]
  exact List.map_fst_zip (Nat.le_of_eq arity.symm)

theorem Function.marks_toJava {f : Function} {s : Signature} (slot : f.slot = some s)
    (arity : s.parameters.length = f.parameters.length) :
    f.toJava.marks = f.parameters.map .declares ++
      .opening :: Java.Stmt.allMarks (Stmt.allToJava f.body) ++ [.closing] := by
  have parameters : f.toJava.parameters.map (fun parameter => Mark.declares parameter.2) =
      f.parameters.map .declares := by
    have paired := List.map_fst_zip (Nat.le_of_eq arity.symm)
    conv_rhs => rw [← paired]
    rw [toJava, javaTypes, slot, List.map_map, List.map_map]
    rfl
  rw [Java.Method.marks, ← parameters]
  rfl

theorem fresh_method (typed : p.WellTyped) {f : Function} (member : f ∈ p.functions) :
    Fresh [] f.toJava.marks ↔ f.unshadowed = true := by
  obtain ⟨scope, fs, place⟩ := Program.exists_functionsAt member
  obtain ⟨s, slot, arity, _, defined⟩ := typed.functions place
  have names := Function.names_parameterVariables arity
  obtain ⟨nodup, _⟩ := Frame.free_of_defineVariables defined
  rw [names] at nodup
  have bound : ∀ name ∈ f.parameters, ((f.frame s).getVariable? name).isSome := by
    intro name among
    rw [← names] at among
    exact Frame.getVariable?_bindVariables_isSome (.inl among)
  have seen : ∀ name, name ∈ ([] :: declareAll f.parameters []).flatten ↔
      name ∈ f.parameters ++ [] := by
    intro name
    rw [List.flatten_cons, List.nil_append, mem_flatten_declareAll, List.append_nil]
    exact or_iff_left List.not_mem_nil
  have body := fresh_braces
    (fresh_allMarks typed f.body (.body member slot) bound seen [.closing])
  rw [Function.marks_toJava slot arity, List.append_assoc,
    fresh_append_declares nodup fun _ _ => List.not_mem_nil]
  rw [List.append_nil] at body
  exact body.trans (and_iff_left trivial)

end Fresh

/-- The text of a function of a compiled program declares no local in the scope of one of the same
name if and only if in its source no local has the name of one around it, where the parameters are
locals of the body, and the locals of a case count as around the cases behind it. -/
theorem java_scopes_iff {text : String} {p : Program} (compiled : compile text = .ok p)
    {f : Function} (member : f ∈ p.functions) :
    Java.WellScoped f.toJava.render ↔ f.unshadowed = true := by
  have lowerable := Program.Lowerable.of_compile compiled
  rw [Java.WellScoped, Java.marks_render _ (lowerable.local_method member), Java.apart_iff_fresh]
  exact fresh_method lowerable.typed member

def sideBySide : String :=
  "FUN main(): Integer DO
    IF TRUE DO LET x = 1; ELSE LET x = 2; END
    SWITCH 1 CASE 1: LET x = 3; DEFAULT END
    LET x = 4; RETURN x; END"

theorem java_scopes_iff_sideBySide : ∃ p, compile sideBySide = .ok p ∧ p.functions.length = 1 ∧
    ∀ f ∈ p.functions, f.unshadowed = true ∧ Java.WellScoped f.toJava.render := by
  have unshadowed : ∃ p, compile sideBySide = .ok p ∧ p.functions.length = 1 ∧
      ∀ f ∈ p.functions, f.unshadowed = true := by
    decide +kernel
  obtain ⟨p, compiled, one, each⟩ := unshadowed
  exact ⟨p, compiled, one, fun f member =>
    ⟨each f member, (java_scopes_iff compiled member).mpr (each f member)⟩⟩

def shadowing : String :=
  "FUN main(): Integer DO LET x = 1; IF TRUE DO LET x = 2; END RETURN x; END"

def siblingCases : String :=
  "FUN main(): Integer DO SWITCH 1 CASE 1: LET y = 1; DEFAULT LET y = 2; END RETURN 0; END"

/-- Such programs are compiled, and their text declares a local in the scope of another. -/
theorem exists_not_wellScoped : (∃ p, compile shadowing = .ok p ∧
      ∃ f ∈ p.functions, ¬ Java.WellScoped f.toJava.render) ∧
    ∃ p, compile siblingCases = .ok p ∧
      ∃ f ∈ p.functions, ¬ Java.WellScoped f.toJava.render := by
  decide +kernel

end Plc
