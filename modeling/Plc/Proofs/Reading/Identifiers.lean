import Plc.Compile
import Plc.Proofs.Reading.Sources
import Plc.Proofs.Reading.Steady.Expr
import Plc.Proofs.Token.Spacing
import Plc.Proofs.Typing.Within

/-! The names that a program gives to its globals, functions, parameters and locals are identifiers
of the text that it was compiled from. -/
namespace Plc

open Token (IsIdentifier)

def Stmt.declared? : Stmt → Option String
  | .declare name _ _ _ => some name
  | _ => none

def Stmt.locals (ss : List Stmt) : List String := (Stmt.allWithin ss).filterMap Stmt.declared?

def Function.names (f : Function) : List String := f.name :: f.parameters ++ Stmt.locals f.body

def Program.names (p : Program) : List String :=
  p.globals.map (·.name) ++ p.functions.flatMap Function.names

namespace Grammar

variable {ts rest : List Token}

def Worded (ts : List Token) : Prop := ∀ t ∈ ts, t.kind = .identifier → IsIdentifier t.literal

section Parts

variable {name : String}

theorem Worded.behind {taken : List Token} (worded : Worded (taken ++ rest)) : Worded rest :=
  fun t member => worded t (List.mem_append_right _ member)

theorem Word.identifier (here : Word name ts rest) (worded : Worded ts) :
    IsIdentifier name ∧ Worded rest := by
  obtain ⟨index, rfl⟩ := here
  obtain ⟨first, behind⟩ := List.forall_mem_cons.mp worded
  exact ⟨first rfl, behind⟩

theorem Word.worded (here : Word name ts rest) (worded : Worded ts) : Worded rest :=
  (here.identifier worded).2

theorem Sign.worded {symbol : String} (here : Sign symbol ts rest) (worded : Worded ts) :
    Worded rest := by
  obtain ⟨index, rfl⟩ := here
  exact (List.forall_mem_cons.mp worded).2

theorem Value.worded {e : Expr} (here : Value ts e rest) (worded : Worded ts) : Worded rest := by
  have steady := (Reading.steady_expression (ts.length + 1)).on (Nat.lt_succ_self _)
  obtain ⟨taken, rfl, _⟩ := steady.gives (value_iff.mpr here)
  exact worded.behind

theorem Ascription.worded {typeName : Option String} (here : Ascription ts typeName rest)
    (worded : Worded ts) : Worded rest := by
  cases here with
  | absent => exact worded
  | present colon type => exact type.worded (colon.worded worded)

theorem Initial.worded {value : Option Expr} (here : Initial ts value rest)
    (worded : Worded ts) : Worded rest := by
  cases here with
  | absent => exact worded
  | present equals value => exact value.worded (equals.worded worded)

theorem Values.worded {es : List Expr} (here : Values ts es rest) (worded : Worded ts) :
    Worded rest := by
  induction here with
  | last value => exact value.worded worded
  | next value comma _ ih => exact ih (comma.worded (value.worded worded))

end Parts

theorem Global.identifier {g : Plc.Global} (here : Global ts g rest) (worded : Worded ts) :
    IsIdentifier g.name ∧ Worded rest := by
  cases here with
  | list word id type equals opened elements closed ends =>
    obtain ⟨named, worded⟩ := id.identifier (word.worded worded)
    have inside := opened.worded (equals.worded (type.worded worded))
    exact ⟨named, ends.worded (closed.worded (elements.worded inside))⟩
  | mutable word id type initial ends =>
    obtain ⟨named, worded⟩ := id.identifier (word.worded worded)
    exact ⟨named, ends.worded (initial.worded (type.worded worded))⟩
  | immutable word id type equals value ends =>
    obtain ⟨named, worded⟩ := id.identifier (word.worded worded)
    exact ⟨named, ends.worded (value.worded (equals.worded (type.worded worded)))⟩

section Statements

def Names (ss : List Stmt) : Prop := ∀ name ∈ ss.filterMap Stmt.declared?, IsIdentifier name

theorem names_nil : Names [] := nofun

theorem Names.append {ss ss' : List Stmt} (first : Names ss) (second : Names ss') :
    Names (ss ++ ss') := by
  rw [Names, List.filterMap_append, List.forall_mem_append]
  exact ⟨first, second⟩

/-- A statement that declares nothing itself. -/
theorem Names.cons {s : Stmt} {ss : List Stmt} (silent : s.declared? = none) (names : Names ss) :
    Names (s :: ss) := by
  rw [Names, List.filterMap_cons, silent]
  exact names

mutual

theorem Statement.identifiers {ts rest : List Token} {s : Stmt} {events : List Event}
    (here : Statement ts s rest events) (worded : Worded ts) : Names s.within ∧ Worded rest := by
  cases here with
  | declare word id type initial ends =>
    obtain ⟨named, worded⟩ := id.identifier (word.worded worded)
    exact ⟨List.forall_mem_singleton.mpr named, ends.worded (initial.worded (type.worded worded))⟩
  | switch word subject inside =>
    obtain ⟨names, worded⟩ := Cases.identifiers inside (subject.worded (word.worded worded))
    exact ⟨names.cons rfl, worded⟩
  | branch word value begins thenPart ends =>
    have worded := begins.worded (value.worded (word.worded worded))
    obtain ⟨names, worded⟩ := Block.identifiers thenPart worded
    exact ⟨(names.append names_nil).cons rfl, ends.worded worded⟩
  | branchElse word value begins thenPart otherwise elsePart ends =>
    have worded := begins.worded (value.worded (word.worded worded))
    obtain ⟨first, worded⟩ := Block.identifiers thenPart worded
    obtain ⟨second, worded⟩ := Block.identifiers elsePart (otherwise.worded worded)
    exact ⟨(first.append second).cons rfl, ends.worded worded⟩
  | loop word value begins inside ends =>
    have worded := begins.worded (value.worded (word.worded worded))
    obtain ⟨names, worded⟩ := Block.identifiers inside worded
    exact ⟨names.cons rfl, ends.worded worded⟩
  | ret word value ends => exact ⟨nofun, ends.worded (value.worded (word.worded worded))⟩
  | expression _ value ends => exact ⟨nofun, ends.worded (value.worded worded)⟩
  | assign _ place equals value ends =>
    exact ⟨nofun, ends.worded (value.worded (equals.worded (place.worded worded)))⟩

theorem Block.identifiers {part : Part} {ts rest : List Token} {ss : List Stmt}
    {events : List Event} (here : Block part ts ss rest events) (worded : Worded ts) :
    Names (Stmt.allWithin ss) ∧ Worded rest := by
  cases here with
  | empty => exact ⟨names_nil, worded⟩
  | next _ here behind =>
    obtain ⟨first, worded⟩ := Statement.identifiers here worded
    obtain ⟨others, worded⟩ := Block.identifiers behind worded
    exact ⟨first.append others, worded⟩

theorem Cases.identifiers {owner : Nat} {ts rest : List Token} {cs : List Case}
    {events : List Event} (here : Cases owner ts cs rest events) (worded : Worded ts) :
    Names (Case.allWithin cs) ∧ Worded rest := by
  cases here with
  | default word inside ends =>
    obtain ⟨names, worded⟩ := Block.identifiers inside (word.worded worded)
    exact ⟨names.append names_nil, ends.worded worded⟩
  | on word value colon inside behind =>
    have worded := colon.worded (value.worded (word.worded worded))
    obtain ⟨first, worded⟩ := Block.identifiers inside worded
    obtain ⟨others, worded⟩ := Cases.identifiers behind worded
    exact ⟨first.append others, worded⟩

end

end Statements

section Programs

theorem Parameter.identifier {p : String × String} (here : Parameter ts p rest)
    (worded : Worded ts) : IsIdentifier p.1 ∧ Worded rest := by
  obtain ⟨id, type⟩ := here
  obtain ⟨named, worded⟩ := id.identifier worded
  exact ⟨named, type.worded worded⟩

theorem Parameters.identifiers {ps : List (String × String)} (here : Parameters ts ps rest)
    (worded : Worded ts) : (∀ p ∈ ps, IsIdentifier p.1) ∧ Worded rest := by
  induction here with
  | last parameter =>
    obtain ⟨named, worded⟩ := parameter.identifier worded
    exact ⟨List.forall_mem_singleton.mpr named, worded⟩
  | next parameter comma _ ih =>
    obtain ⟨named, worded⟩ := parameter.identifier worded
    obtain ⟨others, worded⟩ := ih (comma.worded worded)
    exact ⟨List.forall_mem_cons.mpr ⟨named, others⟩, worded⟩

theorem OptionalParameters.identifiers {ps : List (String × String)}
    (here : OptionalParameters ts ps rest) (worded : Worded ts) :
    (∀ p ∈ ps, IsIdentifier p.1) ∧ Worded rest := by
  cases here with
  | absent => exact ⟨nofun, worded⟩
  | present parameters => exact parameters.identifiers worded

theorem Function.identifiers {f : Plc.Function} {events : List Event}
    (here : Function ts f rest events) (worded : Worded ts) :
    (∀ name ∈ f.names, IsIdentifier name) ∧ Worded rest := by
  obtain ⟨word, id, opened, parameters, closed, result, begins, inside, ends⟩ := here
  obtain ⟨named, worded⟩ := id.identifier (word.worded worded)
  obtain ⟨each, worded⟩ := parameters.identifiers (opened.worded worded)
  have worded := begins.worded (result.worded (closed.worded worded))
  obtain ⟨locals, worded⟩ := Block.identifiers inside worded
  refine ⟨?_, ends.worded worded⟩
  rw [Function.names, List.cons_append, List.forall_mem_cons, List.forall_mem_append,
    List.forall_mem_map]
  exact ⟨named, each, locals⟩

theorem Globals.identifiers {gs : List Plc.Global} (here : Globals ts gs rest)
    (worded : Worded ts) : (∀ g ∈ gs, IsIdentifier g.name) ∧ Worded rest := by
  induction here with
  | none => exact ⟨nofun, worded⟩
  | next here _ ih =>
    obtain ⟨named, worded⟩ := here.identifier worded
    obtain ⟨others, worded⟩ := ih worded
    exact ⟨List.forall_mem_cons.mpr ⟨named, others⟩, worded⟩

theorem Functions.identifiers {fs : List Plc.Function} {events : List Event}
    (here : Functions ts fs rest events) (worded : Worded ts) :
    ∀ f ∈ fs, ∀ name ∈ f.names, IsIdentifier name := by
  induction here with
  | none => exact nofun
  | next here _ ih =>
    obtain ⟨names, worded⟩ := here.identifiers worded
    exact List.forall_mem_cons.mpr ⟨names, ih worded⟩

theorem Source.identifiers {p : Program} {events : List Event} (here : Source ts p events)
    (worded : Worded ts) : ∀ name ∈ p.names, IsIdentifier name := by
  obtain ⟨globals, functions⟩ := here
  obtain ⟨named, worded⟩ := globals.identifiers worded
  rw [Program.names, List.forall_mem_append, List.forall_mem_map, List.forall_mem_flatMap]
  exact ⟨named, functions.identifiers worded⟩

end Programs

end Grammar

section Erasure

theorem Stmt.declared_erase (s : Stmt) : s.erase.declared? = s.declared? := by
  cases s <;> rfl

theorem Function.names_erase (f : Function) : f.erase.names = f.names := by
  simp only [names, Stmt.locals, erase, Stmt.allWithin_eraseAll, List.filterMap_map,
    Function.comp_def, Stmt.declared_erase]

theorem Program.names_erase (p : Program) : p.erase.names = p.names := by
  simp only [names, erase, List.map_map, List.flatMap_map, Function.names_erase]
  rfl

end Erasure

/-- A program binds nothing but identifiers. -/
theorem Program.names_of_compile {text : String} {p : Program} (compiled : compile text = .ok p) :
    ∀ name ∈ p.names, IsIdentifier name := by
  obtain ⟨tokens, lexed, compiled⟩ := bind_eq_ok.mp compiled
  obtain ⟨raw, read, annotated⟩ := bind_eq_ok.mp compiled
  obtain ⟨events, source⟩ := Grammar.readProgram_iff_source.mp (mapError_eq_ok.mp read)
  have worded : Grammar.Worded tokens := by
    intro t member word
    have form := Token.form_of_lex (mapError_eq_ok.mp lexed) t member
    rwa [word] at form
  have same := Program.erase_of_annotate (mapError_eq_ok.mp annotated)
  rw [← names_erase, same, names_erase]
  exact source.identifiers worded

end Plc
