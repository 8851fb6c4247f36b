import Plc.Proofs.Outcome
import Plc.Proofs.Reading.Shape
import Plc.Reading

/-! Whatever is read from tokens is bare. Each reader is taken apart into the readers it calls:
of those in front only what they give matters, not the tokens they take. -/
namespace Plc.Reading

def Gives {α : Type} {n : Nat} (P : α → Prop) (answer : Except Halt (Read α n)) : Prop :=
  ∀ r, answer = .ok r → P r.value

theorem gives_ok {α : Type} {n : Nat} {P : α → Prop} {value : α} {rest : List Token}
    {shorter : rest.length < n} (holds : P value) :
    Gives P (.ok ⟨value, rest, shorter⟩ : Except Halt (Read α n)) := by
  intro r given
  cases given
  exact holds

theorem gives_error {α : Type} {n : Nat} {P : α → Prop} (halt : Halt) :
    Gives P (.error halt : Except Halt (Read α n)) := by
  intro r given
  cases given

theorem gives_bind {α β : Type} {n m : Nat} {P : α → Prop} {Q : β → Prop}
    {answer : Except Halt (Read α n)} {next : Read α n → Except Halt (Read β m)}
    (first : Gives P answer) (second : ∀ r, P r.value → Gives Q (next r)) :
    Gives Q (answer >>= next) := by
  cases answer with
  | error halt => exact gives_error halt
  | ok r => exact second r (first r rfl)

/-- What comes first need not be known. -/
theorem gives_behind {α β : Type} {n m : Nat} {Q : β → Prop}
    {answer : Except Halt (Read α n)} {next : Read α n → Except Halt (Read β m)}
    (second : ∀ r, Gives Q (next r)) : Gives Q (answer >>= next) :=
  gives_bind (P := fun _ => True) (fun _ _ => trivial) fun r _ => second r

mutual

theorem expression_bare (ts : List Token) : Gives Expr.Bare (expression ts) := by
  rw [expression]
  exact binary_bare Operator.tiers ts
termination_by 8 * ts.length + 6
decreasing_by simp [Operator.tiers]

theorem primary_bare (ts : List Token) : Gives Expr.Bare (primary ts) := by
  cases ts with
  | nil =>
    rw [primary]
    exact gives_error _
  | cons t ts =>
    rw [primary]
    split
    · exact gives_ok rfl
    · exact gives_error _
    · split
      · refine gives_bind (named_bare t.literal ts) ?_
        intro r bare
        exact gives_ok bare
      · split
        · refine gives_bind (expression_bare ts) ?_
          intro r bare
          refine gives_behind ?_
          intro r
          exact gives_ok ⟨bare, rfl⟩
        · exact gives_error _
termination_by 8 * ts.length

theorem named_bare (name : String) (ts : List Token) : Gives Expr.Bare (named name ts) := by
  rw [named]
  split
  · split
    · exact gives_ok ⟨trivial, rfl⟩
    · rename_i rest _ _ _ _
      refine gives_bind (arguments_bare ")" rest) ?_
      intro r bare
      refine gives_behind ?_
      intro r
      exact gives_ok ⟨bare.1, rfl⟩
  · split
    · rename_i rest _ _
      refine gives_bind (expression_bare rest) ?_
      intro r bare
      refine gives_behind ?_
      intro r
      exact gives_ok ⟨bare, rfl⟩
    · exact gives_ok rfl
termination_by 8 * ts.length

theorem binary_bare (tiers : Nat) (ts : List Token) : Gives Expr.Bare (binary tiers ts) := by
  cases tiers with
  | zero =>
    rw [binary]
    exact primary_bare ts
  | succ tier =>
    rw [binary]
    refine gives_bind (binary_bare tier ts) ?_
    rintro ⟨left, rest, shorter⟩ bare
    refine gives_bind (chain_bare tier left rest bare) ?_
    intro r bare
    exact gives_ok bare
termination_by 8 * ts.length + 1 + tiers

theorem chain_bare (tier : Nat) (left : Expr) (ts : List Token) (bare : left.Bare) :
    Gives Expr.Bare (chain tier left ts) := by
  rw [chain]
  split
  · rename_i op rest shorter _
    refine gives_bind (binary_bare tier rest) ?_
    rintro ⟨right, behind, shorter'⟩ given
    refine gives_bind (chain_bare tier _ behind ⟨bare, given, rfl⟩) ?_
    intro r bare
    exact gives_ok bare
  · exact gives_ok bare
termination_by 8 * ts.length + 2 + tier

theorem arguments_bare (closing : String) (ts : List Token) :
    Gives (fun es => Expr.AllBare es ∧ es ≠ []) (arguments closing ts) := by
  rw [arguments]
  split
  · refine gives_bind (expression_bare ts) ?_
    rintro ⟨first, behind, shorter⟩ bare
    dsimp only
    split
    · rename_i rest shorter' _
      split
      · exact gives_error _
      · refine gives_bind (arguments_bare closing rest) ?_
        intro r given
        exact gives_ok ⟨⟨bare, given.1⟩, List.cons_ne_nil _ _⟩
    · exact gives_ok ⟨⟨bare, trivial⟩, List.cons_ne_nil _ _⟩
  · exact gives_error _
termination_by 8 * ts.length + 7

end

theorem requiredExpression_bare (misread : Misread) (ts : List Token) :
    Gives Expr.Bare (requiredExpression misread ts) := by
  rw [requiredExpression]
  split
  · exact expression_bare ts
  · exact gives_error _

theorem initializer_bare (ts : List Token) :
    Gives (fun value : Option Expr => ∀ e ∈ value, e.Bare) (initializer ts) := by
  rw [initializer]
  split
  · refine gives_bind (requiredExpression_bare _ _) ?_
    intro r bare
    refine gives_ok ?_
    rintro e ⟨⟩
    exact bare
  · refine gives_ok ?_
    rintro e ⟨⟩

theorem declaration_bare (ts : List Token) : Gives Stmt.Bare (declaration ts) := by
  refine gives_behind fun name => gives_behind fun typeName => ?_
  refine gives_bind (initializer_bare _) ?_
  intro r bare
  refine gives_behind fun semicolon => ?_
  exact gives_ok ⟨bare, rfl⟩

theorem result_bare (ts : List Token) : Gives Stmt.Bare (result ts) := by
  refine gives_bind (requiredExpression_bare _ _) ?_
  intro r bare
  refine gives_behind fun semicolon => ?_
  exact gives_ok bare

theorem plainStatement_bare (ts : List Token) : Gives Stmt.Bare (plainStatement ts) := by
  refine gives_bind (expression_bare _) ?_
  intro first bare
  refine gives_bind (initializer_bare _) ?_
  rintro ⟨value, rest, shorter⟩ given
  refine gives_behind fun semicolon => ?_
  cases value with
  | none => exact gives_ok bare
  | some value => exact gives_ok ⟨bare, given value rfl⟩

mutual

theorem statement_bare (ts : List Token) : Gives Stmt.Bare (statement ts) := by
  rw [statement]
  split
  · refine gives_bind (declaration_bare _) ?_
    intro r bare
    exact gives_ok bare
  · split
    · refine gives_bind (expression_bare _) ?_
      rintro ⟨condition, rest, shorter⟩ bare
      refine gives_bind (cases_bare rest) ?_
      intro r given
      exact gives_ok ⟨bare, given⟩
    · split
      · refine gives_bind (expression_bare _) ?_
        rintro ⟨condition, _, shorter⟩ bare
        refine gives_behind ?_
        rintro ⟨word, rest, shorter'⟩
        refine gives_bind (block_bare ["ELSE", "END"] rest) ?_
        rintro ⟨thenBody, rest, shorter''⟩ first
        refine gives_bind (alternative_bare rest) ?_
        intro r second
        refine gives_behind fun word => ?_
        exact gives_ok ⟨bare, first, second⟩
      · split
        · refine gives_bind (expression_bare _) ?_
          rintro ⟨condition, _, shorter⟩ bare
          refine gives_behind ?_
          rintro ⟨word, rest, shorter'⟩
          refine gives_bind (block_bare ["END"] rest) ?_
          intro r given
          refine gives_behind fun word => ?_
          exact gives_ok ⟨bare, given⟩
        · split
          · refine gives_bind (result_bare _) ?_
            intro r bare
            exact gives_ok bare
          · exact plainStatement_bare ts
termination_by 2 * ts.length

theorem alternative_bare (ts : List Token) : Gives Stmt.AllBare (alternative ts) := by
  rw [alternative]
  split
  · rename_i rest _ _
    refine gives_bind (block_bare ["END"] rest) ?_
    intro r bare
    exact gives_ok bare
  · exact gives_ok trivial
termination_by 2 * ts.length

theorem block_bare (terminators : List String) (ts : List Token) :
    Gives Stmt.AllBare (block terminators ts) := by
  rw [block]
  split
  · exact gives_error _
  · split
    · exact gives_ok trivial
    · refine gives_bind (statement_bare ts) ?_
      rintro ⟨first, rest, shorter⟩ bare
      refine gives_bind (block_bare terminators rest) ?_
      intro r given
      exact gives_ok ⟨bare, given⟩
termination_by 2 * ts.length + 1

theorem cases_bare (ts : List Token) :
    Gives (fun cs => Case.AllBare cs ∧ Case.EndInDefault cs) (cases ts) := by
  rw [Reading.cases]
  split
  · refine gives_bind (expression_bare _) ?_
    rintro ⟨value, _, shorter⟩ bare
    refine gives_behind ?_
    rintro ⟨colon, rest, shorter'⟩
    refine gives_bind (block_bare ["CASE", "DEFAULT", "END"] rest) ?_
    rintro ⟨body, rest, shorter''⟩ given
    refine gives_bind (cases_bare rest) ?_
    intro r behind
    exact gives_ok ⟨⟨⟨bare, given⟩, behind.1⟩, behind.2⟩
  · split
    · rename_i rest _ _
      refine gives_bind (block_bare ["CASE", "DEFAULT", "END"] rest) ?_
      intro r given
      refine gives_behind fun word => ?_
      exact gives_ok ⟨⟨given, trivial⟩, trivial⟩
    · split
      · exact gives_error _
      · exact gives_error _
termination_by 2 * ts.length

end

theorem listGlobal_bare (ts : List Token) : Gives Global.Bare (listGlobal ts) := by
  refine gives_behind fun name => gives_behind fun typeName => ?_
  refine gives_behind fun equals => gives_behind fun bracket => ?_
  dsimp only
  split
  · exact gives_error _
  · refine gives_bind (arguments_bare _ _) ?_
    intro r given
    refine gives_behind fun bracket => ?_
    exact gives_ok ⟨⟨given.2, given.1, rfl, rfl⟩, rfl⟩

theorem mutableGlobal_bare (ts : List Token) : Gives Global.Bare (mutableGlobal ts) := by
  refine gives_behind fun name => gives_behind fun typeName => ?_
  refine gives_bind (initializer_bare _) ?_
  rintro ⟨value, rest, shorter⟩ given
  cases value with
  | none => exact gives_ok ⟨rfl, rfl⟩
  | some value => exact gives_ok ⟨Global.bareValue_of_bare (given value rfl) _, rfl⟩

theorem immutableGlobal_bare (ts : List Token) : Gives Global.Bare (immutableGlobal ts) := by
  refine gives_behind fun name => gives_behind fun typeName => gives_behind fun equals => ?_
  refine gives_bind (requiredExpression_bare _ _) ?_
  intro r bare
  exact gives_ok ⟨Global.bareValue_of_bare bare _, rfl⟩

theorem globalHead_bare (ts : List Token) : Gives Global.Bare (globalHead ts) := by
  rw [globalHead]
  split
  · refine gives_bind (listGlobal_bare _) ?_
    intro r bare
    exact gives_ok bare
  · split
    · refine gives_bind (mutableGlobal_bare _) ?_
      intro r bare
      exact gives_ok bare
    · split
      · refine gives_bind (immutableGlobal_bare _) ?_
        intro r bare
        exact gives_ok bare
      · exact gives_error _

theorem global_bare (ts : List Token) : Gives Global.Bare (global ts) := by
  refine gives_bind (globalHead_bare _) ?_
  intro r bare
  refine gives_behind fun semicolon => ?_
  exact gives_ok bare

theorem function_bare (ts : List Token) : Gives Function.Bare (function ts) := by
  refine gives_behind fun word => gives_behind fun name => gives_behind fun opened => ?_
  refine gives_behind fun parameters => gives_behind fun closed => ?_
  refine gives_behind fun resultName => gives_behind fun word => ?_
  refine gives_bind (block_bare _ _) ?_
  intro r bare
  refine gives_behind fun word => ?_
  exact gives_ok ⟨bare, by simp only [List.length_map], rfl⟩

theorem definitions_bare (functionSeen : Bool) (ts : List Token) (p : Program)
    (read : definitions functionSeen ts = .ok p) : p.Bare := by
  induction h : ts.length using Nat.strongRecOn generalizing functionSeen ts p with
  | ind n ih =>
    subst h
    rw [definitions] at read
    split at read
    · cases read
      exact ⟨by simp, by simp⟩
    · split at read
      · split at read
        · cases read
        · simp only [bind_eq_ok, pure_eq_ok] at read
          obtain ⟨g, first, q, others, rfl⟩ := read
          have bare := ih _ g.shorter _ _ _ others rfl
          exact ⟨List.forall_mem_cons.mpr ⟨global_bare ts g first, bare.globals⟩,
            bare.functions⟩
      · split at read
        · simp only [bind_eq_ok, pure_eq_ok] at read
          obtain ⟨f, first, q, others, rfl⟩ := read
          have bare := ih _ f.shorter _ _ _ others rfl
          exact ⟨bare.globals,
            List.forall_mem_cons.mpr ⟨function_bare ts f first, bare.functions⟩⟩
        · cases read

theorem readProgram_bare (ts : List Token) (p : Program) (read : readProgram ts = .ok p) :
    p.Bare := by
  cases given : program ts with
  | error halt =>
    rw [readProgram, given] at read
    cases read
  | ok q =>
    rw [readProgram, given] at read
    cases read
    exact definitions_bare false ts p given

end Plc.Reading
