import Plc.Proofs.Reading.Steady.Expr

/-! Statements are read steadily. A block comes to its end in front of a word that ends it. -/
namespace Plc.Reading

open Reader

variable {n : Nat}

def initializerEnding : Ending :=
  ⟨True, fun follow => Ends Operator.tiers follow ∧ startsWithOperator "=" follow = false, []⟩

def blockEnding (terminators : List String) : Ending :=
  ⟨True, fun follow => (terminators.any fun word => startsWithKeyword word follow) = true, []⟩

def alternativeEnding : Ending := ⟨True, fun follow => startsWithKeyword "END" follow = true, []⟩

def statementEnding : Ending := .closed [aName, aSign ";"]

def casesEnding : Ending := .closed [aWord "DEFAULT", aWord "END"]

section Plain

theorem steady_initializer : Steady n (of initializer) initializerEnding := by
  rw [of_initializer]
  exact
    { on := fun shorter => .either (Nat.lt_succ_of_lt shorter)
        (fun _ _ => (steady_requiredExpression .missingAssignedValue).andThen_give _)
        (fun _ ends => ends.1) (steadyAt_give trivial) fun _ _ ends => ends.2
      completes := fun follow ends => ⟨none, either_neg ends.2⟩ }

theorem ends_semicolon {tiers : Nat} {follow : List Token} : Ends tiers (aSign ";" :: follow) :=
  ends_sign (by decide) (by decide) (by decide)

theorem steady_semicolon {α : Type} (value : α) :
    Steady n ((of (operator ";" .missingSemicolon)).andThen fun _ => give value)
      (.closed [aSign ";"]) :=
  steady_closing ";" .missingSemicolon value

theorem steady_declaration : Steady n (of declaration) (.closed [aName, aSign ";"]) := by
  rw [of_declaration]
  exact (steady_name _).andThen_closed
    (fun _ => steady_ascription.andThen_closed
      (fun _ => steady_initializer.andThen_closed (fun _ => steady_semicolon _)
        fun _ => ⟨ends_semicolon, rfl⟩)
      fun _ => rfl)
    fun _ => trivial

theorem steady_result : Steady n (of result) (.closed [aName, aSign ";"]) := by
  rw [of_result]
  exact (steady_requiredExpression _).andThen_closed (fun _ => steady_semicolon _)
    fun _ => ends_semicolon

theorem steady_plainStatement : Steady n (of plainStatement) statementEnding := by
  rw [of_plainStatement]
  exact (steady_expression n).andThen_closed
    (fun _ => steady_initializer.andThen_closed (fun _ => steady_semicolon _)
      fun _ => ⟨ends_semicolon, rfl⟩)
    fun _ => ends_semicolon

end Plain

section Nested

theorem startsWithKeyword_next (word : String) {us vs : List Token} (same : us.head? = vs.head?) :
    startsWithKeyword word us = startsWithKeyword word vs := by
  rw [startsWithKeyword, startsWithKeyword, same]

theorem any_startsWithKeyword_next (words : List String) {us vs : List Token}
    (same : us.head? = vs.head?) :
    (words.any fun word => startsWithKeyword word us) =
      words.any fun word => startsWithKeyword word vs := by
  simp only [startsWithKeyword_next _ same]

theorem isEmpty_next {us vs : List Token} (same : us.head? = vs.head?) :
    us.isEmpty = vs.isEmpty := by
  cases us <;> cases vs <;> cases same <;> rfl

theorem isEmpty_of_terminators {words : List String} {follow : List Token}
    (ends : (blockEnding words).closes follow) : follow.isEmpty = false := by
  cases follow with
  | nil => simp [blockEnding, startsWithKeyword] at ends
  | cons t follow => rfl

theorem completes_block (words : List String) :
    Completes (of (block words)) (blockEnding words) := by
  rw [of_block]
  have here : Completes (peek (fun ts => words.any fun word => startsWithKeyword word ts) (give [])
      ((of statement).andThen fun first => (of (block words)).andThen fun others =>
        give (first :: others))) (blockEnding words) :=
    .peek_yes (fun _ _ => ⟨[], rfl⟩) fun _ ends => ends
  exact here.peek_no fun _ ends => isEmpty_of_terminators ends

theorem completes_statement : Completes (of statement) statementEnding := by
  rw [of_statement]
  have plain : Completes (of plainStatement) statementEnding :=
    (steady_plainStatement : Steady 0 _ _).completes
  exact ((((plain.either_neg fun _ _ => rfl).either_neg fun _ _ => rfl).either_neg
    fun _ _ => rfl).either_neg fun _ _ => rfl).either_neg fun _ _ => rfl

theorem steady_end {α : Type} (misread : Misread) (value : α) :
    Steady n ((of (keyword "END" misread)).andThen fun _ => give value)
      (.closed [aWord "END"]) :=
  (steady_keyword "END" misread).andThen_give _

theorem completes_cases : Completes (of cases) casesEnding := by
  rw [of_cases]
  have body : Steady 0 (of (block ["CASE", "DEFAULT", "END"]))
      (blockEnding ["CASE", "DEFAULT", "END"]) := (completes_block _).steady
  have default := body.andThen_closed
    (fun body => steady_end .defaultNotLast [Case.default body]) fun _ => rfl
  have onward : Completes (either (·.isKeyword "DEFAULT")
      (fun _ => (of (block ["CASE", "DEFAULT", "END"])).andThen fun body =>
        (of (keyword "END" .defaultNotLast)).andThen fun _ => give [Case.default body])
      (peek (·.isEmpty) (refuse .missingEnd) (refuse .missingDefault))) casesEnding :=
    .either_pos rfl default.completes (fun _ _ => trivial) rfl
  exact onward.either_neg fun _ _ => rfl

structure StatementsSteady (n : Nat) : Prop where
  statement : Steady n (of statement) statementEnding
  block : ∀ words, Steady n (of (block words)) (blockEnding words)
  cases : Steady n (of cases) casesEnding

variable (below : StatementsSteady n)

include below

theorem steady_alternative : Steady n (of alternative) alternativeEnding := by
  have noElse : ∀ follow, startsWithKeyword "END" follow = true →
      startsWithKeyword "ELSE" follow = false := by
    intro follow ends
    cases follow with
    | nil => rfl
    | cons t follow =>
      have word : t.isKeyword "END" = true := ends
      simp only [Token.isKeyword, Bool.and_eq_true, beq_iff_eq] at word
      simp [startsWithKeyword, Token.isKeyword, word.2]
  rw [of_alternative]
  exact
    { on := fun shorter => .either (Nat.lt_succ_of_lt shorter) (fun _ _ => below.block ["END"])
        (fun _ ends => by simpa [blockEnding, alternativeEnding] using ends) (steadyAt_give trivial)
        fun _ follow ends => noElse follow ends
      completes := fun follow ends => ⟨[], either_neg (noElse follow ends)⟩ }

theorem steady_statement : Steady (n + 1) (of statement) statementEnding := by
  have switch := (steady_expression n).andThen_closed
    (fun condition => below.cases.andThen_give (Stmt.switch condition))
    fun _ => ends_word "DEFAULT"
  have branch := (steady_expression n).andThen_closed
    (fun condition => (steady_keyword "DO" .missingDo).andThen_closed
      (fun _ => (below.block ["ELSE", "END"]).andThen_closed
        (fun thenBody => (steady_alternative below).andThen_closed
          (fun elseBody => steady_end .missingEnd (Stmt.branch condition thenBody elseBody))
          fun _ => rfl)
        fun _ => rfl)
      fun _ => trivial)
    fun _ => ends_word "DO"
  have loop := (steady_expression n).andThen_closed
    (fun condition => (steady_keyword "DO" .missingDo).andThen_closed
      (fun _ => (below.block ["END"]).andThen_closed
        (fun body => steady_end .missingEnd (Stmt.loop condition body)) fun _ => rfl)
      fun _ => trivial)
    fun _ => ends_word "DO"
  refine ⟨?_, completes_statement⟩
  intro ts shorter
  rw [of_statement]
  exact .either shorter (fun _ _ => steady_declaration) (fun _ _ => trivial)
    (.either shorter (fun _ _ => switch) (fun _ _ => trivial)
      (.either shorter (fun _ _ => branch) (fun _ _ => trivial)
        (.either shorter (fun _ _ => loop) (fun _ _ => trivial)
          (.either shorter (fun _ _ => steady_result) (fun _ _ => trivial)
            (steady_plainStatement.on shorter) nofun) nofun) nofun) nofun) nofun

theorem steady_block (words : List String) :
    Steady (n + 1) (of (block words)) (blockEnding words) := by
  have more := (steady_statement below).andThen_shorter id
    (fun first => (below.block words).andThen_give (first :: ·))
    fun _ _ => trivial
  refine ⟨?_, completes_block words⟩
  intro ts shorter
  rw [of_block]
  refine .peek False True isEmpty_next (fun _ => steadyAt_refuse) (fun _ => ?_) nofun
    fun _ => ⟨trivial, fun _ ends => isEmpty_of_terminators ends⟩
  exact .peek True False (any_startsWithKeyword_next words) (fun _ => steadyAt_give trivial)
    (fun _ => (more.on shorter).weaken And.left fun _ ends => ⟨ends, fun _ => trivial⟩)
    (fun _ => ⟨trivial, fun _ ends => ends⟩) nofun

theorem steady_cases : Steady (n + 1) (of cases) casesEnding := by
  have one := (steady_expression n).andThen_closed
    (fun value => (steady_operator ":" .missingColon).andThen_closed
      (fun _ => (below.block ["CASE", "DEFAULT", "END"]).andThen_closed
        (fun body => below.cases.andThen_give (Case.on value body :: ·))
        fun _ => rfl)
      fun _ => trivial)
    fun _ => ends_sign (by decide) (by decide) (by decide)
  have default := (below.block ["CASE", "DEFAULT", "END"]).andThen_closed
    (fun body => steady_end .defaultNotLast [Case.default body]) fun _ => rfl
  refine ⟨?_, completes_cases⟩
  intro ts shorter
  rw [of_cases]
  exact .either shorter (fun _ _ => one) (fun _ _ => trivial)
    (.either shorter (fun _ _ => default) (fun _ _ => trivial)
      (.peek False False isEmpty_next (fun _ => steadyAt_refuse) (fun _ => steadyAt_refuse)
        nofun nofun) nofun) nofun

omit below

theorem statementsSteady (n : Nat) : StatementsSteady n := by
  induction n with
  | zero =>
    exact ⟨completes_statement.steady, fun words => (completes_block words).steady,
      completes_cases.steady⟩
  | succ n ih => exact ⟨steady_statement ih, steady_block ih, steady_cases ih⟩

end Nested

end Plc.Reading
