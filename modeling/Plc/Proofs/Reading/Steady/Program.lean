import Plc.Proofs.Reading.Steady.Stmt

/-! Programs are read steadily: wherever reading has come to, some program goes on from there. -/
namespace Plc.Reading

open Reader

variable {n : Nat}

section Globals

theorem steady_listGlobal :
    Steady n (of listGlobal) (.closed [aName, aSign "=", aSign "[", aName, aSign "]"]) := by
  have noClosing : startsWithOperator "]" [aName] = false := rfl
  have elements (name : String) (typeName : Option String) :=
    (steady_arguments noClosing (steady_expression n)).andThen_closed
      (fun elements => steady_closing "]" .missingCloseBracket
        (⟨name, typeName, true, some (.list elements none), none⟩ : Global))
      fun _ => ⟨ends_sign (by decide) (by decide) (by decide), rfl⟩
  rw [of_listGlobal]
  refine (steady_name _).andThen_closed (fun name => ?_) fun _ => trivial
  refine steady_ascription.andThen_closed (fun typeName => ?_) fun _ => rfl
  refine (steady_operator "=" .missingEquals).andThen_closed (fun _ => ?_) fun _ => trivial
  refine (steady_operator "[" .missingOpenBracket).andThen_closed (fun _ => ?_) fun _ => trivial
  exact
    { on := fun shorter => .peek False False (startsWithOperator_next "]")
        (fun _ => steadyAt_refuse) (fun _ => (elements name typeName).on shorter) nofun nofun
      completes := (elements name typeName).completes.peek_no fun _ _ => rfl }

def mutableEnding : Ending :=
  ⟨False, fun follow => initializerEnding.closes follow ∧ startsWithOperator ":" follow = false,
    [aName]⟩

theorem steady_mutableGlobal : Steady n (of mutableGlobal) mutableEnding := by
  rw [of_mutableGlobal]
  have behind (name : String) := steady_ascription.andThen
    (fun typeName => (steady_initializer (n := n)).andThen_give fun value =>
      (⟨name, typeName, true, value, none⟩ : Global))
    fun _ closes => closes.2 trivial
  exact ((steady_name _).closed_andThen behind).weaken id
    (fun _ closes => ⟨closes.1, fun _ => closes.2⟩) rfl

theorem steady_immutableGlobal :
    Steady n (of immutableGlobal) ⟨False, Ends Operator.tiers, [aName, aSign "=", aName]⟩ := by
  rw [of_immutableGlobal]
  have behind (name : String) := steady_ascription.andThen
    (fun typeName => (steady_operator "=" .missingEquals).closed_andThen fun _ =>
      (steady_requiredExpression (n := n) .missingAssignedValue).andThen_give fun value =>
        (⟨name, typeName, false, some value, none⟩ : Global))
    fun _ _ => rfl
  exact ((steady_name _).closed_andThen behind).weaken id
    (fun _ closes => ⟨closes, nofun⟩) rfl

theorem steady_globalHead : Steady n (of globalHead)
    ⟨False, mutableEnding.closes, [aWord "VAR", aName]⟩ := by
  have refused : Completes (of mutableGlobal) mutableEnding :=
    (steady_mutableGlobal (n := 0)).completes
  rw [of_globalHead]
  exact
    { on := fun shorter => .either (Nat.lt_succ_of_lt shorter) (fun _ _ => steady_listGlobal)
        (fun _ _ => trivial)
        (.either (Nat.lt_succ_of_lt shorter) (fun _ _ => steady_mutableGlobal) (fun _ ends => ends)
          (.either (Nat.lt_succ_of_lt shorter) (fun _ _ => steady_immutableGlobal)
            (fun _ ends => ends.1.1) steadyAt_refuse nofun) nofun) nofun
      completes := .either_neg (.either_pos rfl refused (fun _ ends => ends) rfl) fun _ _ => rfl }

theorem steady_global : Steady n (of global) (.closed [aWord "VAR", aName, aSign ";"]) := by
  rw [of_global]
  exact steady_globalHead.andThen_closed (fun _ => steady_semicolon _)
    fun _ => ⟨⟨ends_semicolon, rfl⟩, rfl⟩

end Globals

section Functions

def parametersEnding : Ending :=
  ⟨False, fun follow => startsWithOperator "," follow = false ∧
    startsWithOperator ":" follow = false, [aName]⟩

def moreParameters (first : String × String) : Reader (List (String × String)) :=
  either (·.isOperator ",")
    (fun _ => peek (startsWithOperator ")") (refuse .trailingComma)
      ((of parameters).andThen fun others => give (first :: others)))
    (give [first])

def moreParametersEnding : Ending := ⟨True, parametersEnding.closes, []⟩

theorem completes_moreParameters (first : String × String) :
    Completes (moreParameters first) moreParametersEnding :=
  fun _ ends => ⟨[first], either_neg ends.1⟩

theorem steady_moreParameters (parameters : Steady n (of parameters) parametersEnding)
    (first : String × String) : Steady (n + 1) (moreParameters first) moreParametersEnding := by
  have behind := parameters.andThen_give (first :: ·)
  have onward : Steady n (peek (startsWithOperator ")") (refuse .trailingComma)
      ((of Reading.parameters).andThen fun others => give (first :: others))) parametersEnding :=
    { on := fun shorter => .peek False False (startsWithOperator_next ")")
        (fun _ => steadyAt_refuse) (fun _ => behind.on shorter) nofun nofun
      completes := behind.completes.peek_no fun _ _ => rfl }
  exact
    { on := fun shorter => .either shorter (fun _ _ => onward)
        (fun _ ends => ends) (steadyAt_give trivial) fun _ _ ends => ends.1
      completes := completes_moreParameters first }

theorem steady_parameters : Steady n (of parameters) parametersEnding := by
  have composed {n : Nat}
      (more : ∀ first, Steady n (moreParameters first) moreParametersEnding) :
      Steady n (of parameters) parametersEnding := by
    rw [of_parameters]
    have behind (name : String) := steady_ascription.andThen
      (fun typeName => more (name, typeName.getD Ty.any.name)) fun _ closes => closes.2 trivial
    exact ((steady_name _).closed_andThen behind).weaken id
      (fun _ ends => ⟨ends, fun _ => ends.2⟩) rfl
  induction n with
  | zero => exact composed fun first => (completes_moreParameters first).steady
  | succ n ih => exact composed fun first => steady_moreParameters ih first

def optionalParametersEnding : Ending :=
  ⟨True, fun follow => startsWithOperator ")" follow = true, []⟩

theorem steady_optionalParameters :
    Steady n (of optionalParameters) optionalParametersEnding := by
  have ends : ∀ follow, startsWithOperator ")" follow = true → parametersEnding.closes follow := by
    intro follow ends
    cases follow with
    | nil => exact ⟨rfl, rfl⟩
    | cons t follow =>
      have closing : t.isOperator ")" = true := ends
      simp only [Token.isOperator, Bool.and_eq_true, beq_iff_eq] at closing
      simp [parametersEnding, startsWithOperator, Token.isOperator, closing.2]
  rw [of_optionalParameters]
  exact
    { on := fun shorter => .peek True False (startsWithOperator_next ")")
        (fun _ => steadyAt_give trivial)
        (fun _ => (steady_parameters.on shorter).weaken id ends)
        (fun _ => ⟨trivial, fun _ ends => ends⟩) False.elim
      completes := .peek_yes (fun _ _ => ⟨[], rfl⟩) fun _ ends => ends }

theorem steady_function : Steady n (of function)
    (.closed [aWord "FUN", aName, aSign "(", aSign ")", aWord "DO", aWord "END"]) := by
  rw [of_function]
  refine (steady_keyword "FUN" _).andThen_closed (fun _ => ?_) fun _ => trivial
  refine (steady_name _).andThen_closed (fun _ => ?_) fun _ => trivial
  refine (steady_operator "(" _).andThen_closed (fun _ => ?_) fun _ => trivial
  refine steady_optionalParameters.andThen_closed (fun _ => ?_) fun _ => rfl
  refine (steady_operator ")" _).andThen_closed (fun _ => ?_) fun _ => trivial
  refine steady_ascription.andThen_closed (fun _ => ?_) fun _ => rfl
  refine (steady_keyword "DO" _).andThen_closed (fun _ => ?_) fun _ => trivial
  exact ((statementsSteady n).block ["END"]).andThen_closed (fun _ => steady_end _ _) fun _ => rfl

end Functions

section Definitions

def definitionsEnding : Ending := ⟨True, fun follow => follow = [], []⟩

theorem startsGlobal_next {us vs : List Token} (same : us.head? = vs.head?) :
    startsGlobal us = startsGlobal vs := by
  simp only [startsGlobal, startsWithKeyword_next _ same]

theorem completes_definitions (functionSeen : Bool) :
    Completes (definitionsReader functionSeen) definitionsEnding := by
  rintro _ rfl
  rw [definitionsReader_eq]
  exact ⟨_, rfl⟩

theorem steady_definitions (functionSeen : Bool) :
    Steady n (definitionsReader functionSeen) definitionsEnding := by
  induction n generalizing functionSeen with
  | zero => exact (completes_definitions functionSeen).steady
  | succ n ih =>
    have global := (steady_global (n := n + 1)).andThen_shorter id
      (fun g => (ih false).andThen_give fun others =>
        ({ others with globals := g :: others.globals } : Program)) fun _ _ => trivial
    have function := (steady_function (n := n + 1)).andThen_shorter id
      (fun f => (ih true).andThen_give fun others =>
        ({ others with functions := f :: others.functions } : Program)) fun _ _ => trivial
    refine ⟨?_, completes_definitions functionSeen⟩
    intro ts shorter
    rw [definitionsReader_eq]
    refine .peek True False isEmpty_next (fun _ => steadyAt_give trivial) (fun _ => ?_)
      (fun _ => ⟨trivial, fun _ ends => by rw [ends]; rfl⟩) nofun
    refine .peek False False startsGlobal_next (fun _ => ?_) (fun _ => ?_) nofun nofun
    · cases functionSeen with
      | true => exact steadyAt_refuse
      | false =>
        exact (global.on shorter).weaken And.left fun _ ends => ⟨ends, fun _ => trivial⟩
    · exact .peek False False (startsWithKeyword_next "FUN")
        (fun _ => (function.on shorter).weaken And.left fun _ ends => ⟨ends, fun _ => trivial⟩)
        (fun _ => steadyAt_refuse) nofun nofun

end Definitions

end Plc.Reading
