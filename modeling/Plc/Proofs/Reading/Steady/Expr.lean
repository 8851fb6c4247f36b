import Plc.Proofs.Reading.Composition
import Plc.Proofs.Reading.Steady

/-! Expressions are read steadily, and a name may stand for each that is missing. -/
namespace Plc.Reading

open Reader

variable {n : Nat}

/-! Tokens that complete what is not complete. -/

def aName : Token := ⟨.identifier, "x", 0⟩

def aWord (word : String) : Token := ⟨.identifier, word, 0⟩

def aSign (symbol : String) : Token := ⟨.operator, symbol, 0⟩

section Pieces

theorem steady_keyword (word : String) (misread : Misread) :
    Steady n (of (keyword word misread)) (.closed [aWord word]) := by
  rw [of_keyword]
  exact steady_need (by simp [Token.isKeyword, aWord])

theorem steady_operator (symbol : String) (misread : Misread) :
    Steady n (of (operator symbol misread)) (.closed [aSign symbol]) := by
  rw [of_operator]
  exact steady_need (by simp [Token.isOperator, aSign])

theorem steady_name (misread : Misread) : Steady n (of (name misread)) (.closed [aName]) := by
  have steady : Steady n (need (·.kind == .identifier) misread) (.closed [aName]) :=
    steady_need rfl
  rw [of_name]
  exact steady.andThen_give _

/-- A type name is not left out in front of a colon. -/
def ascriptionEnding : Ending := ⟨True, fun follow => startsWithOperator ":" follow = false, []⟩

theorem steady_ascription : Steady n (of ascription) ascriptionEnding := by
  rw [of_ascription]
  exact
    { on := fun shorter => .either (Nat.lt_succ_of_lt shorter)
        (fun _ _ => (steady_name .invalidType).andThen_give _) (fun _ _ => trivial)
        (steadyAt_give trivial) fun _ _ h => h
      completes := fun follow h => ⟨none, either_neg h⟩ }

end Pieces

/-- In front of these tokens an operand, and what operators of the tiers below `tiers` join, is at
its end. -/
structure Ends (tiers : Nat) (follow : List Token) : Prop where
  noCall : startsWithOperator "(" follow = false
  noOffset : startsWithOperator "[" follow = false
  noOperator : ∀ tier < tiers, follow.head?.bind (tierOperator? tier) = none

section Ends

variable {tiers : Nat} {follow : List Token}

theorem Ends.of_le {fewer : Nat} (ends : Ends tiers follow) (less : fewer ≤ tiers) :
    Ends fewer follow :=
  ⟨ends.noCall, ends.noOffset, fun tier h => ends.noOperator tier (Nat.lt_of_lt_of_le h less)⟩

theorem ends_word (word : String) : Ends tiers (aWord word :: follow) :=
  ⟨rfl, rfl, fun _ _ => rfl⟩

theorem ends_sign {symbol : String} (noCall : symbol ≠ "(") (noOffset : symbol ≠ "[")
    (noOperator : Operator.ofSymbol? symbol = none) : Ends tiers (aSign symbol :: follow) where
  noCall := by simp [startsWithOperator, Token.isOperator, aSign, noCall]
  noOffset := by simp [startsWithOperator, Token.isOperator, aSign, noOffset]
  noOperator := by simp [tierOperator?, aSign, noOperator]

end Ends

def operandEnding (tiers : Nat) : Ending := ⟨False, Ends tiers, [aName]⟩

def argumentsEnding : Ending :=
  ⟨False, fun follow => Ends Operator.tiers follow ∧ startsWithOperator "," follow = false, [aName]⟩

def namedEnding : Ending := ⟨True, Ends 0, []⟩

def chainEnding (tier : Nat) : Ending := ⟨True, Ends (tier + 1), []⟩

section Steady

theorem steady_chain {tier : Nat} (operand : Steady n (of (binary tier)) (operandEnding tier))
    (left : Expr) : Steady n (of (chain tier left)) (chainEnding tier) := by
  have stops : ∀ {β : Type} {way : Operator → β} {follow : List Token}, Ends (tier + 1) follow →
      (follow.head?.bind fun t => (tierOperator? tier t).map way) = none := by
    intro β way follow ends
    have none := ends.noOperator tier (Nat.lt_succ_self tier)
    cases follow with
    | nil => rfl
    | cons t follow => exact Option.map_eq_none_iff.mpr none
  have completes : ∀ left, Completes (of (chain tier left)) (chainEnding tier) := by
    intro left follow ends
    rw [of_chain]
    exact ⟨left, choose_none (stops ends)⟩
  induction n generalizing left with
  | zero => exact (completes left).steady
  | succ n ih =>
    refine ⟨?_, completes left⟩
    intro ts shorter
    rw [of_chain]
    refine .choose ?_ (steadyAt_give trivial) fun _ _ ends => stops ends
    intro t mid way split found
    obtain ⟨op, _, rfl⟩ := Option.map_eq_some_iff.mp found
    have operand := operand.of_le (Nat.le_succ n)
    have steady := operand.andThen
      (fun right => ih operand (.binary op left right none)) fun _ closes => closes.2 trivial
    rw [split, List.length_cons] at shorter
    exact ⟨_, steady.on (by omega), fun _ => steady.completes,
      fun follow ends => ⟨ends, fun _ => ends.of_le (Nat.le_succ tier)⟩⟩

section Arguments

variable {closing : String}

def moreArguments (closing : String) (first : Expr) : Reader (List Expr) :=
  either (·.isOperator ",")
    (fun _ => peek (startsWithOperator closing) (refuse .trailingComma)
      ((of (arguments closing)).andThen fun others => give (first :: others)))
    (give [first])

def moreArgumentsEnding : Ending := ⟨True, argumentsEnding.closes, []⟩

theorem completes_moreArguments (first : Expr) :
    Completes (moreArguments closing first) moreArgumentsEnding :=
  fun _ ends => ⟨[first], either_neg ends.2⟩

theorem startsWithOperator_next (symbol : String) {us vs : List Token}
    (same : us.head? = vs.head?) :
    startsWithOperator symbol us = startsWithOperator symbol vs := by
  rw [startsWithOperator, startsWithOperator, same]

theorem startsExpression_next {us vs : List Token} (same : us.head? = vs.head?) :
    startsExpression us = startsExpression vs := by
  cases us <;> cases vs <;> cases same <;> rfl

theorem steady_moreArguments (other : startsWithOperator closing [aName] = false)
    (arguments : Steady n (of (arguments closing)) argumentsEnding) (first : Expr) :
    Steady (n + 1) (moreArguments closing first) moreArgumentsEnding := by
  have behind : Steady n ((of (Reading.arguments closing)).andThen fun others =>
      give (first :: others)) argumentsEnding := arguments.andThen_give _
  have onward : Steady n (peek (startsWithOperator closing) (refuse .trailingComma)
      ((of (Reading.arguments closing)).andThen fun others => give (first :: others)))
      argumentsEnding :=
    { on := fun shorter => .peek False False (startsWithOperator_next closing)
        (fun _ => steadyAt_refuse) (fun _ => behind.on shorter) nofun nofun
      completes := behind.completes.peek_no fun follow _ => other }
  exact
    { on := fun shorter => .either shorter (fun _ _ => onward)
        (fun _ ends => ends) (steadyAt_give trivial) fun _ _ ends => ends.2
      completes := completes_moreArguments first }

theorem steady_arguments (other : startsWithOperator closing [aName] = false)
    (value : Steady n (of expression) (operandEnding Operator.tiers)) :
    Steady n (of (arguments closing)) argumentsEnding := by
  have joins : (operandEnding Operator.tiers).Joins moreArgumentsEnding :=
    fun _ closes => closes.2 trivial
  have completes : Completes (of (arguments closing)) argumentsEnding := by
    intro follow ends
    rw [of_arguments]
    exact (value.completes.andThen joins completes_moreArguments).peek_yes (fun _ _ => rfl) follow
      ⟨ends, fun _ => ends.1⟩
  induction n with
  | zero => exact completes.steady
  | succ n ih =>
    have behind := steady_moreArguments other (ih (value.of_le (Nat.le_succ n)))
    have steady := value.andThen behind joins
    refine ⟨?_, completes⟩
    intro ts shorter
    rw [of_arguments]
    exact .peek False False startsExpression_next
      (fun _ => (steady.on shorter).weaken And.left fun _ ends => ⟨ends, fun _ => ends.1⟩)
      (fun _ => steadyAt_refuse) nofun nofun

end Arguments

/-- The rest of something in brackets. -/
theorem steady_closing {α : Type} (symbol : String) (misread : Misread) (value : α) :
    Steady n ((of (operator symbol misread)).andThen fun _ => give value)
      (.closed [aSign symbol]) :=
  (steady_operator symbol misread).andThen_give _

theorem completes_named (name : String) : Completes (of (named name)) namedEnding := by
  intro follow ends
  rw [of_named]
  exact ⟨_, (either_neg ends.noCall).trans (either_neg ends.noOffset)⟩

theorem steady_named (value : Steady n (of expression) (operandEnding Operator.tiers))
    (name : String) : Steady n (of (named name)) namedEnding := by
  have noClosing : startsWithOperator ")" [aName] = false := rfl
  have call := (steady_arguments noClosing value).andThen_closed
    (fun arguments => steady_closing ")" .missingCloseParenthesis (Expr.call name arguments none))
    fun _ => ⟨ends_sign (by decide) (by decide) (by decide), rfl⟩
  have offset := value.andThen_closed
    (fun offset => steady_closing "]" .missingCloseBracket (Expr.element name offset none))
    fun _ => ends_sign (by decide) (by decide) (by decide)
  have closing : Steady n (either (·.isOperator ")") (fun _ => give (Expr.call name [] none))
      ((of (arguments ")")).andThen fun arguments =>
        (of (operator ")" .missingCloseParenthesis)).andThen fun _ =>
          give (Expr.call name arguments none))) (.closed [aSign ")"]) :=
    { on := fun shorter => .either (Nat.lt_succ_of_lt shorter) (fun _ _ => steady_give)
        (fun _ _ => trivial)
        ((call.on shorter).weaken id fun _ _ => trivial) nofun
      completes := .either_pos rfl completes_give (fun _ _ => trivial) rfl }
  refine ⟨?_, completes_named name⟩
  intro ts shorter
  rw [of_named]
  refine .either (Nat.lt_succ_of_lt shorter) (fun _ _ => closing) (fun _ _ => trivial) ?_
    fun _ _ ends => ends.noCall
  exact .either (Nat.lt_succ_of_lt shorter) (fun _ _ => offset) (fun _ _ => trivial)
    (steadyAt_give trivial) fun _ _ ends => ends.noOffset

theorem completes_primary : Completes (of primary) (operandEnding 0) := by
  intro follow ends
  rw [of_primary]
  exact completes_named "x" follow ends

theorem steady_primary (value : Steady n (of expression) (operandEnding Operator.tiers)) :
    Steady (n + 1) (of primary) (operandEnding 0) := by
  have group := value.andThen_closed
    (fun inner => steady_closing ")" .missingCloseParenthesis (Expr.group inner none))
    fun _ => ends_sign (by decide) (by decide) (by decide)
  refine ⟨?_, completes_primary⟩
  intro ts shorter
  rw [of_primary]
  refine .choose ?_ steadyAt_refuse nofun
  intro t mid way split found
  rw [split, List.length_cons] at shorter
  rw [primaryWays] at found
  split at found
  · cases found
    exact ⟨.nothing, steadyAt_give trivial, fun _ => completes_give, fun _ _ => trivial⟩
  · rename_i misread literal
    cases found
    exact ⟨.nothing, steadyAt_refuse, fun meaningful => absurd literal (meaningful misread),
      fun _ _ => trivial⟩
  · split at found
    · cases found
      exact ⟨namedEnding, (steady_named value t.literal).on (by omega),
        fun _ => completes_named t.literal, fun _ ends => ends⟩
    · split at found
      · cases found
        exact ⟨_, group.on (by omega), fun _ => group.completes, fun _ _ => trivial⟩
      · cases found

theorem steady_binary (operand : Steady n (of primary) (operandEnding 0)) (tiers : Nat) :
    Steady n (of (binary tiers)) (operandEnding tiers) := by
  induction tiers with
  | zero =>
    rw [of_binary_zero]
    exact operand
  | succ tier ih =>
    rw [of_binary_succ]
    exact (ih.andThen (steady_chain ih) fun _ closes => closes.2 trivial).weaken And.left
      (fun _ ends => ⟨ends, fun _ => ends.of_le (Nat.le_succ tier)⟩) rfl

theorem steady_expression (n : Nat) :
    Steady n (of expression) (operandEnding Operator.tiers) := by
  rw [of_expression]
  induction n with
  | zero => exact steady_binary completes_primary.steady Operator.tiers
  | succ n ih =>
    rw [← of_expression] at ih
    exact steady_binary (steady_primary ih) Operator.tiers

theorem steady_requiredExpression (misread : Misread) :
    Steady n (of (requiredExpression misread)) (operandEnding Operator.tiers) := by
  rw [of_requiredExpression]
  exact
    { on := fun shorter => .peek False False startsExpression_next
        (fun _ => (steady_expression n).on shorter) (fun _ => steadyAt_refuse) nofun nofun
      completes := (steady_expression n).completes.peek_yes fun _ _ => rfl }

end Steady

end Plc.Reading
