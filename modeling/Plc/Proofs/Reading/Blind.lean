import Plc.Proofs.Reading.Composition
import Plc.Proofs.Token.Spacing

/-! Reading does not see where the tokens stand. On tokens that are alike every reader gives the
same, or comes to a halt for the same reason behind as many of them. -/
namespace Plc.Reading

open Reader Token

variable {α β : Type} {n k bound : Nat}

/-- Answers that do not differ but in the places of the tokens that are left, of which there are no
more than a bound. -/
inductive Agree (bound : Nat) : Except Halt (α × List Token) → Except Halt (α × List Token) → Prop
    where
  | ok {value : α} {rest rest' : List Token} (left : List.Forall₂ Alike rest rest')
      (notLonger : rest.length ≤ bound) : Agree bound (.ok (value, rest)) (.ok (value, rest'))
  | error {misread : Misread} {rest rest' : List Token} (left : List.Forall₂ Alike rest rest') :
      Agree bound (.error ⟨misread, rest⟩) (.error ⟨misread, rest'⟩)

/-- On fewer than so many tokens it does not matter where they stand. -/
def Blind (n : Nat) (read : Reader α) : Prop :=
  ∀ ts us, ts.length < n → List.Forall₂ Alike ts us → Agree ts.length (read ts) (read us)

section Alike

variable {t u : Token} {ts us : List Token}

theorem isKeyword_alike (alike : Alike t u) (word : String) :
    t.isKeyword word = u.isKeyword word := by
  rw [isKeyword, isKeyword, alike.1, alike.2]

theorem isOperator_alike (alike : Alike t u) (symbol : String) :
    t.isOperator symbol = u.isOperator symbol := by
  rw [isOperator, isOperator, alike.1, alike.2]

theorem literal?_alike (alike : Alike t u) : literal? t = literal? u := by
  rw [literal?, literal?, alike.1, alike.2]

theorem tierOperator?_alike (alike : Alike t u) (tier : Nat) :
    tierOperator? tier t = tierOperator? tier u := by
  rw [tierOperator?, tierOperator?, alike.1, alike.2]

theorem startsWithKeyword_alike (word : String) (alike : List.Forall₂ Alike ts us) :
    startsWithKeyword word ts = startsWithKeyword word us := by
  cases alike with
  | nil => rfl
  | cons here _ => exact isKeyword_alike here word

theorem startsWithOperator_alike (symbol : String) (alike : List.Forall₂ Alike ts us) :
    startsWithOperator symbol ts = startsWithOperator symbol us := by
  cases alike with
  | nil => rfl
  | cons here _ => exact isOperator_alike here symbol

theorem any_startsWithKeyword_alike (words : List String) (alike : List.Forall₂ Alike ts us) :
    (words.any fun word => startsWithKeyword word ts) =
      words.any fun word => startsWithKeyword word us := by
  simp only [startsWithKeyword_alike _ alike]

theorem startsGlobal_alike (alike : List.Forall₂ Alike ts us) :
    startsGlobal ts = startsGlobal us := by
  simp only [startsGlobal, startsWithKeyword_alike _ alike]

theorem startsExpression_alike (alike : List.Forall₂ Alike ts us) :
    startsExpression ts = startsExpression us := by
  cases alike with
  | nil => rfl
  | cons here _ => rw [startsExpression, startsExpression, here.1, here.2]

theorem isEmpty_alike (alike : List.Forall₂ Alike ts us) : ts.isEmpty = us.isEmpty := by
  cases alike <;> rfl

end Alike

section Parts

variable {read : Reader α}

theorem Agree.mono {answer answer' : Except Halt (α × List Token)} (agree : Agree k answer answer')
    (less : k ≤ n) : Agree n answer answer' := by
  cases agree with
  | ok left notLonger => exact .ok left (Nat.le_trans notLonger less)
  | error left => exact .error left

theorem blind_zero : Blind 0 read := fun _ _ shorter _ => absurd shorter (Nat.not_lt_zero _)

theorem Blind.of_le (blind : Blind n read) (less : k ≤ n) : Blind k read :=
  fun ts us shorter => blind ts us (Nat.lt_of_lt_of_le shorter less)

theorem blind_give {value : α} : Blind n (give value) :=
  fun _ _ _ alike => .ok alike (Nat.le_refl _)

theorem blind_refuse {misread : Misread} : Blind n (refuse misread : Reader α) :=
  fun _ _ _ alike => .error alike

theorem Blind.andThen {first : Reader β} {next : β → Reader α} (front : Blind n first)
    (behind : ∀ value, Blind n (next value)) : Blind n (first.andThen next) := by
  intro ts us shorter alike
  have agree := front ts us shorter alike
  rw [Reader.andThen, Reader.andThen]
  generalize first ts = answer at agree ⊢
  generalize first us = answer' at agree ⊢
  cases agree with
  | ok left notLonger => exact (behind _ _ _ (by omega) left).mono notLonger
  | error left => exact .error left

/-- Behind a reader that takes a token, fewer are left. -/
theorem Blind.andThen_shorter {first : Reader β} {next : β → Reader α} (front : Blind (n + 1) first)
    (takes : ∀ ts value rest, first ts = .ok (value, rest) → rest.length < ts.length)
    (behind : ∀ value, Blind n (next value)) : Blind (n + 1) (first.andThen next) := by
  intro ts us shorter alike
  rw [Reader.andThen, Reader.andThen]
  have agree := front ts us shorter alike
  have takes := takes ts
  generalize first ts = answer at agree takes ⊢
  generalize first us = answer' at agree ⊢
  cases agree with
  | ok left notLonger =>
    have fewer := takes _ _ rfl
    exact (behind _ _ _ (by omega) left).mono notLonger
  | error left => exact .error left

theorem Blind.choose {ways : Token → Option (Reader α)} {otherwise : Reader α} (less : k ≤ n + 1)
    (same : ∀ t u, Alike t u → ways t = ways u) (way : ∀ t w, ways t = some w → Blind n w)
    (other : Blind k otherwise) : Blind k (choose ways otherwise) := by
  intro ts us shorter alike
  have others := other ts us shorter alike
  cases alike with
  | nil => exact others
  | @cons t u ts us here behind =>
    rw [Reader.choose, Reader.choose, ← same t u here]
    cases found : ways t with
    | none => exact others
    | some w =>
      rw [List.length_cons] at shorter
      exact (way t w found ts us (by omega) behind).mono (Nat.le_succ _)

theorem Blind.either {test : Token → Bool} {onward : Token → Reader α} {otherwise : Reader α}
    (less : k ≤ n + 1) (same : ∀ t u, Alike t u → test t = test u ∧ onward t = onward u)
    (way : ∀ t, Blind n (onward t)) (other : Blind k otherwise) :
    Blind k (either test onward otherwise) := by
  refine .choose less ?_ ?_ other
  · intro t u alike
    rw [(same t u alike).1, (same t u alike).2]
  · intro t w found
    split at found
    · cases found
      exact way t
    · cases found

theorem Blind.onKeyword {word : String} {onward otherwise : Reader α} (less : k ≤ n + 1)
    (way : Blind n onward) (other : Blind k otherwise) :
    Blind k (Reader.either (·.isKeyword word) (fun _ => onward) otherwise) :=
  .either less (fun _ _ alike => ⟨isKeyword_alike alike word, rfl⟩) (fun _ => way) other

theorem Blind.onOperator {symbol : String} {onward otherwise : Reader α} (less : k ≤ n + 1)
    (way : Blind n onward) (other : Blind k otherwise) :
    Blind k (Reader.either (·.isOperator symbol) (fun _ => onward) otherwise) :=
  .either less (fun _ _ alike => ⟨isOperator_alike alike symbol, rfl⟩) (fun _ => way) other

theorem Blind.peek {test : List Token → Bool} {yes no : Reader α}
    (same : ∀ ts us, List.Forall₂ Alike ts us → test ts = test us)
    (yesBlind : Blind n yes) (noBlind : Blind n no) : Blind n (peek test yes no) := by
  intro ts us shorter alike
  rw [Reader.peek, Reader.peek, ← same ts us alike]
  split
  · exact yesBlind ts us shorter alike
  · exact noBlind ts us shorter alike

theorem need_andThen {test : Token → Bool} {misread : Misread} {next : Token → Reader α} :
    (need test misread).andThen next = Reader.either test next (refuse misread) := by
  funext ts
  apply eq_either
  · rintro t rest rfl passes
    rw [Reader.andThen, need, either_pos passes]
    rfl
  · intro fails
    rw [Reader.andThen, need, either_neg fails]
    rfl

theorem Blind.pastKeyword {word : String} {misread : Misread} {next : Reader α}
    (behind : Blind n next) :
    Blind n ((of (keyword word misread)).andThen fun _ => next) := by
  rw [of_keyword, need_andThen]
  exact .onKeyword (Nat.le_succ n) behind blind_refuse

theorem Blind.pastOperator {symbol : String} {misread : Misread} {next : Reader α}
    (behind : Blind n next) :
    Blind n ((of (operator symbol misread)).andThen fun _ => next) := by
  rw [of_operator, need_andThen]
  exact .onOperator (Nat.le_succ n) behind blind_refuse

theorem blind_name (misread : Misread) : Blind n (of (name misread)) := by
  rw [of_name, need_andThen]
  refine .either (Nat.le_succ n) ?_ (fun _ => blind_give) blind_refuse
  intro t u alike
  rw [alike.1, alike.2]
  exact ⟨rfl, rfl⟩

theorem blind_ascription : Blind n (of ascription) := by
  rw [of_ascription]
  exact .onOperator (Nat.le_succ n) ((blind_name _).andThen fun _ => blind_give) blind_give

end Parts

section Expressions

theorem blind_chain {tier : Nat} (operand : Blind n (of (binary tier))) (left : Expr) :
    Blind n (of (chain tier left)) := by
  induction n generalizing left with
  | zero => exact blind_zero
  | succ n ih =>
    have operand := operand.of_le (Nat.le_succ n)
    rw [of_chain]
    refine .choose (Nat.le_refl _) ?_ ?_ blind_give
    · intro t u alike
      rw [tierOperator?_alike alike]
    · intro t w found
      obtain ⟨op, _, rfl⟩ := Option.map_eq_some_iff.mp found
      exact operand.andThen fun right => ih operand (.binary op left right none)

theorem blind_arguments (closing : String) (value : Blind n (of expression)) :
    Blind n (of (arguments closing)) := by
  induction n with
  | zero => exact blind_zero
  | succ n ih =>
    have others := ih (value.of_le (Nat.le_succ n))
    rw [of_arguments]
    refine .peek (fun _ _ => startsExpression_alike) (value.andThen fun first => ?_) blind_refuse
    exact .onOperator (Nat.le_refl _)
      (.peek (fun _ _ => startsWithOperator_alike closing) blind_refuse
        (others.andThen fun _ => blind_give))
      blind_give

theorem blind_named (name : String) (value : Blind n (of expression)) :
    Blind n (of (named name)) := by
  rw [of_named]
  refine .onOperator (Nat.le_succ n) (.onOperator (Nat.le_succ n) blind_give ?_)
    (.onOperator (Nat.le_succ n) ?_ blind_give)
  · exact (blind_arguments ")" value).andThen fun _ => .pastOperator blind_give
  · exact value.andThen fun _ => .pastOperator blind_give

theorem primaryWays_alike {t u : Token} (alike : Alike t u) : primaryWays t = primaryWays u := by
  rw [primaryWays, primaryWays, literal?_alike alike, isOperator_alike alike, alike.1, alike.2]

theorem blind_primary (value : Blind n (of expression)) : Blind (n + 1) (of primary) := by
  rw [of_primary]
  refine .choose (Nat.le_refl _) (fun _ _ => primaryWays_alike) ?_ blind_refuse
  intro t w found
  rw [primaryWays] at found
  split at found
  · cases found
    exact blind_give
  · cases found
    exact blind_refuse
  · split at found
    · cases found
      exact blind_named t.literal value
    · split at found
      · cases found
        exact value.andThen fun _ => .pastOperator blind_give
      · cases found

theorem blind_binary (operand : Blind n (of primary)) (tiers : Nat) :
    Blind n (of (binary tiers)) := by
  induction tiers with
  | zero =>
    rw [of_binary_zero]
    exact operand
  | succ tier ih =>
    rw [of_binary_succ]
    exact ih.andThen fun left => blind_chain ih left

theorem blind_expression (n : Nat) : Blind n (of expression) := by
  induction n with
  | zero => exact blind_zero
  | succ n ih =>
    rw [of_expression]
    exact blind_binary (blind_primary ih) Operator.tiers

theorem blind_requiredExpression (misread : Misread) :
    Blind n (of (requiredExpression misread)) := by
  rw [of_requiredExpression]
  exact .peek (fun _ _ => startsExpression_alike) (blind_expression n) blind_refuse

end Expressions

section Statements

theorem blind_initializer : Blind n (of initializer) := by
  rw [of_initializer]
  exact .onOperator (Nat.le_succ n)
    ((blind_requiredExpression _).andThen fun _ => blind_give) blind_give

theorem blind_declaration : Blind n (of declaration) := by
  rw [of_declaration]
  exact (blind_name _).andThen fun _ => blind_ascription.andThen fun _ =>
    blind_initializer.andThen fun _ => .pastOperator blind_give

theorem blind_result : Blind n (of result) := by
  rw [of_result]
  exact (blind_requiredExpression _).andThen fun _ => .pastOperator blind_give

theorem blind_plainStatement : Blind n (of plainStatement) := by
  rw [of_plainStatement]
  exact (blind_expression n).andThen fun _ => blind_initializer.andThen fun _ =>
    .pastOperator blind_give

structure StatementsBlind (n : Nat) : Prop where
  statement : Blind n (of statement)
  block : ∀ words, Blind n (of (block words))
  cases : Blind n (of cases)

variable (below : StatementsBlind n)

include below

theorem blind_alternative : Blind n (of alternative) := by
  rw [of_alternative]
  exact .onKeyword (Nat.le_succ n) (below.block _) blind_give

theorem blind_statement : Blind (n + 1) (of statement) := by
  rw [of_statement]
  refine .onKeyword (Nat.le_refl _) blind_declaration (.onKeyword (Nat.le_refl _) ?switch
    (.onKeyword (Nat.le_refl _) ?branch (.onKeyword (Nat.le_refl _) ?loop
      (.onKeyword (Nat.le_refl _) blind_result blind_plainStatement))))
  case switch =>
    exact (blind_expression n).andThen fun _ => below.cases.andThen fun _ => blind_give
  case branch =>
    exact (blind_expression n).andThen fun _ => .pastKeyword ((below.block _).andThen fun _ =>
      (blind_alternative below).andThen fun _ => .pastKeyword blind_give)
  case loop =>
    exact (blind_expression n).andThen fun _ => .pastKeyword ((below.block _).andThen fun _ =>
      .pastKeyword blind_give)

theorem blind_block (words : List String) : Blind (n + 1) (of (block words)) := by
  rw [of_block]
  refine .peek (fun _ _ => isEmpty_alike) blind_refuse
    (.peek (fun _ _ => any_startsWithKeyword_alike words) blind_give ?_)
  exact (blind_statement below).andThen_shorter (fun _ _ _ read => (of_eq_ok.mp read).1)
    fun _ => (below.block words).andThen fun _ => blind_give

theorem blind_cases : Blind (n + 1) (of cases) := by
  rw [of_cases]
  refine .onKeyword (Nat.le_refl _) ?_ (.onKeyword (Nat.le_refl _) ?_
    (.peek (fun _ _ => isEmpty_alike) blind_refuse blind_refuse))
  · exact (blind_expression n).andThen fun _ => .pastOperator ((below.block _).andThen fun _ =>
      below.cases.andThen fun _ => blind_give)
  · exact (below.block _).andThen fun _ => .pastKeyword blind_give

omit below

theorem statementsBlind (n : Nat) : StatementsBlind n := by
  induction n with
  | zero => exact ⟨blind_zero, fun _ => blind_zero, blind_zero⟩
  | succ n ih => exact ⟨blind_statement ih, blind_block ih, blind_cases ih⟩

end Statements

section Programs

theorem blind_listGlobal : Blind n (of listGlobal) := by
  rw [of_listGlobal]
  refine (blind_name _).andThen fun _ => blind_ascription.andThen fun _ => ?_
  refine .pastOperator (.pastOperator
    (.peek (fun _ _ => startsWithOperator_alike "]") blind_refuse ?_))
  exact (blind_arguments "]" (blind_expression n)).andThen fun _ => .pastOperator blind_give

theorem blind_mutableGlobal : Blind n (of mutableGlobal) := by
  rw [of_mutableGlobal]
  exact (blind_name _).andThen fun _ => blind_ascription.andThen fun _ =>
    blind_initializer.andThen fun _ => blind_give

theorem blind_immutableGlobal : Blind n (of immutableGlobal) := by
  rw [of_immutableGlobal]
  exact (blind_name _).andThen fun _ => blind_ascription.andThen fun _ =>
    .pastOperator ((blind_requiredExpression _).andThen fun _ => blind_give)

theorem blind_global : Blind n (of global) := by
  have head : Blind n (of globalHead) := by
    rw [of_globalHead]
    exact .onKeyword (Nat.le_succ n) blind_listGlobal
      (.onKeyword (Nat.le_succ n) blind_mutableGlobal
        (.onKeyword (Nat.le_succ n) blind_immutableGlobal blind_refuse))
  rw [of_global]
  exact head.andThen fun _ => .pastOperator blind_give

theorem blind_parameters : Blind n (of parameters) := by
  induction n with
  | zero => exact blind_zero
  | succ n ih =>
    rw [of_parameters]
    refine (blind_name _).andThen fun _ => blind_ascription.andThen fun _ => ?_
    exact .onOperator (Nat.le_refl _)
      (.peek (fun _ _ => startsWithOperator_alike ")") blind_refuse
        (ih.andThen fun _ => blind_give))
      blind_give

theorem blind_optionalParameters : Blind n (of optionalParameters) := by
  rw [of_optionalParameters]
  exact .peek (fun _ _ => startsWithOperator_alike ")") blind_give blind_parameters

theorem blind_function : Blind n (of function) := by
  rw [of_function]
  refine .pastKeyword ((blind_name _).andThen fun _ => .pastOperator ?_)
  refine blind_optionalParameters.andThen fun _ => .pastOperator ?_
  refine blind_ascription.andThen fun _ => .pastKeyword ?_
  exact ((statementsBlind n).block _).andThen fun _ => .pastKeyword blind_give

theorem blind_definitions (functionSeen : Bool) : Blind n (definitionsReader functionSeen) := by
  induction n generalizing functionSeen with
  | zero => exact blind_zero
  | succ n ih =>
    rw [definitionsReader_eq]
    refine .peek (fun _ _ => isEmpty_alike) blind_give
      (.peek (fun _ _ => startsGlobal_alike) ?_
        (.peek (fun _ _ => startsWithKeyword_alike "FUN") ?_ blind_refuse))
    · cases functionSeen with
      | true => exact blind_refuse
      | false =>
        exact blind_global.andThen_shorter (fun _ _ _ read => (of_eq_ok.mp read).1)
          fun _ => (ih false).andThen fun _ => blind_give
    · exact blind_function.andThen_shorter (fun _ _ _ read => (of_eq_ok.mp read).1)
        fun _ => (ih true).andThen fun _ => blind_give

end Programs

end Plc.Reading
