import Plc.Proofs.Reading.Reader

/-! What each reader is put together from. -/
namespace Plc.Reading

open Reader

theorem of_expression : of expression = of (binary Operator.tiers) := by
  funext ts
  rw [of, expression, of]

theorem of_binary_zero : of (binary 0) = of primary := by
  funext ts
  rw [of, binary, of]

theorem of_binary_succ (tier : Nat) : of (binary (tier + 1)) =
    (of (binary tier)).andThen fun left => of (chain tier left) := by
  funext ts
  rw [of, binary]
  exact plain_bind rfl fun _ => plain_bind_same fun _ => rfl

theorem of_chain (tier : Nat) (left : Expr) : of (chain tier left) =
    choose
      (fun t => (tierOperator? tier t).map fun op =>
        (of (binary tier)).andThen fun right => of (chain tier (.binary op left right none)))
      (give left) := by
  funext ts
  apply eq_choose
  · rintro t rest way rfl found
    obtain ⟨op, here, rfl⟩ := Option.map_eq_some_iff.mp found
    rw [of, chain, binaryOperator?, here]
    exact plain_bind rfl fun _ => plain_bind_same fun _ => rfl
  · intro none
    have absent : binaryOperator? tier ts = Option.none := by
      cases ts with
      | nil => rfl
      | cons t rest =>
        rw [binaryOperator?, Option.map_eq_none_iff.mp none]
        rfl
    rw [of, chain, absent]
    rfl

theorem of_arguments (closing : String) : of (arguments closing) =
    peek startsExpression
      ((of expression).andThen fun first =>
        either (·.isOperator ",")
          (fun _ => peek (startsWithOperator closing) (refuse .trailingComma)
            ((of (arguments closing)).andThen fun others => give (first :: others)))
          (give [first]))
      (refuse .invalidArgument) := by
  funext ts
  rw [of, arguments, peek]
  split
  · refine plain_bind rfl ?_
    rintro ⟨first, rest, _⟩
    apply eq_either
    · rintro t rest rfl comma
      simp only [operator?_pos comma, peek]
      split
      · rfl
      · exact plain_bind rfl fun _ => rfl
    · intro noComma
      simp only [operator?_neg noComma]
      rfl
  · rfl

theorem of_named (name : String) : of (named name) =
    either (·.isOperator "(")
      (fun _ => either (·.isOperator ")") (fun _ => give (.call name [] none))
        ((of (arguments ")")).andThen fun arguments =>
          (of (operator ")" .missingCloseParenthesis)).andThen fun _ =>
            give (.call name arguments none)))
      (either (·.isOperator "[")
        (fun _ => (of expression).andThen fun offset =>
          (of (operator "]" .missingCloseBracket)).andThen fun _ =>
            give (.element name offset none))
        (give (.access name none))) := by
  funext ts
  apply eq_either
  · rintro t rest rfl opened
    rw [of, named, operator?_pos opened]
    dsimp only
    apply eq_either
    · rintro u rest rfl closed
      simp only [operator?_pos closed]
      rfl
    · intro open_
      simp only [operator?_neg open_]
      exact plain_bind rfl fun _ => plain_bind rfl fun _ => rfl
  · intro noCall
    rw [of, named, operator?_neg noCall]
    apply eq_either
    · rintro t rest rfl opened
      simp only [operator?_pos opened]
      exact plain_bind rfl fun _ => plain_bind rfl fun _ => rfl
    · intro noOffset
      simp only [operator?_neg noOffset]
      rfl

def primaryWays (t : Token) : Option (Reader Expr) :=
  match literal? t with
  | some (.ok value) => some (give (.literal value none))
  | some (.error misread) => some (refuse misread)
  | none =>
    if t.kind = .identifier then some (of (named t.literal))
    else if t.isOperator "(" then
      some ((of expression).andThen fun inner =>
        (of (operator ")" .missingCloseParenthesis)).andThen fun _ => give (.group inner none))
    else none

theorem of_primary : of primary = choose primaryWays (refuse .invalidExpression) := by
  funext ts
  cases ts with
  | nil =>
    rw [of, primary]
    rfl
  | cons t rest =>
    rw [of, primary, choose, primaryWays]
    rcases literal? t with _ | ⟨misread | value⟩
    · dsimp only
      split
      · exact plain_bind_same fun _ => rfl
      · split
        · exact plain_bind rfl fun _ => plain_bind rfl fun _ => rfl
        · rfl
    · rfl
    · rfl

theorem of_requiredExpression (misread : Misread) : of (requiredExpression misread) =
    peek startsExpression (of expression) (refuse misread) := by
  funext ts
  rw [of, requiredExpression, peek]
  split <;> rfl

theorem of_initializer : of initializer =
    either (·.isOperator "=")
      (fun _ => (of (requiredExpression .missingAssignedValue)).andThen fun e => give (some e))
      (give none) := by
  funext ts
  apply eq_either
  · rintro t rest rfl equals
    rw [of, initializer, operator?_pos equals]
    exact plain_bind rfl fun _ => rfl
  · intro noEquals
    rw [of, initializer, operator?_neg noEquals]
    rfl

theorem of_declaration : of declaration =
    (of (name .invalidIdentifier)).andThen fun name =>
      (of ascription).andThen fun typeName =>
        (of initializer).andThen fun value =>
          (of (operator ";" .missingSemicolon)).andThen fun _ =>
            give (.declare name typeName value none) := by
  funext ts
  exact plain_bind rfl fun _ => plain_bind rfl fun _ => plain_bind rfl fun _ =>
    plain_bind rfl fun _ => rfl

theorem of_result : of result =
    (of (requiredExpression .missingResult)).andThen fun value =>
      (of (operator ";" .missingSemicolon)).andThen fun _ => give (.ret value) := by
  funext ts
  exact plain_bind rfl fun _ => plain_bind rfl fun _ => rfl

def assignment (first : Expr) : Option Expr → Stmt
  | some value => .assign first value
  | none => .expression first

theorem of_plainStatement : of plainStatement =
    (of expression).andThen fun first =>
      (of initializer).andThen fun value =>
        (of (operator ";" .missingSemicolon)).andThen fun _ => give (assignment first value) := by
  funext ts
  refine plain_bind rfl fun _ => plain_bind rfl ?_
  rintro ⟨value, rest, _⟩
  refine plain_bind rfl fun _ => ?_
  cases value <;> rfl

theorem of_alternative : of alternative =
    either (·.isKeyword "ELSE") (fun _ => of (block ["END"])) (give []) := by
  funext ts
  apply eq_either
  · rintro t rest rfl word
    rw [of, alternative, keyword?_pos word]
    exact plain_bind_same fun _ => rfl
  · intro noWord
    rw [of, alternative, keyword?_neg noWord]
    rfl

theorem of_block (terminators : List String) : of (block terminators) =
    peek (·.isEmpty) (refuse .missingEnd)
      (peek (fun ts => terminators.any fun word => startsWithKeyword word ts) (give [])
        ((of statement).andThen fun first =>
          (of (block terminators)).andThen fun others => give (first :: others))) := by
  funext ts
  rw [of, block, peek]
  split
  · rfl
  · rw [peek]
    split
    · rfl
    · exact plain_bind rfl fun _ => plain_bind rfl fun _ => rfl

theorem of_cases : of cases =
    either (·.isKeyword "CASE")
      (fun _ => (of expression).andThen fun value =>
        (of (operator ":" .missingColon)).andThen fun _ =>
          (of (block ["CASE", "DEFAULT", "END"])).andThen fun body =>
            (of cases).andThen fun others => give (.on value body :: others))
      (either (·.isKeyword "DEFAULT")
        (fun _ => (of (block ["CASE", "DEFAULT", "END"])).andThen fun body =>
          (of (keyword "END" .defaultNotLast)).andThen fun _ => give [.default body])
        (peek (·.isEmpty) (refuse .missingEnd) (refuse .missingDefault))) := by
  funext ts
  apply eq_either
  · rintro t rest rfl word
    rw [of, Reading.cases, keyword?_pos word]
    exact plain_bind rfl fun _ => plain_bind rfl fun _ => plain_bind rfl fun _ =>
      plain_bind rfl fun _ => rfl
  · intro noCase
    rw [of, Reading.cases, keyword?_neg noCase]
    apply eq_either
    · rintro t rest rfl word
      simp only [keyword?_pos word]
      exact plain_bind rfl fun _ => plain_bind rfl fun _ => rfl
    · intro noDefault
      simp only [keyword?_neg noDefault, peek]
      split <;> rfl

theorem of_statement : of statement =
    either (·.isKeyword "LET") (fun _ => of declaration)
      (either (·.isKeyword "SWITCH")
        (fun _ => (of expression).andThen fun condition =>
          (of cases).andThen fun cases => give (.switch condition cases))
        (either (·.isKeyword "IF")
          (fun _ => (of expression).andThen fun condition =>
            (of (keyword "DO" .missingDo)).andThen fun _ =>
              (of (block ["ELSE", "END"])).andThen fun thenBody =>
                (of alternative).andThen fun elseBody =>
                  (of (keyword "END" .missingEnd)).andThen fun _ =>
                    give (.branch condition thenBody elseBody))
          (either (·.isKeyword "WHILE")
            (fun _ => (of expression).andThen fun condition =>
              (of (keyword "DO" .missingDo)).andThen fun _ =>
                (of (block ["END"])).andThen fun body =>
                  (of (keyword "END" .missingEnd)).andThen fun _ => give (.loop condition body))
            (either (·.isKeyword "RETURN") (fun _ => of result) (of plainStatement))))) := by
  funext ts
  apply eq_either
  · rintro t rest rfl word
    rw [of, statement, keyword?_pos word]
    exact plain_bind_same fun _ => rfl
  · intro noLet
    rw [of, statement, keyword?_neg noLet]
    apply eq_either
    · rintro t rest rfl word
      simp only [keyword?_pos word]
      exact plain_bind rfl fun _ => plain_bind rfl fun _ => rfl
    · intro noSwitch
      simp only [keyword?_neg noSwitch]
      apply eq_either
      · rintro t rest rfl word
        simp only [keyword?_pos word]
        exact plain_bind rfl fun _ => plain_bind rfl fun _ => plain_bind rfl fun _ =>
          plain_bind rfl fun _ => plain_bind rfl fun _ => rfl
      · intro noIf
        simp only [keyword?_neg noIf]
        apply eq_either
        · rintro t rest rfl word
          simp only [keyword?_pos word]
          exact plain_bind rfl fun _ => plain_bind rfl fun _ => plain_bind rfl fun _ =>
            plain_bind rfl fun _ => rfl
        · intro noWhile
          simp only [keyword?_neg noWhile]
          apply eq_either
          · rintro t rest rfl word
            simp only [keyword?_pos word]
            exact plain_bind_same fun _ => rfl
          · intro noReturn
            simp only [keyword?_neg noReturn]
            rfl

theorem of_listGlobal : of listGlobal =
    (of (name .invalidIdentifier)).andThen fun name =>
      (of ascription).andThen fun typeName =>
        (of (operator "=" .missingEquals)).andThen fun _ =>
          (of (operator "[" .missingOpenBracket)).andThen fun _ =>
            peek (startsWithOperator "]") (refuse .missingElement)
              ((of (arguments "]")).andThen fun elements =>
                (of (operator "]" .missingCloseBracket)).andThen fun _ =>
                  give ⟨name, typeName, true, some (.list elements none), none⟩) := by
  funext ts
  refine plain_bind rfl fun _ => plain_bind rfl fun _ => plain_bind rfl fun _ =>
    plain_bind rfl fun _ => ?_
  rw [peek]
  dsimp only
  split
  · rfl
  · exact plain_bind rfl fun _ => plain_bind rfl fun _ => rfl

theorem of_mutableGlobal : of mutableGlobal =
    (of (name .invalidIdentifier)).andThen fun name =>
      (of ascription).andThen fun typeName =>
        (of initializer).andThen fun value => give ⟨name, typeName, true, value, none⟩ := by
  funext ts
  exact plain_bind rfl fun _ => plain_bind rfl fun _ => plain_bind rfl fun _ => rfl

theorem of_immutableGlobal : of immutableGlobal =
    (of (name .invalidIdentifier)).andThen fun name =>
      (of ascription).andThen fun typeName =>
        (of (operator "=" .missingEquals)).andThen fun _ =>
          (of (requiredExpression .missingAssignedValue)).andThen fun value =>
            give ⟨name, typeName, false, some value, none⟩ := by
  funext ts
  exact plain_bind rfl fun _ => plain_bind rfl fun _ => plain_bind rfl fun _ =>
    plain_bind rfl fun _ => rfl

theorem of_globalHead : of globalHead =
    either (·.isKeyword "LIST") (fun _ => of listGlobal)
      (either (·.isKeyword "VAR") (fun _ => of mutableGlobal)
        (either (·.isKeyword "VAL") (fun _ => of immutableGlobal) (refuse .expectedGlobal))) := by
  funext ts
  apply eq_either
  · rintro t rest rfl word
    rw [of, globalHead, keyword?_pos word]
    exact plain_bind_same fun _ => rfl
  · intro noList
    rw [of, globalHead, keyword?_neg noList]
    apply eq_either
    · rintro t rest rfl word
      simp only [keyword?_pos word]
      exact plain_bind_same fun _ => rfl
    · intro noVar
      simp only [keyword?_neg noVar]
      apply eq_either
      · rintro t rest rfl word
        simp only [keyword?_pos word]
        exact plain_bind_same fun _ => rfl
      · intro noVal
        simp only [keyword?_neg noVal]
        rfl

theorem of_global : of global =
    (of globalHead).andThen fun g =>
      (of (operator ";" .missingSemicolon)).andThen fun _ => give g := by
  funext ts
  exact plain_bind rfl fun _ => plain_bind rfl fun _ => rfl

theorem of_parameters : of parameters =
    (of (name .invalidParameter)).andThen fun first =>
      (of ascription).andThen fun typeName =>
        either (·.isOperator ",")
          (fun _ => peek (startsWithOperator ")") (refuse .trailingComma)
            ((of parameters).andThen fun others =>
              give ((first, typeName.getD Ty.any.name) :: others)))
          (give [(first, typeName.getD Ty.any.name)]) := by
  funext ts
  rw [of, parameters]
  refine plain_bind rfl fun _ => plain_bind rfl ?_
  rintro ⟨typeName, rest, _⟩
  apply eq_either
  · rintro t rest rfl comma
    simp only [operator?_pos comma, peek]
    split
    · rfl
    · exact plain_bind rfl fun _ => rfl
  · intro noComma
    simp only [operator?_neg noComma]
    rfl

theorem of_optionalParameters : of optionalParameters =
    peek (startsWithOperator ")") (give []) (of parameters) := by
  funext ts
  rw [of, optionalParameters, peek]
  split
  · rfl
  · exact plain_bind_same fun _ => rfl

theorem of_function : of function =
    (of (keyword "FUN" .expectedFunction)).andThen fun _ =>
      (of (name .invalidIdentifier)).andThen fun name =>
        (of (operator "(" .missingOpenParenthesis)).andThen fun _ =>
          (of optionalParameters).andThen fun ps =>
            (of (operator ")" .missingCloseParenthesis)).andThen fun _ =>
              (of ascription).andThen fun resultName =>
                (of (keyword "DO" .missingDo)).andThen fun _ =>
                  (of (block ["END"])).andThen fun body =>
                    (of (keyword "END" .missingEnd)).andThen fun _ =>
                      give ⟨name, ps.map (·.1), ps.map (·.2), resultName, body, none⟩ := by
  funext ts
  exact plain_bind rfl fun _ => plain_bind rfl fun _ => plain_bind rfl fun _ =>
    plain_bind rfl fun _ => plain_bind rfl fun _ => plain_bind rfl fun _ =>
    plain_bind rfl fun _ => plain_bind rfl fun _ => plain_bind rfl fun _ => rfl

def definitionsReader (functionSeen : Bool) : Reader Program := fun ts =>
  (definitions functionSeen ts).map fun p => (p, [])

theorem map_definitions {α : Type} {n : Nat} {ts : List Token}
    {answer : Except Halt (Read α n)} {first : Reader α} (here : plain answer = first ts)
    (functionSeen : Bool) (extend : α → Program → Program) :
    (answer >>= fun r => definitions functionSeen r.rest >>= fun others =>
      pure (extend r.value others)).map (fun p => (p, ([] : List Token))) =
    (first.andThen fun value => (definitionsReader functionSeen).andThen fun others =>
      give (extend value others)) ts := by
  rw [andThen, ← here]
  cases answer with
  | error halt => rfl
  | ok r =>
    show (definitions functionSeen r.rest >>= fun others => _).map _ =
      (definitionsReader functionSeen).andThen _ r.rest
    rw [andThen, definitionsReader]
    cases definitions functionSeen r.rest <;> rfl

theorem definitionsReader_eq (functionSeen : Bool) : definitionsReader functionSeen =
    peek (·.isEmpty) (give ⟨[], []⟩)
      (peek startsGlobal
        (if functionSeen then refuse .functionBeforeGlobal
        else (of global).andThen fun g =>
          (definitionsReader false).andThen fun others =>
            give { others with globals := g :: others.globals })
        (peek (startsWithKeyword "FUN")
          ((of function).andThen fun f =>
            (definitionsReader true).andThen fun others =>
              give { others with functions := f :: others.functions })
          (refuse .expectedDefinition))) := by
  funext ts
  rw [definitionsReader, definitions, peek]
  split
  · rename_i empty
    rw [List.isEmpty_iff.mp empty]
    rfl
  · rw [peek]
    split
    · cases functionSeen with
      | true => rfl
      | false =>
        exact map_definitions rfl false fun (g : Global) others =>
          { others with globals := g :: others.globals }
    · rw [peek]
      split
      · exact map_definitions rfl true fun (f : Function) others =>
          { others with functions := f :: others.functions }
      · rfl

end Plc.Reading
