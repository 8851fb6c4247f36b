import Plc.Decimal.Text
import Plc.Numeral
import Plc.Quoted
import Plc.Token
import Plc.Tree

/-! Reading phrases from tokens. A reader takes the tokens that are left and gives a value with
the tokens behind it, together with the fact that they are fewer; so readers can call each other
without end being in doubt. -/
namespace Plc

inductive Misread where
  | functionBeforeGlobal
  | expectedDefinition
  | expectedGlobal
  | expectedFunction
  | invalidIdentifier
  | invalidParameter
  | invalidType
  | invalidArgument
  | invalidExpression
  | invalidInteger
  | invalidDecimal
  | invalidCharacter
  | missingEquals
  | missingOpenBracket
  | missingCloseBracket
  | missingOpenParenthesis
  | missingCloseParenthesis
  | missingColon
  | missingSemicolon
  | missingElement
  | missingAssignedValue
  | missingResult
  | missingDo
  | missingEnd
  | missingDefault
  | trailingComma
  | defaultNotLast
deriving DecidableEq

def Misread.message : Misread → String
  | functionBeforeGlobal => "Function Before Global"
  | expectedDefinition => "Expected global or function"
  | expectedGlobal => "Expected global"
  | expectedFunction => "Expected function"
  | invalidIdentifier => "Invalid identifier"
  | invalidParameter => "Invalid argument"
  | invalidType => "Invalid type"
  | invalidArgument => "Invalid Arg"
  | invalidExpression => "Invalid expression"
  | invalidInteger => "Invalid integer literal"
  | invalidDecimal => "Invalid decimal literal"
  | invalidCharacter => "Invalid character literal"
  | missingEquals => "Missing ="
  | missingOpenBracket => "Missing ["
  | missingCloseBracket => "Missing ]"
  | missingOpenParenthesis => "Missing ("
  | missingCloseParenthesis => "Missing )"
  | missingColon => "Missing :"
  | missingSemicolon => "Missing semicolon"
  | missingElement => "Missing Arg"
  | missingAssignedValue => "Missing Assign Value"
  | missingResult => "Missing Value"
  | missingDo => "Missing DO"
  | missingEnd => "Missing END"
  | missingDefault => "Missing Default Case"
  | trailingComma => "Trailing comma"
  | defaultNotLast => "Default Case Must Be Last"

namespace Reading

/-- Where reading came to a halt: the first of `rest` is the token that was not taken. -/
structure Halt where
  misread : Misread
  rest : List Token
deriving DecidableEq

/-- A value that was read, and fewer than `bound` tokens behind it. -/
structure Read (α : Type) (bound : Nat) where
  value : α
  rest : List Token
  shorter : rest.length < bound

/-- What a reader of a phrase answers: some tokens are always taken. -/
abbrev Reads (α : Type) (ts : List Token) : Type := Except Halt (Read α ts.length)

/-- What a reader answers that may also take no token. -/
abbrev MayRead (α : Type) (ts : List Token) : Type := Except Halt (Read α (ts.length + 1))

def startsWithKeyword (word : String) (ts : List Token) : Bool :=
  ts.head?.any (·.isKeyword word)

def startsWithOperator (symbol : String) (ts : List Token) : Bool :=
  ts.head?.any (·.isOperator symbol)

def token? (test : Token → Bool) : (ts : List Token) → Option (Read Token ts.length)
  | [] => none
  | t :: rest => if test t then some ⟨t, rest, Nat.lt_succ_self _⟩ else none

def keyword? (word : String) (ts : List Token) : Option (Read Token ts.length) :=
  token? (·.isKeyword word) ts

def operator? (symbol : String) (ts : List Token) : Option (Read Token ts.length) :=
  token? (·.isOperator symbol) ts

def require {n : Nat} (misread : Misread) (ts : List Token) :
    Option (Read Token n) → Except Halt (Read Token n)
  | some read => .ok read
  | none => .error ⟨misread, ts⟩

def keyword (word : String) (misread : Misread) (ts : List Token) : Reads Token ts :=
  require misread ts (keyword? word ts)

def operator (symbol : String) (misread : Misread) (ts : List Token) : Reads Token ts :=
  require misread ts (operator? symbol ts)

/-- Any identifier may stand where a name is expected, a keyword too. -/
def name (misread : Misread) (ts : List Token) : Reads String ts := do
  let ⟨t, rest, h⟩ ← require misread ts (token? (·.kind == .identifier) ts)
  return ⟨t.literal, rest, h⟩

def ascription (ts : List Token) : MayRead (Option String) ts :=
  if let some ⟨_, rest, _⟩ := operator? ":" ts then do
    let ⟨typeName, rest, _⟩ ← name .invalidType rest
    return ⟨some typeName, rest, by omega⟩
  else return ⟨none, ts, by omega⟩

end Reading
end Plc

/-! Reading expressions: operands joined by the operators of a tier, tier inside tier, down to
literals, names, calls and groups. -/
namespace Plc.Reading

def character? (text : List Char) : Option Char :=
  match Quoted.decode (Quoted.inside text) with
  | [c] => some c
  | _ => none

/-- The literal that a token stands for, or why it stands for none. Only names and operators are
not meant as literals. -/
def literal? (t : Token) : Option (Except Misread Literal) :=
  let text := t.literal.toList
  match t.kind with
  | .identifier =>
    if t.literal = "NIL" then some (.ok .nil)
    else if t.literal = "TRUE" then some (.ok (.boolean true))
    else if t.literal = "FALSE" then some (.ok (.boolean false))
    else none
  | .integer =>
    match Numeral.integer? text with
    | some value => some (.ok (.integer value))
    | none => some (.error .invalidInteger)
  | .decimal =>
    match Decimal.ofText? text with
    | some value => some (.ok (.decimal value))
    | none => some (.error .invalidDecimal)
  | .character =>
    match character? text with
    | some value => some (.ok (.character value))
    | none => some (.error .invalidCharacter)
  | .string => some (.ok (.string (String.ofList (Quoted.decode (Quoted.inside text)))))
  | .operator => none

def tierOperator? (tier : Nat) (t : Token) : Option Operator :=
  if t.kind = .operator then
    (Operator.ofSymbol? t.literal).filter fun op => op.looseness == tier
  else none

def binaryOperator? (tier : Nat) : (ts : List Token) → Option (Read Operator ts.length)
  | [] => none
  | t :: rest => (tierOperator? tier t).map fun op => ⟨op, rest, Nat.lt_succ_self _⟩

def startsExpression : List Token → Bool
  | [] => false
  | t :: _ => t.kind != .operator || t.literal == "("

mutual

def expression (ts : List Token) : Reads Expr ts := binary Operator.tiers ts
termination_by 8 * ts.length + 6
decreasing_by simp [Operator.tiers]

def primary : (ts : List Token) → Reads Expr ts
  | [] => .error ⟨.invalidExpression, []⟩
  | t :: ts =>
    match literal? t with
    | some (.ok value) => .ok ⟨.literal value none, ts, Nat.lt_succ_self _⟩
    | some (.error misread) => .error ⟨misread, ts⟩
    | none =>
      if t.kind = .identifier then do
        let ⟨e, rest, _⟩ ← named t.literal ts
        return ⟨e, rest, by simp only [List.length_cons]; omega⟩
      else if t.isOperator "(" then do
        let ⟨inner, rest, _⟩ ← expression ts
        let ⟨_, rest, _⟩ ← operator ")" .missingCloseParenthesis rest
        return ⟨.group inner none, rest, by simp only [List.length_cons]; omega⟩
      else .error ⟨.invalidExpression, t :: ts⟩
termination_by ts => 8 * ts.length

def named (name : String) (ts : List Token) : MayRead Expr ts :=
  if let some ⟨_, rest, _⟩ := operator? "(" ts then
    if let some ⟨_, rest, _⟩ := operator? ")" rest then
      return ⟨.call name [] none, rest, by omega⟩
    else do
      let ⟨arguments, rest, _⟩ ← arguments ")" rest
      let ⟨_, rest, _⟩ ← operator ")" .missingCloseParenthesis rest
      return ⟨.call name arguments none, rest, by omega⟩
  else if let some ⟨_, rest, _⟩ := operator? "[" ts then do
    let ⟨offset, rest, _⟩ ← expression rest
    let ⟨_, rest, _⟩ ← operator "]" .missingCloseBracket rest
    return ⟨.element name offset none, rest, by omega⟩
  else return ⟨.access name none, ts, by omega⟩
termination_by 8 * ts.length

/-- Operands joined by the operators of the tiers below `tiers`. -/
def binary (tiers : Nat) (ts : List Token) : Reads Expr ts :=
  match tiers with
  | 0 => primary ts
  | tier + 1 => do
    let ⟨left, rest, _⟩ ← binary tier ts
    let ⟨e, rest, _⟩ ← chain tier left rest
    return ⟨e, rest, by omega⟩
termination_by 8 * ts.length + 1 + tiers

def chain (tier : Nat) (left : Expr) (ts : List Token) : MayRead Expr ts :=
  if let some ⟨op, rest, _⟩ := binaryOperator? tier ts then do
    let ⟨right, rest, _⟩ ← binary tier rest
    let ⟨e, rest, _⟩ ← chain tier (.binary op left right none) rest
    return ⟨e, rest, by omega⟩
  else return ⟨left, ts, by omega⟩
termination_by 8 * ts.length + 2 + tier

def arguments (closing : String) (ts : List Token) : Reads (List Expr) ts :=
  if startsExpression ts then do
    let ⟨first, rest, _⟩ ← expression ts
    if let some ⟨_, rest, _⟩ := operator? "," rest then
      if startsWithOperator closing rest then .error ⟨.trailingComma, rest⟩
      else do
        let ⟨others, rest, _⟩ ← arguments closing rest
        return ⟨first :: others, rest, by omega⟩
    else return ⟨[first], rest, by omega⟩
  else .error ⟨.invalidArgument, ts⟩
termination_by 8 * ts.length + 7

end

/-- An expression in a place where nothing that cannot begin one is looked at. -/
def requiredExpression (misread : Misread) (ts : List Token) : Reads Expr ts :=
  if startsExpression ts then expression ts else .error ⟨misread, ts⟩

end Plc.Reading

/-! Reading statements. A block ends before the first token that may end it, and whoever asked for
the block takes that token. -/
namespace Plc.Reading

def initializer (ts : List Token) : MayRead (Option Expr) ts :=
  if let some ⟨_, rest, _⟩ := operator? "=" ts then do
    let ⟨value, rest, _⟩ ← requiredExpression .missingAssignedValue rest
    return ⟨some value, rest, by omega⟩
  else return ⟨none, ts, by omega⟩

def declaration (ts : List Token) : Reads Stmt ts := do
  let ⟨name, rest, _⟩ ← name .invalidIdentifier ts
  let ⟨typeName, rest, _⟩ ← ascription rest
  let ⟨value, rest, _⟩ ← initializer rest
  let ⟨_, rest, _⟩ ← operator ";" .missingSemicolon rest
  return ⟨.declare name typeName value none, rest, by omega⟩

def result (ts : List Token) : Reads Stmt ts := do
  let ⟨value, rest, _⟩ ← requiredExpression .missingResult ts
  let ⟨_, rest, _⟩ ← operator ";" .missingSemicolon rest
  return ⟨.ret value, rest, by omega⟩

def plainStatement (ts : List Token) : Reads Stmt ts := do
  let ⟨first, rest, _⟩ ← expression ts
  let ⟨value, rest, _⟩ ← initializer rest
  let ⟨_, rest, _⟩ ← operator ";" .missingSemicolon rest
  match value with
  | some value => return ⟨.assign first value, rest, by omega⟩
  | none => return ⟨.expression first, rest, by omega⟩

mutual

def statement (ts : List Token) : Reads Stmt ts :=
  if let some ⟨_, rest, _⟩ := keyword? "LET" ts then do
    let ⟨s, rest, _⟩ ← declaration rest
    return ⟨s, rest, by omega⟩
  else if let some ⟨_, rest, _⟩ := keyword? "SWITCH" ts then do
    let ⟨condition, rest, _⟩ ← expression rest
    let ⟨cases, rest, _⟩ ← cases rest
    return ⟨.switch condition cases, rest, by omega⟩
  else if let some ⟨_, rest, _⟩ := keyword? "IF" ts then do
    let ⟨condition, rest, _⟩ ← expression rest
    let ⟨_, rest, _⟩ ← keyword "DO" .missingDo rest
    let ⟨thenBody, rest, _⟩ ← block ["ELSE", "END"] rest
    let ⟨elseBody, rest, _⟩ ← alternative rest
    let ⟨_, rest, _⟩ ← keyword "END" .missingEnd rest
    return ⟨.branch condition thenBody elseBody, rest, by omega⟩
  else if let some ⟨_, rest, _⟩ := keyword? "WHILE" ts then do
    let ⟨condition, rest, _⟩ ← expression rest
    let ⟨_, rest, _⟩ ← keyword "DO" .missingDo rest
    let ⟨body, rest, _⟩ ← block ["END"] rest
    let ⟨_, rest, _⟩ ← keyword "END" .missingEnd rest
    return ⟨.loop condition body, rest, by omega⟩
  else if let some ⟨_, rest, _⟩ := keyword? "RETURN" ts then do
    let ⟨s, rest, _⟩ ← result rest
    return ⟨s, rest, by omega⟩
  else plainStatement ts
termination_by 2 * ts.length

def alternative (ts : List Token) : MayRead (List Stmt) ts :=
  if let some ⟨_, rest, _⟩ := keyword? "ELSE" ts then do
    let ⟨body, rest, _⟩ ← block ["END"] rest
    return ⟨body, rest, by omega⟩
  else return ⟨[], ts, by omega⟩
termination_by 2 * ts.length

def block (terminators : List String) (ts : List Token) : MayRead (List Stmt) ts :=
  if ts.isEmpty then .error ⟨.missingEnd, ts⟩
  else if terminators.any fun word => startsWithKeyword word ts then
    return ⟨[], ts, by omega⟩
  else do
    let ⟨first, rest, _⟩ ← statement ts
    let ⟨others, rest, _⟩ ← block terminators rest
    return ⟨first :: others, rest, by omega⟩
termination_by 2 * ts.length + 1

def cases (ts : List Token) : Reads (List Case) ts :=
  if let some ⟨_, rest, _⟩ := keyword? "CASE" ts then do
    let ⟨value, rest, _⟩ ← expression rest
    let ⟨_, rest, _⟩ ← operator ":" .missingColon rest
    let ⟨body, rest, _⟩ ← block ["CASE", "DEFAULT", "END"] rest
    let ⟨others, rest, _⟩ ← cases rest
    return ⟨.on value body :: others, rest, by omega⟩
  else if let some ⟨_, rest, _⟩ := keyword? "DEFAULT" ts then do
    let ⟨body, rest, _⟩ ← block ["CASE", "DEFAULT", "END"] rest
    let ⟨_, rest, _⟩ ← keyword "END" .defaultNotLast rest
    return ⟨[.default body], rest, by omega⟩
  else if ts.isEmpty then .error ⟨.missingEnd, ts⟩
  else .error ⟨.missingDefault, ts⟩
termination_by 2 * ts.length

end

end Plc.Reading

/-! Reading whole programs, and reading several phrases one behind the other. -/
namespace Plc.Reading

def listGlobal (ts : List Token) : Reads Global ts := do
  let ⟨name, rest, _⟩ ← name .invalidIdentifier ts
  let ⟨typeName, rest, _⟩ ← ascription rest
  let ⟨_, rest, _⟩ ← operator "=" .missingEquals rest
  let ⟨_, rest, _⟩ ← operator "[" .missingOpenBracket rest
  if startsWithOperator "]" rest then .error ⟨.missingElement, rest⟩
  else
    let ⟨elements, rest, _⟩ ← arguments "]" rest
    let ⟨_, rest, _⟩ ← operator "]" .missingCloseBracket rest
    return ⟨⟨name, typeName, true, some (.list elements none), none⟩, rest, by omega⟩

def mutableGlobal (ts : List Token) : Reads Global ts := do
  let ⟨name, rest, _⟩ ← name .invalidIdentifier ts
  let ⟨typeName, rest, _⟩ ← ascription rest
  let ⟨value, rest, _⟩ ← initializer rest
  return ⟨⟨name, typeName, true, value, none⟩, rest, by omega⟩

def immutableGlobal (ts : List Token) : Reads Global ts := do
  let ⟨name, rest, _⟩ ← name .invalidIdentifier ts
  let ⟨typeName, rest, _⟩ ← ascription rest
  let ⟨_, rest, _⟩ ← operator "=" .missingEquals rest
  let ⟨value, rest, _⟩ ← requiredExpression .missingAssignedValue rest
  return ⟨⟨name, typeName, false, some value, none⟩, rest, by omega⟩

def globalHead (ts : List Token) : Reads Global ts :=
  if let some ⟨_, rest, _⟩ := keyword? "LIST" ts then do
    let ⟨g, rest, _⟩ ← listGlobal rest
    return ⟨g, rest, by omega⟩
  else if let some ⟨_, rest, _⟩ := keyword? "VAR" ts then do
    let ⟨g, rest, _⟩ ← mutableGlobal rest
    return ⟨g, rest, by omega⟩
  else if let some ⟨_, rest, _⟩ := keyword? "VAL" ts then do
    let ⟨g, rest, _⟩ ← immutableGlobal rest
    return ⟨g, rest, by omega⟩
  else .error ⟨.expectedGlobal, ts⟩

def global (ts : List Token) : Reads Global ts := do
  let ⟨g, rest, _⟩ ← globalHead ts
  let ⟨_, rest, _⟩ ← operator ";" .missingSemicolon rest
  return ⟨g, rest, by omega⟩

/-- One parameter or more with their types. A parameter without a type takes anything. -/
def parameters (ts : List Token) : Reads (List (String × String)) ts := do
  let ⟨first, rest, _⟩ ← name .invalidParameter ts
  let ⟨typeName, rest, _⟩ ← ascription rest
  let first := (first, typeName.getD Ty.any.name)
  if let some ⟨_, rest, _⟩ := operator? "," rest then
    if startsWithOperator ")" rest then .error ⟨.trailingComma, rest⟩
    else
      let ⟨others, rest, _⟩ ← parameters rest
      return ⟨first :: others, rest, by omega⟩
  else return ⟨[first], rest, by omega⟩
termination_by ts.length

def optionalParameters (ts : List Token) : MayRead (List (String × String)) ts :=
  if startsWithOperator ")" ts then return ⟨[], ts, by omega⟩
  else do
    let ⟨ps, rest, _⟩ ← parameters ts
    return ⟨ps, rest, by omega⟩

def function (ts : List Token) : Reads Function ts := do
  let ⟨_, rest, _⟩ ← keyword "FUN" .expectedFunction ts
  let ⟨name, rest, _⟩ ← name .invalidIdentifier rest
  let ⟨_, rest, _⟩ ← operator "(" .missingOpenParenthesis rest
  let ⟨ps, rest, _⟩ ← optionalParameters rest
  let ⟨_, rest, _⟩ ← operator ")" .missingCloseParenthesis rest
  let ⟨resultName, rest, _⟩ ← ascription rest
  let ⟨_, rest, _⟩ ← keyword "DO" .missingDo rest
  let ⟨body, rest, _⟩ ← block ["END"] rest
  let ⟨_, rest, _⟩ ← keyword "END" .missingEnd rest
  return ⟨⟨name, ps.map (·.1), ps.map (·.2), resultName, body, none⟩, rest, by omega⟩

def startsGlobal (ts : List Token) : Bool :=
  startsWithKeyword "LIST" ts || startsWithKeyword "VAR" ts || startsWithKeyword "VAL" ts

/-- Globals and functions up to the end; once a function was seen no global may follow. -/
def definitions (functionSeen : Bool) (ts : List Token) : Except Halt Program :=
  if ts.isEmpty then return ⟨[], []⟩
  else if startsGlobal ts then
    if functionSeen then .error ⟨.functionBeforeGlobal, ts⟩
    else do
      let ⟨g, rest, _⟩ ← global ts
      let others ← definitions false rest
      return { others with globals := g :: others.globals }
  else if startsWithKeyword "FUN" ts then do
    let ⟨f, rest, _⟩ ← function ts
    let others ← definitions true rest
    return { others with functions := f :: others.functions }
  else .error ⟨.expectedDefinition, ts⟩
termination_by ts.length

def program (ts : List Token) : Except Halt Program := definitions false ts

/-- The number of characters up to the end of the last token taken from `ts`, when `rest` is
left of it. Before the first token it is the place where that token begins. -/
def position (ts rest : List Token) : Nat :=
  match (ts.take (ts.length - rest.length)).getLast? with
  | some t => t.stop
  | none => (ts.head?.map (·.index)).getD 0

structure Error where
  misread : Misread
  index : Nat
deriving DecidableEq

def Halt.locate (ts : List Token) (halt : Halt) : Error :=
  ⟨halt.misread, position ts halt.rest⟩

def readProgram (ts : List Token) : Except Error Program :=
  (program ts).mapError (·.locate ts)

end Plc.Reading
