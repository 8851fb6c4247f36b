import Plc.Layout
import Plc.Token
import Plc.Tree

/-! The tokens of a text and the tree of a program, spelled out part by part: records with their
fields, variants with what they hold, and lists, each part on lines of its own. -/
namespace Plc.Dump

def escaped (quote c : Char) : List Char :=
  if c = '\n' then ['\\', 'n']
  else if c = '\r' then ['\\', 'r']
  else if c = '\t' then ['\\', 't']
  else if c = '\x00' then ['\\', '0']
  else if c = '\\' ∨ c = quote then ['\\', c]
  else if c.toNat < 32 ∨ c.toNat = 127 then
    "\\u\x7b".toList ++ Nat.toDigits 16 c.toNat ++ "\x7d".toList
  else [c]

def quoted (quote : Char) (cs : List Char) : String :=
  String.ofList (quote :: cs.flatMap (escaped quote) ++ [quote])

def quotedText (text : String) : String := quoted '"' text.toList

def atom (text : String) : List Line := [⟨0, text⟩]

def text (s : String) : List Line := atom (quotedText s)

def flag (b : Bool) : List Line := atom (if b then "true" else "false")

def item (lines : List Line) : List Line := Layout.behind "," lines

def field (name : String) (value : List Line) : List Line :=
  item (Layout.before (name ++ ": ") value)

def record (name : String) (fields : List (List Line)) : List Line :=
  Layout.enclose (name ++ " \x7b") fields.flatten "\x7d"

def variant (name : String) (value : List Line) : List Line :=
  Layout.enclose (name ++ "(") (item value) ")"

def list (values : List (List Line)) : List Line :=
  if values.isEmpty then atom "[]" else Layout.enclose "[" (values.flatMap item) "]"

def option : Option (List Line) → List Line
  | none => atom "None"
  | some value => variant "Some" value

def ty (t : Ty) : List Line := atom t.name

def slotType (t : Option Ty) : List Line := field "ty" (option (t.map ty))

def variableRecord (v : Variable) : List Line :=
  record "Variable"
    [field "name" (text v.name), field "jvm_name" (text v.target), field "ty" (ty v.ty),
      field "mutable" (flag v.mutable), field "list" (flag v.list)]

def signatureRecord (s : Signature) : List Line :=
  record "FunctionSignature"
    [field "name" (text s.name), field "jvm_name" (text s.target),
      field "parameter_types" (list (s.parameters.map ty)), field "return_type" (ty s.result)]

def literal : Literal → List Line
  | .nil => atom "Nil"
  | .boolean b => variant "Boolean" (flag b)
  | .character c => variant "Character" (atom (quoted '\'' [c]))
  | .string s => variant "String" (text s)
  | .integer i => variant "Integer" (atom (toString i))
  | .decimal d =>
    variant "Decimal" (atom ("BigDecimal(\"" ++ toString d.digits ++ "e" ++ toString (-d.scale) ++
      "\")"))

mutual

def expr : Expr → List Line
  | .literal value t =>
    variant "Literal" (record "LiteralExpression" [field "value" (literal value), slotType t])
  | .group inner t =>
    variant "Group" (record "GroupExpression" [field "inner" (expr inner), slotType t])
  | .binary op left right t =>
    variant "Binary" (record "BinaryExpression"
      [field "operator" (atom op.name), field "left" (expr left), field "right" (expr right),
        slotType t])
  | .access name slot =>
    variant "Access" (record "AccessExpression"
      [field "name" (text name), field "offset" (option none),
        field "variable" (option (slot.map variableRecord))])
  | .element name offset slot =>
    variant "Access" (record "AccessExpression"
      [field "name" (text name), field "offset" (option (some (expr offset))),
        field "variable" (option (slot.map variableRecord))])
  | .call name arguments slot =>
    variant "Call" (record "CallExpression"
      [field "name" (text name), field "arguments" (list (exprs arguments)),
        field "function" (option (slot.map signatureRecord))])
  | .list elements t =>
    variant "List" (record "ListLiteral" [field "elements" (list (exprs elements)), slotType t])

def exprs : List Expr → List (List Line)
  | [] => []
  | e :: es => expr e :: exprs es

end

mutual

def stmt : Stmt → List Line
  | .expression value => variant "Expression" (expr value)
  | .declare name typeName value slot =>
    variant "Declaration" (record "DeclarationStatement"
      [field "name" (text name), field "type_name" (option (typeName.map text)),
        field "value" (option (value.map expr)),
        field "variable" (option (slot.map variableRecord))])
  | .assign receiver value =>
    variant "Assignment" (record "AssignmentStatement"
      [field "receiver" (expr receiver), field "value" (expr value)])
  | .branch condition thenBody elseBody =>
    variant "If" (record "IfStatement"
      [field "condition" (expr condition), field "then_body" (list (stmts thenBody)),
        field "else_body" (list (stmts elseBody))])
  | .switch condition switched =>
    variant "Switch" (record "SwitchStatement"
      [field "condition" (expr condition), field "cases" (list (cases switched))])
  | .loop condition body =>
    variant "While" (record "WhileStatement"
      [field "condition" (expr condition), field "body" (list (stmts body))])
  | .ret value => variant "Return" (record "ReturnStatement" [field "value" (expr value)])

def stmts : List Stmt → List (List Line)
  | [] => []
  | s :: ss => stmt s :: stmts ss

def case : Case → List Line
  | .on value body =>
    record "Case"
      [field "value" (option (some (expr value))), field "body" (list (stmts body))]
  | .default body => record "Case" [field "value" (option none), field "body" (list (stmts body))]

def cases : List Case → List (List Line)
  | [] => []
  | c :: cs => case c :: cases cs

end

def global (g : Global) : List Line :=
  record "Global"
    [field "name" (text g.name), field "type_name" (option (g.typeName.map text)),
      field "mutable" (flag g.mutable), field "value" (option (g.value.map expr)),
      field "variable" (option (g.slot.map variableRecord))]

def function (f : Function) : List Line :=
  record "Function"
    [field "name" (text f.name), field "parameters" (list (f.parameters.map text)),
      field "parameter_type_names" (list (f.typeNames.map text)),
      field "return_type_name" (option (f.resultName.map text)),
      field "body" (list (stmts f.body)),
      field "function" (option (f.slot.map signatureRecord))]

def program (p : Program) : List Line :=
  record "Source"
    [field "globals" (list (p.globals.map global)),
      field "functions" (list (p.functions.map function))]

def kindName : Token.Kind → String
  | .identifier => "Identifier"
  | .integer => "Integer"
  | .decimal => "Decimal"
  | .character => "Character"
  | .string => "String"
  | .operator => "Operator"

def token (t : Token) : String :=
  "Token \x7b kind: " ++ kindName t.kind ++ ", literal: " ++ quotedText t.literal ++
    ", index: " ++ toString t.index ++ " \x7d"

end Plc.Dump
