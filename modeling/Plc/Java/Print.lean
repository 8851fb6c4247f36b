import Plc.Decimal.Text
import Plc.Java
import Plc.Layout
import Plc.Quoted

/-! The text of Java code. Expressions are text on one line, and statements are lines. -/
namespace Plc.Java

def quoted (quote : Char) (cs : List Char) : String :=
  String.ofList (quote :: Quoted.encode quote cs ++ [quote])

def literalText : Literal → String
  | .nil => "null"
  | .boolean b => if b then "true" else "false"
  | .character c => quoted '\'' [c]
  | .string s => quoted '"' s.toList
  | .integer i => toString i
  | .decimal d => d.toText

mutual

def Expr.text : Expr → String
  | .literal value => literalText value
  | .group inner => "(" ++ inner.text ++ ")"
  | .binary op left right => left.text ++ " " ++ op.symbol ++ " " ++ right.text
  | .power base exponent => "Math.pow(" ++ base.text ++ ", " ++ exponent.text ++ ")"
  | .name id => id
  | .element id offset => id ++ "[" ++ offset.text ++ "]"
  | .call id arguments => id ++ "(" ++ ", ".intercalate (Expr.texts arguments) ++ ")"
  | .array elements => "\x7b" ++ ", ".intercalate (Expr.texts elements) ++ "\x7d"

def Expr.texts : List Expr → List String
  | [] => []
  | e :: es => e.text :: Expr.texts es

end

def assignedText : Option Expr → String
  | some value => " = " ++ value.text
  | none => ""

def braced (heading : String) (body : List Line) : List Line :=
  if body.isEmpty then [⟨0, heading ++ "\x7b\x7d"⟩]
  else Layout.enclose (heading ++ "\x7b") body "\x7d"

mutual

def Stmt.lines : Stmt → List Line
  | .expression value => [⟨0, value.text ++ ";"⟩]
  | .declare ty name value => [⟨0, ty.javaName ++ " " ++ name ++ assignedText value ++ ";"⟩]
  | .assign receiver value => [⟨0, receiver.text ++ " = " ++ value.text ++ ";"⟩]
  | .branch condition thenBody elseBody =>
    let first := braced ("if (" ++ condition.text ++ ") ") (Stmt.allLines thenBody)
    if elseBody.isEmpty then first
    else Layout.join first (braced " else " (Stmt.allLines elseBody))
  | .switch condition cases =>
    Layout.enclose ("switch (" ++ condition.text ++ ") \x7b") (Case.allLines cases) "\x7d"
  | .loop condition body =>
    braced ("while (" ++ condition.text ++ ") ") (Stmt.allLines body)
  | .ret value => [⟨0, "return " ++ value.text ++ ";"⟩]
  | .breakOff => [⟨0, "break;"⟩]

def Stmt.allLines : List Stmt → List Line
  | [] => []
  | s :: ss => s.lines ++ Stmt.allLines ss

def Case.lines : Case → List Line
  | .on value body =>
    ⟨0, "case " ++ value.text ++ ":"⟩ :: Layout.deepen (Stmt.allLines body)
  | .default body => ⟨0, "default:"⟩ :: Layout.deepen (Stmt.allLines body)

def Case.allLines : List Case → List Line
  | [] => []
  | c :: cs => c.lines ++ Case.allLines cs

end

def Field.text (f : Field) : String :=
  (if f.final then "final " else "") ++ f.ty.javaName ++ (if f.array then "[]" else "") ++ " " ++
    f.name ++ assignedText f.value ++ ";"

def Method.heading (m : Method) : String :=
  let parameters := m.parameters.map fun (ty, name) => ty.javaName ++ " " ++ name
  m.result.javaName ++ " " ++ m.name ++ "(" ++ ", ".intercalate parameters ++ ") "

def Method.lines (m : Method) : List Line := braced m.heading (Stmt.allLines m.body)

def blank : Line := ⟨0, ""⟩

def entryLines : List Line :=
  Layout.enclose "public static void main(String[] args) \x7b"
    [⟨0, "System.exit(new Main().main());"⟩] "\x7d"

def Class.lines (c : Class) : List Line :=
  let fields := c.fields.map fun f => (⟨1, f.text⟩ : Line)
  let methods := c.methods.flatMap fun m => Layout.deepen m.lines ++ [blank]
  [⟨0, "public class Main \x7b"⟩, blank] ++
    (if fields.isEmpty then [] else fields ++ [blank]) ++
    Layout.deepen entryLines ++ [blank] ++ methods ++ [⟨0, "\x7d"⟩]

def Stmt.render (s : Stmt) : String := Layout.render s.lines

def Method.render (m : Method) : String := Layout.render m.lines

def Class.render (c : Class) : String := Layout.render c.lines

end Plc.Java
