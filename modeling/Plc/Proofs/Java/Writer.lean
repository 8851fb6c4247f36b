import Plc.Java.Lowering
import Plc.Java.Print

/-! Code written piece by piece, with a counter for how deep the next line begins. What is written
are the lines of the code, hung up at the depth that the counter shows, and the counter ends where
it began. -/
namespace Plc

open Java (literalText)

structure Writer where
  output : String := ""
  indent : Nat := 0

namespace Writer

def print (w : Writer) (text : String) : Writer := { w with output := w.output ++ text }

def newline (w : Writer) (depth : Nat) : Writer := w.print ("\n" ++ Layout.margin depth)

def deeper (w : Writer) : Writer := { w with indent := w.indent + 1 }

def shallower (w : Writer) : Writer := { w with indent := w.indent - 1 }

def close (w : Writer) : Writer := (w.shallower.newline w.shallower.indent).print "\x7d"

mutual

def expression (w : Writer) : Expr → Writer
  | .literal value _ => w.print (literalText value)
  | .group inner _ => ((w.print "(").expression inner).print ")"
  | .binary op left right _ =>
    if op = .power then
      ((((w.print "Math.pow(").expression left).print ", ").expression right).print ")"
    else ((((w.expression left).print " ").print op.symbol).print " ").expression right
  | .access name slot => w.print (Variable.targetOr slot name)
  | .element name offset slot =>
    (((w.print (Variable.targetOr slot name)).print "[").expression offset).print "]"
  | .call name arguments slot =>
    (((w.print (Signature.targetOr slot name)).print "(").separated arguments).print ")"
  | .list elements _ => ((w.print "\x7b").separated elements).print "\x7d"

def separated (w : Writer) : List Expr → Writer
  | [] => w
  | e :: es => (w.expression e).others es

def others (w : Writer) : List Expr → Writer
  | [] => w
  | e :: es => ((w.print ", ").expression e).others es

end

def first (w : Writer) (value : Option Expr) : Writer :=
  value.elim w (w.print " = ").expression

def braces (w : Writer) (body : List Stmt) (inside : Writer → Writer) : Writer :=
  if body.isEmpty then w.print "\x7b\x7d" else (inside (w.print "\x7b").deeper).close

mutual

def statement (w : Writer) : Stmt → Writer
  | .expression value => (w.expression value).print ";"
  | .declare name typeName value slot =>
    ((((w.print (Ty.declared slot typeName value).javaName).print " ").print
      (Variable.targetOr slot name)).first value).print ";"
  | .assign receiver value => (((w.expression receiver).print " = ").expression value).print ";"
  | .branch condition thenBody elseBody =>
    let w := (((w.print "if (").expression condition).print ") ").braces thenBody
      fun w => w.statements thenBody
    if elseBody.isEmpty then w
    else (w.print " else ").braces elseBody fun w => w.statements elseBody
  | .switch condition cases =>
    ((((w.print "switch (").expression condition).print ") \x7b").deeper.cases cases).close
  | .loop condition body =>
    (((w.print "while (").expression condition).print ") ").braces body fun w => w.statements body
  | .ret value => ((w.print "return ").expression value).print ";"

def statements (w : Writer) : List Stmt → Writer
  | [] => w
  | s :: ss => ((w.newline w.indent).statement s).statements ss

def case (w : Writer) : Case → Writer
  | .on value body =>
    let w := (((w.print "case ").expression value).print ":").deeper.statements body
    ((w.newline w.indent).print "break;").shallower
  | .default body => ((w.print "default:").deeper.statements body).shallower

def cases (w : Writer) : List Case → Writer
  | [] => w
  | c :: cs => ((w.newline w.indent).case c).cases cs

end

def furtherParameters (w : Writer) : List (String × Ty) → Writer
  | [] => w
  | (name, ty) :: others =>
    ((((w.print ", ").print ty.javaName).print " ").print name).furtherParameters others

def parameters (w : Writer) : List (String × Ty) → Writer
  | [] => w
  | (name, ty) :: others => (((w.print ty.javaName).print " ").print name).furtherParameters others

def function (w : Writer) (f : Function) : Writer :=
  ((((((w.print f.javaTypes.2.javaName).print " ").print (Signature.targetOr f.slot f.name)).print
    "(").parameters (f.parameters.zip f.javaTypes.1)).print ") ").braces f.body
      fun w => w.statements f.body

def global (w : Writer) (g : Global) : Writer :=
  let w := if g.mutable then w else w.print "final "
  let w := w.print (Ty.declared g.slot g.typeName g.value).javaName
  let w := if g.isList then w.print "[]" else w
  (((w.print " ").print (Variable.targetOr g.slot g.name)).first g.value).print ";"

def globals (w : Writer) : List Global → Writer
  | [] => w
  | g :: gs => ((w.newline w.indent).global g).globals gs

def functions (w : Writer) : List Function → Writer
  | [] => w
  | f :: fs => (((w.newline w.indent).function f).newline 0).functions fs

def entry (w : Writer) : Writer :=
  let w := (w.newline w.indent).print "public static void main(String[] args) \x7b"
  let w := (w.newline (w.indent + 1)).print "System.exit(new Main().main());"
  (w.newline w.indent).print "\x7d"

def program (w : Writer) (p : Program) : Writer :=
  let w := ((w.print "public class Main \x7b").newline 0).deeper
  let w := if p.globals.isEmpty then w else (w.globals p.globals).newline 0
  let w := ((w.entry.newline 0).functions p.functions).shallower
  (w.newline 0).print "\x7d"

end Writer

namespace Layout

/-- The lines, each on a new one, all moved by the depth. -/
def trail (depth : Nat) : List Line → String
  | [] => ""
  | line :: more => "\n" ++ margin (depth + line.depth) ++ line.text ++ trail depth more

/-- The lines moved by the depth, of which the first goes on where something has been written. -/
def hang (depth : Nat) : List Line → String
  | [] => ""
  | first :: more => first.text ++ trail depth more

def Flush (lines : List Line) : Prop := ∃ text more, lines = ⟨0, text⟩ :: more

variable {lines more : List Line} {depth : Nat}

theorem trail_append (depth : Nat) (lines more : List Line) :
    trail depth (lines ++ more) = trail depth lines ++ trail depth more := by
  induction lines with
  | nil => exact (String.empty_append ..).symm
  | cons line lines ih => simp only [List.cons_append, trail, ih, String.append_assoc]

theorem hang_append (nonempty : lines ≠ []) (depth : Nat) (more : List Line) :
    hang depth (lines ++ more) = hang depth lines ++ trail depth more := by
  obtain ⟨first, rest, rfl⟩ := List.exists_cons_of_ne_nil nonempty
  rw [List.cons_append, hang, hang, trail_append, String.append_assoc]

theorem trail_deepen (depth : Nat) (lines : List Line) :
    trail depth (deepen lines) = trail (depth + 1) lines := by
  induction lines with
  | nil => rfl
  | cons line lines ih =>
    show "\n" ++ margin (depth + (line.depth + 1)) ++ line.text ++ trail depth (deepen lines) = _
    rw [ih, Nat.add_comm line.depth 1, ← Nat.add_assoc]
    rfl

theorem Flush.trail_eq (flush : Flush lines) (depth : Nat) :
    trail depth lines = "\n" ++ margin depth ++ hang depth lines := by
  obtain ⟨text, more, rfl⟩ := flush
  simp only [trail, hang, Nat.add_zero, String.append_assoc]

theorem hang_before (depth : Nat) (text : String) (lines : List Line) :
    hang depth (before text lines) = text ++ hang depth lines := by
  cases lines with
  | nil => rfl
  | cons line lines => exact String.append_assoc ..

theorem join_concat (lines : List Line) (last : Line) (more : List Line) :
    join (lines ++ [last]) more = lines ++ before last.text more := by
  induction lines with
  | nil => rfl
  | cons line lines ih =>
    cases lines with
    | nil => rfl
    | cons next lines => exact congrArg (line :: ·) ih

theorem Flush.before (flush : Flush lines) (text : String) : Flush (before text lines) := by
  obtain ⟨first, more, rfl⟩ := flush
  exact ⟨_, _, rfl⟩

theorem Flush.join (flush : Flush lines) (behind : Flush more) : Flush (join lines more) := by
  obtain ⟨text, rest, rfl⟩ := flush
  cases rest with
  | nil => exact behind.before text
  | cons line rest => exact ⟨text, _, rfl⟩

theorem hang_join (flush : Flush more) (depth : Nat) (lines : List Line) (closing : String) :
    hang depth (join (lines ++ [⟨0, closing⟩]) more) =
      hang depth (lines ++ [⟨0, closing⟩]) ++ hang depth more := by
  rw [join_concat]
  cases lines with
  | nil =>
    show hang depth (Layout.before closing more) = (closing ++ "") ++ hang depth more
    rw [hang_before, String.append_empty]
  | cons line lines =>
    show line.text ++ trail depth (lines ++ Layout.before closing more) =
      line.text ++ trail depth (lines ++ [⟨0, closing⟩]) ++ hang depth more
    rw [trail_append, trail_append, (flush.before closing).trail_eq, hang_before]
    simp only [trail, Nat.add_zero, String.append_empty, String.append_assoc]

theorem hang_enclose (depth : Nat) (opening closing : String) (lines : List Line) :
    hang depth (enclose opening lines closing) =
      opening ++ trail (depth + 1) lines ++ "\n" ++ margin depth ++ closing := by
  rw [enclose, List.cons_append, hang, trail_append, trail_deepen]
  simp only [trail, Nat.add_zero, String.append_empty, String.append_assoc]

/-- Lines on their own are hung up at the margin. -/
theorem Flush.render_eq (flush : Flush lines) : render lines = hang 0 lines := by
  have behind : ∀ (line : Line) (more : List Line),
      render (line :: more) = renderLine line ++ trail 0 more := by
    intro line more
    induction more generalizing line with
    | nil => exact String.append_empty.symm
    | cons next more ih =>
      have split : render (line :: next :: more) =
          renderLine line ++ "\n" ++ render (next :: more) := by
        rw [← String.toList_inj]
        simp [render, String.toList_intercalate]
      rw [split, ih]
      simp only [renderLine, trail, Nat.zero_add, String.append_assoc]
  obtain ⟨text, more, rfl⟩ := flush
  rw [behind]
  exact congrArg (· ++ trail 0 more) String.empty_append

end Layout

namespace Java

open Layout

variable {depth : Nat} {body more : List Line} {heading : String}

theorem exists_braced (heading : String) (body : List Line) :
    ∃ lines closing, braced heading body = lines ++ [⟨0, closing⟩] := by
  rw [braced]
  split
  · exact ⟨[], _, rfl⟩
  · exact ⟨⟨0, heading ++ "\x7b"⟩ :: deepen body, _, rfl⟩

theorem flush_braced (heading : String) (body : List Line) : Flush (braced heading body) := by
  rw [braced]
  split
  · exact ⟨_, [], rfl⟩
  · exact ⟨_, _, rfl⟩

theorem hang_braced (depth : Nat) (heading : String) (body : List Line) :
    hang depth (braced heading body) = heading ++ hang depth (braced "" body) := by
  rw [braced, braced]
  split
  · simp only [hang, trail, String.append_empty, String.empty_append]
  · simp only [hang_enclose, String.append_assoc, String.empty_append]

theorem flush_enclose (opening closing : String) (body : List Line) :
    Flush (enclose opening body closing) := ⟨opening, _, rfl⟩

theorem Stmt.flush_lines (s : Stmt) : Flush s.lines := by
  cases s with
  | branch condition thenBody elseBody =>
    rw [lines]
    split
    · exact flush_braced _ _
    · exact (flush_braced _ _).join (flush_braced _ _)
  | switch condition cases => exact flush_enclose _ _ _
  | loop condition body => exact flush_braced _ _
  | _ => exact ⟨_, [], rfl⟩

theorem Case.flush_lines (c : Case) : Flush c.lines := by
  cases c <;> exact ⟨_, _, rfl⟩

theorem Method.flush_lines (m : Method) : Flush m.lines := flush_braced _ _

theorem Stmt.isEmpty_allLines (ss : List Stmt) : (allLines ss).isEmpty = ss.isEmpty := by
  cases ss with
  | nil => rfl
  | cons s ss =>
    obtain ⟨text, more, same⟩ := s.flush_lines
    rw [allLines, same]
    rfl

theorem Stmt.allLines_append (ss more : List Stmt) :
    allLines (ss ++ more) = allLines ss ++ allLines more := by
  induction ss with
  | nil => rfl
  | cons s ss ih => rw [List.cons_append, allLines, allLines, ih, List.append_assoc]

end Java

namespace Writer

open Layout

variable {w : Writer}

@[simp] theorem print_print (w : Writer) (text more : String) :
    (w.print text).print more = w.print (text ++ more) := by
  simp only [print, String.append_assoc]

@[simp] theorem print_empty (w : Writer) : w.print "" = w := by
  simp only [print, String.append_empty]

@[simp] theorem indent_print (w : Writer) (text : String) : (w.print text).indent = w.indent := rfl

@[simp] theorem indent_deeper (w : Writer) : w.deeper.indent = w.indent + 1 := rfl

@[simp] theorem shallower_deeper_print (w : Writer) (text : String) :
    (w.deeper.print text).shallower = w.print text := rfl

theorem newline_print (w : Writer) (depth : Nat) (text : String) :
    (w.newline depth).print text = w.print ("\n" ++ margin depth ++ text) := print_print ..

/-- What is written one level deeper. -/
theorem close_print (w : Writer) (text : String) :
    (w.deeper.print text).close = w.print (text ++ "\n" ++ margin w.indent ++ "\x7d") := by
  show ((w.print text).newline w.indent).print "\x7d" = _
  simp only [newline_print, print_print, String.append_assoc]

mutual

theorem expression_eq (w : Writer) (e : Expr) : w.expression e = w.print e.toJava.text := by
  cases e with
  | literal value ty => rfl
  | group inner ty =>
    simp only [expression, Expr.toJava, Java.Expr.text, expression_eq _ inner, print_print]
  | binary op left right ty =>
    rw [expression, Expr.toJava]
    split
    · simp only [Java.Expr.text, expression_eq _ left, expression_eq _ right, print_print]
    · simp only [Java.Expr.text, expression_eq _ left, expression_eq _ right, print_print]
  | access name slot => rfl
  | element name offset slot =>
    simp only [expression, Expr.toJava, Java.Expr.text, expression_eq _ offset, print_print]
  | call name arguments slot =>
    simp only [expression, Expr.toJava, Java.Expr.text, separated_eq _ arguments, print_print]
  | list elements ty =>
    simp only [expression, Expr.toJava, Java.Expr.text, separated_eq _ elements, print_print]

theorem separated_eq (w : Writer) (es : List Expr) :
    w.separated es = w.print (", ".intercalate (Java.Expr.texts (Expr.allToJava es))) := by
  cases es with
  | nil => exact (print_empty w).symm
  | cons e es =>
    rw [separated, expression_eq w e]
    exact others_eq w e.toJava.text es

theorem others_eq (w : Writer) (text : String) (es : List Expr) :
    (w.print text).others es =
      w.print (", ".intercalate (text :: Java.Expr.texts (Expr.allToJava es))) := by
  cases es with
  | nil => rfl
  | cons e es =>
    rw [others, expression_eq _ e, print_print, print_print, ← String.append_assoc]
    exact others_eq w (text ++ ", " ++ e.toJava.text) es

end

theorem first_eq (w : Writer) (value : Option Expr) :
    w.first value = w.print (Java.assignedText (value.map Expr.toJava)) := by
  cases value with
  | none => exact (print_empty w).symm
  | some value => rw [first, Option.elim_some, expression_eq, print_print]; rfl

theorem isEmpty_allToJava (ss : List Stmt) : (Stmt.allToJava ss).isEmpty = ss.isEmpty := by
  cases ss <;> rfl

def blockLines (body : List Stmt) : List Line := Java.Stmt.allLines (Stmt.allToJava body)

/-- What is written between braces, if the statements inside are written as a trail of lines. -/
theorem braces_eq {body : List Stmt} {inside : Writer → Writer}
    (inside_eq : ∀ w : Writer, inside w = w.print (trail w.indent (blockLines body)))
    (w : Writer) (heading : String) :
    (w.print heading).braces body inside =
      w.print (hang w.indent (Java.braced heading (blockLines body))) := by
  have empty : (blockLines body).isEmpty = body.isEmpty :=
    (Java.Stmt.isEmpty_allLines _).trans (isEmpty_allToJava body)
  rw [braces, Java.braced, empty]
  split
  · simp only [hang, trail, print_print, String.append_empty]
  · rw [inside_eq, hang_enclose, close_print, print_print, print_print]
    simp only [String.append_assoc]
    rfl

mutual

/-- A statement is written as its lines, and the counter is what it was. -/
theorem statement_eq (w : Writer) (s : Stmt) :
    w.statement s = w.print (hang w.indent s.toJava.lines) := by
  cases s with
  | expression value =>
    simp only [statement, Stmt.toJava, Java.Stmt.lines, hang, trail, expression_eq, print_print,
      String.append_empty]
  | declare name typeName value slot =>
    simp only [statement, Stmt.toJava, Java.Stmt.lines, hang, trail, first_eq, print_print,
      String.append_empty]
  | assign receiver value =>
    simp only [statement, Stmt.toJava, Java.Stmt.lines, hang, trail, expression_eq, print_print,
      String.append_empty]
  | branch condition thenBody elseBody =>
    rw [Stmt.toJava, Java.Stmt.lines, isEmpty_allToJava]
    simp only [statement, expression_eq, print_print,
      braces_eq fun w => statements_eq w thenBody, braces_eq fun w => statements_eq w elseBody]
    split
    · rfl
    · obtain ⟨lines, closing, ends⟩ := Java.exists_braced
        ("if (" ++ condition.toJava.text ++ ") ") (blockLines thenBody)
      have joined := hang_join (Java.flush_braced " else " (blockLines elseBody)) w.indent lines
        closing
      rw [← ends] at joined
      refine congrArg w.print (Eq.trans ?_ joined.symm)
      generalize hang w.indent (Java.braced ("if (" ++ condition.toJava.text ++ ") ") _) = front
      rw [Java.hang_braced, Java.hang_braced w.indent " else ", String.append_assoc]
  | switch condition cases =>
    rw [statement, expression_eq, print_print, print_print, cases_eq, close_print, print_print]
    rw [Stmt.toJava, Java.Stmt.lines, hang_enclose]
    simp only [String.append_assoc]
    rfl
  | loop condition body =>
    rw [statement, expression_eq, print_print, print_print]
    exact braces_eq (fun w => statements_eq w body) w _
  | ret value =>
    simp only [statement, Stmt.toJava, Java.Stmt.lines, hang, trail, expression_eq, print_print,
      String.append_empty]

theorem statements_eq (w : Writer) (ss : List Stmt) :
    w.statements ss = w.print (trail w.indent (Java.Stmt.allLines (Stmt.allToJava ss))) := by
  cases ss with
  | nil => exact (print_empty w).symm
  | cons s ss =>
    rw [statements, statement_eq _ s, statements_eq _ ss, newline_print, print_print]
    rw [Stmt.allToJava, Java.Stmt.allLines, trail_append, (Java.Stmt.flush_lines _).trail_eq]
    rfl

theorem case_eq (w : Writer) (c : Case) : w.case c = w.print (hang w.indent c.toJava.lines) := by
  cases c with
  | on value body =>
    simp only [case, expression_eq, print_print, statements_eq, newline_print]
    have breaks : trail (w.indent + 1) (Java.Stmt.allLines [.breakOff]) =
        "\n" ++ margin (w.indent + 1) ++ "break;" := String.append_empty
    rw [Case.toJava, Java.Case.lines, hang, trail_deepen, Java.Stmt.allLines_append, trail_append,
      breaks]
    exact print_print w _ _
  | default body =>
    rw [case, statements_eq]
    rw [Case.toJava, Java.Case.lines, hang, trail_deepen, ← print_print]
    rfl

theorem cases_eq (w : Writer) (cs : List Case) :
    w.cases cs = w.print (trail w.indent (Java.Case.allLines (Case.allToJava cs))) := by
  cases cs with
  | nil => exact (print_empty w).symm
  | cons c cs =>
    rw [cases, case_eq _ c, cases_eq _ cs, newline_print, print_print]
    rw [Case.allToJava, Java.Case.allLines, trail_append, (Java.Case.flush_lines _).trail_eq]
    rfl

end

theorem render_statement (s : Stmt) : ({} : Writer).statement s = ⟨s.toJava.render, 0⟩ := by
  rw [statement_eq, Java.Stmt.render, (Java.Stmt.flush_lines _).render_eq]
  exact congrArg (Writer.mk · 0) String.empty_append

theorem furtherParameters_eq (w : Writer) (text : String) (parameters : List (String × Ty)) :
    (w.print text).furtherParameters parameters =
      w.print (", ".intercalate
        (text :: parameters.map fun (name, ty) => ty.javaName ++ " " ++ name)) := by
  induction parameters generalizing text with
  | nil => rfl
  | cons parameter others ih =>
    obtain ⟨name, ty⟩ := parameter
    have here : ((((w.print text).print ", ").print ty.javaName).print " ").print name =
        w.print (text ++ ", " ++ (ty.javaName ++ " " ++ name)) := by
      simp only [print_print, String.append_assoc]
    rw [furtherParameters, here]
    exact ih _

theorem parameters_eq (w : Writer) (parameters : List (String × Ty)) :
    w.parameters parameters =
      w.print (", ".intercalate
        (parameters.map fun (name, ty) => ty.javaName ++ " " ++ name)) := by
  cases parameters with
  | nil => exact (print_empty w).symm
  | cons parameter others =>
    rw [Writer.parameters, print_print, print_print, ← String.append_assoc]
    exact furtherParameters_eq w _ others

/-- A function is written as the lines of its method. -/
theorem function_eq (w : Writer) (f : Function) :
    w.function f = w.print (hang w.indent f.toJava.lines) := by
  have heading : f.toJava.heading = f.javaTypes.2.javaName ++ " " ++
      Signature.targetOr f.slot f.name ++ "(" ++
      ", ".intercalate ((f.parameters.zip f.javaTypes.1).map
        fun (name, ty) => ty.javaName ++ " " ++ name) ++ ") " := by
    simp only [Java.Method.heading, Function.toJava, List.map_map]
    rfl
  rw [Java.Method.lines, heading]
  simp only [function, parameters_eq, print_print]
  exact braces_eq (fun w => statements_eq w f.body) w _

theorem render_function (f : Function) : ({} : Writer).function f = ⟨f.toJava.render, 0⟩ := by
  rw [function_eq, Java.Method.render, f.toJava.flush_lines.render_eq]
  exact congrArg (Writer.mk · 0) String.empty_append

theorem global_eq (w : Writer) (g : Global) : w.global g = w.print g.toJava.text := by
  have final : (if g.mutable then w else w.print "final ") =
      w.print (if g.toJava.final then "final " else "") := by
    cases mutable : g.mutable <;> simp [Global.toJava, mutable]
  have array (w : Writer) : (if g.isList then w.print "[]" else w) =
      w.print (if g.toJava.array then "[]" else "") := by
    cases list : g.isList <;> simp [Global.toJava, list]
  simp only [global]
  rw [final, array, first_eq]
  simp only [print_print]
  rfl

def fieldsText (depth : Nat) (gs : List Global) : String :=
  String.join (gs.map fun g => "\n" ++ margin depth ++ g.toJava.text)

def methodsText (depth : Nat) (fs : List Function) : String :=
  String.join (fs.map fun f => "\n" ++ margin depth ++ hang depth f.toJava.lines ++ "\n")

def programText (depth : Nat) (p : Program) : String :=
  "public class Main \x7b\n" ++
    (if p.globals.isEmpty then "" else fieldsText (depth + 1) p.globals ++ "\n") ++
    ("\n" ++ margin (depth + 1) ++ hang (depth + 1) Java.entryLines) ++ "\n" ++
    methodsText (depth + 1) p.functions ++ "\n\x7d"

theorem newline_zero (w : Writer) : w.newline 0 = w.print "\n" := rfl

theorem globals_eq (w : Writer) (gs : List Global) :
    w.globals gs = w.print (fieldsText w.indent gs) := by
  induction gs generalizing w with
  | nil => exact (print_empty w).symm
  | cons g gs ih =>
    rw [globals, global_eq, newline_print, ih, print_print, fieldsText, fieldsText, List.map_cons,
      String.join_cons]
    rfl

theorem functions_eq (w : Writer) (fs : List Function) :
    w.functions fs = w.print (methodsText w.indent fs) := by
  induction fs generalizing w with
  | nil => exact (print_empty w).symm
  | cons f fs ih =>
    have here : ((w.newline w.indent).function f).newline 0 =
        w.print ("\n" ++ margin w.indent ++ hang w.indent f.toJava.lines ++ "\n") := by
      rw [function_eq, newline_print]
      exact print_print ..
    rw [functions, here, ih, print_print, methodsText, methodsText, List.map_cons,
      String.join_cons]
    rfl

theorem entry_eq (w : Writer) :
    w.entry = w.print ("\n" ++ margin w.indent ++ hang w.indent Java.entryLines) := by
  simp only [entry, newline_print, print_print, Java.entryLines, hang_enclose]
  simp only [trail, Nat.add_zero, String.append_empty, String.append_assoc]
  rfl

theorem program_eq (w : Writer) (p : Program) :
    w.program p = w.print (programText w.indent p) := by
  have fields (w : Writer) : (if p.globals.isEmpty then w else (w.globals p.globals).newline 0) =
      w.print (if p.globals.isEmpty then "" else fieldsText w.indent p.globals ++ "\n") := by
    split
    · exact (print_empty w).symm
    · rw [globals_eq, newline_zero, print_print]
  have opened : ((w.print "public class Main \x7b").newline 0).deeper =
      w.deeper.print "public class Main \x7b\n" := by
    rw [newline_zero, print_print]
    rfl
  have closed (w : Writer) : (w.newline 0).print "\x7d" = w.print "\n\x7d" := by
    rw [newline_zero, print_print]
    rfl
  simp only [program]
  rw [closed, opened, fields, entry_eq, newline_zero, functions_eq]
  simp only [print_print, indent_print, indent_deeper, shallower_deeper_print]
  unfold programText
  rfl

/-- The lines of the class of a program. -/
theorem programText_zero (p : Program) : programText 0 p = p.toJava.render := by
  have fields : trail 0 (p.toJava.fields.map fun f => ⟨1, f.text⟩) = fieldsText 1 p.globals := by
    rw [Program.toJava, fieldsText]
    induction p.globals with
    | nil => rfl
    | cons g gs ih =>
      rw [List.map_cons, List.map_cons, trail, ih, List.map_cons, String.join_cons]
      rfl
  have methods : trail 0 (p.toJava.methods.flatMap fun m => deepen m.lines ++ [Java.blank]) =
      methodsText 1 p.functions := by
    rw [Program.toJava, methodsText]
    induction p.functions with
    | nil => rfl
    | cons f fs ih =>
      rw [List.map_cons, List.flatMap_cons, trail_append, trail_append, trail_deepen, ih,
        f.toJava.flush_lines.trail_eq, List.map_cons, String.join_cons]
      rfl
  have flush : Flush Java.entryLines := Java.flush_enclose _ _ _
  have entry : trail 0 (deepen Java.entryLines) = "\n" ++ margin 1 ++ hang 1 Java.entryLines := by
    rw [trail_deepen, flush.trail_eq]
  have blank : trail 0 [Java.blank] = "\n" := rfl
  have last : trail 0 [⟨0, "\x7d"⟩] = "\n\x7d" := rfl
  have front : hang 0 [⟨0, "public class Main \x7b"⟩, Java.blank] = "public class Main \x7b\n" :=
    rfl
  have empty : (p.toJava.fields.map fun f => (⟨1, f.text⟩ : Line)).isEmpty = p.globals.isEmpty := by
    rw [Program.toJava]
    cases p.globals <;> rfl
  have whole : Flush p.toJava.lines := ⟨_, _, rfl⟩
  unfold programText
  rw [Java.Class.render, whole.render_eq, Java.Class.lines, empty]
  simp only [List.append_assoc]
  rw [hang_append (List.cons_ne_nil _ _), front]
  simp only [trail_append, apply_ite (trail 0), fields, methods, entry, blank, last]
  simp only [trail, String.append_assoc]

theorem render_program (p : Program) : ({} : Writer).program p = ⟨p.toJava.render, 0⟩ := by
  rw [program_eq, ← programText_zero]
  exact congrArg (Writer.mk · 0) String.empty_append

end Writer
end Plc
