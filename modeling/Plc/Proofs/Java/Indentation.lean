import Plc.Proofs.Java.Literals
import Plc.Proofs.Java.Marks
import Plc.Proofs.Java.Writer

/-! Code that is written at a depth is the code that is written at the margin, with blanks behind
every newline. This needs the names in it to have no newlines; other texts have none. -/
namespace Plc

def Inline (text : String) : Prop := '\n' ∉ text.toList

instance (text : String) : Decidable (Inline text) := inferInstanceAs (Decidable (¬ _))

@[simp] theorem inline_append {text more : String} :
    Inline (text ++ more) ↔ Inline text ∧ Inline more := by
  simp only [Inline, String.toList_append, List.mem_append, not_or]

namespace Layout

def indented (depth : Nat) (text : String) : String :=
  String.ofList <| text.toList.flatMap fun c =>
    if c = '\n' then c :: List.replicate (4 * depth) ' ' else [c]

variable {depth : Nat} {lines more : List Line}

theorem indented_append (depth : Nat) (text more : String) :
    indented depth (text ++ more) = indented depth text ++ indented depth more := by
  rw [indented, String.toList_append, List.flatMap_append, String.ofList_append]
  rfl

theorem indented_eq {text : String} (inline : Inline text) (depth : Nat) :
    indented depth text = text := by
  have single : ∀ cs : List Char, '\n' ∉ cs →
      (cs.flatMap fun c => if c = '\n' then c :: List.replicate (4 * depth) ' ' else [c]) = cs := by
    intro cs inline
    induction cs with
    | nil => rfl
    | cons c cs ih =>
      obtain ⟨other, inline⟩ := not_or.mp (List.mem_cons.not.mp inline)
      rw [List.flatMap_cons, if_neg (Ne.symm other), ih inline]
      rfl
  rw [indented, single _ inline, String.ofList_toList]

theorem indented_newline (depth : Nat) : indented depth "\n" = "\n" ++ margin depth := by
  rw [← String.toList_inj]
  simp only [indented, margin, String.toList_append, String.toList_ofList]
  exact List.append_nil _

theorem inline_margin (depth : Nat) : Inline (margin depth) := by
  rw [Inline, margin, String.toList_ofList]
  intro member
  cases List.eq_of_mem_replicate member

theorem margin_add (depth more : Nat) : margin (depth + more) = margin depth ++ margin more := by
  rw [margin, margin, margin, ← String.ofList_append, List.replicate_append_replicate, Nat.mul_add]

/-- Lines that are moved already are moved on. -/
theorem indented_trail (inline : ∀ line ∈ lines, Inline line.text) (depth : Nat) :
    indented depth (trail 0 lines) = trail depth lines := by
  induction lines with
  | nil => rfl
  | cons line lines ih =>
    obtain ⟨here, others⟩ := List.forall_mem_cons.mp inline
    rw [trail, trail]
    simp only [indented_append, indented_newline, indented_eq (inline_margin _), indented_eq here,
      ih others, Nat.zero_add, margin_add, String.append_assoc]

theorem indented_hang (inline : ∀ line ∈ lines, Inline line.text) (depth : Nat) :
    indented depth (hang 0 lines) = hang depth lines := by
  cases lines with
  | nil => rfl
  | cons line lines =>
    obtain ⟨here, others⟩ := List.forall_mem_cons.mp inline
    rw [hang, hang, indented_append, indented_eq here, indented_trail others]

theorem Flush.hang_eq (flush : Flush lines) (inline : ∀ line ∈ lines, Inline line.text)
    (depth : Nat) : hang depth lines = indented depth (render lines) := by
  rw [flush.render_eq, indented_hang inline]

theorem inline_before {text : String} (here : Inline text)
    (inline : ∀ line ∈ lines, Inline line.text) : ∀ line ∈ before text lines, Inline line.text := by
  cases lines with
  | nil => exact List.forall_mem_singleton.mpr here
  | cons line lines =>
    obtain ⟨first, others⟩ := List.forall_mem_cons.mp inline
    exact List.forall_mem_cons.mpr ⟨inline_append.mpr ⟨here, first⟩, others⟩

theorem inline_join (inline : ∀ line ∈ lines, Inline line.text)
    (behind : ∀ line ∈ more, Inline line.text) : ∀ line ∈ join lines more, Inline line.text := by
  induction lines with
  | nil => exact behind
  | cons line lines ih =>
    obtain ⟨here, others⟩ := List.forall_mem_cons.mp inline
    cases lines with
    | nil => exact inline_before here behind
    | cons next lines => exact List.forall_mem_cons.mpr ⟨here, ih others⟩

theorem inline_deepen (inline : ∀ line ∈ lines, Inline line.text) :
    ∀ line ∈ deepen lines, Inline line.text :=
  List.forall_mem_map.mpr inline

theorem inline_enclose {opening closing : String} (opens : Inline opening)
    (inline : ∀ line ∈ lines, Inline line.text) (closes : Inline closing) :
    ∀ line ∈ enclose opening lines closing, Inline line.text :=
  List.forall_mem_cons.mpr ⟨opens,
    List.forall_mem_append.mpr ⟨inline_deepen inline, List.forall_mem_singleton.mpr closes⟩⟩

end Layout

namespace Java

open Layout

mutual

def Expr.names : Expr → List String
  | .literal _ => []
  | .group inner => inner.names
  | .binary _ left right => left.names ++ right.names
  | .power base exponent => base.names ++ exponent.names
  | .name id => [id]
  | .element id offset => id :: offset.names
  | .call id arguments => id :: Expr.allNames arguments
  | .array elements => Expr.allNames elements

def Expr.allNames : List Expr → List String
  | [] => []
  | e :: es => e.names ++ Expr.allNames es

end

mutual

def Stmt.names : Stmt → List String
  | .expression value => value.names
  | .declare _ name value => name :: value.elim [] Expr.names
  | .assign receiver value => receiver.names ++ value.names
  | .branch condition thenBody elseBody =>
    condition.names ++ (Stmt.allNames thenBody ++ Stmt.allNames elseBody)
  | .switch condition cases => condition.names ++ Case.allNames cases
  | .loop condition body => condition.names ++ Stmt.allNames body
  | .ret value => value.names
  | .breakOff => []

def Stmt.allNames : List Stmt → List String
  | [] => []
  | s :: ss => s.names ++ Stmt.allNames ss

def Case.names : Case → List String
  | .on value body => value.names ++ Stmt.allNames body
  | .default body => Stmt.allNames body

def Case.allNames : List Case → List String
  | [] => []
  | c :: cs => c.names ++ Case.allNames cs

end

def Method.names (m : Method) : List String :=
  m.name :: (m.parameters.map (·.2) ++ Stmt.allNames m.body)

section Texts

theorem inline_of_isNumber {text : String} (number : IsNumber text.toList) : Inline text :=
  fun member => absurd (number.isNumberPart '\n' member) (by decide)

theorem inline_signed {text : String} (number : IsNumber text.toList) (negative : Bool) :
    Inline ((if negative then "-" else "") ++ text) := by
  refine inline_append.mpr ⟨?_, inline_of_isNumber number⟩
  cases negative <;> decide

theorem newline_not_mem_encodeChar (quote c : Char) : '\n' ∉ Quoted.encodeChar quote c := by
  unfold Quoted.encodeChar
  split
  · rename_i letter named
    have known := known_of_letter? named
    intro member
    simp only [List.mem_cons, List.not_mem_nil, or_false] at member known
    rcases member with backslash | rfl
    · cases backslash
    · revert known
      decide
  · rename_i unnamed
    have inLine := (no_lineEnd_of_letter? unnamed).1
    split
    · simpa using inLine.symm
    · simpa using inLine.symm

theorem inline_quoted {quote : Char} (other : quote ≠ '\n') (cs : List Char) :
    Inline (quoted quote cs) := by
  rw [Inline, toList_quoted]
  have inside : '\n' ∉ Quoted.encode quote cs := by
    intro member
    obtain ⟨c, _, member⟩ := List.mem_flatMap.mp member
    exact newline_not_mem_encodeChar quote c member
  simp only [List.mem_cons, List.mem_append, List.not_mem_nil, or_false, not_or]
  exact ⟨other.symm, inside, other.symm⟩

/-- A newline in a literal is written as an escape. -/
theorem inline_literalText (value : Literal) : Inline (literalText value) := by
  cases value with
  | nil => decide
  | boolean b => cases b <;> decide
  | character c => exact inline_quoted (by decide) [c]
  | string s => exact inline_quoted (by decide) s.toList
  | integer i =>
    rw [literalText, toString_eq_signed]
    exact inline_signed (isNumber_toString i.natAbs) _
  | decimal d =>
    rw [literalText]
    by_cases zero : d.digits = 0
    · rw [Decimal.toText, if_pos zero]
      decide
    · rw [toText_eq_signed zero]
      refine inline_signed ?_ _
      rw [String.toList_ofList]
      exact isNumber_magnitudeText _ _

theorem inline_intercalate {texts : List String} (inline : ∀ text ∈ texts, Inline text) :
    Inline (", ".intercalate texts) := by
  cases texts with
  | nil => decide
  | cons text texts =>
    induction texts generalizing text with
    | nil => exact inline text List.mem_cons_self
    | cons next texts ih =>
      obtain ⟨here, others⟩ := List.forall_mem_cons.mp inline
      obtain ⟨second, others⟩ := List.forall_mem_cons.mp others
      have joined : Inline (text ++ ", " ++ next) := by simp [here, second]; decide
      exact ih (text ++ ", " ++ next) (List.forall_mem_cons.mpr ⟨joined, others⟩)

mutual

theorem Expr.inline_text (e : Expr) (inline : ∀ id ∈ e.names, Inline id) : Inline e.text := by
  cases e with
  | literal value => exact inline_literalText value
  | group inner =>
    have inside := inner.inline_text inline
    simp only [text, inline_append]
    exact ⟨⟨by decide, inside⟩, by decide⟩
  | binary op left right =>
    obtain ⟨first, second⟩ := List.forall_mem_append.mp inline
    have symbol : Inline op.symbol := by cases op <;> decide
    simp only [text, inline_append]
    exact ⟨⟨⟨⟨left.inline_text first, by decide⟩, symbol⟩, by decide⟩, right.inline_text second⟩
  | power base exponent =>
    obtain ⟨first, second⟩ := List.forall_mem_append.mp inline
    simp only [text, inline_append]
    exact ⟨⟨⟨⟨by decide, base.inline_text first⟩, by decide⟩, exponent.inline_text second⟩,
      by decide⟩
  | name id => exact inline id List.mem_cons_self
  | element id offset =>
    obtain ⟨here, inside⟩ := List.forall_mem_cons.mp inline
    simp only [text, inline_append]
    exact ⟨⟨⟨here, by decide⟩, offset.inline_text inside⟩, by decide⟩
  | call id arguments =>
    obtain ⟨here, inside⟩ := List.forall_mem_cons.mp inline
    have all := inline_intercalate (Expr.inline_texts arguments inside)
    simp only [text, inline_append]
    exact ⟨⟨⟨here, by decide⟩, all⟩, by decide⟩
  | array elements =>
    have all := inline_intercalate (Expr.inline_texts elements inline)
    simp only [text, inline_append]
    exact ⟨⟨by decide, all⟩, by decide⟩

theorem Expr.inline_texts (es : List Expr) (inline : ∀ id ∈ Expr.allNames es, Inline id) :
    ∀ text ∈ Expr.texts es, Inline text := by
  cases es with
  | nil => exact nofun
  | cons e es =>
    obtain ⟨first, others⟩ := List.forall_mem_append.mp inline
    exact List.forall_mem_cons.mpr ⟨e.inline_text first, Expr.inline_texts es others⟩

end

theorem inline_assignedText {value : Option Expr}
    (inline : ∀ id ∈ value.elim [] Expr.names, Inline id) : Inline (assignedText value) := by
  cases value with
  | none => decide
  | some value => exact inline_append.mpr ⟨by decide, value.inline_text inline⟩

theorem inline_javaName (ty : Ty) : Inline ty.javaName := by cases ty <;> decide

theorem inline_braced {heading : String} {body : List Line} (here : Inline heading)
    (inline : ∀ line ∈ body, Inline line.text) :
    ∀ line ∈ braced heading body, Inline line.text := by
  rw [braced]
  split
  · exact List.forall_mem_singleton.mpr (inline_append.mpr ⟨here, by decide⟩)
  · exact inline_enclose (inline_append.mpr ⟨here, by decide⟩) inline (by decide)

end Texts

section Lines

mutual

theorem Stmt.inline_lines (s : Stmt) (inline : ∀ id ∈ s.names, Inline id) :
    ∀ line ∈ s.lines, Inline line.text := by
  cases s with
  | expression value =>
    refine List.forall_mem_singleton.mpr ?_
    exact inline_append.mpr ⟨value.inline_text inline, by decide⟩
  | declare ty name value =>
    obtain ⟨here, inside⟩ := List.forall_mem_cons.mp inline
    refine List.forall_mem_singleton.mpr ?_
    simp only [inline_append]
    exact ⟨⟨⟨⟨inline_javaName ty, by decide⟩, here⟩, inline_assignedText inside⟩, by decide⟩
  | assign receiver value =>
    obtain ⟨first, second⟩ := List.forall_mem_append.mp inline
    refine List.forall_mem_singleton.mpr ?_
    simp only [inline_append]
    exact ⟨⟨⟨receiver.inline_text first, by decide⟩, value.inline_text second⟩, by decide⟩
  | branch condition thenBody elseBody =>
    obtain ⟨here, inside⟩ := List.forall_mem_append.mp inline
    obtain ⟨inThen, inElse⟩ := List.forall_mem_append.mp inside
    have heading : Inline ("if (" ++ condition.text ++ ") ") := by
      simp only [inline_append]
      exact ⟨⟨by decide, condition.inline_text here⟩, by decide⟩
    have first := inline_braced heading (Stmt.inline_allLines thenBody inThen)
    rw [Stmt.lines]
    split
    · exact first
    · exact inline_join first (inline_braced (by decide) (Stmt.inline_allLines elseBody inElse))
  | switch condition cases =>
    obtain ⟨here, inside⟩ := List.forall_mem_append.mp inline
    refine inline_enclose ?_ (Case.inline_allLines cases inside) (by decide)
    simp only [inline_append]
    exact ⟨⟨by decide, condition.inline_text here⟩, by decide⟩
  | loop condition body =>
    obtain ⟨here, inside⟩ := List.forall_mem_append.mp inline
    refine inline_braced ?_ (Stmt.inline_allLines body inside)
    simp only [inline_append]
    exact ⟨⟨by decide, condition.inline_text here⟩, by decide⟩
  | ret value =>
    refine List.forall_mem_singleton.mpr ?_
    simp only [inline_append]
    exact ⟨⟨by decide, value.inline_text inline⟩, by decide⟩
  | breakOff => exact List.forall_mem_singleton.mpr (by decide)

theorem Stmt.inline_allLines (ss : List Stmt) (inline : ∀ id ∈ Stmt.allNames ss, Inline id) :
    ∀ line ∈ Stmt.allLines ss, Inline line.text := by
  cases ss with
  | nil => exact nofun
  | cons s ss =>
    obtain ⟨first, others⟩ := List.forall_mem_append.mp inline
    exact List.forall_mem_append.mpr ⟨s.inline_lines first, Stmt.inline_allLines ss others⟩

theorem Case.inline_lines (c : Case) (inline : ∀ id ∈ c.names, Inline id) :
    ∀ line ∈ c.lines, Inline line.text := by
  cases c with
  | on value body =>
    obtain ⟨here, inside⟩ := List.forall_mem_append.mp inline
    refine List.forall_mem_cons.mpr ⟨?_, inline_deepen (Stmt.inline_allLines body inside)⟩
    simp only [inline_append]
    exact ⟨⟨by decide, value.inline_text here⟩, by decide⟩
  | default body =>
    exact List.forall_mem_cons.mpr ⟨by decide, inline_deepen (Stmt.inline_allLines body inline)⟩

theorem Case.inline_allLines (cs : List Case) (inline : ∀ id ∈ Case.allNames cs, Inline id) :
    ∀ line ∈ Case.allLines cs, Inline line.text := by
  cases cs with
  | nil => exact nofun
  | cons c cs =>
    obtain ⟨first, others⟩ := List.forall_mem_append.mp inline
    exact List.forall_mem_append.mpr ⟨c.inline_lines first, Case.inline_allLines cs others⟩

end

theorem Method.inline_lines (m : Method) (inline : ∀ id ∈ m.names, Inline id) :
    ∀ line ∈ m.lines, Inline line.text := by
  obtain ⟨here, inside⟩ := List.forall_mem_cons.mp inline
  obtain ⟨parameters, body⟩ := List.forall_mem_append.mp inside
  refine inline_braced ?_ (Stmt.inline_allLines m.body body)
  have each : ∀ text ∈ m.parameters.map parameterText, Inline text := by
    refine List.forall_mem_map.mpr fun parameter member => ?_
    have named := parameters parameter.2 (List.mem_map_of_mem member)
    rw [parameterText, inline_append, inline_append]
    exact ⟨⟨inline_javaName _, by decide⟩, named⟩
  simp only [Method.heading, inline_append]
  exact ⟨⟨⟨⟨⟨inline_javaName _, by decide⟩, here⟩, by decide⟩, inline_intercalate each⟩, by decide⟩

end Lines

end Java

open Layout

/-- What is written at a depth is what is written at the margin, with blanks behind every newline,
and the counter is what it was. So the parts of a program are its globals and its functions as they
are written alone, moved one level deeper. -/
theorem indentation_is_compositional :
    (∀ s : Stmt, ({} : Writer).statement s = ⟨s.toJava.render, 0⟩ ∧
      ((∀ id ∈ s.toJava.names, Inline id) → ∀ w : Writer,
        w.statement s = ⟨w.output ++ indented w.indent s.toJava.render, w.indent⟩)) ∧
    (∀ f : Function, ({} : Writer).function f = ⟨f.toJava.render, 0⟩ ∧
      ((∀ id ∈ f.toJava.names, Inline id) → ∀ w : Writer,
        w.function f = ⟨w.output ++ indented w.indent f.toJava.render, w.indent⟩)) ∧
    (∀ g : Global, ({} : Writer).global g = ⟨g.toJava.text, 0⟩) ∧
    ∀ p : Program, ({} : Writer).program p = ⟨p.toJava.render, 0⟩ ∧
      ((∀ f ∈ p.functions, ∀ id ∈ f.toJava.names, Inline id) →
        p.toJava.render = "public class Main \x7b\n" ++
          (if p.globals.isEmpty then "" else
            String.join (p.globals.map fun g => "\n    " ++ g.toJava.text) ++ "\n") ++
          ("\n    public static void main(String[] args) \x7b" ++
            "\n        System.exit(new Main().main());" ++ "\n    \x7d\n") ++
          String.join (p.functions.map fun f =>
            "\n    " ++ indented 1 f.toJava.render ++ "\n") ++ "\n\x7d") := by
  refine ⟨fun s => ⟨Writer.render_statement s, ?_⟩, fun f => ⟨Writer.render_function f, ?_⟩,
    fun g => ?_, fun p => ⟨Writer.render_program p, ?_⟩⟩
  · intro inline w
    rw [Writer.statement_eq, s.toJava.flush_lines.hang_eq (s.toJava.inline_lines inline)]
    rfl
  · intro inline w
    rw [Writer.function_eq, f.toJava.flush_lines.hang_eq (f.toJava.inline_lines inline)]
    rfl
  · rw [Writer.global_eq]
    exact congrArg (Writer.mk · 0) String.empty_append
  · intro inline
    have margin_one : "\n" ++ margin 1 = "\n    " := by decide +kernel
    have entry : "\n" ++ margin 1 ++ hang 1 Java.entryLines ++ "\n" =
        "\n    public static void main(String[] args) \x7b" ++
          "\n        System.exit(new Main().main());" ++ "\n    \x7d\n" := by decide +kernel
    have methods : Writer.methodsText 1 p.functions = String.join
        (p.functions.map fun f => "\n    " ++ indented 1 f.toJava.render ++ "\n") := by
      rw [Writer.methodsText, margin_one]
      refine congrArg String.join (List.map_congr_left fun f member => ?_)
      rw [f.toJava.flush_lines.hang_eq (f.toJava.inline_lines (inline f member))]
      rfl
    have whole := Writer.programText_zero p
    unfold Writer.programText Writer.fieldsText at whole
    rw [← whole, ← entry, ← methods, ← margin_one]
    simp only [String.append_assoc]

def printing : Function where
  name := "f"
  parameters := ["n"]
  typeNames := ["Integer"]
  resultName := none
  body := [.switch (.access "n" none)
    [.on (.literal (.integer 1) none)
      [.loop (.literal (.boolean true) none)
        [.expression (.call "print" [.literal (.string "a\nb") none] none)]],
      .default []]]
  slot := none

theorem indentation_is_compositional_printing : (∀ id ∈ printing.toJava.names, Inline id) ∧
    ({ output := "", indent := 1 } : Writer).function printing =
      ⟨"Void f(int n) \x7b" ++
        "\n        switch (n) \x7b" ++
        "\n            case 1:" ++
        "\n                while (true) \x7b" ++
        "\n                    print(\"a\\nb\");" ++
        "\n                \x7d" ++
        "\n                break;" ++
        "\n            default:" ++
        "\n        \x7d" ++
        "\n    \x7d", 1⟩ ∧
    (Program.toJava ⟨[], [printing]⟩).render = "public class Main \x7b\n" ++
      ("\n    public static void main(String[] args) \x7b" ++
        "\n        System.exit(new Main().main());" ++ "\n    \x7d\n") ++
      ("\n    " ++ indented 1 printing.toJava.render ++ "\n") ++ "\n\x7d" := by
  obtain ⟨_, functions, _, programs⟩ := indentation_is_compositional
  have inline : ∀ id ∈ printing.toJava.names, Inline id := by decide +kernel
  refine ⟨inline, ?_, ?_⟩
  · rw [(functions printing).2 inline]
    exact congrArg (Writer.mk · 1) (by decide +kernel)
  · rw [(programs ⟨[], [printing]⟩).2 (List.forall_mem_singleton.mpr inline)]
    simp

end Plc
