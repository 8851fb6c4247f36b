import Plc.Java.Print
import Plc.Proofs.Java.Code
import Plc.Proofs.Token.Form

/-! Code is read line by line. What a text tells, in whatever respect, is what its parts tell one
behind the other, so what a method tells is what its lines tell. -/
namespace Plc.Java

open Token (IsIdentifier)

def IsMethod (id : String) : Prop := IsIdentifier id ∨ id = "System.out.println"

mutual

def Expr.Local : Expr → Prop
  | .literal _ => True
  | .group inner => inner.Local
  | .binary _ left right => left.Local ∧ right.Local
  | .power base exponent => base.Local ∧ exponent.Local
  | .name id => IsIdentifier id
  | .element id offset => IsIdentifier id ∧ offset.Local
  | .call id arguments => IsMethod id ∧ Expr.AllLocal arguments
  | .array _ => False

def Expr.AllLocal : List Expr → Prop
  | [] => True
  | e :: es => e.Local ∧ Expr.AllLocal es

end

mutual

def Stmt.Local : Stmt → Prop
  | .expression value => value.Local
  | .declare _ name value => IsIdentifier name ∧ ∀ e ∈ value, e.Local
  | .assign receiver value => receiver.Local ∧ value.Local
  | .branch condition thenBody elseBody =>
    condition.Local ∧ Stmt.AllLocal thenBody ∧ Stmt.AllLocal elseBody
  | .switch condition cases => condition.Local ∧ Case.AllLocal cases
  | .loop condition body => condition.Local ∧ Stmt.AllLocal body
  | .ret value => value.Local
  | .breakOff => True

def Stmt.AllLocal : List Stmt → Prop
  | [] => True
  | s :: ss => s.Local ∧ Stmt.AllLocal ss

def Case.Local : Case → Prop
  | .on value body => value.Local ∧ Stmt.AllLocal body
  | .default body => Stmt.AllLocal body

def Case.AllLocal : List Case → Prop
  | [] => True
  | c :: cs => c.Local ∧ Case.AllLocal cs

end

structure Method.Local (m : Method) : Prop where
  name : IsIdentifier m.name
  parameters : ∀ parameter ∈ m.parameters, IsIdentifier parameter.2
  body : Stmt.AllLocal m.body

/-- What two texts tell, both together tell, and blanks tell nothing. -/
structure Additive {μ : Type} (tells : String → List μ → Prop) : Prop where
  append : ∀ {text other ms ns}, tells text ms → tells other ns → tells (text ++ other) (ms ++ ns)
  blank : ∀ {text : String}, (∀ c ∈ text.toList, isSpace c = true) → tells text []

inductive Marking {μ : Type} (tells : String → List μ → Prop) : List Line → List μ → Prop
  | nil : Marking tells [] []
  | cons {line lines ms ns} : tells line.text ms → Marking tells lines ns →
      Marking tells (line :: lines) (ms ++ ns)

variable {μ : Type} {tells : String → List μ → Prop} {text other : String} {ms ns : List μ}
variable {lines more : List Line}

theorem marking_line {depth : Nat} (marked : tells text ms) :
    Marking tells [⟨depth, text⟩] ms := by
  have single : Marking tells [⟨depth, text⟩] (ms ++ []) := .cons marked .nil
  rwa [List.append_nil] at single

theorem Marking.append (front : Marking tells lines ms) (behind : Marking tells more ns) :
    Marking tells (lines ++ more) (ms ++ ns) := by
  induction front with
  | nil => exact behind
  | cons marked _ ih =>
    rw [List.append_assoc]
    exact .cons marked ih

theorem Marking.deepen (marking : Marking tells lines ms) :
    Marking tells (Layout.deepen lines) ms := by
  induction marking with
  | nil => exact .nil
  | cons marked _ ih => exact .cons marked ih

theorem Marking.enclose {opening closing : String} {front back : List μ}
    (opens : tells opening front) (marking : Marking tells lines ms) (closes : tells closing back) :
    Marking tells (Layout.enclose opening lines closing) (front ++ ms ++ back) := by
  rw [Layout.enclose, List.append_assoc]
  exact .cons opens (marking.deepen.append (marking_line closes))

section Additive

variable (additive : Additive tells)

include additive

theorem Marking.join (front : Marking tells lines ms) (behind : Marking tells more ns) :
    Marking tells (Layout.join lines more) (ms ++ ns) := by
  induction front with
  | nil => exact behind
  | @cons line lines ms ms' marked others ih =>
    cases lines with
    | nil =>
      cases others
      rw [Layout.join, List.append_nil]
      cases behind with
      | nil => exact .cons marked .nil
      | cons first others =>
        rw [← List.append_assoc]
        exact .cons (additive.append marked first) others
    | cons next lines =>
      rw [List.append_assoc]
      exact .cons marked ih

/-- Braces stand on one line with their heading, or around the lines inside. -/
theorem Marking.braced {heading : String} {front : List μ} {opening closing : μ}
    (opens : tells (heading ++ "\x7b") (front ++ [opening])) (marking : Marking tells lines ms)
    (closes : tells "\x7d" [closing]) :
    Marking tells (braced heading lines) (front ++ opening :: ms ++ [closing]) := by
  rw [Java.braced]
  split
  · rename_i empty
    rw [List.isEmpty_iff.mp empty] at marking
    cases marking
    have closed := additive.append opens closes
    rw [String.append_assoc] at closed
    exact marking_line closed
  · have enclosed := marking.enclose opens closes
    rwa [List.append_assoc front] at enclosed

theorem tells_renderLine {line : Line} (marked : tells line.text ms) :
    tells (Layout.renderLine line) ms := by
  have margin : tells (Layout.margin line.depth) [] := by
    refine additive.blank ?_
    intro c member
    rw [Layout.margin, String.toList_ofList] at member
    rw [List.eq_of_mem_replicate member]
    rfl
  exact additive.append margin marked

/-- Between lines there is nothing but blanks. -/
theorem Marking.render (marking : Marking tells lines ms) : tells (Layout.render lines) ms := by
  induction marking with
  | nil => exact additive.blank (List.forall_mem_nil _)
  | @cons line lines ms ns marked others ih =>
    have first := tells_renderLine additive marked
    cases lines with
    | nil =>
      cases others
      have text : Layout.render [line] = Layout.renderLine line := by simp [Layout.render]
      rwa [text, List.append_nil]
    | cons next lines =>
      have newline : tells "\n" [] := additive.blank (List.all_eq_true.mp rfl)
      have text : Layout.render (line :: next :: lines) =
          Layout.renderLine line ++ ("\n" ++ Layout.render (next :: lines)) := by
        rw [← String.toList_inj]
        simp [Layout.render, String.toList_intercalate]
      rw [text]
      exact additive.append first (additive.append newline ih)

end Additive

/-- An aspect of code: what texts tell, and what trees call for. All opening braces tell the same,
and so do all closing ones and all labels. -/
structure Aspect (μ : Type) where
  tells : String → List μ → Prop
  opening : μ
  closing : μ
  label : List μ
  stmt : Stmt → List μ
  block : List Stmt → List μ
  case : Case → List μ
  cases : List Case → List μ

def conditionHeads : List String := ["if (", "switch (", "while ("]

/-- Texts of one line tell what their trees call for, and trees call for what their parts do. -/
structure Aspect.Sound {μ : Type} (a : Aspect μ) : Prop extends Additive a.tells where
  closes : a.tells "\x7d" [a.closing]
  condition : ∀ word ∈ conditionHeads, ∀ {e : Expr}, e.Local →
    a.tells (word ++ e.text ++ ") " ++ "\x7b") ([] ++ [a.opening])
  otherwise : a.tells (" else " ++ "\x7b") ([] ++ [a.opening])
  on : ∀ {e : Expr}, e.Local → a.tells ("case " ++ e.text ++ ":") a.label
  default : a.tells "default:" a.label
  expression : ∀ {e : Expr}, e.Local → a.tells (e.text ++ ";") (a.stmt (.expression e))
  declare : ∀ (ty : Ty) {name : String} {value : Option Expr}, IsIdentifier name →
    (∀ e ∈ value, e.Local) →
    a.tells (ty.javaName ++ " " ++ name ++ assignedText value ++ ";")
      (a.stmt (.declare ty name value))
  assign : ∀ {receiver e : Expr}, receiver.Local → e.Local →
    a.tells (receiver.text ++ " = " ++ e.text ++ ";") (a.stmt (.assign receiver e))
  ret : ∀ {e : Expr}, e.Local → a.tells ("return " ++ e.text ++ ";") (a.stmt (.ret e))
  breakOff : a.tells "break;" (a.stmt .breakOff)
  branch : ∀ condition thenBody elseBody, a.stmt (.branch condition thenBody elseBody) =
    a.opening :: a.block thenBody ++ [a.closing] ++
      if elseBody.isEmpty then [] else a.opening :: a.block elseBody ++ [a.closing]
  switch : ∀ condition cs,
    a.stmt (.switch condition cs) = a.opening :: a.cases cs ++ [a.closing]
  loop : ∀ condition body,
    a.stmt (.loop condition body) = a.opening :: a.block body ++ [a.closing]
  block_nil : a.block [] = []
  block_cons : ∀ s ss, a.block (s :: ss) = a.stmt s ++ a.block ss
  case_on : ∀ value body, a.case (.on value body) = a.label ++ a.block body
  case_default : ∀ body, a.case (.default body) = a.label ++ a.block body
  cases_nil : a.cases [] = []
  cases_cons : ∀ c cs, a.cases (c :: cs) = a.case c ++ a.cases cs

namespace Aspect.Sound

mutual

/-- The lines of a statement tell what its tree calls for. -/
theorem marking_stmt {a : Aspect μ} (sound : a.Sound) (s : Stmt) (here : s.Local) :
    Marking a.tells s.lines (a.stmt s) := by
  cases s with
  | expression value => exact marking_line (sound.expression here)
  | declare ty name value => exact marking_line (sound.declare ty here.1 here.2)
  | assign receiver value => exact marking_line (sound.assign here.1 here.2)
  | branch condition thenBody elseBody =>
    obtain ⟨inside, first, second⟩ := here
    have heading := sound.condition "if (" (by decide) inside
    have front := (marking_block sound thenBody first).braced sound.toAdditive heading sound.closes
    rw [Stmt.lines, sound.branch]
    split
    · rw [List.append_nil]
      exact front
    · have behind := (marking_block sound elseBody second).braced sound.toAdditive sound.otherwise
        sound.closes
      exact front.join sound.toAdditive behind
  | switch condition cs =>
    obtain ⟨inside, body⟩ := here
    have heading := sound.condition "switch (" (by decide) inside
    have joined : ") " ++ "\x7b" = ") \x7b" := rfl
    rw [String.append_assoc, joined] at heading
    rw [sound.switch]
    exact (marking_cases sound cs body).enclose heading sound.closes
  | loop condition body =>
    obtain ⟨inside, body'⟩ := here
    have heading := sound.condition "while (" (by decide) inside
    rw [sound.loop]
    exact (marking_block sound body body').braced sound.toAdditive heading sound.closes
  | ret value => exact marking_line (sound.ret here)
  | breakOff => exact marking_line sound.breakOff

theorem marking_block {a : Aspect μ} (sound : a.Sound) (ss : List Stmt)
    (here : Stmt.AllLocal ss) : Marking a.tells (Stmt.allLines ss) (a.block ss) := by
  cases ss with
  | nil =>
    rw [sound.block_nil]
    exact .nil
  | cons s ss =>
    rw [sound.block_cons]
    exact (marking_stmt sound s here.1).append (marking_block sound ss here.2)

theorem marking_case {a : Aspect μ} (sound : a.Sound) (c : Case) (here : c.Local) :
    Marking a.tells c.lines (a.case c) := by
  cases c with
  | on value body =>
    obtain ⟨inside, behind⟩ := here
    rw [sound.case_on]
    exact (marking_line (sound.on inside)).append (marking_block sound body behind).deepen
  | default body =>
    rw [sound.case_default]
    exact (marking_line sound.default).append (marking_block sound body here).deepen

theorem marking_cases {a : Aspect μ} (sound : a.Sound) (cs : List Case)
    (here : Case.AllLocal cs) : Marking a.tells (Case.allLines cs) (a.cases cs) := by
  cases cs with
  | nil =>
    rw [sound.cases_nil]
    exact .nil
  | cons c cs =>
    rw [sound.cases_cons]
    exact (marking_case sound c here.1).append (marking_cases sound cs here.2)

end

end Aspect.Sound

end Plc.Java
