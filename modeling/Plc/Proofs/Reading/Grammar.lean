import Plc.Reading

/-! The grammar of programs, apart from any way of reading them. Each rule relates the tokens from
its first one on, the tree that they stand for, and the tokens behind it. -/
namespace Plc.Grammar

/-- An identifier, be it a keyword or a name. -/
def Word (text : String) (ts rest : List Token) : Prop :=
  ∃ index, ts = ⟨.identifier, text, index⟩ :: rest

def Sign (text : String) (ts rest : List Token) : Prop :=
  ∃ index, ts = ⟨.operator, text, index⟩ :: rest

def StartsWith (words : List String) (ts : List Token) : Prop :=
  ∃ word ∈ words, ∃ rest, Word word ts rest

def Value (ts : List Token) (e : Expr) (rest : List Token) : Prop :=
  ∃ shorter, Reading.expression ts = .ok ⟨e, rest, shorter⟩

/-- `(":" id)?` -/
inductive Ascription : List Token → Option String → List Token → Prop where
  | absent (ts : List Token) : Ascription ts none ts
  | present {ts rest t₁ : List Token} {name : String} (colon : Sign ":" ts t₁)
      (type : Word name t₁ rest) :
      Ascription ts (some name) rest

/-- `("=" expr)?` -/
inductive Initial : List Token → Option Expr → List Token → Prop where
  | absent (ts : List Token) : Initial ts none ts
  | present {ts rest t₁ : List Token} {e : Expr} (equals : Sign "=" ts t₁)
      (value : Value t₁ e rest) :
      Initial ts (some e) rest

/-- `expr ("," expr)*` -/
inductive Values : List Token → List Expr → List Token → Prop where
  | last {ts rest : List Token} {e : Expr} (value : Value ts e rest) : Values ts [e] rest
  | next {ts rest t₁ t₂ : List Token} {e : Expr} {es : List Expr} (value : Value ts e t₁)
      (comma : Sign "," t₁ t₂)
      (others : Values t₂ es rest) : Values ts (e :: es) rest

inductive Global : List Token → Plc.Global → List Token → Prop where
  | list {ts rest t₁ t₂ t₃ t₄ t₅ t₆ t₇ : List Token} {name : String} {typeName : Option String}
      {es : List Expr} (word : Word "LIST" ts t₁)
      (id : Word name t₁ t₂) (type : Ascription t₂ typeName t₃) (equals : Sign "=" t₃ t₄)
      (opened : Sign "[" t₄ t₅) (elements : Values t₅ es t₆) (closed : Sign "]" t₆ t₇)
      (ends : Sign ";" t₇ rest) :
      Global ts ⟨name, typeName, true, some (.list es none), none⟩ rest
  | mutable {ts rest t₁ t₂ t₃ t₄ : List Token} {name : String} {typeName : Option String}
      {value : Option Expr}
      (word : Word "VAR" ts t₁) (id : Word name t₁ t₂) (type : Ascription t₂ typeName t₃)
      (initial : Initial t₃ value t₄) (ends : Sign ";" t₄ rest) :
      Global ts ⟨name, typeName, true, value, none⟩ rest
  | immutable {ts rest t₁ t₂ t₃ t₄ t₅ : List Token} {name : String} {typeName : Option String}
      {e : Expr} (word : Word "VAL" ts t₁)
      (id : Word name t₁ t₂) (type : Ascription t₂ typeName t₃) (equals : Sign "=" t₃ t₄)
      (value : Value t₄ e t₅) (ends : Sign ";" t₅ rest) :
      Global ts ⟨name, typeName, false, some e, none⟩ rest

/-- A construct that statements stand in, as far as it has come. A switch has come to its cases,
and then to its default. -/
inductive Part where
  | function
  | loop
  | thenPart
  | elsePart
  | cases
  | default
deriving DecidableEq

namespace Part

def terminators : Part → List String
  | function | loop | elsePart => ["END"]
  | thenPart => ["ELSE", "END"]
  | cases | default => ["CASE", "DEFAULT", "END"]

/-- What comes of a part behind a word that it takes: the next part of its construct, or nothing
if the construct ends. -/
def behind? : Part → String → Option (Option Part)
  | function, "END" | loop, "END" | thenPart, "END" | elsePart, "END" | default, "END" => some none
  | thenPart, "ELSE" => some (some elsePart)
  | cases, "CASE" => some (some cases)
  | cases, "DEFAULT" => some (some default)
  | _, _ => none

end Part

/-- What a derivation says of a keyword: that a construct begins with it, or to which construct it
belongs. Places are told by the number of tokens from there on. -/
inductive Event where
  | opens (part : Part) (place : Nat)
  | word (text : String) (place owner : Nat)

/-- Behind what is open, the innermost first, each of the words belongs to the construct that is
the innermost one at that place, and in the end nothing is open. -/
inductive Nested : List (Part × Nat) → List Event → Prop where
  | done : Nested [] []
  | opens {part : Part} {place : Nat} {outer : List (Part × Nat)} {events : List Event}
      (inside : Nested ((part, place) :: outer) events) :
      Nested outer (.opens part place :: events)
  | word {part : Part} {onward : Option Part} {text : String} {place owner : Nat}
      {outer : List (Part × Nat)} {events : List Event}
      (takes : part.behind? text = some onward)
      (behind : Nested (onward.toList.map (·, owner) ++ outer) events) :
      Nested ((part, owner) :: outer) (.word text place owner :: events)

def statementWords : List String := ["LET", "SWITCH", "IF", "WHILE", "RETURN"]

mutual

inductive Statement : List Token → Stmt → List Token → List Event → Prop where
  | declare {ts rest t₁ t₂ t₃ t₄ : List Token} {name : String} {typeName : Option String}
      {value : Option Expr}
      (word : Word "LET" ts t₁) (id : Word name t₁ t₂) (type : Ascription t₂ typeName t₃)
      (initial : Initial t₃ value t₄) (ends : Sign ";" t₄ rest) :
      Statement ts (.declare name typeName value none) rest []
  | switch {ts rest t₁ t₂ : List Token} {condition : Expr} {cases : List Case} {events : List Event}
      (word : Word "SWITCH" ts t₁) (subject : Value t₁ condition t₂)
      (inside : Cases ts.length t₂ cases rest events) :
      Statement ts (.switch condition cases) rest (.opens .cases ts.length :: events)
  | branch {ts rest t₁ t₂ t₃ t₄ : List Token} {condition : Expr} {body : List Stmt}
      {events : List Event} (word : Word "IF" ts t₁)
      (value : Value t₁ condition t₂) (begins : Word "DO" t₂ t₃)
      (thenPart : Block .thenPart t₃ body t₄ events) (ends : Word "END" t₄ rest) :
      Statement ts (.branch condition body []) rest
        (.opens .thenPart ts.length :: events ++ [.word "END" t₄.length ts.length])
  | branchElse {ts rest t₁ t₂ t₃ t₄ t₅ t₆ : List Token} {condition : Expr}
      {thenBody elseBody : List Stmt} {first second : List Event}
      (word : Word "IF" ts t₁) (value : Value t₁ condition t₂) (begins : Word "DO" t₂ t₃)
      (thenPart : Block .thenPart t₃ thenBody t₄ first) (otherwise : Word "ELSE" t₄ t₅)
      (elsePart : Block .elsePart t₅ elseBody t₆ second) (ends : Word "END" t₆ rest) :
      Statement ts (.branch condition thenBody elseBody) rest
        (.opens .thenPart ts.length :: first ++ .word "ELSE" t₄.length ts.length :: second ++
          [.word "END" t₆.length ts.length])
  | loop {ts rest t₁ t₂ t₃ t₄ : List Token} {condition : Expr} {body : List Stmt}
      {events : List Event} (word : Word "WHILE" ts t₁)
      (value : Value t₁ condition t₂) (begins : Word "DO" t₂ t₃)
      (inside : Block .loop t₃ body t₄ events) (ends : Word "END" t₄ rest) :
      Statement ts (.loop condition body) rest
        (.opens .loop ts.length :: events ++ [.word "END" t₄.length ts.length])
  | ret {ts rest t₁ t₂ : List Token} {e : Expr} (word : Word "RETURN" ts t₁)
      (value : Value t₁ e t₂) (ends : Sign ";" t₂ rest) :
      Statement ts (.ret e) rest []
  | expression {ts rest t₁ : List Token} {e : Expr} (plain : ¬ StartsWith statementWords ts)
      (value : Value ts e t₁)
      (ends : Sign ";" t₁ rest) : Statement ts (.expression e) rest []
  | assign {ts rest t₁ t₂ t₃ : List Token} {receiver e : Expr}
      (plain : ¬ StartsWith statementWords ts)
      (place : Value ts receiver t₁) (equals : Sign "=" t₁ t₂) (value : Value t₂ e t₃)
      (ends : Sign ";" t₃ rest) : Statement ts (.assign receiver e) rest []

/-- `statement*` in a part of a construct. -/
inductive Block : Part → List Token → List Stmt → List Token → List Event → Prop where
  | empty (part : Part) (ts : List Token) : Block part ts [] ts []
  | next {ts rest t₁ : List Token} {part : Part} {s : Stmt} {ss : List Stmt}
      {first others : List Event}
      (inside : ¬ StartsWith part.terminators ts) (here : Statement ts s t₁ first)
      (behind : Block part t₁ ss rest others) : Block part ts (s :: ss) rest (first ++ others)

/-- `("CASE" expr ":" statement*)* "DEFAULT" statement* "END"` in the switch at a place. -/
inductive Cases : Nat → List Token → List Case → List Token → List Event → Prop where
  | default {ts rest t₁ t₂ : List Token} {owner : Nat} {body : List Stmt} {events : List Event}
      (word : Word "DEFAULT" ts t₁)
      (inside : Block .default t₁ body t₂ events) (ends : Word "END" t₂ rest) :
      Cases owner ts [.default body] rest
        (.word "DEFAULT" ts.length owner :: events ++ [.word "END" t₂.length owner])
  | on {ts rest t₁ t₂ t₃ t₄ : List Token} {owner : Nat} {e : Expr} {body : List Stmt}
      {cases : List Case}
      {first others : List Event} (word : Word "CASE" ts t₁) (value : Value t₁ e t₂)
      (colon : Sign ":" t₂ t₃) (inside : Block .cases t₃ body t₄ first)
      (behind : Cases owner t₄ cases rest others) :
      Cases owner ts (.on e body :: cases) rest (.word "CASE" ts.length owner :: first ++ others)

end

/-- `id (":" id)?`. Without a type anything is taken. -/
inductive Parameter : List Token → String × String → List Token → Prop where
  | mk {ts rest t₁ : List Token} {name : String} {typeName : Option String} (id : Word name ts t₁)
      (type : Ascription t₁ typeName rest) : Parameter ts (name, typeName.getD "Any") rest

/-- `param ("," param)*` -/
inductive Parameters : List Token → List (String × String) → List Token → Prop where
  | last {ts rest : List Token} {p : String × String}
      (parameter : Parameter ts p rest) : Parameters ts [p] rest
  | next {ts rest t₁ t₂ : List Token} {p : String × String} {ps : List (String × String)}
      (parameter : Parameter ts p t₁)
      (comma : Sign "," t₁ t₂) (others : Parameters t₂ ps rest) : Parameters ts (p :: ps) rest

/-- `(param ("," param)*)?` -/
inductive OptionalParameters : List Token → List (String × String) → List Token → Prop where
  | absent (ts : List Token) : OptionalParameters ts [] ts
  | present {ts rest : List Token} {ps : List (String × String)}
      (parameters : Parameters ts ps rest) :
      OptionalParameters ts ps rest

inductive Function : List Token → Plc.Function → List Token → List Event → Prop where
  | mk {ts rest t₁ t₂ t₃ t₄ t₅ t₆ t₇ t₈ : List Token} {name : String}
      {ps : List (String × String)} {resultName : Option String}
      {body : List Stmt} {events : List Event} (word : Word "FUN" ts t₁) (id : Word name t₁ t₂)
      (opened : Sign "(" t₂ t₃) (parameters : OptionalParameters t₃ ps t₄)
      (closed : Sign ")" t₄ t₅) (result : Ascription t₅ resultName t₆) (begins : Word "DO" t₆ t₇)
      (inside : Block .function t₇ body t₈ events) (ends : Word "END" t₈ rest) :
      Function ts ⟨name, ps.map (·.1), ps.map (·.2), resultName, body, none⟩ rest
        (.opens .function ts.length :: events ++ [.word "END" t₈.length ts.length])

inductive Globals : List Token → List Plc.Global → List Token → Prop where
  | none (ts : List Token) : Globals ts [] ts
  | next {ts rest t₁ : List Token} {g : Plc.Global} {gs : List Plc.Global} (here : Global ts g t₁)
      (behind : Globals t₁ gs rest) : Globals ts (g :: gs) rest

inductive Functions : List Token → List Plc.Function → List Token → List Event → Prop where
  | none (ts : List Token) : Functions ts [] ts []
  | next {ts rest t₁ : List Token} {f : Plc.Function} {fs : List Plc.Function}
      {first others : List Event}
      (here : Function ts f t₁ first) (behind : Functions t₁ fs rest others) :
      Functions ts (f :: fs) rest (first ++ others)

/-- `global* function*`, up to the last token. -/
inductive Source : List Token → Program → List Event → Prop where
  | mk {ts t₁ : List Token} {gs : List Plc.Global} {fs : List Plc.Function} {events : List Event}
      (globals : Globals ts gs t₁) (functions : Functions t₁ fs [] events) :
      Source ts ⟨gs, fs⟩ events

end Plc.Grammar
