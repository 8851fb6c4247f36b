import Plc.Java.Print

/-! How Java reads the text of an expression, as far as expressions are made of literals, names,
calls, elements of arrays, parentheses and the binary operators. The text is cut into pieces, and
the pieces are read one by one. -/
namespace Plc.Java

/-- How loosely an operator binds in Java, the tightest being 0. Operators that bind alike
associate to the left. -/
def rank : Operator → Nat
  | .multiply | .divide | .power => 0
  | .add | .subtract => 1
  | .less | .greater => 2
  | .equal | .notEqual => 3
  | .and => 4
  | .or => 5

/-- The operator that a sign is. The sign `^` means something else in Java. -/
def operator? (text : String) : Option Operator :=
  (Operator.ofSymbol? text).filter (· ≠ .power)

inductive Tree where
  | literal (text : String)
  | name (id : String)
  | group (inner : Tree)
  | binary (op : Operator) (left right : Tree)
  | element (id : String) (offset : Tree)
  | call (id : String) (arguments : List Tree)
  | array (elements : List Tree)

mutual

def Expr.tree : Expr → Tree
  | .literal value => .literal (literalText value)
  | .group inner => .group inner.tree
  | .binary op left right => .binary op left.tree right.tree
  | .power base exponent => .call "Math.pow" [base.tree, exponent.tree]
  | .name id => .name id
  | .element id offset => .element id offset.tree
  | .call id arguments => .call id (Expr.trees arguments)
  | .array elements => .array (Expr.trees elements)

def Expr.trees : List Expr → List Tree
  | [] => []
  | e :: es => e.tree :: Expr.trees es

end

inductive Piece where
  | word (text : String)
  | number (text : String)
  | quoted (text : String)
  | operator (op : Operator)
  | opening
  | closing
  | openingIndex
  | closingIndex
  | comma
  | dot
  | other (text : String)
deriving DecidableEq

section Cutting

def isSpace (c : Char) : Bool :=
  c == ' ' || c == '\t' || c == '\n' || c == '\r' || c == '\x0c'

def isLetter (c : Char) : Bool := c.isAlpha || c == '_' || c == '$'

def isLetterOrDigit (c : Char) : Bool := isLetter c || c.isDigit

def takeFraction : List Char → List Char × List Char
  | '.' :: d :: cs =>
    if d.isDigit then ('.' :: d :: cs.takeWhile Char.isDigit, cs.dropWhile Char.isDigit)
    else ([], '.' :: d :: cs)
  | cs => ([], cs)

def takeExponent : List Char → List Char × List Char
  | e :: s :: cs =>
    if e = 'e' ∨ e = 'E' then
      if s.isDigit then (e :: s :: cs.takeWhile Char.isDigit, cs.dropWhile Char.isDigit)
      else if (s = '+' ∨ s = '-') ∧ cs.head?.any Char.isDigit then
        (e :: s :: cs.takeWhile Char.isDigit, cs.dropWhile Char.isDigit)
      else ([], e :: s :: cs)
    else ([], e :: s :: cs)
  | cs => ([], cs)

def takeNumber (cs : List Char) : List Char × List Char :=
  let (fraction, rest) := takeFraction (cs.dropWhile Char.isDigit)
  let (exponent, rest) := takeExponent rest
  (cs.takeWhile Char.isDigit ++ fraction ++ exponent, rest)

def takeQuoted? (quote : Char) : List Char → Option (List Char × List Char)
  | [] => none
  | '\\' :: c :: cs => (takeQuoted? quote cs).map fun (text, rest) => ('\\' :: c :: text, rest)
  | c :: cs =>
    if c = quote then some ([c], cs)
    else (takeQuoted? quote cs).map fun (text, rest) => (c :: text, rest)

/-- The signs of more than one character, each before those that it begins with. -/
def longSigns : List (List Char) :=
  [">>>=", "<<=", ">>=", ">>>", "...", "->", "::", "==", ">=", "<=", "!=", "&&", "||", "++", "--",
    "+=", "-=", "*=", "/=", "&=", "|=", "^=", "%=", "<<", ">>"].map String.toList

def takeSign (c : Char) (cs : List Char) : List Char × List Char :=
  match longSigns.find? (·.isPrefixOf (c :: cs)) with
  | some sign => (sign, (c :: cs).drop sign.length)
  | none => ([c], cs)

def Piece.ofSign (text : String) : Piece :=
  match operator? text with
  | some op => .operator op
  | none =>
    if text = "(" then .opening
    else if text = ")" then .closing
    else if text = "[" then .openingIndex
    else if text = "]" then .closingIndex
    else if text = "," then .comma
    else if text = "." then .dot
    else .other text

def take? (c : Char) (cs : List Char) : Option (Piece × List Char) :=
  if isLetter c then
    some (.word (String.ofList (c :: cs.takeWhile isLetterOrDigit)), cs.dropWhile isLetterOrDigit)
  else if c.isDigit then
    let (text, rest) := takeNumber (c :: cs)
    some (.number (String.ofList text), rest)
  else if c = '"' ∨ c = '\'' then
    (takeQuoted? c cs).map fun (text, rest) => (.quoted (String.ofList (c :: text)), rest)
  else
    let (text, rest) := takeSign c cs
    some (.ofSign (String.ofList text), rest)

theorem length_dropWhile (test : Char → Bool) (cs : List Char) :
    (cs.dropWhile test).length ≤ cs.length :=
  (List.dropWhile_sublist test).length_le

theorem takeFraction_length (cs : List Char) : (takeFraction cs).2.length ≤ cs.length := by
  fun_cases takeFraction cs
  · have shorter := length_dropWhile Char.isDigit ‹List Char›
    simp only [List.length_cons]
    omega
  · exact Nat.le_refl _
  · exact Nat.le_refl _

theorem takeExponent_length (cs : List Char) : (takeExponent cs).2.length ≤ cs.length := by
  fun_cases takeExponent cs
  · have shorter := length_dropWhile Char.isDigit ‹List Char›
    simp only [List.length_cons]
    omega
  · have shorter := length_dropWhile Char.isDigit ‹List Char›
    simp only [List.length_cons]
    omega
  all_goals exact Nat.le_refl _

theorem takeQuoted?_length {quote : Char} {cs text rest : List Char}
    (taken : takeQuoted? quote cs = some (text, rest)) : rest.length < cs.length := by
  fun_induction takeQuoted? quote cs generalizing text rest with
  | case1 => cases taken
  | case2 c cs ih =>
    obtain ⟨⟨text, rest⟩, inner, same⟩ := Option.map_eq_some_iff.mp taken
    cases same
    have shorter := ih inner
    simp only [List.length_cons]
    omega
  | case3 cs c =>
    cases taken
    exact Nat.lt_succ_self _
  | case4 c cs _ _ ih =>
    obtain ⟨⟨text, rest⟩, inner, same⟩ := Option.map_eq_some_iff.mp taken
    cases same
    have shorter := ih inner
    simp only [List.length_cons]
    omega

theorem takeSign_length (c : Char) (cs : List Char) :
    (takeSign c cs).2.length ≤ cs.length := by
  rw [takeSign]
  split
  · rename_i sign found
    have long : sign.length ≠ 0 := by
      have member := List.mem_of_find?_eq_some found
      have all : ∀ sign ∈ longSigns, sign.length ≠ 0 := by decide
      exact all sign member
    simp only [List.length_drop, List.length_cons]
    omega
  · exact Nat.le_refl _

theorem take?_length {c : Char} {cs rest : List Char} {p : Piece}
    (taken : take? c cs = some (p, rest)) : rest.length < (c :: cs).length := by
  rw [List.length_cons, Nat.lt_succ_iff]
  rw [take?] at taken
  split at taken
  · cases taken
    exact length_dropWhile isLetterOrDigit cs
  · split at taken
    · rename_i digit
      cases taken
      have whole : (c :: cs).dropWhile Char.isDigit = cs.dropWhile Char.isDigit :=
        List.dropWhile_cons_of_pos digit
      calc _ ≤ ((takeFraction ((c :: cs).dropWhile Char.isDigit)).2).length := takeExponent_length _
        _ ≤ ((c :: cs).dropWhile Char.isDigit).length := takeFraction_length _
        _ ≤ cs.length := by
          rw [whole]
          exact length_dropWhile Char.isDigit cs
    · split at taken
      · obtain ⟨⟨text, rest⟩, inner, same⟩ := Option.map_eq_some_iff.mp taken
        cases same
        exact Nat.le_of_lt (takeQuoted?_length inner)
      · cases taken
        exact takeSign_length c cs

def cut : List Char → Option (List Piece)
  | [] => some []
  | c :: cs =>
    if isSpace c then cut cs
    else
      match taken : take? c cs with
      | none => none
      | some (p, rest) =>
        have := take?_length taken
        (cut rest).map (p :: ·)
termination_by cs => cs.length
decreasing_by
  · exact Nat.lt_succ_self _
  · exact this

end Cutting

section Reading

def literalWords : List String := ["true", "false", "null"]

def keywords : List String :=
  ["abstract", "assert", "boolean", "break", "byte", "case", "catch", "char", "class", "const",
    "continue", "default", "do", "double", "else", "enum", "extends", "final", "finally", "float",
    "for", "goto", "if", "implements", "import", "instanceof", "int", "interface", "long",
    "native", "new", "package", "private", "protected", "public", "return", "short", "static",
    "strictfp", "super", "switch", "synchronized", "this", "throw", "throws", "transient", "try",
    "void", "volatile", "while", "_"]

/-- An operator and its right operand behind an expression: it takes as much of what stands there
as it binds tighter. -/
def Tree.join (op : Operator) (right : Tree) : Tree → Tree
  | .binary op' l r =>
    if rank op' ≤ rank op then .binary op (.binary op' l r) right
    else .binary op' l (Tree.join op right r)
  | t => .binary op t right

inductive Opening where
  | group
  | call (id : String) (found : List Tree)
  | element (id : String)

abbrev Left : Type := Option (Tree × Operator)

inductive Here where
  | expected
  | minus
  | named (id : String)
  | qualified (id : String)
  | read (t : Tree)

/-- The brackets that are open, each with what stands before it, and what stands behind the last
one. -/
structure State where
  outer : List (Opening × Left)
  left : Left
  here : Here

def State.initial : State := ⟨[], none, .expected⟩

def Left.with (left : Left) (t : Tree) : Tree :=
  match left with
  | none => t
  | some (l, op) => Tree.join op t l

def State.whole? (s : State) : Option Tree :=
  match s.here with
  | .named id => some (s.left.with (.name id))
  | .read t => some (s.left.with t)
  | _ => none

def behind? (outer : List (Opening × Left)) (t : Tree) : Piece → Option State
  | .operator op => some ⟨outer, some (t, op), .expected⟩
  | .closing =>
    match outer with
    | (.group, left) :: outer => some ⟨outer, left, .read (.group t)⟩
    | (.call id found, left) :: outer => some ⟨outer, left, .read (.call id (found ++ [t]))⟩
    | _ => none
  | .closingIndex =>
    match outer with
    | (.element id, left) :: outer => some ⟨outer, left, .read (.element id t)⟩
    | _ => none
  | .comma =>
    match outer with
    | (.call id found, left) :: outer =>
      some ⟨(.call id (found ++ [t]), left) :: outer, none, .expected⟩
    | _ => none
  | _ => none

def begin? (outer : List (Opening × Left)) (left : Left) : Piece → Option State
  | .word text =>
    if text ∈ literalWords then some ⟨outer, left, .read (.literal text)⟩
    else if text ∈ keywords then none
    else some ⟨outer, left, .named text⟩
  | .number text => some ⟨outer, left, .read (.literal text)⟩
  | .quoted text => some ⟨outer, left, .read (.literal text)⟩
  | .operator .subtract => some ⟨outer, left, .minus⟩
  | .opening => some ⟨(.group, left) :: outer, none, .expected⟩
  | .closing =>
    match left, outer with
    | none, (.call id [], left) :: outer => some ⟨outer, left, .read (.call id [])⟩
    | _, _ => none
  | _ => none

/-- Takes a piece. A minus sign in front of a number belongs to the number. -/
def State.step? (s : State) (p : Piece) : Option State :=
  match s.here, p with
  | .expected, p => begin? s.outer s.left p
  | .minus, .number text => some ⟨s.outer, s.left, .read (.literal ("-" ++ text))⟩
  | .minus, _ => none
  | .qualified id, .word text =>
    if text ∈ literalWords ++ keywords then none
    else some ⟨s.outer, s.left, .named (id ++ "." ++ text)⟩
  | .qualified _, _ => none
  | .named id, .dot => some ⟨s.outer, s.left, .qualified id⟩
  | .named id, .opening => some ⟨(.call id [], s.left) :: s.outer, none, .expected⟩
  | .named id, .openingIndex => some ⟨(.element id, s.left) :: s.outer, none, .expected⟩
  | .named id, p => behind? s.outer (s.left.with (.name id)) p
  | .read t, p => behind? s.outer (s.left.with t) p

def State.answer? (s : State) : Option Tree := if s.outer.isEmpty then s.whole? else none

def read? (text : String) : Option Tree := do
  let pieces ← cut text.toList
  let state ← pieces.foldlM State.step? State.initial
  state.answer?

end Reading

end Plc.Java
