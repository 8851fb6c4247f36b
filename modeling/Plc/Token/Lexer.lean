import Plc.Token

/-! Cutting a text into tokens. At each place the token is the longest one that begins there, and
its form follows from its first character, or for a minus sign from the characters after it. -/
namespace Plc.Token

def isBlank (c : Char) : Bool :=
  c == ' ' || c == '\t' || c == '\n' || c == '\r' || c == '\x08'

def isNameStart (c : Char) : Bool := c == '@' || c.isAlpha

def isNamePart (c : Char) : Bool := c.isAlphanum || c == '_' || c == '-'

def isEscape (c : Char) : Bool :=
  c == 'b' || c == 'n' || c == 'r' || c == 't' || c == '\'' || c == '"' || c == '\\'

def isLineEnd (c : Char) : Bool := c == '\n' || c == '\r'

inductive Defect where
  | unterminatedCharacter
  | emptyCharacter
  | invalidCharacter
  | unterminatedString
  | invalidEscape
deriving DecidableEq

def Defect.message : Defect → String
  | unterminatedCharacter => "Unterminated character literal"
  | emptyCharacter => "Empty character literal"
  | invalidCharacter => "Invalid character literal"
  | unterminatedString => "Unterminated string literal"
  | invalidEscape => "Invalid escape sequence"

/-- A defect with the number of characters before the place where it shows. -/
structure Malformed where
  defect : Defect
  index : Nat
deriving DecidableEq

def Malformed.after (count : Nat) (m : Malformed) : Malformed :=
  ⟨m.defect, count + m.index⟩

structure Lexeme where
  kind : Kind
  text : List Char
  rest : List Char
deriving DecidableEq

/-- A zero stands alone; any other digit begins a run of digits. -/
def scanWhole : List Char → List Char × List Char
  | '0' :: cs => (['0'], cs)
  | cs => (cs.takeWhile Char.isDigit, cs.dropWhile Char.isDigit)

def scanFraction? : List Char → Option (List Char × List Char)
  | '.' :: d :: cs =>
    if d.isDigit then
      some ('.' :: d :: cs.takeWhile Char.isDigit, cs.dropWhile Char.isDigit)
    else none
  | _ => none

def scanUnsigned (cs : List Char) : Lexeme :=
  let (whole, rest) := scanWhole cs
  match scanFraction? rest with
  | some (fraction, rest) => ⟨.decimal, whole ++ fraction, rest⟩
  | none => ⟨.integer, whole, rest⟩

/-- The characters behind a minus sign, when the sign belongs to them: a zero takes no sign
unless a fraction follows. -/
def takesSign : List Char → Bool
  | '0' :: cs => (scanFraction? cs).isSome
  | c :: _ => c.isDigit
  | [] => false

def scanString : List Char → Except Malformed (List Char × List Char)
  | [] => .error ⟨.unterminatedString, 0⟩
  | '"' :: cs => .ok (['"'], cs)
  | ['\\'] => .error ⟨.invalidEscape, 1⟩
  | '\\' :: c :: cs =>
    if isEscape c then
      match scanString cs with
      | .ok (body, rest) => .ok ('\\' :: c :: body, rest)
      | .error m => .error (m.after 2)
    else .error ⟨.invalidEscape, 1⟩
  | c :: cs =>
    if isLineEnd c then .error ⟨.unterminatedString, 0⟩
    else
      match scanString cs with
      | .ok (body, rest) => .ok (c :: body, rest)
      | .error m => .error (m.after 1)

def scanCharacter : List Char → Except Malformed (List Char × List Char)
  | [] => .error ⟨.unterminatedCharacter, 0⟩
  | '\'' :: _ => .error ⟨.emptyCharacter, 0⟩
  | ['\\'] => .error ⟨.invalidEscape, 1⟩
  | '\\' :: c :: cs => if isEscape c then .ok (['\\', c], cs) else .error ⟨.invalidEscape, 1⟩
  | c :: cs => if isLineEnd c then .error ⟨.invalidCharacter, 0⟩ else .ok ([c], cs)

def isPair (c d : Char) : Bool :=
  ((c == '!' || c == '=') && d == '=') || (c == '&' && d == '&') || (c == '|' && d == '|')

def scanOperator (c : Char) : List Char → Lexeme
  | [] => ⟨.operator, [c], []⟩
  | d :: cs => if isPair c d then ⟨.operator, [c, d], cs⟩ else ⟨.operator, [c], d :: cs⟩

def scan (c : Char) (cs : List Char) : Except Malformed Lexeme :=
  if isNameStart c then
    .ok ⟨.identifier, c :: cs.takeWhile isNamePart, cs.dropWhile isNamePart⟩
  else if c.isDigit then .ok (scanUnsigned (c :: cs))
  else if c = '-' ∧ takesSign cs then
    let number := scanUnsigned cs
    .ok ⟨number.kind, c :: number.text, number.rest⟩
  else if c = '\'' then
    match scanCharacter cs with
    | .error m => .error (m.after 1)
    | .ok (body, '\'' :: rest) => .ok ⟨.character, c :: body ++ ['\''], rest⟩
    | .ok (body, _) => .error ⟨.unterminatedCharacter, 1 + body.length⟩
  else if c = '"' then
    match scanString cs with
    | .error m => .error (m.after 1)
    | .ok (body, rest) => .ok ⟨.string, c :: body, rest⟩
  else .ok (scanOperator c cs)

theorem scanWhole_append (cs : List Char) : (scanWhole cs).1 ++ (scanWhole cs).2 = cs := by
  unfold scanWhole
  split <;> simp

theorem scanFraction?_append (cs fraction rest : List Char)
    (found : scanFraction? cs = some (fraction, rest)) : fraction ++ rest = cs := by
  unfold scanFraction? at found
  split at found
  · split at found
    · obtain ⟨rfl, rfl⟩ := Prod.mk.inj (Option.some.inj found)
      simp
    · contradiction
  · contradiction

theorem scanUnsigned_append (cs : List Char) :
    (scanUnsigned cs).text ++ (scanUnsigned cs).rest = cs := by
  have whole := scanWhole_append cs
  unfold scanUnsigned
  split
  rename_i first rest split_eq
  rw [split_eq] at whole
  split
  · rename_i fraction behind found
    rw [← whole, ← scanFraction?_append _ _ _ found, List.append_assoc]
  · exact whole

theorem scanString_append (cs body rest : List Char)
    (found : scanString cs = .ok (body, rest)) : body ++ rest = cs := by
  fun_induction scanString cs generalizing body <;> grind

theorem scanCharacter_append (cs body rest : List Char)
    (found : scanCharacter cs = .ok (body, rest)) : body ++ rest = cs := by
  fun_cases scanCharacter cs <;> grind [scanCharacter]

theorem scanOperator_append (c : Char) (cs : List Char) :
    (scanOperator c cs).text ++ (scanOperator c cs).rest = c :: cs := by
  fun_cases scanOperator c cs <;> rfl

/-- A token and the text behind it are the whole text. -/
theorem scan_append (c : Char) (cs : List Char) (l : Lexeme) (found : scan c cs = .ok l) :
    l.text ++ l.rest = c :: cs := by
  unfold scan at found
  split at found
  · cases found
    simp
  split at found
  · cases found
    exact scanUnsigned_append _
  split at found
  · cases found
    simp [scanUnsigned_append]
  split at found
  · split at found
    · contradiction
    · rename_i body rest quoted
      cases found
      simp [← scanCharacter_append _ _ _ quoted]
    · contradiction
  split at found
  · split at found
    · contradiction
    · rename_i body rest quoted
      cases found
      simp [← scanString_append _ _ _ quoted]
  · cases found
    exact scanOperator_append c cs

theorem scanUnsigned_text_ne_nil (c : Char) (cs : List Char) (digit : c.isDigit) :
    (scanUnsigned (c :: cs)).text ≠ [] := by
  have whole : (scanWhole (c :: cs)).1 ≠ [] := by
    unfold scanWhole
    split
    · simp
    · simp [digit]
  unfold scanUnsigned
  split
  rename_i first rest split_eq
  rw [split_eq] at whole
  split
  · exact fun empty => whole (List.append_eq_nil_iff.1 empty).1
  · exact whole

theorem scan_text_ne_nil (c : Char) (cs : List Char) (l : Lexeme) (found : scan c cs = .ok l) :
    l.text ≠ [] := by
  unfold scan at found
  split at found
  · cases found
    simp
  split at found
  · rename_i digit
    cases found
    exact scanUnsigned_text_ne_nil c cs digit
  split at found
  · cases found
    simp
  split at found
  · split at found <;> cases found
    simp
  split at found
  · split at found <;> cases found
    simp
  · cases found
    fun_cases scanOperator c cs <;> simp

theorem scan_rest_length (c : Char) (cs : List Char) (l : Lexeme) (found : scan c cs = .ok l) :
    l.rest.length < (c :: cs).length := by
  have lengths := congrArg List.length (scan_append c cs l found)
  have positive := List.length_pos_iff.2 (scan_text_ne_nil c cs l found)
  simp only [List.length_append] at lengths
  omega

def lexFrom (index : Nat) : List Char → Except Malformed (List Token)
  | [] => .ok []
  | c :: cs =>
    if isBlank c then lexFrom (index + 1) cs
    else
      match found : scan c cs with
      | .error m => .error (m.after index)
      | .ok l =>
        have := scan_rest_length c cs l found
        match lexFrom (index + l.text.length) l.rest with
        | .error m => .error m
        | .ok tokens => .ok (⟨l.kind, String.ofList l.text, index⟩ :: tokens)
termination_by cs => cs.length
decreasing_by all_goals simp only [List.length_cons] at *; omega

def lex (text : String) : Except Malformed (List Token) := lexFrom 0 text.toList

end Plc.Token
