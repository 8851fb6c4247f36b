import Mathlib.Computability.Language
import Plc.Token.Lexer

/-! The forms of tokens, as languages. Nothing is said here about how a text is cut into tokens. -/
namespace Plc.Token

open scoped Computability

def oneOf (test : Char → Prop) : Language Char := {w | ∃ c, test c ∧ w = [c]}

def digit : Language Char := oneOf fun c => c.isDigit

def leading : Language Char := oneOf fun c => c.isDigit ∧ c ≠ '0'

def zero : Language Char := oneOf (· = '0')

/-- Digits without a zero in front of others. -/
def numeral : Language Char := zero + leading * digit∗

def point : Language Char := oneOf (· = '.')

def optionalMinus : Language Char := 1 + oneOf (· = '-')

def escape : Language Char :=
  oneOf (· = '\\') * oneOf (· ∈ ['b', 'n', 'r', 't', '\'', '"', '\\'])

def quotable (quote : Char) : Language Char :=
  oneOf (· ∉ [quote, '\n', '\r', '\\']) + escape

def pairs : Language Char := {w | w ∈ [['!', '='], ['=', '='], ['&', '&'], ['|', '|']]}

def blanks : List Char := [' ', '\t', '\n', '\r', '\x08']

def IsSymbol (c : Char) : Prop :=
  c ∉ blanks ∧ c ∉ ['\'', '"', '@'] ∧ ¬ c.isAlpha ∧ ¬ c.isDigit

def Kind.form : Kind → Language Char
  | .identifier =>
    oneOf (fun c => c = '@' ∨ c.isAlpha) * (oneOf fun c => c.isAlphanum ∨ c = '_' ∨ c = '-')∗
  | .integer => zero + optionalMinus * (leading * digit∗)
  | .decimal => optionalMinus * (numeral * (point * (digit * digit∗)))
  | .character => oneOf (· = '\'') * (quotable '\'' * oneOf (· = '\''))
  | .string => oneOf (· = '"') * ((quotable '"')∗ * oneOf (· = '"'))
  | .operator => pairs + oneOf IsSymbol

section Membership

variable {test : Char → Prop} {l : Language Char} {w : List Char}

theorem mem_oneOf : w ∈ oneOf test ↔ ∃ c, test c ∧ w = [c] := Iff.rfl

theorem mem_pairs : w ∈ pairs ↔ w ∈ [['!', '='], ['=', '='], ['&', '&'], ['|', '|']] := Iff.rfl

theorem mem_oneOf_mul : w ∈ oneOf test * l ↔ ∃ c v, test c ∧ v ∈ l ∧ w = c :: v := by
  rw [Language.mem_mul]
  constructor
  · rintro ⟨_, ⟨c, passes, rfl⟩, v, member, rfl⟩
    exact ⟨c, v, passes, member, rfl⟩
  · rintro ⟨c, v, passes, member, rfl⟩
    exact ⟨[c], ⟨c, passes, rfl⟩, v, member, rfl⟩

theorem mem_optionalMinus_mul :
    w ∈ optionalMinus * l ↔ w ∈ l ∨ ∃ v ∈ l, w = '-' :: v := by
  rw [optionalMinus, add_mul, one_mul, Language.mem_add, mem_oneOf_mul]
  simp only [exists_and_left, exists_eq_left]

theorem mem_oneOf_kstar : w ∈ (oneOf test)∗ ↔ ∀ c ∈ w, test c := by
  rw [Language.mem_kstar]
  constructor
  · rintro ⟨parts, rfl, each⟩ c member
    obtain ⟨part, inside, member⟩ := List.mem_flatten.mp member
    obtain ⟨d, passes, rfl⟩ := each part inside
    rwa [List.mem_singleton.mp member]
  · intro each
    refine ⟨w.map fun c => [c], by simp [← List.flatMap_def], ?_⟩
    intro part member
    obtain ⟨c, inside, rfl⟩ := List.mem_map.mp member
    exact ⟨c, each c inside, rfl⟩

/-- What may stand between quotes, taken apart from the front. -/
theorem mem_quotable_mul {quote : Char} : w ∈ quotable quote * l ↔
    (∃ c v, c ∉ [quote, '\n', '\r', '\\'] ∧ v ∈ l ∧ w = c :: v) ∨
      ∃ c v, c ∈ ['b', 'n', 'r', 't', '\'', '"', '\\'] ∧ v ∈ l ∧ w = '\\' :: c :: v := by
  rw [quotable, escape, add_mul, mul_assoc, Language.mem_add, mem_oneOf_mul, mem_oneOf_mul]
  simp only [mem_oneOf_mul]
  constructor
  · rintro (plain | ⟨_, _, rfl, ⟨c, v, known, member, rfl⟩, rfl⟩)
    · exact .inl plain
    · exact .inr ⟨c, v, known, member, rfl⟩
  · rintro (plain | ⟨c, v, known, member, rfl⟩)
    · exact .inl plain
    · exact .inr ⟨'\\', c :: v, rfl, ⟨c, v, known, member, rfl⟩, rfl⟩

theorem kstar_mul_eq (k l : Language Char) : k∗ * l = l + k * (k∗ * l) := by
  calc k∗ * l = (1 + k * k∗) * l := by rw [Language.one_add_self_mul_kstar_eq_kstar]
    _ = l + k * (k∗ * l) := by rw [add_mul, one_mul, mul_assoc]

end Membership

section Classes

variable {c : Char}

theorem isBlank_iff : isBlank c = true ↔ c ∈ blanks := by
  simp [isBlank, blanks, or_assoc]

theorem isNameStart_iff : isNameStart c = true ↔ c = '@' ∨ c.isAlpha = true := by
  simp [isNameStart]

theorem isNamePart_iff :
    isNamePart c = true ↔ c.isAlphanum = true ∨ c = '_' ∨ c = '-' := by
  simp [isNamePart, or_assoc]

theorem isEscape_iff :
    isEscape c = true ↔ c ∈ ['b', 'n', 'r', 't', '\'', '"', '\\'] := by
  simp [isEscape, or_assoc]

theorem isLineEnd_iff : isLineEnd c = true ↔ c = '\n' ∨ c = '\r' := by
  simp [isLineEnd]

theorem isPair_iff {d : Char} : isPair c d = true ↔ [c, d] ∈ pairs := by
  rw [mem_pairs]
  simp [isPair]
  grind

theorem isAlpha_eq_false_of_isDigit (digit : c.isDigit = true) : c.isAlpha = false := by
  have most : c.val.toNat ≤ 57 := by
    simp only [Char.isDigit, Bool.and_eq_true, decide_eq_true_eq] at digit
    exact UInt32.le_iff_toNat_le.mp digit.2
  have upper : ¬ 65 ≤ c.val := fun least => by
    have least : 65 ≤ c.val.toNat := UInt32.le_iff_toNat_le.mp least
    omega
  have lower : ¬ 97 ≤ c.val := fun least => by
    have least : 97 ≤ c.val.toNat := UInt32.le_iff_toNat_le.mp least
    omega
  have noUpper : c.isUpper = false := decide_eq_false fun both => upper both.1
  have noLower : c.isLower = false := Bool.and_eq_false_imp.mpr fun least =>
    absurd (of_decide_eq_true least) lower
  exact Bool.or_eq_false_iff.mpr ⟨noUpper, noLower⟩

theorem isNameStart_eq_false_of_isDigit (digit : c.isDigit = true) : isNameStart c = false := by
  have noAt : c ≠ '@' := by
    rintro rfl
    contradiction
  simp [isNameStart, isAlpha_eq_false_of_isDigit digit, noAt]

theorem isBlank_eq_false_of_isDigit (digit : c.isDigit = true) : isBlank c = false := by
  rw [← Bool.not_eq_true, isBlank_iff]
  intro blank
  simp only [blanks, List.mem_cons, List.not_mem_nil, or_false] at blank
  rcases blank with rfl | rfl | rfl | rfl | rfl <;> contradiction

theorem isBlank_eq_false_of_isNameStart (start : isNameStart c = true) : isBlank c = false := by
  rw [← Bool.not_eq_true, isBlank_iff]
  intro blank
  simp only [blanks, List.mem_cons, List.not_mem_nil, or_false] at blank
  rcases blank with rfl | rfl | rfl | rfl | rfl <;> contradiction

theorem IsSymbol.isBlank_eq_false (symbol : IsSymbol c) : isBlank c = false := by
  rw [← Bool.not_eq_true, isBlank_iff]
  exact symbol.1

end Classes

section Identifiers

def IsIdentifier (text : String) : Prop := text.toList ∈ Kind.identifier.form

theorem isIdentifier_iff {text : String} : IsIdentifier text ↔ ∃ c cs, text.toList = c :: cs ∧
    isNameStart c = true ∧ ∀ d ∈ cs, isNamePart d = true := by
  simp only [IsIdentifier, Kind.form, mem_oneOf_mul, mem_oneOf_kstar, isNameStart_iff,
    isNamePart_iff]
  constructor
  · rintro ⟨c, cs, start, parts, same⟩
    exact ⟨c, cs, same, start, parts⟩
  · rintro ⟨c, cs, same, start, parts⟩
    exact ⟨c, cs, start, parts, same⟩

instance (text : String) : Decidable (IsIdentifier text) :=
  match same : text.toList with
  | [] => .isFalse fun named => by
    obtain ⟨c, cs, absurd, _⟩ := isIdentifier_iff.mp named
    rw [same] at absurd
    cases absurd
  | c :: cs => decidable_of_iff (isNameStart c = true ∧ cs.all isNamePart = true) <| by
      rw [isIdentifier_iff, same, List.all_eq_true]
      simp

end Identifiers

end Plc.Token
