import Mathlib.Data.List.TakeWhile
import Plc.Proofs.Token.Form

/-! The scanner takes the longest text that has one of the forms, whatever the order of its
tests. -/
namespace Plc.Token

open scoped Computability

/-- A lexeme has at least `count` characters, and is of the given kind if it has no more. -/
def Lexeme.Covers (l : Lexeme) (kind : Kind) (count : Nat) : Prop :=
  count ≤ l.text.length ∧ (count = l.text.length → l.kind = kind)

theorem Lexeme.Covers.of_le {l : Lexeme} {kind : Kind} {m n : Nat} (covers : l.Covers kind n)
    (le : m ≤ n) : l.Covers kind m := by
  obtain ⟨enough, exact_⟩ := covers
  refine ⟨Nat.le_trans le enough, ?_⟩
  intro equal
  exact exact_ (by omega)

section Numbers

variable {c : Char} {cs w rest : List Char}

theorem scanWhole_of_ne_zero (other : c ≠ '0') :
    scanWhole (c :: cs) =
      ((c :: cs).takeWhile Char.isDigit, (c :: cs).dropWhile Char.isDigit) := by
  unfold scanWhole
  split
  · simp_all
  · rfl

theorem scanUnsigned_covers_whole (cs : List Char) :
    (scanUnsigned cs).Covers .integer (scanWhole cs).1.length := by
  unfold scanUnsigned
  split
  rename_i whole behind split_eq
  rw [split_eq]
  split
  · rename_i fraction after found
    have : fraction ++ after = behind := scanFraction?_append _ _ _ found
    have : fraction ≠ [] := by
      rintro rfl
      unfold scanFraction? at found
      grind
    have positive := List.length_pos_iff.2 this
    constructor
    · simp
    · simp
      omega
  · exact ⟨Nat.le_refl _, fun _ => rfl⟩

theorem mem_leading_digits : w ∈ leading * digit∗ ↔
    ∃ c v, (c.isDigit = true ∧ c ≠ '0') ∧ (∀ d ∈ v, d.isDigit = true) ∧ w = c :: v := by
  simp only [leading, digit, mem_oneOf_mul, mem_oneOf_kstar]

theorem mem_numeral : w ∈ numeral ↔ w = ['0'] ∨ w ∈ leading * digit∗ := by
  simp only [numeral, zero, Language.mem_add, mem_oneOf, exists_eq_left]

theorem mem_fraction : w ∈ point * (digit * digit∗) ↔
    ∃ d v, d.isDigit = true ∧ (∀ e ∈ v, e.isDigit = true) ∧ w = '.' :: d :: v := by
  simp only [point, digit, mem_oneOf_mul, mem_oneOf_kstar]
  constructor
  · rintro ⟨_, _, rfl, ⟨d, v, first, others, rfl⟩, rfl⟩
    exact ⟨d, v, first, others, rfl⟩
  · rintro ⟨d, v, first, others, rfl⟩
    exact ⟨'.', d :: v, rfl, ⟨d, v, first, others, rfl⟩, rfl⟩

theorem scanUnsigned_covers_numeral (member : w ∈ numeral) :
    (scanUnsigned (w ++ rest)).Covers .integer w.length := by
  apply (scanUnsigned_covers_whole (w ++ rest)).of_le
  rcases mem_numeral.mp member with rfl | member
  · exact Nat.le_refl 1
  · obtain ⟨c, v, ⟨first, other⟩, digits, rfl⟩ := mem_leading_digits.mp member
    rw [List.cons_append, scanWhole_of_ne_zero other, ← List.cons_append,
      List.takeWhile_append_of_pos (List.forall_mem_cons.mpr ⟨first, digits⟩)]
    simp

/-- Before a point the digits are taken exactly. -/
theorem scanWhole_before_point (member : w ∈ numeral) :
    scanWhole (w ++ '.' :: rest) = (w, '.' :: rest) := by
  rcases mem_numeral.mp member with rfl | member
  · rfl
  · obtain ⟨c, v, ⟨first, other⟩, digits, rfl⟩ := mem_leading_digits.mp member
    have all : ∀ d ∈ c :: v, d.isDigit = true := List.forall_mem_cons.mpr ⟨first, digits⟩
    rw [List.cons_append, scanWhole_of_ne_zero other, ← List.cons_append,
      List.takeWhile_append_of_pos all, List.dropWhile_append_of_pos all]
    simp

theorem scanUnsigned_covers_decimal (member : w ∈ numeral * (point * (digit * digit∗))) :
    (scanUnsigned (w ++ rest)).Covers .decimal w.length := by
  obtain ⟨whole, numeral, fraction, behind, rfl⟩ := Language.mem_mul.mp member
  obtain ⟨d, v, first, digits, rfl⟩ := mem_fraction.mp behind
  have found : scanFraction? ('.' :: d :: (v ++ rest)) =
      some ('.' :: d :: (v ++ rest).takeWhile Char.isDigit,
        (v ++ rest).dropWhile Char.isDigit) := by
    simp [scanFraction?, first]
  rw [List.append_assoc, scanUnsigned]
  simp only [List.cons_append, scanWhole_before_point numeral, found]
  constructor
  · simp [List.takeWhile_append_of_pos digits]
  · exact fun _ => rfl

theorem takesSign_of_leading (member : w ∈ leading * digit∗) : takesSign (w ++ rest) = true := by
  obtain ⟨c, v, ⟨first, other⟩, _, rfl⟩ := mem_leading_digits.mp member
  rw [List.cons_append]
  unfold takesSign
  split <;> simp_all

theorem takesSign_of_decimal (member : w ∈ numeral * (point * (digit * digit∗))) :
    takesSign (w ++ rest) = true := by
  obtain ⟨whole, numeral, fraction, behind, rfl⟩ := Language.mem_mul.mp member
  rcases mem_numeral.mp numeral with rfl | large
  · obtain ⟨d, v, first, _, rfl⟩ := mem_fraction.mp behind
    simp [takesSign, scanFraction?, first]
  · rw [List.append_assoc]
    exact takesSign_of_leading large

theorem exists_digit_of_takesSign (signed : takesSign cs = true) :
    ∃ c v, cs = c :: v ∧ c.isDigit = true := by
  unfold takesSign at signed
  split at signed
  · exact ⟨'0', _, rfl, rfl⟩
  · exact ⟨_, _, rfl, signed⟩
  · contradiction

/-- What is scanned without a sign has a form without a sign. -/
theorem scanUnsigned_mem (digit : c.isDigit = true) (cs : List Char) :
    (scanUnsigned (c :: cs)).kind = .integer ∧ (scanUnsigned (c :: cs)).text ∈ numeral ∨
      (scanUnsigned (c :: cs)).kind = .decimal ∧
        (scanUnsigned (c :: cs)).text ∈ numeral * (point * (Token.digit * Token.digit∗)) := by
  have whole : (scanWhole (c :: cs)).1 ∈ numeral := by
    by_cases zero : c = '0'
    · subst zero
      exact mem_numeral.mpr (.inl rfl)
    · rw [scanWhole_of_ne_zero zero]
      refine mem_numeral.mpr (.inr (mem_leading_digits.mpr
        ⟨c, cs.takeWhile Char.isDigit, ⟨digit, zero⟩, ?_, by simp [digit]⟩))
      exact fun d member => List.mem_takeWhile_imp member
  unfold scanUnsigned
  split
  rename_i first behind split_eq
  rw [split_eq] at whole
  split
  · rename_i fraction after found
    refine .inr ⟨rfl, Language.append_mem_mul whole (mem_fraction.mpr ?_)⟩
    unfold scanFraction? at found
    split at found
    · rename_i d ds
      split at found
      · rename_i isDigit
        cases found
        exact ⟨d, ds.takeWhile Char.isDigit, isDigit, fun e => List.mem_takeWhile_imp, rfl⟩
      · cases found
    · cases found
  · exact .inl ⟨rfl, whole⟩

theorem mem_integer_of_numeral (member : w ∈ numeral) : w ∈ Kind.integer.form := by
  rcases mem_numeral.mp member with zero | large
  · exact .inl ⟨'0', rfl, zero⟩
  · exact .inr (mem_optionalMinus_mul.mpr (.inl large))

theorem scanUnsigned_form (digit : c.isDigit = true) :
    (scanUnsigned (c :: cs)).text ∈ (scanUnsigned (c :: cs)).kind.form := by
  rcases scanUnsigned_mem digit cs with ⟨kind, member⟩ | ⟨kind, member⟩
  · rw [kind]
    exact mem_integer_of_numeral member
  · rw [kind]
    exact mem_optionalMinus_mul.mpr (.inl member)

/-- A zero takes no sign for itself. -/
theorem scanUnsigned_form_of_takesSign (signed : takesSign cs = true) :
    '-' :: (scanUnsigned cs).text ∈ (scanUnsigned cs).kind.form := by
  obtain ⟨c, v, rfl, digit⟩ := exists_digit_of_takesSign signed
  rcases scanUnsigned_mem digit v with ⟨kind, member⟩ | ⟨kind, member⟩
  · rw [kind]
    refine .inr (mem_optionalMinus_mul.mpr (.inr ⟨_, ?_, rfl⟩))
    rcases mem_numeral.mp member with zero | large
    · have whole := scanUnsigned_append (c :: v)
      rw [zero] at whole
      obtain ⟨rfl, _⟩ := List.cons.inj whole
      obtain ⟨⟨fraction, after⟩, found⟩ := Option.isSome_iff_exists.mp signed
      simp [scanUnsigned, scanWhole, found] at kind
    · exact large
  · rw [kind]
    exact mem_optionalMinus_mul.mpr (.inr ⟨_, member, rfl⟩)

end Numbers

section Quotes

variable {c : Char} {cs w rest body : List Char}

theorem scanCharacter_of_mem (member : w ∈ quotable '\'' * oneOf (· = '\'')) (rest : List Char) :
    ∃ body, w = body ++ ['\''] ∧ scanCharacter (w ++ rest) = .ok (body, '\'' :: rest) := by
  rcases mem_quotable_mul.mp member with
    ⟨c, _, plain, ⟨_, rfl, rfl⟩, rfl⟩ | ⟨c, _, known, ⟨_, rfl, rfl⟩, rfl⟩
  · refine ⟨[c], rfl, ?_⟩
    simp at plain
    simp [scanCharacter, isLineEnd, plain]
  · refine ⟨['\\', c], rfl, ?_⟩
    rw [← isEscape_iff] at known
    simp [scanCharacter, known]

/-- What neither ends in a backslash nor goes on behind one begins otherwise. -/
theorem ne_backslash (noEnd : c = '\\' → cs = [] → False)
    (noEscape : ∀ d ds, c = '\\' → cs = d :: ds → False) : c ≠ '\\' := by
  intro same
  cases cs with
  | nil => exact noEnd same rfl
  | cons d ds => exact noEscape d ds same rfl

/-- A character is an escape, or stands for itself. -/
theorem cases_of_scanCharacter (found : scanCharacter cs = .ok (body, rest)) :
    (∃ d, isEscape d = true ∧ body = ['\\', d]) ∨
      ∃ d, d ≠ '\'' ∧ d ≠ '\\' ∧ isLineEnd d = false ∧ body = [d] := by
  unfold scanCharacter at found
  split at found
  · cases found
  · cases found
  · cases found
  · split at found
    · rename_i known
      cases found
      exact .inl ⟨_, known, rfl⟩
    · cases found
  · rename_i noQuote noEnd noEscape
    split at found
    · cases found
    · rename_i inside
      cases found
      exact .inr ⟨_, noQuote, ne_backslash noEnd noEscape, Bool.eq_false_iff.mpr inside, rfl⟩

theorem mem_of_scanCharacter (found : scanCharacter cs = .ok (body, rest)) :
    body ++ ['\''] ∈ quotable '\'' * oneOf (· = '\'') := by
  apply mem_quotable_mul.mpr
  rcases cases_of_scanCharacter found with ⟨d, known, rfl⟩ | ⟨d, noQuote, noEscape, inLine, rfl⟩
  · exact .inr ⟨d, ['\''], isEscape_iff.mp known, mem_oneOf.mpr ⟨_, rfl, rfl⟩, rfl⟩
  · rw [← Bool.not_eq_true, isLineEnd_iff, not_or] at inLine
    refine .inl ⟨d, ['\''], ?_, mem_oneOf.mpr ⟨_, rfl, rfl⟩, rfl⟩
    simp [noQuote, noEscape, inLine]

theorem scanString_of_mem (member : w ∈ (quotable '"')∗ * oneOf (· = '"')) :
    scanString (w ++ rest) = .ok (w, rest) := by
  obtain ⟨_, star, _, ⟨_, rfl, rfl⟩, rfl⟩ := Language.mem_mul.mp member
  obtain ⟨parts, rfl, each⟩ := Language.mem_kstar.mp star
  clear member star
  induction parts with
  | nil => rfl
  | cons part parts ih =>
    obtain ⟨here, behind⟩ := List.forall_mem_cons.mp each
    specialize ih behind
    simp only [List.append_assoc, List.cons_append, List.nil_append] at ih
    rw [← mul_one (quotable '"')] at here
    rcases mem_quotable_mul.mp here with ⟨c, _, plain, rfl, rfl⟩ | ⟨c, _, known, rfl, rfl⟩
    · simp at plain
      simp [scanString, isLineEnd, plain, ih]
    · rw [← isEscape_iff] at known
      simp [scanString, known, ih]

theorem mem_of_scanString (found : scanString cs = .ok (body, rest)) :
    body ∈ (quotable '"')∗ * oneOf (· = '"') := by
  fun_induction scanString cs generalizing body with
  | case2 cs =>
    cases found
    rw [kstar_mul_eq]
    exact .inl ⟨_, rfl, rfl⟩
  | case4 c cs known read after deeper ih =>
    cases found
    rw [kstar_mul_eq]
    exact .inr (mem_quotable_mul.mpr (.inr ⟨c, read, isEscape_iff.mp known, ih deeper, rfl⟩))
  | case8 c cs noQuote noEnd noBackslash inLine read after deeper ih =>
    cases found
    have other : c ≠ '\\' := ne_backslash noEnd noBackslash
    have quoteless : c ≠ '"' := noQuote
    rw [isLineEnd_iff, not_or] at inLine
    rw [kstar_mul_eq]
    refine .inr (mem_quotable_mul.mpr (.inl ⟨c, read, ?_, ih deeper, rfl⟩))
    simp [quoteless, inLine, other]
  | _ => contradiction

end Quotes

section Scan

variable {c : Char} {cs w rest : List Char} {kind : Kind} {l : Lexeme} {k : Language Char}

theorem scan_of_isNameStart (start : isNameStart c = true) : scan c cs =
    .ok ⟨.identifier, c :: cs.takeWhile isNamePart, cs.dropWhile isNamePart⟩ := by
  rw [scan, if_pos start]

theorem scan_of_isDigit (digit : c.isDigit = true) :
    scan c cs = .ok (scanUnsigned (c :: cs)) := by
  rw [scan, isNameStart_eq_false_of_isDigit digit, if_neg Bool.false_ne_true, if_pos digit]

theorem scan_minus (signed : takesSign cs = true) : scan '-' cs =
    .ok ⟨(scanUnsigned cs).kind, '-' :: (scanUnsigned cs).text, (scanUnsigned cs).rest⟩ := by
  rw [scan, if_neg (by decide), if_neg (by decide), if_pos ⟨rfl, signed⟩]

theorem scan_symbol (symbol : IsSymbol c) (unsigned : ¬ (c = '-' ∧ takesSign cs = true)) :
    scan c cs = .ok (scanOperator c cs) := by
  obtain ⟨_, known, alpha, digit⟩ := symbol
  simp only [List.mem_cons, List.not_mem_nil, not_or] at known
  rw [scan, if_neg, if_neg digit, if_neg unsigned, if_neg (by simp [known]),
    if_neg (by simp [known])]
  rw [isNameStart_iff, not_or]
  exact ⟨by simp [known], alpha⟩

theorem scan_character {body : List Char} (found : scanCharacter cs = .ok (body, '\'' :: rest)) :
    scan '\'' cs = .ok ⟨.character, '\'' :: body ++ ['\''], rest⟩ := by
  rw [scan, if_neg (by decide), if_neg (by decide), if_neg (by simp), if_pos rfl, found]
  rfl

theorem scan_string {body : List Char} (found : scanString cs = .ok (body, rest)) :
    scan '"' cs = .ok ⟨.string, '"' :: body, rest⟩ := by
  rw [scan, if_neg (by decide), if_neg (by decide), if_neg (by simp), if_neg (by decide),
    if_pos rfl, found]

/-- Only what begins with a quote can be malformed. -/
theorem scan_eq_error {m : Malformed} (failed : scan c cs = .error m) :
    (c = '\'' ∧ ∃ m', scanCharacter cs = .error m' ∧ m = m'.after 1) ∨
    (c = '\'' ∧ ∃ body rest, scanCharacter cs = .ok (body, rest) ∧ '\'' ∉ rest.head? ∧
      m = ⟨.unterminatedCharacter, 1 + body.length⟩) ∨
    c = '"' ∧ ∃ m', scanString cs = .error m' ∧ m = m'.after 1 := by
  unfold scan at failed
  split at failed
  · cases failed
  split at failed
  · cases failed
  split at failed
  · cases failed
  split at failed
  · rename_i quote
    split at failed
    · rename_i m' open_
      cases failed
      exact .inl ⟨quote, m', open_, rfl⟩
    · cases failed
    · rename_i body rest noQuote closed
      cases failed
      refine .inr (.inl ⟨quote, body, rest, closed, ?_, rfl⟩)
      intro head
      obtain ⟨behind, rfl⟩ := List.head?_eq_some_iff.mp head
      exact noQuote behind rfl
  split at failed
  · rename_i quote
    split at failed
    · rename_i m' open_
      cases failed
      exact .inr (.inr ⟨quote, m', open_, rfl⟩)
    · cases failed
  · cases failed

theorem scan_character_malformed {m : Malformed} (failed : scanCharacter cs = .error m) :
    scan '\'' cs = .error (m.after 1) := by
  rw [scan, if_neg (by decide), if_neg (by decide), if_neg (by simp), if_pos rfl, failed]

theorem scan_character_open {body : List Char} (found : scanCharacter cs = .ok (body, rest))
    (noQuote : '\'' ∉ rest.head?) :
    scan '\'' cs = .error ⟨.unterminatedCharacter, 1 + body.length⟩ := by
  rw [scan, if_neg (by decide), if_neg (by decide), if_neg (by simp), if_pos rfl, found]
  cases rest with
  | nil => rfl
  | cons d rest =>
    have other : d ≠ '\'' := fun same => noQuote (by rw [same]; rfl)
    simp [other]

theorem scan_string_malformed {m : Malformed} (failed : scanString cs = .error m) :
    scan '"' cs = .error (m.after 1) := by
  rw [scan, if_neg (by decide), if_neg (by decide), if_neg (by simp), if_neg (by decide),
    if_pos rfl, failed]

theorem scanOperator_covers : (scanOperator c cs).Covers .operator 1 := by
  unfold scanOperator Lexeme.Covers
  split
  · simp
  · split <;> simp

theorem isSymbol_of_mem_pairs {d : Char} (member : [c, d] ∈ pairs) :
    IsSymbol c ∧ c ≠ '-' := by
  rw [mem_pairs] at member
  simp only [List.mem_cons, List.cons.injEq, List.not_mem_nil, or_false, and_true] at member
  unfold IsSymbol
  rcases member with ⟨rfl, _⟩ | ⟨rfl, _⟩ | ⟨rfl, _⟩ | ⟨rfl, _⟩ <;> decide

def Scans (kind : Kind) (count : Nat) (text : List Char) : Prop :=
  ∃ c cs l, text = c :: cs ∧ isBlank c = false ∧ scan c cs = .ok l ∧ l.Covers kind count

theorem scans_identifier (member : w ∈ Kind.identifier.form) :
    Scans .identifier w.length (w ++ rest) := by
  obtain ⟨c, v, start, parts, rfl⟩ := mem_oneOf_mul.mp member
  rw [mem_oneOf_kstar] at parts
  rw [← isNameStart_iff] at start
  refine ⟨c, v ++ rest, _, rfl, isBlank_eq_false_of_isNameStart start,
    scan_of_isNameStart start, ?_, fun _ => rfl⟩
  rw [List.takeWhile_append_of_pos fun d inside => isNamePart_iff.mpr (parts d inside)]
  simp

theorem scans_of_unsigned (digit : ∃ c v, w = c :: v ∧ c.isDigit = true)
    (covers : (scanUnsigned (w ++ rest)).Covers kind w.length) :
    Scans kind w.length (w ++ rest) := by
  obtain ⟨c, v, rfl, digit⟩ := digit
  exact ⟨c, v ++ rest, _, rfl, isBlank_eq_false_of_isDigit digit, scan_of_isDigit digit, covers⟩

theorem scans_of_signed (signed : takesSign (w ++ rest) = true)
    (covers : (scanUnsigned (w ++ rest)).Covers kind w.length) :
    Scans kind ('-' :: w).length ('-' :: w ++ rest) := by
  refine ⟨'-', w ++ rest, _, rfl, by decide, scan_minus signed, ?_, ?_⟩
  · simpa using covers.1
  · intro equal
    exact covers.2 (by simpa using equal)

theorem exists_digit_of_numeral (member : w ∈ numeral * k) :
    ∃ c v, w = c :: v ∧ c.isDigit = true := by
  obtain ⟨whole, numeral, behind, _, rfl⟩ := Language.mem_mul.mp member
  rcases mem_numeral.mp numeral with rfl | large
  · exact ⟨'0', behind, rfl, rfl⟩
  · obtain ⟨c, v, ⟨digit, _⟩, _, rfl⟩ := mem_leading_digits.mp large
    exact ⟨c, v ++ behind, rfl, digit⟩

theorem scans_integer (member : w ∈ Kind.integer.form) :
    Scans .integer w.length (w ++ rest) := by
  have unsigned : ∀ v ∈ numeral, Scans .integer v.length (v ++ rest) := by
    intro v member
    rw [← mul_one numeral] at member
    exact scans_of_unsigned (exists_digit_of_numeral member)
      (scanUnsigned_covers_numeral (by rwa [mul_one] at member))
  rcases (Language.mem_add _ _ _).mp member with zero | member
  · exact unsigned w ((Language.mem_add _ _ _).mpr (.inl zero))
  · rcases mem_optionalMinus_mul.mp member with large | ⟨v, large, rfl⟩
    · exact unsigned w (mem_numeral.mpr (.inr large))
    · exact scans_of_signed (takesSign_of_leading large)
        (scanUnsigned_covers_numeral (mem_numeral.mpr (.inr large)))

theorem scans_decimal (member : w ∈ Kind.decimal.form) :
    Scans .decimal w.length (w ++ rest) := by
  rcases mem_optionalMinus_mul.mp member with digits | ⟨v, digits, rfl⟩
  · exact scans_of_unsigned (exists_digit_of_numeral digits) (scanUnsigned_covers_decimal digits)
  · exact scans_of_signed (takesSign_of_decimal digits) (scanUnsigned_covers_decimal digits)

theorem scans_character (member : w ∈ Kind.character.form) :
    Scans .character w.length (w ++ rest) := by
  obtain ⟨_, v, rfl, inside, rfl⟩ := mem_oneOf_mul.mp member
  obtain ⟨body, rfl, found⟩ := scanCharacter_of_mem inside rest
  exact ⟨'\'', _, _, rfl, by decide, scan_character found, Nat.le_refl _, fun _ => rfl⟩

theorem scans_string (member : w ∈ Kind.string.form) :
    Scans .string w.length (w ++ rest) := by
  obtain ⟨_, v, rfl, inside, rfl⟩ := mem_oneOf_mul.mp member
  exact ⟨'"', v ++ rest, _, rfl, by decide, scan_string (scanString_of_mem inside),
    Nat.le_refl _, fun _ => rfl⟩

theorem scans_operator (member : w ∈ Kind.operator.form) :
    Scans .operator w.length (w ++ rest) := by
  rcases (Language.mem_add _ _ _).mp member with pair | ⟨c, symbol, rfl⟩
  · have known : ∃ c d, w = [c, d] := by
      rw [mem_pairs] at pair
      simp only [List.mem_cons, List.not_mem_nil, or_false] at pair
      rcases pair with rfl | rfl | rfl | rfl <;> exact ⟨_, _, rfl⟩
    obtain ⟨c, d, rfl⟩ := known
    obtain ⟨symbol, noMinus⟩ := isSymbol_of_mem_pairs pair
    refine ⟨c, d :: rest, _, rfl, symbol.isBlank_eq_false,
      scan_symbol symbol fun minus => noMinus minus.1, ?_⟩
    simp [scanOperator, isPair_iff.mpr pair, Lexeme.Covers]
  · by_cases minus : c = '-' ∧ takesSign rest = true
    · obtain ⟨rfl, signed⟩ := minus
      obtain ⟨d, v, rfl, digit⟩ := exists_digit_of_takesSign signed
      have longer := List.length_pos_iff.mpr (scanUnsigned_text_ne_nil d v digit)
      refine ⟨'-', d :: v, _, rfl, by decide, scan_minus signed, ?_⟩
      constructor
      · simp
      · intro single
        simp only [List.length_cons, List.length_nil] at single
        omega
    · exact ⟨c, rest, _, rfl, symbol.isBlank_eq_false, scan_symbol symbol minus,
        scanOperator_covers⟩

/-- Whatever has a form is found by the scanner, unless something longer is. -/
theorem scans_of_mem (member : w ∈ kind.form) (rest : List Char) :
    Scans kind w.length (w ++ rest) := by
  cases kind with
  | identifier => exact scans_identifier member
  | integer => exact scans_integer member
  | decimal => exact scans_decimal member
  | character => exact scans_character member
  | string => exact scans_string member
  | operator => exact scans_operator member

/-- What the scanner finds has the form that it says. -/
theorem mem_of_scan (blank : isBlank c = false) (found : scan c cs = .ok l) :
    l.text ∈ l.kind.form := by
  -- Each form is tried where those before it do not begin.
  unfold scan at found
  split at found
  · rename_i start
    cases found
    exact mem_oneOf_mul.mpr ⟨c, _, isNameStart_iff.mp start, mem_oneOf_kstar.mpr
      fun d inside => isNamePart_iff.mp (List.mem_takeWhile_imp inside), rfl⟩
  rename_i noName
  split at found
  · rename_i digit
    cases found
    exact scanUnsigned_form digit
  rename_i noDigit
  split at found
  · rename_i minus
    obtain ⟨rfl, signed⟩ := minus
    cases found
    exact scanUnsigned_form_of_takesSign signed
  rename_i noMinus
  split at found
  · rename_i quote
    subst quote
    split at found
    · cases found
    · rename_i body rest quoted
      cases found
      exact mem_oneOf_mul.mpr ⟨'\'', _, rfl, mem_of_scanCharacter quoted, rfl⟩
    · cases found
  rename_i noQuote
  split at found
  · rename_i quote
    subst quote
    split at found
    · cases found
    · rename_i body rest quoted
      cases found
      exact mem_oneOf_mul.mpr ⟨'"', _, rfl, mem_of_scanString quoted, rfl⟩
  · rename_i noDouble
    cases found
    have symbol : IsSymbol c := by
      rw [isNameStart_iff, not_or] at noName
      rw [← Bool.not_eq_true, isBlank_iff] at blank
      exact ⟨blank, by simp [noQuote, noDouble, noName.1], noName.2, noDigit⟩
    unfold scanOperator
    split
    · exact .inr ⟨c, symbol, rfl⟩
    · split
      · rename_i pair
        exact .inl (isPair_iff.mp pair)
      · exact .inr ⟨c, symbol, rfl⟩

end Scan

end Plc.Token
