import Plc.Java.Lowering
import Plc.Proofs.Java.Pieces
import Plc.Proofs.Reading.Flattening
import Plc.Proofs.Reading.Literal
import Plc.Proofs.Token.Junction

/-! Literals as they are written in code are literals of programs too, and stand for what they were
written for. An integer in a program is written as it stands there. -/
namespace Plc.Java

open Token Reading Reader Numeral

open scoped Computability

variable {quote c : Char} {cs w : List Char} {t : Token} {l : Literal}

section Quotes

theorem known_of_letter? {letter : Char} (named : Quoted.letter? c = some letter) :
    letter ∈ ['b', 'n', 'r', 't', '\'', '"', '\\'] := by
  unfold Quoted.letter? at named
  split at named <;> cases named <;> decide

theorem no_lineEnd_of_letter? (unnamed : Quoted.letter? c = none) : c ≠ '\n' ∧ c ≠ '\r' := by
  constructor
  · rintro rfl
    cases unnamed
  · rintro rfl
    cases unnamed

/-- A character may stand between quotes as it is written there. -/
theorem encodeChar_mem_quotable (isQuote : quote ∈ ['\'', '"']) (c : Char) :
    Quoted.encodeChar quote c ∈ quotable quote := by
  rw [← mul_one (quotable quote)]
  apply mem_quotable_mul.mpr
  unfold Quoted.encodeChar
  split
  · rename_i letter named
    exact .inr ⟨letter, [], known_of_letter? named, rfl, rfl⟩
  · rename_i unnamed
    have inLine := no_lineEnd_of_letter? unnamed
    split
    · rename_i special
      refine .inr ⟨c, [], ?_, rfl, rfl⟩
      rcases special with rfl | rfl
      · decide
      · simp only [List.mem_cons, List.not_mem_nil, or_false] at isQuote
        rcases isQuote with rfl | rfl <;> decide
    · rename_i ordinary
      refine .inl ⟨c, [], ?_, rfl, rfl⟩
      simp only [List.mem_cons, List.not_mem_nil, or_false, not_or] at ordinary ⊢
      exact ⟨ordinary.2, inLine.1, inLine.2, ordinary.1⟩

theorem encode_mem_quotable (isQuote : quote ∈ ['\'', '"']) (cs : List Char) :
    Quoted.encode quote cs ∈ (quotable quote)∗ := by
  refine Language.mem_kstar.mpr ⟨cs.map (Quoted.encodeChar quote), List.flatMap_def, ?_⟩
  intro part member
  obtain ⟨c, _, rfl⟩ := List.mem_map.mp member
  exact encodeChar_mem_quotable isQuote c

theorem toList_quoted (quote : Char) (cs : List Char) :
    (quoted quote cs).toList = quote :: (Quoted.encode quote cs ++ [quote]) :=
  String.toList_ofList

theorem quoted_mem_string (cs : List Char) : (quoted '"' cs).toList ∈ Kind.string.form := by
  rw [toList_quoted]
  exact mem_oneOf_mul.mpr ⟨'"', _, rfl,
    Language.append_mem_mul (encode_mem_quotable (by decide) cs) ⟨'"', rfl, rfl⟩, rfl⟩

theorem quoted_mem_character (c : Char) : (quoted '\'' [c]).toList ∈ Kind.character.form := by
  have one : Quoted.encode '\'' [c] = Quoted.encodeChar '\'' c := List.flatMap_singleton _ _
  rw [toList_quoted, one]
  exact mem_oneOf_mul.mpr ⟨'\'', _, rfl,
    Language.append_mem_mul (encodeChar_mem_quotable (by decide) c) ⟨'\'', rfl, rfl⟩, rfl⟩

/-- Between the quotes stands what was written there. -/
theorem decode_inside_quoted (quote : Char) (plain : Quoted.denoted quote = quote)
    (cs : List Char) :
    Quoted.decode (Quoted.inside (quoted quote cs).toList) = cs := by
  rw [toList_quoted, Quoted.inside_quotes, Quoted.decode_encode quote cs plain]

end Quotes

section Integers

theorem digitChar_of_isDigit (digit : c.isDigit = true) :
    c.toNat - '0'.toNat < 10 ∧ Nat.digitChar (c.toNat - '0'.toNat) = c := by
  simp only [Char.isDigit, Bool.and_eq_true, decide_eq_true_eq] at digit
  have least : 48 ≤ c.toNat := UInt32.le_iff_toNat_le.mp digit.1
  have most : c.toNat ≤ 57 := UInt32.le_iff_toNat_le.mp digit.2
  have zero : '0'.toNat = 48 := rfl
  have small : c.toNat - '0'.toNat < 10 := by omega
  refine ⟨small, Char.toNat_inj.mp ?_⟩
  rw [Nat.toNat_digitChar_of_lt_ten small]
  omega

/-- Digits written behind the digits of a number are those of the number that both make up. -/
theorem toDigits_append {n : Nat} (positive : 0 < n) (digits : ∀ c ∈ cs, c.isDigit = true) :
    Nat.toDigits 10 n ++ cs = Nat.toDigits 10 (n * 10 ^ cs.length + value cs) := by
  induction cs generalizing n with
  | nil => simp [value]
  | cons c cs ih =>
    obtain ⟨here, behind⟩ := List.forall_mem_cons.mp digits
    obtain ⟨small, same⟩ := digitChar_of_isDigit here
    have joined := Nat.toDigits_append_toDigits (b := 10) (by decide) positive small
    rw [Nat.toDigits_of_lt_base small, same] at joined
    have longer : 0 < 10 * n + (c.toNat - '0'.toNat) := by omega
    calc Nat.toDigits 10 n ++ c :: cs = Nat.toDigits 10 n ++ [c] ++ cs := by simp
      _ = Nat.toDigits 10 (10 * n + (c.toNat - '0'.toNat)) ++ cs := by rw [joined]
      _ = Nat.toDigits 10 ((10 * n + (c.toNat - '0'.toNat)) * 10 ^ cs.length + value cs) :=
        ih longer behind
      _ = Nat.toDigits 10 (n * 10 ^ (c :: cs).length + value (c :: cs)) := by
        rw [value_cons, List.length_cons, pow_succ]
        ring_nf

theorem toDigits_value (member : w ∈ leading * digit∗) :
    0 < value w ∧ Nat.toDigits 10 (value w) = w := by
  obtain ⟨c, v, ⟨here, other⟩, behind, rfl⟩ := mem_leading_digits.mp member
  obtain ⟨small, same⟩ := digitChar_of_isDigit here
  have positive : 0 < c.toNat - '0'.toNat := by
    apply Nat.pos_of_ne_zero
    intro zero
    rw [zero] at same
    exact other same.symm
  have joined := toDigits_append positive behind
  rw [Nat.toDigits_of_lt_base small, same, ← value_cons] at joined
  refine ⟨?_, joined.symm⟩
  rw [value_cons]
  exact Nat.add_pos_left (Nat.mul_pos positive (Nat.pow_pos (by decide))) _

theorem toString_signed {n : Nat} {negative : Bool} (positive : 0 < n) :
    toString (signed negative n) = String.ofList (sign negative ++ Nat.toDigits 10 n) := by
  have shown : toString n = String.ofList (Nat.toDigits 10 n) := Nat.repr_eq_ofList_toDigits
  cases negative with
  | false => exact shown
  | true =>
    have below : (signed true n) < 0 := Int.neg_neg_of_pos (Int.natCast_pos.mpr positive)
    have size : (signed true n).natAbs = n := by simp [signed]
    rw [toString_eq_signed, decide_eq_true below, if_pos rfl, size, shown, sign, if_pos rfl,
      String.ofList_append]

/-- An integer that has the form of one is written as the number that it is read as. -/
theorem exists_integer (form : w ∈ Kind.integer.form) :
    ∃ n : Int, integer? w = some n ∧ toString n = String.ofList w := by
  rcases (Language.mem_add _ _ _).mp form with ⟨_, rfl, rfl⟩ | signed
  · exact ⟨0, rfl, rfl⟩
  · obtain ⟨negative, v, member, rfl⟩ := exists_sign_of_mem signed
    obtain ⟨positive, same⟩ := toDigits_value member
    refine ⟨_, integer?_eq (allDigits_of_mem_leading member) negative, ?_⟩
    rw [toString_signed positive, same]

end Integers

/-- A token that stands for a literal is an expression. -/
theorem expression_of_literal? (means : literal? t = some (.ok l)) :
    ∃ shorter, expression [t] = .ok ⟨.literal l none, [], shorter⟩ := by
  have flat : (Plc.Expr.literal l none).Flattens [t] := .literal means
  have closes : Closes Operator.tiers (.literal l none) [] :=
    ⟨fun _ _ => rfl, fun _ => ⟨rfl, rfl⟩⟩
  exact (flows flat trivial trivial).value closes

/-- The text is one token of the kind, and is read as the literal. -/
def ReadsBack (kind : Kind) (text : String) (l : Literal) : Prop :=
  lex text = .ok [⟨kind, text, 0⟩] ∧
    ∃ shorter, expression [⟨kind, text, 0⟩] = .ok ⟨.literal l none, [], shorter⟩

theorem readsBack_of_form {kind : Kind} {text : String} (form : text.toList ∈ kind.form)
    (means : literal? ⟨kind, text, 0⟩ = some (.ok l)) : ReadsBack kind text l := by
  refine ⟨?_, expression_of_literal? means⟩
  rw [lex, lexFrom_of_mem_form form, String.ofList_toList]

/-- Whatever string or character is written in code, its text is read back as this string or
character. An integer that is cut from a text and read is written in code as it was cut. -/
theorem literals_read_back :
    (∀ (s : String) (ty : Option Ty),
      ReadsBack .string (Plc.Expr.literal (.string s) ty).toJava.text (.string s)) ∧
    (∀ (c : Char) (ty : Option Ty),
      ReadsBack .character (Plc.Expr.literal (.character c) ty).toJava.text (.character c)) ∧
    ∀ (text : String) (tokens : List Token), lex text = .ok tokens →
      ∀ t ∈ tokens, t.kind = .integer → ∃ n : Int,
        (∀ rest, of primary (t :: rest) = .ok (.literal (.integer n) none, rest)) ∧
        ∀ ty : Option Ty, (Plc.Expr.literal (.integer n) ty).toJava.text = t.literal := by
  refine ⟨fun s ty => ?_, fun c ty => ?_, ?_⟩
  · apply readsBack_of_form (quoted_mem_string s.toList)
    simp only [literal?, decode_inside_quoted '"' rfl, String.ofList_toList]
  · apply readsBack_of_form (quoted_mem_character c)
    simp only [literal?, character?, decode_inside_quoted '\'' rfl]
  · intro text tokens lexed t member kind
    have form := form_of_lex lexed t member
    rw [kind] at form
    obtain ⟨n, read, written⟩ := exists_integer form
    refine ⟨n, fun rest => ?_, fun ty => ?_⟩
    · simp [of_primary, choose, primaryWays, literal?, kind, read, give]
    · rw [String.ofList_toList] at written
      exact written

/-- A backslash before a quote, a letter that could be an escape, and the end of a line; and a minus
sign that belongs to its number, where another one does not. -/
theorem literals_read_back_escapes :
    ReadsBack .string "\"\\\\\\\"n\\n\"" (.string "\\\"n\n") ∧
    lex "x -10-0" = .ok [⟨.identifier, "x", 0⟩, ⟨.integer, "-10", 2⟩, ⟨.operator, "-", 5⟩,
      ⟨.integer, "0", 6⟩] ∧
    ∃ n : Int, (∀ rest, of primary (⟨.integer, "-10", 2⟩ :: rest) =
      .ok (.literal (.integer n) none, rest)) ∧ toString n = "-10" := by
  have text : (Plc.Expr.literal (.string "\\\"n\n") none).toJava.text = "\"\\\\\\\"n\\n\"" := by
    decide +kernel
  have back := literals_read_back.1 "\\\"n\n" none
  rw [text] at back
  have lexed : lex "x -10-0" = .ok [⟨.identifier, "x", 0⟩, ⟨.integer, "-10", 2⟩,
      ⟨.operator, "-", 5⟩, ⟨.integer, "0", 6⟩] := by
    decide +kernel
  obtain ⟨n, read, written⟩ := literals_read_back.2.2 _ _ lexed ⟨.integer, "-10", 2⟩ (by simp) rfl
  exact ⟨back, lexed, n, read, written none⟩

end Plc.Java
