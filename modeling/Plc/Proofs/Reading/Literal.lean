import Mathlib.Data.Nat.Digits.Defs
import Plc.Proofs.Reading.Steady
import Plc.Proofs.Token.Cut

/-! What the texts of literals stand for, apart from how they are read. What is cut from a text as
a literal stands for one, and is read as that. -/
namespace Plc

open Token

open scoped Computability

namespace Numeral

variable {cs : List Char}

def value (digits : List Char) : Nat :=
  Nat.ofDigits 10 (digits.reverse.map fun c => c.toNat - '0'.toNat)

def AllDigits (cs : List Char) : Prop := cs ≠ [] ∧ ∀ c ∈ cs, c.isDigit = true

def sign (negative : Bool) : List Char := if negative then ['-'] else []

def signed (negative : Bool) (n : Nat) : Int := if negative then -n else n

theorem value_cons (c : Char) (cs : List Char) :
    value (c :: cs) = (c.toNat - '0'.toNat) * 10 ^ cs.length + value cs := by
  simp only [value, List.reverse_cons, List.map_append, List.map_cons, List.map_nil,
    Nat.ofDigits_append, Nat.ofDigits_singleton, List.length_map, List.length_reverse]
  rw [Nat.add_comm, Nat.mul_comm]

theorem foldlM_next? (digits : ∀ c ∈ cs, c.isDigit = true) (sofar : Nat) :
    cs.foldlM next? sofar = some (sofar * 10 ^ cs.length + value cs) := by
  induction cs generalizing sofar with
  | nil => simp [value]
  | cons c cs ih =>
    obtain ⟨here, behind⟩ := List.forall_mem_cons.mp digits
    rw [List.foldlM_cons, next?, if_pos here, Option.bind_eq_bind, Option.bind_some, ih behind,
      value_cons, List.length_cons, pow_succ]
    congr 1
    ring

theorem digits?_eq (all : AllDigits cs) : digits? cs = some (value cs) := by
  obtain ⟨some_, digits⟩ := all
  obtain ⟨c, cs, rfl⟩ := List.exists_cons_of_ne_nil some_
  have noUnderscore : c ≠ '_' := by
    rintro rfl
    exact absurd (digits '_' List.mem_cons_self) (by decide)
  rw [digits?, if_neg noUnderscore, foldlM_next? digits 0, Nat.zero_mul, Nat.zero_add]

/-- Digits are read as their number, with a minus sign in front as its opposite. -/
theorem integer?_eq (all : AllDigits cs) (negative : Bool) :
    integer? (sign negative ++ cs) = some (signed negative (value cs)) := by
  cases negative with
  | false =>
    show integer? cs = some (value cs : Int)
    rw [integer?.eq_def]
    split
    · exact absurd (all.2 '-' List.mem_cons_self) (by decide)
    · exact absurd (all.2 '+' List.mem_cons_self) (by decide)
    · rw [digits?_eq all]
      rfl
  | true =>
    show integer? ('-' :: cs) = some (-(value cs : Int))
    rw [integer?, digits?_eq all]
    rfl

end Numeral

namespace Token

open Numeral

variable {w : List Char}

theorem allDigits_of_mem_digits (member : w ∈ digit * digit∗) : AllDigits w := by
  obtain ⟨c, v, here, behind, rfl⟩ := mem_oneOf_mul.mp member
  exact ⟨nofun, List.forall_mem_cons.mpr ⟨here, mem_oneOf_kstar.mp behind⟩⟩

theorem allDigits_of_mem_leading (member : w ∈ leading * digit∗) : AllDigits w := by
  obtain ⟨c, v, here, behind, rfl⟩ := mem_oneOf_mul.mp member
  exact ⟨nofun, List.forall_mem_cons.mpr ⟨here.1, mem_oneOf_kstar.mp behind⟩⟩

theorem allDigits_of_mem_zero (member : w ∈ zero) : AllDigits w := by
  obtain ⟨c, rfl, rfl⟩ := member
  exact ⟨nofun, List.all_eq_true.mp rfl⟩

theorem allDigits_of_mem_numeral (member : w ∈ numeral) : AllDigits w :=
  ((Language.mem_add _ _ _).mp member).elim allDigits_of_mem_zero allDigits_of_mem_leading

theorem exists_sign_of_mem {l : Language Char} (member : w ∈ optionalMinus * l) :
    ∃ negative, ∃ v ∈ l, w = sign negative ++ v := by
  rcases mem_optionalMinus_mul.mp member with here | ⟨v, here, rfl⟩
  · exact ⟨false, w, here, rfl⟩
  · exact ⟨true, v, here, rfl⟩

end Token

namespace Decimal

theorem splitAt?_none {stop : Char → Bool} {cs : List Char} (none : ∀ c ∈ cs, stop c = false) :
    splitAt? stop cs = Option.none := by
  have all : (cs.dropWhile fun c => !stop c) = [] := by
    rw [List.dropWhile_eq_nil_iff]
    intro c member
    rw [none c member]
    rfl
  rw [splitAt?, all]

theorem splitAt?_some {stop : Char → Bool} {front back : List Char} {c : Char}
    (before : ∀ c ∈ front, stop c = false) (here : stop c = true) :
    splitAt? stop (front ++ c :: back) = some (front, back) := by
  have passes : ∀ c ∈ front, (!stop c) = true := by
    intro c member
    rw [before c member]
    rfl
  rw [splitAt?, List.dropWhile_append_of_pos passes, List.takeWhile_append_of_pos passes,
    List.dropWhile_cons_of_neg (by simp [here]), List.takeWhile_cons_of_neg (by simp [here])]
  simp

/-- Without an exponent the scale counts the digits behind the point. -/
theorem ofText?_eq {cs whole fraction : List Char}
    (noExponent : splitAt? (fun c => c == 'e' || c == 'E') cs = none)
    (point : splitAt? (· == '.') cs = some (whole, fraction)) :
    ofText? cs = (Numeral.integer? (whole ++ fraction)).bind fun digits =>
      let scale := (fraction.countP (· != '_') : Int) - 0
      if -scaleLimit ≤ scale ∧ scale < scaleLimit then some ⟨digits, scale⟩ else none := by
  simp only [ofText?, noExponent, point, Option.bind_eq_bind, Option.bind_some, Option.getD_some]

/-- A number with a point in it is read unless its fraction is longer than any text. -/
theorem ofText?_point {whole fraction : List Char} {n : Int}
    (front : ∀ c ∈ whole, c = '-' ∨ c.isDigit = true)
    (digits : ∀ c ∈ fraction, c.isDigit = true)
    (integer : Numeral.integer? (whole ++ fraction) = some n)
    (short : fraction.length < 2 ^ 63) :
    ofText? (whole ++ '.' :: fraction) = some ⟨n, fraction.length⟩ := by
  have noExponent : ∀ c ∈ whole ++ '.' :: fraction, (c == 'e' || c == 'E') = false := by
    intro c member
    rw [← Bool.not_eq_true]
    intro exponent
    have letter : c = 'e' ∨ c = 'E' := by simpa using exponent
    have plain : c = '-' ∨ c.isDigit = true ∨ c = '.' := by
      rcases List.mem_append.mp member with member | member
      · exact (front c member).imp_right .inl
      · rcases List.mem_cons.mp member with rfl | member
        · exact .inr (.inr rfl)
        · exact .inr (.inl (digits c member))
    rcases letter with rfl | rfl <;> revert plain <;> decide
  have noPoint : ∀ c ∈ whole, (c == '.') = false := by
    intro c member
    rw [beq_eq_false_iff_ne]
    rintro rfl
    rcases front '.' member with same | digit
    · exact absurd same (by decide)
    · exact absurd digit (by decide)
  have scale : fraction.countP (· != '_') = fraction.length := by
    rw [List.countP_eq_length]
    intro c member
    rw [bne_iff_ne]
    rintro rfl
    exact absurd (digits '_' member) (by decide)
  have bounds : -scaleLimit ≤ (fraction.countP (· != '_') : Int) - 0 ∧
      (fraction.countP (· != '_') : Int) - 0 < scaleLimit := by
    have limit : scaleLimit = 2 ^ 63 := by decide
    rw [scale, limit]
    omega
  have point : splitAt? (· == '.') (whole ++ '.' :: fraction) = some (whole, fraction) :=
    splitAt?_some noPoint (beq_self_eq_true '.')
  rw [ofText?_eq (splitAt?_none noExponent) point, integer, Option.bind_some, if_pos bounds, scale,
    Int.sub_zero]

end Decimal

namespace Quoted

def escapes : List (Char × Char) :=
  [('b', '\x08'), ('n', '\n'), ('r', '\r'), ('t', '\t'), ('\'', '\''), ('"', '"'), ('\\', '\\')]

/-- `Denotes body value`: with each escape replaced, from left to right, a text between quotes
becomes `value`. -/
inductive Denotes : List Char → List Char → Prop where
  | done : Denotes [] []
  | plain {c : Char} {body value : List Char} (other : c ≠ '\\') (behind : Denotes body value) :
      Denotes (c :: body) (c :: value)
  | escape {letter c : Char} {body value : List Char} (known : (letter, c) ∈ escapes)
      (behind : Denotes body value) : Denotes ('\\' :: letter :: body) (c :: value)

theorem denoted_of_mem {letter c : Char} (known : (letter, c) ∈ escapes) :
    denoted letter = c := by
  revert known
  simp only [escapes, List.mem_cons, Prod.mk.injEq, List.not_mem_nil, or_false]
  rintro (⟨rfl, rfl⟩ | ⟨rfl, rfl⟩ | ⟨rfl, rfl⟩ | ⟨rfl, rfl⟩ | ⟨rfl, rfl⟩ | ⟨rfl, rfl⟩ |
    ⟨rfl, rfl⟩) <;> rfl

theorem exists_mem_escapes {letter : Char}
    (known : letter ∈ ['b', 'n', 'r', 't', '\'', '"', '\\']) : ∃ c, (letter, c) ∈ escapes := by
  revert known
  simp only [List.mem_cons, List.not_mem_nil, or_false]
  rintro (rfl | rfl | rfl | rfl | rfl | rfl | rfl) <;> exact ⟨_, by simp [escapes]; rfl⟩

theorem inside_quotes (quote : Char) (body : List Char) :
    inside (quote :: (body ++ [quote])) = body := by
  rw [inside, List.drop_one, List.tail_cons, List.dropLast_concat]

theorem Denotes.decode {body value : List Char} (denotes : Denotes body value) :
    decode body = value := by
  induction denotes with
  | done => rfl
  | plain other _ ih => simp [Quoted.decode, other, ih]
  | escape known _ ih => simp [Quoted.decode, denoted_of_mem known, ih]

end Quoted

namespace Reading

open Numeral Quoted

inductive Stands : Kind → List Char → Literal → Prop where
  | integer (negative : Bool) {digits : List Char} (all : AllDigits digits) :
      Stands .integer (sign negative ++ digits) (.integer (signed negative (value digits)))
  | decimal (negative : Bool) {whole fraction : List Char} (front : AllDigits whole)
      (back : AllDigits fraction) :
      Stands .decimal (sign negative ++ whole ++ '.' :: fraction)
        (.decimal ⟨signed negative (value (whole ++ fraction)), fraction.length⟩)
  | character {body : List Char} {c : Char} (denotes : Denotes body [c]) :
      Stands .character ('\'' :: body ++ ['\'']) (.character c)
  | string {body characters : List Char} (denotes : Denotes body characters) :
      Stands .string ('"' :: body ++ ['"']) (.string (String.ofList characters))

section Stands

variable {t : Token} {l : Literal} {w : List Char}

theorem decode_inside {quote : Char} {body value : List Char} (denotes : Denotes body value) :
    decode (inside (quote :: body ++ [quote])) = value := by
  rw [List.cons_append, inside_quotes, denotes.decode]

/-- A literal is read as what it stands for. -/
theorem literal?_of_stands (stands : Stands t.kind t.literal.toList l)
    (short : t.literal.length < 2 ^ 63) : literal? t = some (.ok l) := by
  obtain ⟨kind, text, index⟩ := t
  rw [← String.length_toList] at short
  simp only [literal?] at stands short ⊢
  generalize text.toList = cs at stands short
  cases stands with
  | integer negative all => rw [integer?_eq all negative]
  | @decimal negative whole fraction front back =>
    have sum : AllDigits (whole ++ fraction) :=
      ⟨List.append_ne_nil_of_left_ne_nil front.1 fraction,
        fun c member => (List.mem_append.mp member).elim (front.2 c) (back.2 c)⟩
    have read := integer?_eq sum negative
    rw [← List.append_assoc] at read
    have signs : ∀ c ∈ sign negative ++ whole, c = '-' ∨ c.isDigit = true := by
      intro c member
      rcases List.mem_append.mp member with member | member
      · cases negative with
        | false => exact nomatch member
        | true => exact .inl (List.mem_singleton.mp member)
      · exact .inr (front.2 c member)
    simp only [List.length_append, List.length_cons] at short
    rw [Decimal.ofText?_point signs back.2 read (by omega)]
  | character denotes => rw [character?, decode_inside denotes]
  | string denotes => rw [decode_inside denotes]

/-- The characters in front of a closing quote that are cut with it. -/
theorem exists_denotes {quote : Char} (member : w ∈ (quotable quote)∗ * oneOf (· = quote)) :
    ∃ body value, Denotes body value ∧ w = body ++ [quote] := by
  induction h : w.length using Nat.strongRecOn generalizing w with
  | ind n ih =>
    subst h
    rw [kstar_mul_eq] at member
    rcases (Language.mem_add _ _ _).mp member with ⟨c, rfl, rfl⟩ | member
    · exact ⟨[], [], .done, rfl⟩
    · rcases mem_quotable_mul.mp member with ⟨c, v, plain, behind, rfl⟩ |
        ⟨letter, v, known, behind, rfl⟩
      · obtain ⟨body, value, denotes, rfl⟩ := ih v.length (by simp) behind rfl
        have other : c ≠ '\\' := by
          rintro rfl
          exact plain (by simp)
        exact ⟨c :: body, c :: value, .plain other denotes, rfl⟩
      · obtain ⟨body, value, denotes, rfl⟩ := ih v.length (by grind) behind rfl
        obtain ⟨c, known⟩ := exists_mem_escapes known
        exact ⟨'\\' :: letter :: body, c :: value, .escape known denotes, rfl⟩

theorem exists_denotes_one (member : w ∈ quotable '\'' * oneOf (· = '\'')) :
    ∃ body c, Denotes body [c] ∧ w = body ++ ['\''] := by
  rcases mem_quotable_mul.mp member with ⟨c, _, plain, ⟨_, rfl, rfl⟩, rfl⟩ |
    ⟨letter, _, known, ⟨_, rfl, rfl⟩, rfl⟩
  · have other : c ≠ '\\' := by
      rintro rfl
      exact plain (by simp)
    exact ⟨[c], c, .plain other .done, rfl⟩
  · obtain ⟨c, known⟩ := exists_mem_escapes known
    exact ⟨['\\', letter], c, .escape known .done, rfl⟩

/-- Whatever has the form of a literal stands for one. -/
theorem exists_stands {kind : Kind} (form : w ∈ kind.form) (name : kind ≠ .identifier)
    (operator : kind ≠ .operator) : ∃ l, Stands kind w l := by
  cases kind with
  | identifier => exact absurd rfl name
  | operator => exact absurd rfl operator
  | integer =>
    rcases (Language.mem_add _ _ _).mp form with zero | signed
    · exact ⟨_, .integer false (allDigits_of_mem_zero zero)⟩
    · obtain ⟨negative, v, member, rfl⟩ := exists_sign_of_mem signed
      exact ⟨_, .integer negative (allDigits_of_mem_leading member)⟩
  | decimal =>
    obtain ⟨negative, v, member, rfl⟩ := exists_sign_of_mem form
    obtain ⟨whole, front, behind, pointed, rfl⟩ := Language.mem_mul.mp member
    obtain ⟨_, fraction, rfl, back, rfl⟩ := mem_oneOf_mul.mp pointed
    rw [← List.append_assoc]
    exact ⟨_, .decimal negative (allDigits_of_mem_numeral front) (allDigits_of_mem_digits back)⟩
  | character =>
    obtain ⟨_, v, rfl, member, rfl⟩ := mem_oneOf_mul.mp form
    obtain ⟨body, c, denotes, rfl⟩ := exists_denotes_one member
    exact ⟨_, .character denotes⟩
  | string =>
    obtain ⟨_, v, rfl, member, rfl⟩ := mem_oneOf_mul.mp form
    obtain ⟨body, value, denotes, rfl⟩ := exists_denotes member
    exact ⟨_, .string denotes⟩

/-- No text is as long as the limit of scales. -/
theorem meaningful_of_form (form : t.literal.toList ∈ t.kind.form)
    (short : t.literal.length < 2 ^ 63) : Meaningful t := by
  intro misread
  by_cases name : t.kind = .identifier
  · rw [literal?, name]
    grind
  by_cases operator : t.kind = .operator
  · rw [literal?, operator]
    nofun
  · obtain ⟨l, stands⟩ := exists_stands form name operator
    rw [literal?_of_stands stands short]
    nofun

theorem meaningful_of_lex {text : String} {tokens : List Token} (lexed : lex text = .ok tokens)
    (short : text.length < 2 ^ 63) : ∀ t ∈ tokens, Meaningful t := fun t member =>
  meaningful_of_form (form_of_lex lexed t member)
    (Nat.lt_of_le_of_lt (length_of_lex lexed t member) short)

end Stands

end Reading

end Plc
