import Plc.Proofs.Java.Code
import Plc.Proofs.Token.Form

/-! The text of code is cut into the pieces that it was put together from. -/
namespace Plc.Java

/-- What stands behind code in code: a blank, a closing bracket, a comma, or nothing. -/
def Soft (cs : List Char) : Prop := ∀ c ∈ cs.head?, c ∈ [' ', ')', ']', ',']

/-- The text is cut into the pieces wherever it stands. -/
def Cuts (text : List Char) (pieces : List Piece) : Prop :=
  ∀ rest, Soft rest → cut (text ++ rest) = (cut rest).map (pieces ++ ·)

def IsName (id : String) : Prop :=
  ∃ c cs, id.toList = c :: cs ∧ isLetter c = true ∧ ∀ d ∈ cs, isLetterOrDigit d = true

variable {c : Char} {cs ds rest : List Char} {p : Piece} {ps : List Piece}

section Cut

theorem cut_space (space : isSpace c = true) : cut (c :: cs) = cut cs := by
  rw [cut, if_pos space]

theorem cut_cons (solid : isSpace c = false) (taken : take? c cs = some (p, rest)) :
    cut (c :: cs) = (cut rest).map (p :: ·) := by
  rw [cut, solid, if_neg Bool.false_ne_true]
  split
  · rename_i none
    rw [taken] at none
    cases none
  · rename_i p' rest' taken'
    rw [taken] at taken'
    cases taken'
    rfl

theorem map_append_cons (answer : Option (List Piece)) :
    (answer.map (ps ++ ·)).map (p :: ·) = answer.map (p :: ps ++ ·) := by
  cases answer <;> rfl

/-- The characters that pass a test, taken up to one that does not. -/
theorem takeWhile_append_rest {test : Char → Bool} (all : ∀ d ∈ ds, test d = true)
    (stops : ∀ d ∈ rest.head?, test d = false) :
    (ds ++ rest).takeWhile test = ds ∧ (ds ++ rest).dropWhile test = rest := by
  rw [List.takeWhile_append_of_pos all, List.dropWhile_append_of_pos all]
  cases rest with
  | nil => simp
  | cons d rest =>
    have stops := stops d rfl
    simp [stops]

end Cut

section Words

theorem Soft.isLetterOrDigit (soft : Soft rest) : ∀ c ∈ rest.head?, isLetterOrDigit c = false := by
  intro c member
  have among := soft c member
  simp only [List.mem_cons, List.not_mem_nil, or_false] at among
  rcases among with rfl | rfl | rfl | rfl <;> decide

theorem isSpace_of_isLetter (letter : isLetter c = true) : isSpace c = false := by
  rw [← Bool.not_eq_true]
  intro space
  simp only [isSpace, Bool.or_eq_true, beq_iff_eq] at space
  rcases space with (((rfl | rfl) | rfl) | rfl) | rfl <;> revert letter <;> decide

theorem cut_word {id : String} (named : IsName id)
    (stops : ∀ c ∈ rest.head?, isLetterOrDigit c = false) :
    cut (id.toList ++ rest) = (cut rest).map (.word id :: ·) := by
  obtain ⟨c, cs, same, letter, all⟩ := named
  obtain ⟨taken, left⟩ := takeWhile_append_rest all stops
  have whole : id = String.ofList (c :: cs) := by rw [← same, String.ofList_toList]
  rw [same, List.cons_append]
  refine cut_cons (isSpace_of_isLetter letter) ?_
  rw [take?, if_pos letter, taken, left, ← whole]

theorem cuts_word {id : String} (named : IsName id) : Cuts id.toList [.word id] :=
  fun _ soft => cut_word named soft.isLetterOrDigit

end Words

section Numbers

def IsDigits (cs : List Char) : Prop := cs ≠ [] ∧ ∀ c ∈ cs, c.isDigit = true

def IsNumber (cs : List Char) : Prop :=
  ∃ whole fraction exponent, IsDigits whole ∧
    (fraction = [] ∨ ∃ ds, IsDigits ds ∧ fraction = '.' :: ds) ∧
    (exponent = [] ∨ ∃ e s ds, e ∈ ['e', 'E'] ∧ s ∈ ['+', '-'] ∧ IsDigits ds ∧
      exponent = e :: s :: ds) ∧ cs = whole ++ fraction ++ exponent

theorem IsDigits.isNumber (digits : IsDigits cs) : IsNumber cs :=
  ⟨cs, [], [], digits, .inl rfl, .inl rfl, by simp⟩

theorem takeFraction_digits (digits : IsDigits ds) (stops : ∀ c ∈ rest.head?, c.isDigit = false) :
    takeFraction ('.' :: ds ++ rest) = ('.' :: ds, rest) := by
  obtain ⟨some_, all⟩ := digits
  obtain ⟨d, ds, rfl⟩ := List.exists_cons_of_ne_nil some_
  obtain ⟨here, behind⟩ := List.forall_mem_cons.mp all
  obtain ⟨taken, left⟩ := takeWhile_append_rest behind stops
  rw [List.cons_append, List.cons_append, takeFraction, if_pos here, taken, left]

theorem takeFraction_none (noPoint : ∀ c ∈ rest.head?, c ≠ '.') :
    takeFraction rest = ([], rest) := by
  rw [takeFraction.eq_def]
  split
  · exact absurd rfl (noPoint '.' rfl)
  · rfl

theorem takeExponent_digits {e s : Char} (letter : e ∈ ['e', 'E']) (sign : s ∈ ['+', '-'])
    (digits : IsDigits ds) (stops : ∀ c ∈ rest.head?, c.isDigit = false) :
    takeExponent (e :: s :: ds ++ rest) = (e :: s :: ds, rest) := by
  obtain ⟨some_, all⟩ := digits
  have letter : e = 'e' ∨ e = 'E' := by simpa using letter
  have sign : s = '+' ∨ s = '-' := by simpa using sign
  have noDigit : ¬ s.isDigit = true := by rcases sign with rfl | rfl <;> decide
  obtain ⟨d, ds, rfl⟩ := List.exists_cons_of_ne_nil some_
  obtain ⟨here, _⟩ := List.forall_mem_cons.mp all
  have begins : (d :: ds ++ rest).head?.any Char.isDigit = true := here
  obtain ⟨taken, left⟩ := takeWhile_append_rest all stops
  rw [List.cons_append, List.cons_append, takeExponent, if_pos letter, if_neg noDigit,
    if_pos ⟨sign, begins⟩, taken, left]

theorem takeExponent_none (noLetter : ∀ c ∈ rest.head?, c ∉ ['e', 'E']) :
    takeExponent rest = ([], rest) := by
  rw [takeExponent.eq_def]
  split
  · rename_i e s cs
    have other : ¬ (e = 'e' ∨ e = 'E') := by simpa using noLetter e rfl
    rw [if_neg other]
  · rfl

theorem takeNumber_append (number : IsNumber cs) (soft : Soft rest) :
    takeNumber (cs ++ rest) = (cs, rest) := by
  have plain : ∀ c ∈ rest.head?, c.isDigit = false ∧ c ≠ '.' ∧ c ∉ ['e', 'E'] := by
    intro c member
    have among := soft c member
    simp only [List.mem_cons, List.not_mem_nil, or_false] at among
    rcases among with rfl | rfl | rfl | rfl <;> decide
  obtain ⟨whole, fraction, exponent, digits, hasFraction, hasExponent, rfl⟩ := number
  have exponentTaken : takeExponent (exponent ++ rest) = (exponent, rest) := by
    rcases hasExponent with rfl | ⟨e, s, ds, letter, sign, digits, rfl⟩
    · exact takeExponent_none fun c member => (plain c member).2.2
    · exact takeExponent_digits letter sign digits fun c member => (plain c member).1
  have exponentPlain : ∀ c ∈ (exponent ++ rest).head?, c.isDigit = false ∧ c ≠ '.' := by
    rcases hasExponent with rfl | ⟨e, s, ds, letter, sign, digits, rfl⟩
    · exact fun c member => ⟨(plain c member).1, (plain c member).2.1⟩
    · intro c member
      cases member
      have letter : e = 'e' ∨ e = 'E' := by simpa using letter
      rcases letter with rfl | rfl <;> decide
  have fractionTaken : takeFraction (fraction ++ (exponent ++ rest)) =
      (fraction, exponent ++ rest) := by
    rcases hasFraction with rfl | ⟨ds, digits, rfl⟩
    · exact takeFraction_none fun c member => (exponentPlain c member).2
    · exact takeFraction_digits digits fun c member => (exponentPlain c member).1
  have fractionPlain : ∀ c ∈ (fraction ++ (exponent ++ rest)).head?, c.isDigit = false := by
    rcases hasFraction with rfl | ⟨ds, digits, rfl⟩
    · exact fun c member => (exponentPlain c member).1
    · intro c member
      cases member
      decide
  obtain ⟨taken, left⟩ := takeWhile_append_rest digits.2 fractionPlain
  rw [List.append_assoc, List.append_assoc, takeNumber, left, taken, fractionTaken]
  dsimp only
  rw [exponentTaken, List.append_assoc]

theorem isLetter_of_isDigit (digit : c.isDigit = true) : isLetter c = false := by
  have other : c ≠ '_' ∧ c ≠ '$' := by
    constructor <;> rintro rfl <;> revert digit <;> decide
  simp [isLetter, Token.isAlpha_eq_false_of_isDigit digit, other]

theorem isSpace_of_isDigit (digit : c.isDigit = true) : isSpace c = false := by
  rw [← Bool.not_eq_true]
  intro space
  simp only [isSpace, Bool.or_eq_true, beq_iff_eq] at space
  rcases space with (((rfl | rfl) | rfl) | rfl) | rfl <;> revert digit <;> decide

theorem IsNumber.cons (number : IsNumber cs) : ∃ d ds, cs = d :: ds ∧ d.isDigit = true := by
  obtain ⟨whole, fraction, exponent, ⟨some_, all⟩, _, _, rfl⟩ := number
  obtain ⟨d, ds, rfl⟩ := List.exists_cons_of_ne_nil some_
  exact ⟨d, ds ++ fraction ++ exponent, rfl, all d List.mem_cons_self⟩

theorem cuts_number {text : String} (number : IsNumber text.toList) :
    Cuts text.toList [.number text] := by
  intro rest soft
  obtain ⟨d, ds, same, digit⟩ := number.cons
  have whole : text = String.ofList (d :: ds) := by rw [← same, String.ofList_toList]
  have taken := takeNumber_append number soft
  rw [same] at taken ⊢
  rw [List.cons_append] at taken ⊢
  refine cut_cons (isSpace_of_isDigit digit) ?_
  rw [take?, isLetter_of_isDigit digit, if_neg Bool.false_ne_true, if_pos digit, taken, whole]

end Numbers

section Quoted

theorem takeQuoted?_cons {quote : Char} (other : c ≠ '\\') : takeQuoted? quote (c :: cs) =
    if c = quote then some ([c], cs)
    else (takeQuoted? quote cs).map fun (text, rest) => (c :: text, rest) := by
  rw [takeQuoted?]
  rintro _ _ rfl
  exact absurd rfl other

theorem takeQuoted?_encode {quote : Char} (noEscape : quote ≠ '\\') (cs rest : List Char) :
    takeQuoted? quote (Quoted.encode quote cs ++ quote :: rest) =
      some (Quoted.encode quote cs ++ [quote], rest) := by
  induction cs with
  | nil => exact (takeQuoted?_cons noEscape).trans (if_pos rfl)
  | cons c cs ih =>
    have split : Quoted.encode quote (c :: cs) =
        Quoted.encodeChar quote c ++ Quoted.encode quote cs := rfl
    rw [split, List.append_assoc, Quoted.encodeChar]
    split
    · rw [List.cons_append, List.cons_append, List.nil_append, takeQuoted?, ih]
      rfl
    · split
      · rw [List.cons_append, List.cons_append, List.nil_append, takeQuoted?, ih]
        rfl
      · rename_i plain
        obtain ⟨noEscape, noQuote⟩ := not_or.mp plain
        rw [List.singleton_append, takeQuoted?_cons noEscape, if_neg noQuote, ih]
        rfl

theorem cuts_quoted {quote : Char} (isQuote : quote = '"' ∨ quote = '\'') (cs : List Char) :
    Cuts (quoted quote cs).toList [.quoted (quoted quote cs)] := by
  intro rest _
  have solid : isSpace quote = false ∧ isLetter quote = false ∧ quote.isDigit = false ∧
      quote ≠ '\\' := by
    rcases isQuote with rfl | rfl <;> decide
  obtain ⟨noSpace, noLetter, noDigit, noEscape⟩ := solid
  have text : (quoted quote cs).toList = quote :: Quoted.encode quote cs ++ [quote] :=
    String.toList_ofList
  have taken := takeQuoted?_encode noEscape cs rest
  rw [text, List.cons_append, List.cons_append, List.append_assoc, List.singleton_append]
  refine cut_cons noSpace ?_
  rw [take?, noLetter, if_neg Bool.false_ne_true, noDigit, if_neg Bool.false_ne_true,
    if_pos isQuote, taken]
  rfl

end Quoted

section Signs

theorem cut_operator {op : Operator} (noPower : op ≠ .power) :
    cut (' ' :: op.symbol.toList ++ ' ' :: rest) = (cut rest).map (.operator op :: ·) := by
  have behind : cut (' ' :: rest) = cut rest := cut_space rfl
  rw [List.cons_append, cut_space rfl, ← behind]
  cases op with
  | power => exact absurd rfl noPower
  | _ => exact cut_cons rfl rfl

theorem cut_minus (digit : c.isDigit = true) :
    cut ('-' :: c :: cs) = (cut (c :: cs)).map (.operator .subtract :: ·) := by
  have other : c ≠ '>' ∧ c ≠ '-' ∧ c ≠ '=' := by
    refine ⟨?_, ?_, ?_⟩ <;> rintro rfl <;> revert digit <;> decide
  have short : longSigns.find? (·.isPrefixOf ('-' :: c :: cs)) = none := by
    simp [longSigns, List.isPrefixOf, other.1.symm, other.2.1.symm, other.2.2.symm]
  refine cut_cons rfl ?_
  rw [take?, takeSign, short]
  rfl

theorem cut_opening : cut ('(' :: cs) = (cut cs).map (.opening :: ·) := cut_cons rfl rfl

theorem cut_closing : cut (')' :: cs) = (cut cs).map (.closing :: ·) := cut_cons rfl rfl

theorem cut_openingIndex : cut ('[' :: cs) = (cut cs).map (.openingIndex :: ·) := cut_cons rfl rfl

theorem cut_closingIndex : cut (']' :: cs) = (cut cs).map (.closingIndex :: ·) := cut_cons rfl rfl

theorem cut_comma : cut (',' :: ' ' :: cs) = (cut cs).map (.comma :: ·) := by
  have behind : cut (' ' :: cs) = cut cs := cut_space rfl
  rw [← behind]
  exact cut_cons rfl rfl

end Signs

section Literals

theorem isDigits_toDigits (n : Nat) : IsDigits (Nat.toDigits 10 n) :=
  ⟨Nat.toDigits_ne_nil, fun _ member => Nat.isDigit_of_mem_toDigits (by decide) (by decide) member⟩

theorem isNumber_toString (n : Nat) : IsNumber (toString n).toList := by
  have text : toString n = String.ofList (Nat.toDigits 10 n) := Nat.repr_eq_ofList_toDigits
  rw [text, String.toList_ofList]
  exact (isDigits_toDigits n).isNumber

theorem IsDigits.take {n : Nat} (digits : IsDigits cs) (some_ : n ≠ 0) : IsDigits (cs.take n) := by
  refine ⟨?_, fun c member => digits.2 c (List.mem_of_mem_take member)⟩
  rw [ne_eq, List.take_eq_nil_iff, not_or]
  exact ⟨some_, digits.1⟩

theorem IsDigits.drop {n : Nat} (digits : IsDigits cs) (some_ : n < cs.length) :
    IsDigits (cs.drop n) := by
  refine ⟨?_, fun c member => digits.2 c (List.mem_of_mem_drop member)⟩
  rw [ne_eq, List.drop_eq_nil_iff]
  omega

theorem IsDigits.append_zeros (digits : IsDigits cs) (n : Nat) :
    IsDigits (cs ++ List.replicate n '0') ∧ IsDigits (List.replicate n '0' ++ cs) := by
  have zeros : ∀ c ∈ List.replicate n '0', c.isDigit = true := by
    intro c member
    rw [List.eq_of_mem_replicate member]
    decide
  refine ⟨⟨by simp [digits.1], ?_⟩, ⟨by simp [digits.1], ?_⟩⟩
  · exact fun c member => (List.mem_append.mp member).elim (digits.2 c) (zeros c)
  · exact fun c member => (List.mem_append.mp member).elim (zeros c) (digits.2 c)

theorem IsDigits.isNumber_fraction (whole : IsDigits cs) (fraction : IsDigits ds) :
    IsNumber (cs ++ '.' :: ds) :=
  ⟨cs, '.' :: ds, [], whole, .inr ⟨ds, fraction, rfl⟩, .inl rfl, by simp⟩

theorem IsDigits.isNumber_exponent {fraction : List Char} {e s : Char} (whole : IsDigits cs)
    (hasFraction : fraction = [] ∨ ∃ ds, IsDigits ds ∧ fraction = '.' :: ds)
    (letter : e ∈ ['e', 'E']) (sign : s ∈ ['+', '-']) (digits : IsDigits ds) :
    IsNumber (cs ++ fraction ++ [e, s] ++ ds) :=
  ⟨cs, fraction, e :: s :: ds, whole, hasFraction, .inr ⟨e, s, ds, letter, sign, digits, rfl⟩,
    List.append_assoc _ _ _⟩

theorem isNumber_magnitudeText (digits : Nat) (scale : Int) :
    IsNumber (Decimal.magnitudeText digits scale) := by
  have shown := isDigits_toDigits digits
  have positive : 0 < (Nat.toDigits 10 digits).length := List.length_pos_iff.mpr shown.1
  rw [Decimal.magnitudeText]
  split
  · refine (shown.take Nat.one_ne_zero).isNumber_exponent ?_ (e := 'E') (s := '-') (by decide)
      (by decide) (isDigits_toDigits _)
    split
    · exact .inl rfl
    · rename_i more
      refine .inr ⟨_, ⟨?_, fun c member => shown.2 c (List.mem_of_mem_drop member)⟩, rfl⟩
      simpa using more
  · split
    · have number := shown.isNumber_exponent (e := 'e') (s := '+') (.inl rfl) (by decide)
        (by decide) (isDigits_toDigits (-scale).toNat)
      rwa [List.append_nil] at number
    · split
      · exact (shown.append_zeros _).1.isNumber
      · have padded := (shown.append_zeros (scale.toNat + 1 - (Nat.toDigits 10 digits).length)).2
        refine (padded.take ?_).isNumber_fraction (padded.drop ?_)
        · simp only [List.length_append, List.length_replicate]
          omega
        · simp only [List.length_append, List.length_replicate]
          omega

/-- The pieces of a number, of which a minus sign is one. -/
def numberPieces (negative : Bool) (text : String) : List Piece :=
  if negative then [.operator .subtract, .number text] else [.number text]

def literalPieces : Literal → List Piece
  | .nil => [.word "null"]
  | .boolean b => [.word (if b then "true" else "false")]
  | .character c => [.quoted (quoted '\'' [c])]
  | .string s => [.quoted (quoted '"' s.toList)]
  | .integer i => numberPieces (decide (i < 0)) (toString i.natAbs)
  | .decimal d =>
    if d.digits = 0 then [.number "0"]
    else numberPieces (decide (d.digits < 0))
      (String.ofList (Decimal.magnitudeText d.digits.natAbs d.scale))

theorem cuts_minus {text : String} (number : IsNumber text.toList) :
    Cuts ("-" ++ text).toList [.operator .subtract, .number text] := by
  intro rest soft
  obtain ⟨d, ds, same, digit⟩ := number.cons
  have split : ("-" ++ text).toList = '-' :: text.toList := by simp
  rw [split, List.cons_append, same, List.cons_append, cut_minus digit, ← List.cons_append, ← same,
    cuts_number number rest soft]
  exact map_append_cons _

theorem cuts_signed {text : String} (number : IsNumber text.toList) (negative : Bool) :
    Cuts ((if negative then "-" else "") ++ text).toList (numberPieces negative text) := by
  cases negative with
  | true => exact cuts_minus number
  | false =>
    have split : ((if false then "-" else "") ++ text) = text := by simp
    rw [split]
    exact cuts_number number

theorem toString_eq_signed (i : Int) :
    toString i = (if decide (i < 0) then "-" else "") ++ toString i.natAbs := by
  cases i with
  | ofNat n => exact String.empty_append.symm
  | negSucc n =>
    rw [if_pos (decide_eq_true (Int.negSucc_lt_zero n))]
    rfl

theorem toText_eq_signed {d : Decimal} (some_ : d.digits ≠ 0) :
    d.toText = (if decide (d.digits < 0) then "-" else "") ++
      String.ofList (Decimal.magnitudeText d.digits.natAbs d.scale) := by
  rw [Decimal.toText, if_neg some_, String.ofList_append]
  by_cases negative : d.digits < 0
  · rw [if_pos negative, if_pos (decide_eq_true negative)]
  · rw [if_neg negative, if_neg (by simp [negative])]

theorem cuts_literal (value : Literal) :
    Cuts (literalText value).toList (literalPieces value) := by
  cases value with
  | nil => exact cuts_word ⟨'n', ['u', 'l', 'l'], rfl, rfl, List.all_eq_true.mp rfl⟩
  | boolean b =>
    cases b with
    | true => exact cuts_word ⟨'t', ['r', 'u', 'e'], rfl, rfl, List.all_eq_true.mp rfl⟩
    | false => exact cuts_word ⟨'f', ['a', 'l', 's', 'e'], rfl, rfl, List.all_eq_true.mp rfl⟩
  | character c => exact cuts_quoted (.inr rfl) [c]
  | string s => exact cuts_quoted (.inl rfl) s.toList
  | integer i =>
    rw [literalText, toString_eq_signed]
    exact cuts_signed (isNumber_toString i.natAbs) _
  | decimal d =>
    rw [literalText, literalPieces]
    split
    · rename_i zero
      have text : d.toText = "0" := by rw [Decimal.toText, if_pos zero]
      have number : IsDigits "0".toList := ⟨by decide, List.all_eq_true.mp rfl⟩
      rw [text]
      exact cuts_number number.isNumber
    · rename_i some_
      rw [toText_eq_signed some_]
      refine cuts_signed ?_ _
      rw [String.toList_ofList]
      exact isNumber_magnitudeText _ _

end Literals

section Expressions

mutual

def Expr.Plain : Expr → Prop
  | .literal _ => True
  | .group inner => inner.Plain
  | .binary op left right => op ≠ .power ∧ left.Plain ∧ right.Plain
  | .power base exponent => base.Plain ∧ exponent.Plain
  | .name id => IsName id
  | .element id offset => IsName id ∧ offset.Plain
  | .call id arguments => IsName id ∧ Expr.AllPlain arguments
  | .array _ => False

def Expr.AllPlain : List Expr → Prop
  | [] => True
  | e :: es => e.Plain ∧ Expr.AllPlain es

end

mutual

def Expr.pieces : Expr → List Piece
  | .literal value => literalPieces value
  | .group inner => .opening :: inner.pieces ++ [.closing]
  | .binary op left right => left.pieces ++ .operator op :: right.pieces
  | .power base exponent =>
    [.word "Math", .dot, .word "pow", .opening] ++ base.pieces ++ .comma :: exponent.pieces ++
      [.closing]
  | .name id => [.word id]
  | .element id offset => .word id :: .openingIndex :: offset.pieces ++ [.closingIndex]
  | .call id arguments => .word id :: .opening :: Expr.allPieces arguments ++ [.closing]
  | .array _ => []

def Expr.allPieces : List Expr → List Piece
  | [] => []
  | [e] => e.pieces
  | e :: es => e.pieces ++ .comma :: Expr.allPieces es

end

theorem soft_cons (among : c ∈ [' ', ')', ']', ',']) : Soft (c :: cs) := by
  intro d member
  cases member
  exact among

/-- Behind a name a bracket or a point may follow too. -/
theorem cut_name {id : String} (named : IsName id) (stops : isLetterOrDigit c = false) :
    cut (id.toList ++ c :: cs) = (cut (c :: cs)).map (.word id :: ·) := by
  refine cut_word named ?_
  intro d member
  cases member
  exact stops

theorem cut_power : cut ("Math.pow(".toList ++ cs) =
    (cut cs).map ([.word "Math", .dot, .word "pow", .opening] ++ ·) := by
  have point : cut ('.' :: ("pow".toList ++ '(' :: cs)) =
      (cut ("pow".toList ++ '(' :: cs)).map (.dot :: ·) := cut_cons rfl rfl
  have whole : "Math.pow(".toList ++ cs = "Math".toList ++ '.' :: ("pow".toList ++ '(' :: cs) := rfl
  rw [whole, cut_name ⟨'M', ['a', 't', 'h'], rfl, rfl, List.all_eq_true.mp rfl⟩ (by decide), point,
    cut_name ⟨'p', ['o', 'w'], rfl, rfl, List.all_eq_true.mp rfl⟩ (by decide), cut_opening]
  cases cut cs <;> rfl

mutual

theorem cuts_text (e : Expr) (plain : e.Plain) : Cuts e.text.toList e.pieces := by
  -- Behind an operand the text goes on, so `rest` is another one for each of the parts.
  intro rest soft
  cases e with
  | literal value => exact cuts_literal value rest soft
  | group inner =>
    have inside := cuts_text inner plain (')' :: rest) (soft_cons (by decide))
    have text : (Expr.group inner).text.toList ++ rest =
        '(' :: (inner.text.toList ++ ')' :: rest) := by simp [Expr.text]
    rw [text, cut_opening, inside, cut_closing]
    cases cut rest <;> simp [Expr.pieces]
  | binary op left right =>
    obtain ⟨noPower, leftPlain, rightPlain⟩ := plain
    have first := cuts_text left leftPlain (' ' :: op.symbol.toList ++
      ' ' :: (right.text.toList ++ rest)) (soft_cons (by decide))
    have second := cuts_text right rightPlain rest soft
    have text : (Expr.binary op left right).text.toList ++ rest =
        left.text.toList ++ (' ' :: op.symbol.toList ++ ' ' :: (right.text.toList ++ rest)) := by
      simp [Expr.text]
    rw [text, first, cut_operator noPower, second]
    cases cut rest <;> simp [Expr.pieces]
  | power base exponent =>
    obtain ⟨basePlain, exponentPlain⟩ := plain
    have first := cuts_text base basePlain (',' :: ' ' :: (exponent.text.toList ++ ')' :: rest))
      (soft_cons (by decide))
    have second := cuts_text exponent exponentPlain (')' :: rest) (soft_cons (by decide))
    have text : (Expr.power base exponent).text.toList ++ rest = "Math.pow(".toList ++
        (base.text.toList ++ ',' :: ' ' :: (exponent.text.toList ++ ')' :: rest)) := by
      simp [Expr.text]
    rw [text, cut_power, first, cut_comma, second, cut_closing]
    cases cut rest <;> simp [Expr.pieces]
  | name id => exact cuts_word plain rest soft
  | element id offset =>
    obtain ⟨named, offsetPlain⟩ := plain
    have inside := cuts_text offset offsetPlain (']' :: rest) (soft_cons (by decide))
    have text : (Expr.element id offset).text.toList ++ rest =
        id.toList ++ '[' :: (offset.text.toList ++ ']' :: rest) := by simp [Expr.text]
    rw [text, cut_name named (by decide), cut_openingIndex, inside, cut_closingIndex]
    cases cut rest <;> simp [Expr.pieces]
  | call id arguments =>
    obtain ⟨named, argumentsPlain⟩ := plain
    have inside := cuts_texts arguments argumentsPlain (')' :: rest) (soft_cons (by decide))
    have text : (Expr.call id arguments).text.toList ++ rest = id.toList ++
        '(' :: ((", ".intercalate (Expr.texts arguments)).toList ++ ')' :: rest) := by
      simp [Expr.text]
    rw [text, cut_name named (by decide), cut_opening, inside, cut_closing]
    cases cut rest <;> simp [Expr.pieces]
  | array elements => exact plain.elim

theorem cuts_texts (es : List Expr) (plain : Expr.AllPlain es) :
    Cuts (", ".intercalate (Expr.texts es)).toList (Expr.allPieces es) := by
  intro rest soft
  cases es with
  | nil =>
    rw [Expr.texts, Expr.allPieces]
    exact Option.map_id'.symm
  | cons e es =>
    obtain ⟨here, others⟩ := plain
    cases es with
    | nil =>
      have text : (", ".intercalate (Expr.texts [e])).toList = e.text.toList := by
        simp [Expr.texts]
      rw [text]
      exact cuts_text e here rest soft
    | cons e' es =>
      have behind := cuts_texts (e' :: es) others rest soft
      have first := cuts_text e here (',' :: ' ' ::
        ((", ".intercalate (Expr.texts (e' :: es))).toList ++ rest)) (soft_cons (by decide))
      have text : (", ".intercalate (Expr.texts (e :: e' :: es))).toList ++ rest =
          e.text.toList ++ ',' :: ' ' ::
            ((", ".intercalate (Expr.texts (e' :: es))).toList ++ rest) := by
        simp [Expr.texts, String.toList_intercalate]
      rw [text, first, cut_comma, behind]
      cases cut rest <;> simp [Expr.allPieces]

end

theorem cut_text {e : Expr} (plain : e.Plain) : cut e.text.toList = some e.pieces := by
  have whole := cuts_text e plain [] nofun
  rw [List.append_nil] at whole
  rw [whole, cut]
  simp

end Expressions

end Plc.Java
