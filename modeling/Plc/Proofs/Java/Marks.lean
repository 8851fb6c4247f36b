import Plc.Proofs.Java.Lines
import Plc.Proofs.Java.Pieces
import Plc.Proofs.Java.Scoping

/-! The text of a method has the marks of its tree. Expressions have none, wherever they stand, and
lines are read one behind the other. -/
namespace Plc.Java

open Token (IsIdentifier isIdentifier_iff)

variable {c : Char} {cs rest : List Char} {id : String}

section Bits

def isPlain (c : Char) : Bool :=
  !isSpace c && c != '"' && c != '\'' && !Token.isNameStart c && !c.isDigit

theorem bits_space (space : isSpace c = true) : bits (c :: cs) = bits cs := by
  rw [bits, if_pos space]

theorem bits_plain (plain : isPlain c = true) : bits (c :: cs) = .sign c :: bits cs := by
  simp only [isPlain, Bool.and_eq_true, Bool.not_eq_true', bne_iff_ne] at plain
  obtain ⟨⟨⟨⟨space, double⟩, single⟩, letter⟩, digit⟩ := plain
  rw [bits, if_neg (ne_true_of_eq_false space), if_neg (not_or.mpr ⟨double, single⟩),
    if_neg (ne_true_of_eq_false letter), if_neg (ne_true_of_eq_false digit)]

theorem isSpace_of_isNameStart (start : Token.isNameStart c = true) : isSpace c = false := by
  rcases Token.isNameStart_iff.mp start with rfl | alpha
  · rfl
  · exact isSpace_of_isLetter (by rw [isLetter, alpha]; rfl)

theorem ne_quote_of_isNameStart (start : Token.isNameStart c = true) : ¬ (c = '"' ∨ c = '\'') := by
  rintro (rfl | rfl) <;> exact absurd start (by decide)

theorem bits_word (named : IsIdentifier id)
    (stops : ∀ c ∈ rest.head?, Token.isNamePart c = false) :
    bits (id.toList ++ rest) = .word id :: bits rest := by
  obtain ⟨c, cs, same, start, parts⟩ := isIdentifier_iff.mp named
  obtain ⟨taken, left⟩ := takeWhile_append_rest parts stops
  have whole : id = String.ofList (c :: cs) := by rw [← same, String.ofList_toList]
  rw [same, List.cons_append, bits, if_neg (ne_true_of_eq_false (isSpace_of_isNameStart start)),
    if_neg (ne_quote_of_isNameStart start), if_pos start, taken, left, ← whole]

theorem bits_quoted {quote : Char} (isQuote : quote = '"' ∨ quote = '\'') :
    bits ((quoted quote cs).toList ++ rest) = .sign quote :: bits rest := by
  have solid : isSpace quote = false ∧ quote ≠ '\\' := by
    rcases isQuote with rfl | rfl <;> decide
  have text : (quoted quote cs).toList = quote :: Quoted.encode quote cs ++ [quote] :=
    String.toList_ofList
  rw [text, List.cons_append, List.cons_append, List.append_assoc, List.singleton_append, bits,
    if_neg (ne_true_of_eq_false solid.1), if_pos isQuote]
  split
  · rename_i rest' taken
    rw [takeQuoted?_encode solid.2] at taken
    cases taken
    rfl
  · rename_i taken
    rw [takeQuoted?_encode solid.2] at taken
    cases taken

theorem isNumberPart_of_isDigit (digit : c.isDigit = true) : isNumberPart c = true := by
  simp [isNumberPart, Token.isNamePart, Char.isAlphanum, digit]

theorem IsDigits.isNumberPart (digits : IsDigits cs) : ∀ c ∈ cs, isNumberPart c = true :=
  fun c member => isNumberPart_of_isDigit (digits.2 c member)

theorem IsNumber.isNumberPart (number : IsNumber cs) : ∀ c ∈ cs, isNumberPart c = true := by
  obtain ⟨whole, fraction, exponent, digits, hasFraction, hasExponent, rfl⟩ := number
  simp only [List.forall_mem_append]
  refine ⟨⟨digits.isNumberPart, ?_⟩, ?_⟩
  · rcases hasFraction with rfl | ⟨ds, digits, rfl⟩
    · nofun
    · exact List.forall_mem_cons.mpr ⟨rfl, digits.isNumberPart⟩
  · rcases hasExponent with rfl | ⟨e, s, ds, letter, sign, digits, rfl⟩
    · nofun
    · have letters : ∀ e ∈ ['e', 'E'], Java.isNumberPart e = true := List.all_eq_true.mp rfl
      have signs : ∀ s ∈ ['+', '-'], Java.isNumberPart s = true := List.all_eq_true.mp rfl
      exact List.forall_mem_cons.mpr
        ⟨letters e letter, List.forall_mem_cons.mpr ⟨signs s sign, digits.isNumberPart⟩⟩

theorem bits_number (number : IsNumber cs) (stops : ∀ c ∈ rest.head?, isNumberPart c = false) :
    ∃ d : Char, d.isDigit = true ∧ bits (cs ++ rest) = .sign d :: bits rest := by
  have parts := number.isNumberPart
  obtain ⟨d, ds, rfl, digit⟩ := number.cons
  obtain ⟨_, parts⟩ := List.forall_mem_cons.mp parts
  obtain ⟨_, left⟩ := takeWhile_append_rest parts stops
  refine ⟨d, digit, ?_⟩
  have noQuote : ¬ (d = '"' ∨ d = '\'') := by
    rintro (rfl | rfl) <;> exact absurd digit (by decide)
  rw [List.cons_append, bits, if_neg (ne_true_of_eq_false (isSpace_of_isDigit digit)),
    if_neg noQuote, if_neg (ne_true_of_eq_false (Token.isNameStart_eq_false_of_isDigit digit)),
    if_pos digit, left]

end Bits

section Reading

theorem marks_nil : marks (bits []) = [] := by
  rw [bits, marks]

theorem marks_space (space : isSpace c = true) : marks (bits (c :: cs)) = marks (bits cs) := by
  rw [bits_space space]

theorem marks_plain (plain : isPlain c = true) (flat : brace? c = none) :
    marks (bits (c :: cs)) = marks (bits cs) := by
  rw [bits_plain plain, marks, flat, Option.toList_none, List.nil_append]

structure Stops (rest : List Char) : Prop where
  ends : ∀ c ∈ rest.head?, isNumberPart c = false
  wordless : ∀ text, (bits rest).head? ≠ some (.word text)

theorem forall_head {test : Char → Bool} (other : test c = false) :
    ∀ d ∈ (c :: rest).head?, test d = false := by
  rintro _ ⟨⟩
  exact other

theorem head?_bits_plain (plain : isPlain c = true) :
    (bits (c :: rest)).head? = some (.sign c) := by
  rw [bits_plain plain, List.head?_cons]

theorem head?_bits_space (plain : isPlain c = true) :
    (bits (' ' :: c :: rest)).head? = some (.sign c) := by
  rw [bits_space rfl, head?_bits_plain plain]

theorem wordless (sign : (bits rest).head? = some (.sign c)) (text : String) :
    (bits rest).head? ≠ some (.word text) := by
  rw [sign]
  exact nofun

theorem isNamePart_of_isNumberPart (other : isNumberPart c = false) :
    Token.isNamePart c = false := by
  simp only [isNumberPart, Bool.or_eq_false_iff] at other
  exact other.1.1

theorem stops_plain (plain : isPlain c = true) (other : isNumberPart c = false) :
    Stops (c :: rest) :=
  ⟨forall_head other, wordless (head?_bits_plain plain)⟩

theorem marks_signs (plain : ∀ c ∈ cs, isPlain c = true ∧ brace? c = none) :
    marks (bits (cs ++ rest)) = marks (bits rest) := by
  induction cs with
  | nil => rfl
  | cons c cs ih =>
    obtain ⟨here, others⟩ := List.forall_mem_cons.mp plain
    rw [List.cons_append, marks_plain here.1 here.2, ih others]

theorem plain_symbol (op : Operator) :
    ∀ c ∈ op.symbol.toList, isPlain c = true ∧ brace? c = none := by
  have all : (op.symbol.toList.all fun c => isPlain c && (brace? c).isNone) = true := by
    cases op <;> rfl
  intro c member
  simpa using List.all_eq_true.mp all c member

theorem marks_operator (op : Operator) :
    marks (bits (' ' :: op.symbol.toList ++ ' ' :: rest)) = marks (bits rest) := by
  rw [List.cons_append, marks_space rfl, marks_signs (plain_symbol op), marks_space rfl]

theorem stops_space (plain : isPlain c = true) : Stops (' ' :: c :: rest) :=
  ⟨forall_head rfl, wordless (head?_bits_space plain)⟩

theorem stops_operator (op : Operator) : Stops (' ' :: op.symbol.toList ++ rest) := by
  have plain := plain_symbol op
  cases symbol : op.symbol.toList with
  | nil => cases op <;> cases symbol
  | cons c cs =>
    rw [symbol] at plain
    exact stops_space (plain c List.mem_cons_self).1

theorem marks_word (named : IsIdentifier id)
    (stops : ∀ c ∈ rest.head?, Token.isNamePart c = false)
    (wordless : ∀ text, (bits rest).head? ≠ some (.word text)) :
    marks (bits (id.toList ++ rest)) = marks (bits rest) := by
  rw [bits_word named stops, marks]
  cases behind : bits rest with
  | nil => rfl
  | cons b bs =>
    cases b with
    | word text => exact absurd (by rw [behind]; rfl) (wordless text)
    | sign c => rfl

/-- In front of a sign a word means nothing. -/
theorem marks_word_plain (named : IsIdentifier id) (plain : isPlain c = true)
    (other : Token.isNamePart c = false) (flat : brace? c = none) :
    marks (bits (id.toList ++ c :: rest)) = marks (bits rest) := by
  rw [marks_word named (forall_head other) (wordless (head?_bits_plain plain)),
    marks_plain plain flat]

theorem marks_word_space (named : IsIdentifier id) (plain : isPlain c = true) :
    marks (bits (id.toList ++ ' ' :: c :: rest)) = marks (bits (c :: rest)) := by
  rw [marks_word named (forall_head rfl) (wordless (head?_bits_space plain)), marks_space rfl]

end Reading

/-- There are no marks in the text, wherever it stands. -/
def Silent (text : List Char) : Prop :=
  ∀ rest, Stops rest → marks (bits (text ++ rest)) = marks (bits rest)

section Literals

theorem silent_word (named : IsIdentifier id) : Silent id.toList :=
  fun _ stops => marks_word named
    (fun c member => isNamePart_of_isNumberPart (stops.ends c member)) stops.wordless

theorem silent_quoted {quote : Char} (isQuote : quote = '"' ∨ quote = '\'') (cs : List Char) :
    Silent (quoted quote cs).toList := by
  intro rest _
  rw [bits_quoted isQuote]
  rcases isQuote with rfl | rfl <;> rfl

theorem silent_number (number : IsNumber cs) : Silent cs := by
  intro rest stops
  obtain ⟨d, digit, read⟩ := bits_number number stops.ends
  have flat : brace? d = none := by
    rw [brace?, if_neg, if_neg]
    · rintro rfl
      exact absurd digit (by decide)
    · rintro rfl
      exact absurd digit (by decide)
  rw [read, marks, flat, Option.toList_none, List.nil_append]

theorem silent_signed {text : String} (number : IsNumber text.toList) (negative : Bool) :
    Silent ((if negative then "-" else "") ++ text).toList := by
  intro rest stops
  have behind := silent_number number rest stops
  cases negative with
  | true =>
    rw [if_pos rfl, String.toList_append, List.append_assoc]
    exact (marks_plain rfl rfl).trans behind
  | false =>
    rw [if_neg Bool.false_ne_true, String.toList_append, List.append_assoc]
    exact behind

theorem silent_literal (value : Literal) : Silent (literalText value).toList := by
  cases value with
  | nil => exact silent_word (by decide)
  | boolean b => cases b <;> exact silent_word (by decide)
  | character c => exact silent_quoted (.inr rfl) [c]
  | string s => exact silent_quoted (.inl rfl) s.toList
  | integer i =>
    rw [literalText, toString_eq_signed]
    exact silent_signed (isNumber_toString i.natAbs) _
  | decimal d =>
    rw [literalText]
    by_cases zero : d.digits = 0
    · have text : d.toText = "0" := by rw [Decimal.toText, if_pos zero]
      have number : IsDigits "0".toList := ⟨by decide, List.all_eq_true.mp rfl⟩
      rw [text]
      exact silent_number number.isNumber
    · rw [toText_eq_signed zero]
      refine silent_signed ?_ _
      rw [String.toList_ofList]
      exact isNumber_magnitudeText _ _

end Literals

section Expressions

theorem marks_method (method : IsMethod id) :
    marks (bits (id.toList ++ '(' :: rest)) = marks (bits rest) := by
  rcases method with named | rfl
  · exact marks_word_plain named rfl rfl rfl
  · have text : "System.out.println".toList ++ '(' :: rest = "System".toList ++
        '.' :: ("out".toList ++ '.' :: ("println".toList ++ '(' :: rest)) := rfl
    rw [text, marks_word_plain (by decide) rfl rfl rfl, marks_word_plain (by decide) rfl rfl rfl,
      marks_word_plain (by decide) rfl rfl rfl]

theorem marks_power :
    marks (bits ("Math.pow(".toList ++ rest)) = marks (bits rest) := by
  have text : "Math.pow(".toList ++ rest = "Math".toList ++ '.' :: ("pow".toList ++ '(' :: rest) :=
    rfl
  rw [text, marks_word_plain (by decide) rfl rfl rfl, marks_word_plain (by decide) rfl rfl rfl]

theorem marks_comma : marks (bits (',' :: ' ' :: rest)) = marks (bits rest) := by
  rw [marks_plain rfl rfl, marks_space rfl]

mutual

theorem silent_text (e : Expr) (here : e.Local) : Silent e.text.toList := by
  intro rest stops
  cases e with
  | literal value => exact silent_literal value rest stops
  | group inner =>
    have text : (Expr.group inner).text.toList ++ rest =
        '(' :: (inner.text.toList ++ ')' :: rest) := by simp [Expr.text]
    rw [text, marks_plain rfl rfl, silent_text inner here _ (stops_plain rfl rfl),
      marks_plain rfl rfl]
  | binary op left right =>
    obtain ⟨first, second⟩ := here
    have text : (Expr.binary op left right).text.toList ++ rest =
        left.text.toList ++ (' ' :: op.symbol.toList ++ ' ' :: (right.text.toList ++ rest)) := by
      simp [Expr.text]
    rw [text, silent_text left first _ (stops_operator op), marks_operator,
      silent_text right second rest stops]
  | power base exponent =>
    obtain ⟨first, second⟩ := here
    have text : (Expr.power base exponent).text.toList ++ rest = "Math.pow(".toList ++
        (base.text.toList ++ ',' :: ' ' :: (exponent.text.toList ++ ')' :: rest)) := by
      simp [Expr.text]
    rw [text, marks_power, silent_text base first _ (stops_plain rfl rfl), marks_comma,
      silent_text exponent second _ (stops_plain rfl rfl), marks_plain rfl rfl]
  | name id => exact silent_word here rest stops
  | element id offset =>
    obtain ⟨named, inside⟩ := here
    have text : (Expr.element id offset).text.toList ++ rest =
        id.toList ++ '[' :: (offset.text.toList ++ ']' :: rest) := by simp [Expr.text]
    rw [text, marks_word_plain named rfl rfl rfl, silent_text offset inside _ (stops_plain rfl rfl),
      marks_plain rfl rfl]
  | call id arguments =>
    obtain ⟨method, inside⟩ := here
    have text : (Expr.call id arguments).text.toList ++ rest = id.toList ++
        '(' :: ((", ".intercalate (Expr.texts arguments)).toList ++ ')' :: rest) := by
      simp [Expr.text]
    rw [text, marks_method method, silent_texts arguments inside _ (stops_plain rfl rfl),
      marks_plain rfl rfl]
  | array elements => exact here.elim

theorem silent_texts (es : List Expr) (here : Expr.AllLocal es) :
    Silent (", ".intercalate (Expr.texts es)).toList := by
  intro rest stops
  cases es with
  | nil => rfl
  | cons e es =>
    obtain ⟨first, others⟩ := here
    cases es with
    | nil =>
      have text : (", ".intercalate (Expr.texts [e])).toList = e.text.toList := by
        simp [Expr.texts]
      rw [text]
      exact silent_text e first rest stops
    | cons e' es =>
      have text : (", ".intercalate (Expr.texts (e :: e' :: es))).toList ++ rest =
          e.text.toList ++ ',' :: ' ' ::
            ((", ".intercalate (Expr.texts (e' :: es))).toList ++ rest) := by
        simp [Expr.texts, String.toList_intercalate]
      rw [text, silent_text e first _ (stops_plain rfl rfl), marks_comma,
        silent_texts (e' :: es) others rest stops]

end

end Expressions

/-- The text has these marks, and what stands behind it has its own. -/
def Marked (text : String) (ms : List Mark) : Prop :=
  ∀ rest, marks (bits (text.toList ++ rest)) = ms ++ marks (bits rest)

section Texts

variable {text : String} {ms : List Mark}

theorem bits_blank (blank : ∀ c ∈ cs, isSpace c = true) : bits (cs ++ rest) = bits rest := by
  induction cs with
  | nil => rfl
  | cons c cs ih =>
    obtain ⟨here, behind⟩ := List.forall_mem_cons.mp blank
    rw [List.cons_append, bits_space here, ih behind]

theorem additive_marked : Additive Marked where
  append := by
    intro text other ms ns front behind rest
    rw [String.toList_append, List.append_assoc, front, behind, List.append_assoc]
  blank := by
    intro text blank rest
    rw [bits_blank blank, List.nil_append]

theorem marked_opening : Marked "\x7b" [.opening] := by
  intro rest
  exact (congrArg marks (bits_plain rfl)).trans rfl

theorem marked_closing : Marked "\x7d" [.closing] := by
  intro rest
  exact (congrArg marks (bits_plain rfl)).trans rfl

theorem marked_semicolon {e : Expr} (here : e.Local) : Marked (e.text ++ ";") [] := by
  intro rest
  rw [String.toList_append, List.append_assoc]
  exact (silent_text e here _ (stops_plain rfl rfl)).trans (marks_plain rfl rfl)

theorem Marked.opening (heading : Marked text ms) : Marked (text ++ "\x7b") (ms ++ [.opening]) :=
  additive_marked.append heading marked_opening

end Texts

section Statements

variable {e : Expr} {name : String}

theorem marks_text (here : e.Local) (plain : isPlain c = true) (other : isNumberPart c = false) :
    marks (bits (e.text.toList ++ c :: rest)) = marks (bits (c :: rest)) :=
  silent_text e here _ (stops_plain plain other)

theorem marks_introducer {word : String} (introducer : word ∈ introducers) :
    marks (bits (word.toList ++ ' ' :: rest)) = marks (bits rest) := by
  have named : ∀ word ∈ introducers, IsIdentifier word := by decide
  have nothing : declared? word (bits rest) = none := by
    rw [declared?.eq_def]
    split
    · rw [if_pos (.inl introducer)]
    · rfl
  rw [bits_word (named word introducer) (forall_head rfl), bits_space rfl, marks, nothing,
    Option.toList_none, List.nil_append]

theorem isIdentifier_javaName (ty : Ty) :
    IsIdentifier ty.javaName ∧ ty.javaName ∉ introducers := by
  cases ty <;> decide

theorem bits_typed (ty : Ty) (named : IsIdentifier name)
    (stops : ∀ c ∈ rest.head?, Token.isNamePart c = false) :
    bits (ty.javaName.toList ++ ' ' :: (name.toList ++ rest)) =
      .word ty.javaName :: .word name :: bits rest := by
  rw [bits_word (isIdentifier_javaName ty).1 (forall_head rfl), bits_space rfl,
    bits_word named stops]

theorem marks_declares (ty : Ty) (named : IsIdentifier name)
    (stops : ∀ c ∈ rest.head?, Token.isNamePart c = false)
    (plain : (bits rest).head? = some (.sign c)) (noMethod : c ≠ '(') :
    marks (bits (ty.javaName.toList ++ ' ' :: (name.toList ++ rest))) =
      .declares name :: marks (bits rest) := by
  rw [bits_typed ty named stops]
  cases behind : bits rest with
  | nil =>
    rw [behind] at plain
    cases plain
  | cons b bs =>
    rw [behind] at plain
    cases plain
    have free : ¬ (ty.javaName ∈ introducers ∨ (Bit.sign c :: bs).head? = some (.sign '(')) := by
      rintro (introducer | method)
      · exact (isIdentifier_javaName ty).2 introducer
      · cases method
        exact noMethod rfl
    rw [marks, declared?, if_neg free]
    rfl

theorem marks_heading (ty : Ty) (named : IsIdentifier name) :
    marks (bits (ty.javaName.toList ++ ' ' :: (name.toList ++ '(' :: rest))) =
      marks (bits rest) := by
  rw [bits_typed ty named (forall_head rfl), bits_plain rfl, marks, declared?, if_pos (.inr rfl)]
  rfl

theorem marked_declare (ty : Ty) {value : Option Expr} (named : IsIdentifier name)
    (here : ∀ e ∈ value, e.Local) :
    Marked (ty.javaName ++ " " ++ name ++ assignedText value ++ ";") [.declares name] := by
  intro rest
  cases value with
  | none =>
    have text : (ty.javaName ++ " " ++ name ++ assignedText none ++ ";").toList ++ rest =
        ty.javaName.toList ++ ' ' :: (name.toList ++ ';' :: rest) := by simp [assignedText]
    rw [text, marks_declares ty named (forall_head rfl) (head?_bits_plain rfl) (by decide),
      marks_plain rfl rfl]
    rfl
  | some e =>
    have text : (ty.javaName ++ " " ++ name ++ assignedText (some e) ++ ";").toList ++ rest =
        ty.javaName.toList ++ ' ' :: (name.toList ++
          ' ' :: '=' :: ' ' :: (e.text.toList ++ ';' :: rest)) := by simp [assignedText]
    rw [text, marks_declares ty named (forall_head rfl) (head?_bits_space rfl) (by decide),
      marks_space rfl, marks_plain rfl rfl, marks_space rfl, marks_text (here e rfl) rfl rfl,
      marks_plain rfl rfl]
    rfl

theorem marked_assign {receiver : Expr} (place : receiver.Local) (here : e.Local) :
    Marked (receiver.text ++ " = " ++ e.text ++ ";") [] := by
  intro rest
  have text : (receiver.text ++ " = " ++ e.text ++ ";").toList ++ rest =
      receiver.text.toList ++ ' ' :: '=' :: ' ' :: (e.text.toList ++ ';' :: rest) := by simp
  rw [text, silent_text receiver place _ (stops_space rfl), marks_space rfl, marks_plain rfl rfl,
    marks_space rfl, marks_text here rfl rfl, marks_plain rfl rfl]
  rfl

/-- A condition behind a word. -/
theorem marked_condition (word : String) (named : IsIdentifier word) (here : e.Local) :
    Marked (word ++ " (" ++ e.text ++ ") ") [] := by
  intro rest
  have text : (word ++ " (" ++ e.text ++ ") ").toList ++ rest =
      word.toList ++ ' ' :: '(' :: (e.text.toList ++ ')' :: ' ' :: rest) := by simp
  rw [text, marks_word_space named rfl, marks_plain rfl rfl, marks_text here rfl rfl,
    marks_plain rfl rfl, marks_space rfl]
  rfl

theorem marks_introduced {word : String} (introducer : word ∈ introducers) (here : e.Local)
    (plain : isPlain c = true) (other : isNumberPart c = false) (flat : brace? c = none) :
    marks (bits (word.toList ++ ' ' :: (e.text.toList ++ c :: rest))) = marks (bits rest) := by
  rw [marks_introducer introducer, marks_text here plain other, marks_plain plain flat]

theorem marked_return (here : e.Local) : Marked ("return " ++ e.text ++ ";") [] := by
  intro rest
  have text : ("return " ++ e.text ++ ";").toList ++ rest =
      "return".toList ++ ' ' :: (e.text.toList ++ ';' :: rest) := by simp
  rw [text]
  exact marks_introduced (by decide) here rfl rfl rfl

theorem marked_case (here : e.Local) : Marked ("case " ++ e.text ++ ":") [] := by
  intro rest
  have text : ("case " ++ e.text ++ ":").toList ++ rest =
      "case".toList ++ ' ' :: (e.text.toList ++ ':' :: rest) := by simp
  rw [text]
  exact marks_introduced (by decide) here rfl rfl rfl

/-- A word on its own in front of a sign. -/
theorem marked_word (text word : String) (split : text.toList = word.toList ++ [c])
    (named : IsIdentifier word) (plain : isPlain c = true) (other : Token.isNamePart c = false)
    (flat : brace? c = none) : Marked text [] := by
  intro rest
  rw [split, List.append_assoc]
  exact marks_word_plain named plain other flat

theorem marked_break : Marked "break;" [] :=
  marked_word "break;" "break" rfl (by decide) rfl rfl rfl

theorem marked_default : Marked "default:" [] :=
  marked_word "default:" "default" rfl (by decide) rfl rfl rfl

theorem marked_else : Marked " else \x7b" [.opening] := by
  intro rest
  have text : " else \x7b".toList ++ rest = ' ' :: ("else".toList ++ ' ' :: '\x7b' :: rest) := rfl
  rw [text, marks_space rfl, marks_word_space (by decide) rfl, bits_plain rfl]
  rfl

end Statements

def markAspect : Aspect Mark where
  tells := Marked
  opening := .opening
  closing := .closing
  label := []
  stmt := Stmt.marks
  block := Stmt.allMarks
  case := Case.marks
  cases := Case.allMarks

theorem sound_markAspect : markAspect.Sound where
  toAdditive := additive_marked
  closes := marked_closing
  condition := by
    intro word heads e here
    simp only [conditionHeads, List.mem_cons, List.not_mem_nil, or_false] at heads
    rcases heads with rfl | rfl | rfl
    · exact (marked_condition "if" (by decide) here).opening
    · exact (marked_condition "switch" (by decide) here).opening
    · exact (marked_condition "while" (by decide) here).opening
  otherwise := marked_else
  on := marked_case
  default := marked_default
  expression := marked_semicolon
  declare ty _ _ := marked_declare ty
  assign := marked_assign
  ret := marked_return
  breakOff := marked_break
  branch _ _ _ := rfl
  switch _ _ := rfl
  loop _ _ := rfl
  block_nil := rfl
  block_cons _ _ := rfl
  case_on _ _ := rfl
  case_default _ := rfl
  cases_nil := rfl
  cases_cons _ _ := rfl

section Methods

def parameterText (parameter : Ty × String) : String := parameter.1.javaName ++ " " ++ parameter.2

theorem marks_parameter (ty : Ty) {name : String} (named : IsIdentifier name)
    (plain : isPlain c = true) (other : Token.isNamePart c = false) (noMethod : c ≠ '(') :
    marks (bits ((parameterText (ty, name)).toList ++ c :: rest)) =
      .declares name :: marks (bits (c :: rest)) := by
  have text : (parameterText (ty, name)).toList ++ c :: rest =
      ty.javaName.toList ++ ' ' :: (name.toList ++ c :: rest) := by simp [parameterText]
  rw [text, marks_declares ty named (forall_head other) (head?_bits_plain plain) noMethod]

theorem marks_parameters (parameters : List (Ty × String))
    (named : ∀ parameter ∈ parameters, IsIdentifier parameter.2) :
    marks (bits ((", ".intercalate (parameters.map parameterText)).toList ++ ')' :: rest)) =
      parameters.map (fun (_, name) => .declares name) ++ marks (bits rest) := by
  induction parameters with
  | nil => exact marks_plain rfl rfl
  | cons first others ih =>
    obtain ⟨here, behind⟩ := List.forall_mem_cons.mp named
    cases others with
    | nil =>
      have text : ", ".intercalate ([first].map parameterText) = parameterText first := by simp
      rw [text, marks_parameter first.1 here rfl rfl (by decide), marks_plain rfl rfl]
      rfl
    | cons second others =>
      have text : (", ".intercalate ((first :: second :: others).map parameterText)).toList ++
          ')' :: rest = (parameterText first).toList ++ ',' :: ' ' ::
            ((", ".intercalate ((second :: others).map parameterText)).toList ++ ')' :: rest) := by
        simp [String.toList_intercalate]
      rw [text, marks_parameter first.1 here rfl rfl (by decide), marks_comma, ih behind]
      rfl

theorem marked_heading (m : Method) (here : m.Local) :
    Marked m.heading (m.parameters.map fun (_, name) => .declares name) := by
  intro rest
  have text : m.heading.toList ++ rest = m.result.javaName.toList ++ ' ' :: (m.name.toList ++ '(' ::
      ((", ".intercalate (m.parameters.map parameterText)).toList ++ ')' :: ' ' :: rest)) := by
    have heading : m.heading = m.result.javaName ++ " " ++ m.name ++ "(" ++
        ", ".intercalate (m.parameters.map parameterText) ++ ") " := rfl
    simp [heading]
  rw [text, marks_heading m.result here.name, marks_parameters m.parameters here.parameters,
    marks_space rfl]

theorem marking_method (m : Method) (here : m.Local) : Marking Marked m.lines m.marks :=
  (sound_markAspect.marking_block m.body here.body).braced additive_marked
    (marked_heading m here).opening marked_closing

theorem marks_render (m : Method) (here : m.Local) : marks (bits m.render.toList) = m.marks := by
  have whole := (marking_method m here).render additive_marked []
  rw [List.append_nil, marks_nil, List.append_nil] at whole
  exact whole

end Methods

end Plc.Java
