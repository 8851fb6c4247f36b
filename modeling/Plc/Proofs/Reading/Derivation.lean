import Plc.Proofs.Outcome
import Plc.Proofs.Reading.Composition
import Plc.Proofs.Reading.Grammar

/-! Reading is derivation: programs are read exactly as the grammar derives them. -/
namespace Plc.Grammar

open Reading Reading.Reader

variable {ts rest : List Token}

theorem isKeyword_iff {t : Token} {word : String} :
    t.isKeyword word = true ↔ t.kind = .identifier ∧ t.literal = word := by
  simp [Token.isKeyword]

theorem isOperator_iff {t : Token} {symbol : String} :
    t.isOperator symbol = true ↔ t.kind = .operator ∧ t.literal = symbol := by
  simp [Token.isOperator]

section Tokens

variable {word symbol : String}

theorem word_iff : Word word ts rest ↔ ∃ t, t.isKeyword word = true ∧ ts = t :: rest := by
  constructor
  · rintro ⟨index, rfl⟩
    exact ⟨_, isKeyword_iff.mpr ⟨rfl, rfl⟩, rfl⟩
  · rintro ⟨⟨kind, literal, index⟩, passes, rfl⟩
    obtain ⟨rfl, rfl⟩ := isKeyword_iff.mp passes
    exact ⟨index, rfl⟩

theorem sign_iff : Sign symbol ts rest ↔ ∃ t, t.isOperator symbol = true ∧ ts = t :: rest := by
  constructor
  · rintro ⟨index, rfl⟩
    exact ⟨_, isOperator_iff.mpr ⟨rfl, rfl⟩, rfl⟩
  · rintro ⟨⟨kind, literal, index⟩, passes, rfl⟩
    obtain ⟨rfl, rfl⟩ := isOperator_iff.mp passes
    exact ⟨index, rfl⟩

theorem startsWithKeyword_iff :
    startsWithKeyword word ts = true ↔ ∃ rest, Word word ts rest := by
  cases ts with
  | nil => simp [startsWithKeyword, Word]
  | cons t rest =>
    simp only [word_iff]
    constructor
    · exact fun passes => ⟨rest, t, passes, rfl⟩
    · rintro ⟨_, _, passes, same⟩
      cases same
      exact passes

theorem startsWith_iff {words : List String} :
    (words.any fun word => startsWithKeyword word ts) = true ↔ StartsWith words ts := by
  simp only [List.any_eq_true, startsWithKeyword_iff, StartsWith]

theorem not_startsWith_iff {words : List String} :
    ¬ StartsWith words ts ↔ ∀ word ∈ words, startsWithKeyword word ts = false := by
  rw [← startsWith_iff, List.any_eq_true]
  simp

theorem Word.startsWithKeyword (here : Word word ts rest) (other : String) :
    startsWithKeyword other ts = (word == other) := by
  obtain ⟨index, rfl⟩ := here
  simp [Reading.startsWithKeyword, Token.isKeyword]

theorem Word.startsWithOperator (here : Word word ts rest) (other : String) :
    startsWithOperator other ts = false := by
  obtain ⟨index, rfl⟩ := here
  rfl

theorem Sign.startsWithOperator (here : Sign symbol ts rest) (other : String) :
    startsWithOperator other ts = (symbol == other) := by
  obtain ⟨index, rfl⟩ := here
  simp [Reading.startsWithOperator, Token.isOperator]

theorem Word.length (here : Word word ts rest) : rest.length < ts.length := by
  obtain ⟨index, rfl⟩ := here
  simp

theorem Sign.length (here : Sign symbol ts rest) : rest.length < ts.length := by
  obtain ⟨index, rfl⟩ := here
  simp

theorem Value.length {e : Expr} (here : Value ts e rest) : rest.length < ts.length := here.1

section Reads

variable {α : Type} {misread : Misread} {way otherwise next : Reader α} {value : α}
  {behind : List Token}

theorem either_word_iff : either (·.isKeyword word) (fun _ => way) otherwise ts =
      .ok (value, rest) ↔
    (∃ mid, Word word ts mid ∧ way mid = .ok (value, rest)) ∨
      startsWithKeyword word ts = false ∧ otherwise ts = .ok (value, rest) := by
  simp only [either_eq_ok, word_iff, startsWithKeyword]
  refine or_congr ⟨?_, ?_⟩ Iff.rfl
  · rintro ⟨t, mid, passes, same, read⟩
    exact ⟨mid, ⟨t, passes, same⟩, read⟩
  · rintro ⟨mid, ⟨t, passes, same⟩, read⟩
    exact ⟨t, mid, passes, same, read⟩

theorem either_sign_iff : either (·.isOperator symbol) (fun _ => way) otherwise ts =
      .ok (value, rest) ↔
    (∃ mid, Sign symbol ts mid ∧ way mid = .ok (value, rest)) ∨
      startsWithOperator symbol ts = false ∧ otherwise ts = .ok (value, rest) := by
  simp only [either_eq_ok, sign_iff, startsWithOperator]
  refine or_congr ⟨?_, ?_⟩ Iff.rfl
  · rintro ⟨t, mid, passes, same, read⟩
    exact ⟨mid, ⟨t, passes, same⟩, read⟩
  · rintro ⟨mid, ⟨t, passes, same⟩, read⟩
    exact ⟨t, mid, passes, same, read⟩

theorem keyword_andThen_iff : (of (keyword word misread)).andThen (fun _ => next) ts =
      .ok (value, rest) ↔
    ∃ mid, Word word ts mid ∧ next mid = .ok (value, rest) := by
  simp only [andThen_eq_ok, of_keyword, need_eq_ok, word_iff]
  constructor
  · rintro ⟨t, mid, ⟨passes, same⟩, read⟩
    exact ⟨mid, ⟨t, passes, same⟩, read⟩
  · rintro ⟨mid, ⟨t, passes, same⟩, read⟩
    exact ⟨t, mid, ⟨passes, same⟩, read⟩

theorem operator_andThen_iff : (of (operator symbol misread)).andThen (fun _ => next) ts =
      .ok (value, rest) ↔
    ∃ mid, Sign symbol ts mid ∧ next mid = .ok (value, rest) := by
  simp only [andThen_eq_ok, of_operator, need_eq_ok, sign_iff]
  constructor
  · rintro ⟨t, mid, ⟨passes, same⟩, read⟩
    exact ⟨mid, ⟨t, passes, same⟩, read⟩
  · rintro ⟨mid, ⟨t, passes, same⟩, read⟩
    exact ⟨t, mid, ⟨passes, same⟩, read⟩

theorem Word.either (here : Word word ts behind) :
    Reader.either (·.isKeyword word) (fun _ => way) otherwise ts = way behind := by
  obtain ⟨t, passes, rfl⟩ := word_iff.mp here
  exact either_pos passes behind

theorem Sign.either (here : Sign symbol ts behind) :
    Reader.either (·.isOperator symbol) (fun _ => way) otherwise ts = way behind := by
  obtain ⟨t, passes, rfl⟩ := sign_iff.mp here
  exact either_pos passes behind

theorem Word.either_other {other : String} (here : Word word ts behind) (differs : word ≠ other) :
    Reader.either (·.isKeyword other) (fun _ => way) otherwise ts = otherwise ts :=
  either_neg ((here.startsWithKeyword other).trans (beq_eq_false_iff_ne.mpr differs))

theorem Word.andThen (here : Word word ts behind) :
    (of (keyword word misread)).andThen (fun _ => next) ts = next behind := by
  obtain ⟨t, passes, rfl⟩ := word_iff.mp here
  rw [of_keyword]
  exact andThen_of_ok (need_eq_ok.mpr ⟨passes, rfl⟩)

theorem Sign.andThen (here : Sign symbol ts behind) :
    (of (operator symbol misread)).andThen (fun _ => next) ts = next behind := by
  obtain ⟨t, passes, rfl⟩ := sign_iff.mp here
  rw [of_operator]
  exact andThen_of_ok (need_eq_ok.mpr ⟨passes, rfl⟩)

end Reads

theorem name_iff {misread : Misread} :
    of (name misread) ts = .ok (word, rest) ↔ Word word ts rest := by
  simp only [of_name, andThen_eq_ok, need_eq_ok, give_eq_ok, word_iff, isKeyword_iff]
  constructor
  · rintro ⟨t, mid, ⟨kind, rfl⟩, literal, rfl⟩
    exact ⟨t, ⟨by simpa using kind, literal⟩, rfl⟩
  · rintro ⟨t, ⟨kind, literal⟩, rfl⟩
    exact ⟨t, rest, ⟨by simpa using kind, rfl⟩, literal, rfl⟩

theorem value_iff {e : Expr} : of expression ts = .ok (e, rest) ↔ Value ts e rest := of_eq_ok

end Tokens

section Values

/-- An expression begins with something other than an operator, or with a parenthesis. -/
theorem Value.startsExpression {e : Expr} (here : Value ts e rest) :
    startsExpression ts = true := by
  have operand : ∃ e' mid, of primary ts = .ok (e', mid) := by
    rw [← value_iff, of_expression] at here
    have tier : ∀ tiers e rest, of (binary tiers) ts = .ok (e, rest) →
        ∃ e' mid, of primary ts = .ok (e', mid) := by
      intro tiers
      induction tiers with
      | zero =>
        intro e rest read
        rw [of_binary_zero] at read
        exact ⟨e, rest, read⟩
      | succ tier ih =>
        intro e rest read
        rw [of_binary_succ, andThen_eq_ok] at read
        obtain ⟨left, mid, first, _⟩ := read
        exact ih left mid first
    exact tier _ _ _ here
  obtain ⟨e', mid, read⟩ := operand
  rw [of_primary] at read
  cases ts with
  | nil => cases read
  | cons t rest =>
    rw [← Bool.not_eq_false]
    intro other
    obtain ⟨operator, noGroup⟩ : t.kind = .operator ∧ ¬ t.literal = "(" := by
      simpa [Reading.startsExpression] using other
    have noWay : primaryWays t = none := by
      simp [primaryWays, literal?, operator, Token.isOperator, noGroup]
    rw [choose_none (show (t :: rest).head?.bind primaryWays = none from noWay)] at read
    cases read

theorem requiredExpression_iff {misread : Misread} {e : Expr} :
    of (requiredExpression misread) ts = .ok (e, rest) ↔ Value ts e rest := by
  rw [of_requiredExpression, peek_eq_ok, value_iff]
  constructor
  · rintro (⟨_, read⟩ | ⟨_, refused⟩)
    · exact read
    · exact absurd refused refuse_ne_ok
  · exact fun value => .inl ⟨value.startsExpression, value⟩

theorem ascription_of_reads {typeName : Option String}
    (read : of ascription ts = .ok (typeName, rest)) : Ascription ts typeName rest := by
  simp only [of_ascription, either_sign_iff, andThen_eq_ok, give_eq_ok, name_iff] at read
  obtain ⟨mid, colon, name, mid', type, rfl, rfl⟩ | ⟨_, rfl, rfl⟩ := read
  · exact .present colon type
  · exact .absent ts

/-- A type name is not left out in front of a colon. -/
theorem Ascription.reads {typeName : Option String} (type : Ascription ts typeName rest)
    (behind : startsWithOperator ":" rest = false) : of ascription ts = .ok (typeName, rest) := by
  rw [of_ascription]
  cases type with
  | absent => exact either_neg behind
  | present colon type =>
    rw [colon.either, andThen_of_ok (name_iff.mpr type)]
    rfl

theorem initial_of_reads {value : Option Expr} (read : of initializer ts = .ok (value, rest)) :
    Initial ts value rest := by
  simp only [of_initializer, either_sign_iff, andThen_eq_ok, give_eq_ok, requiredExpression_iff]
    at read
  obtain ⟨mid, equals, e, mid', value, rfl, rfl⟩ | ⟨_, rfl, rfl⟩ := read
  · exact .present equals value
  · exact .absent ts

theorem Initial.reads {value : Option Expr} (initial : Initial ts value rest)
    (behind : startsWithOperator "=" rest = false) : of initializer ts = .ok (value, rest) := by
  rw [of_initializer]
  cases initial with
  | absent => exact either_neg behind
  | present equals value =>
    rw [equals.either, andThen_of_ok (requiredExpression_iff.mpr value)]
    rfl

/-- In front of a first value or of a semicolon no colon stands. -/
theorem Initial.startsWithOperator {value : Option Expr} {behind : List Token}
    (initial : Initial ts value rest) (ends : Sign ";" rest behind) :
    startsWithOperator ":" ts = false := by
  cases initial with
  | absent => exact ends.startsWithOperator ":"
  | present equals => exact equals.startsWithOperator ":"

theorem values_of_reads {closing : String} {es : List Expr}
    (read : of (arguments closing) ts = .ok (es, rest)) : Values ts es rest := by
  induction h : ts.length using Nat.strongRecOn generalizing ts es with
  | ind n ih =>
    subst h
    rw [of_arguments] at read
    simp only [peek_eq_ok, andThen_eq_ok, either_sign_iff, give_eq_ok, refuse_ne_ok, value_iff,
      and_false, or_false, false_or] at read
    obtain ⟨_, e, mid, value,
      ⟨mid', comma, _, es, mid'', more, rfl, rfl⟩ | ⟨_, rfl, rfl⟩⟩ := read
    · have shorter := Nat.lt_trans comma.length value.length
      exact .next value comma (ih _ shorter more rfl)
    · exact .last value

theorem Values.startsExpression {es : List Expr} (values : Values ts es rest) :
    startsExpression ts = true := by
  cases values with
  | last value => exact value.startsExpression
  | next value => exact value.startsExpression

theorem startsWithOperator_of_startsExpression {closing : String} (other : closing ≠ "(")
    (starts : Reading.startsExpression ts = true) : startsWithOperator closing ts = false := by
  cases ts with
  | nil => rfl
  | cons t ts =>
    rw [← Bool.not_eq_true]
    intro closes
    obtain ⟨kind, rfl⟩ := isOperator_iff.mp (show t.isOperator closing = true from closes)
    simp [Reading.startsExpression, kind, other] at starts

theorem Values.reads {closing : String} {es : List Expr} (other : closing ≠ "(")
    (values : Values ts es rest) (behind : startsWithOperator "," rest = false) :
    of (arguments closing) ts = .ok (es, rest) := by
  induction values with
  | last value =>
    rw [of_arguments, peek, if_pos value.startsExpression, andThen_of_ok (value_iff.mpr value)]
    exact either_neg behind
  | next value comma others ih =>
    rw [of_arguments, peek, if_pos value.startsExpression, andThen_of_ok (value_iff.mpr value),
      comma.either, peek,
      startsWithOperator_of_startsExpression other others.startsExpression,
      if_neg Bool.false_ne_true, andThen_of_ok (ih behind)]
    rfl

end Values

end Plc.Grammar
