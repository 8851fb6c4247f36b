import Plc.Proofs.Reading.Derivation

/-! Statements and the blocks that they stand in are read as they are derived, and the keywords of a
derivation nest. -/
namespace Plc.Grammar

open Reading Reading.Reader

variable {ts rest : List Token} {s : Stmt} {ss : List Stmt} {events more : List Event}

section Sound

theorem declaration_of_reads {t₁ : List Token} (word : Word "LET" ts t₁)
    (read : of declaration t₁ = .ok (s, rest)) : Statement ts s rest [] := by
  rw [of_declaration] at read
  simp only [andThen_eq_ok, ↓operator_andThen_iff, name_iff, give_eq_ok] at read
  obtain ⟨name, t₂, id, typeName, t₃, type, value, t₄, initial, _, ends, rfl, rfl⟩ := read
  exact .declare word id (ascription_of_reads type) (initial_of_reads initial) ends

theorem result_of_reads {t₁ : List Token} (word : Word "RETURN" ts t₁)
    (read : of result t₁ = .ok (s, rest)) : Statement ts s rest [] := by
  rw [of_result] at read
  simp only [andThen_eq_ok, ↓operator_andThen_iff, requiredExpression_iff, give_eq_ok] at read
  obtain ⟨e, t₂, value, _, ends, rfl, rfl⟩ := read
  exact .ret word value ends

theorem plainStatement_of_reads (plain : ¬ StartsWith statementWords ts)
    (read : of plainStatement ts = .ok (s, rest)) : Statement ts s rest [] := by
  rw [of_plainStatement] at read
  simp only [andThen_eq_ok, ↓operator_andThen_iff, value_iff, give_eq_ok] at read
  obtain ⟨e, t₁, value, assigned, t₂, initial, _, ends, rfl, rfl⟩ := read
  cases initial_of_reads initial with
  | absent => exact .expression plain value ends
  | present equals assigned => exact .assign plain value equals assigned ends

structure DerivesBelow (n : Nat) : Prop where
  statement : ∀ {ts s rest}, ts.length < n → of Reading.statement ts = .ok (s, rest) →
    ∃ events, Statement ts s rest events
  block : ∀ (part : Part) {ts ss rest}, ts.length < n →
    of (Reading.block part.terminators) ts = .ok (ss, rest) → ∃ events, Block part ts ss rest events
  cases : ∀ (owner : Nat) {ts cs rest}, ts.length < n → of Reading.cases ts = .ok (cs, rest) →
    ∃ events, Cases owner ts cs rest events

theorem branch_of_reads (below : DerivesBelow ts.length) {t₁ t₂ t₃ t₄ t₅ : List Token}
    {condition : Expr} {thenBody elseBody : List Stmt} (word : Word "IF" ts t₁)
    (value : Value t₁ condition t₂) (begins : Word "DO" t₂ t₃)
    (thenRead : of (Reading.block Part.thenPart.terminators) t₃ = .ok (thenBody, t₄))
    (elseRead : of alternative t₄ = .ok (elseBody, t₅)) (ends : Word "END" t₅ rest) :
    ∃ events, Statement ts (.branch condition thenBody elseBody) rest events := by
  have shorter := Nat.lt_trans begins.length (Nat.lt_trans value.length word.length)
  have notLonger := (of_eq_ok.mp thenRead).1
  obtain ⟨first, thenPart⟩ := below.block .thenPart shorter thenRead
  rw [of_alternative, either_word_iff] at elseRead
  rcases elseRead with ⟨mid, otherwise, elseRead⟩ | ⟨_, given⟩
  · have behind := otherwise.length
    obtain ⟨second, elsePart⟩ := below.block .elsePart (by omega) elseRead
    exact ⟨_, .branchElse word value begins thenPart otherwise elsePart ends⟩
  · obtain ⟨rfl, rfl⟩ := give_eq_ok.mp given
    exact ⟨_, .branch word value begins thenPart ends⟩

theorem statement_of_reads (below : DerivesBelow ts.length)
    (read : of Reading.statement ts = .ok (s, rest)) : ∃ events, Statement ts s rest events := by
  rw [of_statement] at read
  simp only [either_word_iff, andThen_eq_ok, ↓keyword_andThen_iff, value_iff, give_eq_ok] at read
  obtain ⟨t₁, word, read⟩ | ⟨noLet, read⟩ := read
  · exact ⟨_, declaration_of_reads word read⟩
  obtain ⟨t₁, word, condition, t₂, value, cases, t₃, read, rfl, rfl⟩ | ⟨noSwitch, read⟩ := read
  · obtain ⟨events, inside⟩ := below.cases ts.length (Nat.lt_trans value.length word.length) read
    exact ⟨_, .switch word value inside⟩
  obtain ⟨t₁, word, condition, t₂, value, t₃, begins, thenBody, t₄, thenRead, elseBody, t₅,
    elseRead, t₆, ends, rfl, rfl⟩ | ⟨noIf, read⟩ := read
  · exact branch_of_reads below word value begins thenRead elseRead ends
  obtain ⟨t₁, word, condition, t₂, value, t₃, begins, body, t₄, read, t₅, ends, rfl, rfl⟩ |
    ⟨noWhile, read⟩ := read
  · have shorter := Nat.lt_trans begins.length (Nat.lt_trans value.length word.length)
    obtain ⟨events, inside⟩ := below.block .loop shorter read
    exact ⟨_, .loop word value begins inside ends⟩
  obtain ⟨t₁, word, read⟩ | ⟨noReturn, read⟩ := read
  · exact ⟨_, result_of_reads word read⟩
  · have plain : ¬ StartsWith statementWords ts := by
      simp [not_startsWith_iff, statementWords, noLet, noSwitch, noIf, noWhile, noReturn]
    exact ⟨_, plainStatement_of_reads plain read⟩

theorem block_of_reads (below : DerivesBelow ts.length) (part : Part)
    (read : of (Reading.block part.terminators) ts = .ok (ss, rest)) :
    ∃ events, Block part ts ss rest events := by
  rw [of_block] at read
  simp only [peek_eq_ok, refuse_ne_ok, and_false, false_or, give_eq_ok, andThen_eq_ok] at read
  obtain ⟨_, ⟨_, rfl, rfl⟩ | ⟨inside, s, t₁, first, ss, t₂, others, rfl, rfl⟩⟩ := read
  · exact ⟨_, .empty part ts⟩
  · have inside : ¬ StartsWith part.terminators ts := by
      rw [← startsWith_iff, inside]
      exact Bool.false_ne_true
    obtain ⟨events, here⟩ := statement_of_reads below first
    obtain ⟨more, behind⟩ := below.block part (of_eq_ok.mp first).1 others
    exact ⟨_, .next inside here behind⟩

theorem cases_of_reads (below : DerivesBelow ts.length) (owner : Nat) {cs : List Case}
    (read : of Reading.cases ts = .ok (cs, rest)) : ∃ events, Cases owner ts cs rest events := by
  rw [of_cases] at read
  simp only [either_word_iff, andThen_eq_ok, ↓keyword_andThen_iff, ↓operator_andThen_iff,
    value_iff, give_eq_ok, peek_eq_ok, refuse_ne_ok, and_false, or_false] at read
  obtain ⟨t₁, word, e, t₂, value, t₃, colon, body, t₄, read, cs, t₅, others, rfl, rfl⟩ |
    ⟨_, t₁, word, body, t₂, read, t₃, ends, rfl, rfl⟩ := read
  · have shorter := Nat.lt_trans colon.length (Nat.lt_trans value.length word.length)
    have notLonger := (of_eq_ok.mp read).1
    obtain ⟨first, inside⟩ := below.block .cases shorter read
    obtain ⟨second, behind⟩ := below.cases owner (by omega) others
    exact ⟨_, .on word value colon inside behind⟩
  · obtain ⟨events, inside⟩ := below.block .default word.length read
    exact ⟨_, .default word inside ends⟩

theorem derivesBelow (n : Nat) : DerivesBelow n := by
  induction n with
  | zero => exact ⟨nofun, nofun, nofun⟩
  | succ n ih =>
    have below : ∀ {ts : List Token}, ts.length < n + 1 → DerivesBelow ts.length := by
      intro ts shorter
      have more := Nat.le_of_lt_succ shorter
      exact
        { statement := fun less => ih.statement (Nat.lt_of_lt_of_le less more)
          block := fun part _ _ _ less => ih.block part (Nat.lt_of_lt_of_le less more)
          cases := fun owner _ _ _ less => ih.cases owner (Nat.lt_of_lt_of_le less more) }
    exact
      { statement := fun shorter => statement_of_reads (below shorter)
        block := fun part _ _ _ shorter => block_of_reads (below shorter) part
        cases := fun owner _ _ _ shorter => cases_of_reads (below shorter) owner }

end Sound

section Complete

theorem Word.startsWith {word : String} {words : List String} (here : Word word ts rest)
    (among : word ∈ words) : StartsWith words ts :=
  ⟨word, among, rest, here⟩

theorem Word.isEmpty {word : String} (here : Word word ts rest) : ts.isEmpty = false := by
  obtain ⟨index, rfl⟩ := here
  rfl

theorem StartsWith.isEmpty {words : List String} (here : StartsWith words ts) :
    ts.isEmpty = false := by
  obtain ⟨word, _, rest, here⟩ := here
  exact here.isEmpty

theorem Value.isEmpty {e : Expr} (here : Value ts e rest) : ts.isEmpty = false := by
  cases ts with
  | nil => exact absurd here.length (by simp)
  | cons t ts => rfl

theorem Statement.isEmpty (here : Statement ts s rest events) : ts.isEmpty = false := by
  cases here with
  | declare word => exact word.isEmpty
  | switch word => exact word.isEmpty
  | branch word => exact word.isEmpty
  | branchElse word => exact word.isEmpty
  | loop word => exact word.isEmpty
  | ret word => exact word.isEmpty
  | expression _ value => exact value.isEmpty
  | assign _ place => exact place.isEmpty

theorem Cases.startsWith {owner : Nat} {cs : List Case} (here : Cases owner ts cs rest events) :
    StartsWith Part.cases.terminators ts := by
  cases here with
  | default word => exact word.startsWith (by decide)
  | on word => exact word.startsWith (by decide)

theorem of_statement_plain (plain : ¬ StartsWith statementWords ts) :
    of Reading.statement ts = of plainStatement ts := by
  have other : ∀ word ∈ statementWords, startsWithKeyword word ts = false :=
    not_startsWith_iff.mp plain
  rw [of_statement, either_neg (other "LET" (by decide)), either_neg (other "SWITCH" (by decide)),
    either_neg (other "IF" (by decide)), either_neg (other "WHILE" (by decide)),
    either_neg (other "RETURN" (by decide))]

mutual

theorem Statement.reads {ts rest : List Token} {s : Stmt} {events : List Event}
    (here : Statement ts s rest events) : of Reading.statement ts = .ok (s, rest) := by
  cases here with
  | declare word id type initial ends =>
    rw [of_statement, word.either, of_declaration, andThen_of_ok (name_iff.mpr id),
      andThen_of_ok (type.reads (initial.startsWithOperator ends)),
      andThen_of_ok (initial.reads (ends.startsWithOperator "=")), ends.andThen]
    rfl
  | switch word subject inside =>
    rw [of_statement, word.either_other (by decide), word.either,
      andThen_of_ok (value_iff.mpr subject),
      andThen_of_ok (Cases.reads inside)]
    rfl
  | @branch _ _ _ _ _ t₄ _ body _ word value begins thenPart ends =>
    have inside : of (Reading.block ["ELSE", "END"]) _ = .ok (body, t₄) :=
      Block.reads thenPart (ends.startsWith (by decide))
    have noElse : of alternative t₄ = .ok ([], t₄) := by
      rw [of_alternative, ends.either_other (by decide)]
      rfl
    rw [of_statement, word.either_other (by decide), word.either_other (by decide), word.either,
      andThen_of_ok (value_iff.mpr value), begins.andThen, andThen_of_ok inside,
      andThen_of_ok noElse, ends.andThen]
    rfl
  | @branchElse _ _ _ _ _ t₄ _ t₆ _ thenBody elseBody _ _ word value begins thenPart otherwise
      elsePart ends =>
    have inside : of (Reading.block ["ELSE", "END"]) _ = .ok (thenBody, t₄) :=
      Block.reads thenPart (otherwise.startsWith (by decide))
    have elseRead : of alternative t₄ = .ok (elseBody, t₆) := by
      rw [of_alternative, otherwise.either]
      exact Block.reads elsePart (ends.startsWith (by decide))
    rw [of_statement, word.either_other (by decide), word.either_other (by decide), word.either,
      andThen_of_ok (value_iff.mpr value), begins.andThen, andThen_of_ok inside,
      andThen_of_ok elseRead, ends.andThen]
    rfl
  | @loop _ _ _ _ _ t₄ _ body _ word value begins inside ends =>
    have inside : of (Reading.block ["END"]) _ = .ok (body, t₄) :=
      Block.reads inside (ends.startsWith (by decide))
    rw [of_statement, word.either_other (by decide), word.either_other (by decide),
      word.either_other (by decide), word.either, andThen_of_ok (value_iff.mpr value),
      begins.andThen, andThen_of_ok inside, ends.andThen]
    rfl
  | ret word value ends =>
    rw [of_statement, word.either_other (by decide), word.either_other (by decide),
      word.either_other (by decide), word.either_other (by decide), word.either, of_result,
      andThen_of_ok (requiredExpression_iff.mpr value), ends.andThen]
    rfl
  | expression plain value ends =>
    rw [of_statement_plain plain, of_plainStatement, andThen_of_ok (value_iff.mpr value),
      andThen_of_ok ((Initial.absent _).reads (ends.startsWithOperator "=")), ends.andThen]
    rfl
  | assign plain place equals value ends =>
    rw [of_statement_plain plain, of_plainStatement, andThen_of_ok (value_iff.mpr place),
      andThen_of_ok ((Initial.present equals value).reads (ends.startsWithOperator "=")),
      ends.andThen]
    rfl

theorem Block.reads {part : Part} {ts rest : List Token} {ss : List Stmt} {events : List Event}
    (here : Block part ts ss rest events) (ends : StartsWith part.terminators rest) :
    of (Reading.block part.terminators) ts = .ok (ss, rest) := by
  cases here with
  | empty =>
    rw [of_block, peek, ends.isEmpty, if_neg Bool.false_ne_true, peek,
      if_pos (startsWith_iff.mpr ends)]
    rfl
  | next inside here behind =>
    have begins : ts.isEmpty = false := here.isEmpty
    have inside : (part.terminators.any fun word => startsWithKeyword word ts) = false := by
      rw [← Bool.not_eq_true, startsWith_iff]
      exact inside
    rw [of_block, peek, begins, if_neg Bool.false_ne_true, peek, inside,
      if_neg Bool.false_ne_true, andThen_of_ok (Statement.reads here),
      andThen_of_ok (Block.reads behind ends)]
    rfl

theorem Cases.reads {owner : Nat} {ts rest : List Token} {cs : List Case} {events : List Event}
    (here : Cases owner ts cs rest events) : of Reading.cases ts = .ok (cs, rest) := by
  cases here with
  | @default _ _ _ t₂ _ body _ word inside ends =>
    have inside : of (Reading.block ["CASE", "DEFAULT", "END"]) _ = .ok (body, t₂) :=
      Block.reads inside (ends.startsWith (by decide))
    rw [of_cases, word.either_other (by decide), word.either, andThen_of_ok inside, ends.andThen]
    rfl
  | @on _ _ _ _ _ t₄ _ _ body _ _ _ word value colon inside behind =>
    have inside : of (Reading.block ["CASE", "DEFAULT", "END"]) _ = .ok (body, t₄) :=
      Block.reads inside behind.startsWith
    rw [of_cases, word.either, andThen_of_ok (value_iff.mpr value), colon.andThen,
      andThen_of_ok inside, andThen_of_ok (Cases.reads behind)]
    rfl

end

end Complete

section Nesting

/-- A last word ends the construct that is the innermost one. -/
theorem Nested.ends {part : Part} {outer : List (Part × Nat)} {place owner : Nat}
    (takes : part.behind? "END" = some none) (behind : Nested outer more) :
    Nested ((part, owner) :: outer) (.word "END" place owner :: more) :=
  .word takes behind

mutual

theorem Statement.nested {ts rest : List Token} {s : Stmt} {events more : List Event}
    {outer : List (Part × Nat)} (here : Statement ts s rest events) (behind : Nested outer more) :
    Nested outer (events ++ more) := by
  cases here with
  | declare | ret | expression | assign => exact behind
  | switch _ _ inside => exact .opens (Cases.nested inside behind)
  | branch _ _ _ thenPart =>
    rw [List.append_assoc]
    exact .opens (Block.nested thenPart (.ends rfl behind))
  | branchElse _ _ _ thenPart _ elsePart =>
    rw [List.append_assoc, List.append_assoc]
    exact .opens (Block.nested thenPart (.word rfl (Block.nested elsePart (.ends rfl behind))))
  | loop _ _ _ inside =>
    rw [List.append_assoc]
    exact .opens (Block.nested inside (.ends rfl behind))

theorem Block.nested {part : Part} {ts rest : List Token} {ss : List Stmt}
    {events more : List Event} {outer : List (Part × Nat)} (here : Block part ts ss rest events)
    (behind : Nested outer more) : Nested outer (events ++ more) := by
  cases here with
  | empty => exact behind
  | next _ here others =>
    rw [List.append_assoc]
    exact Statement.nested here (Block.nested others behind)

theorem Cases.nested {owner : Nat} {ts rest : List Token} {cs : List Case}
    {events more : List Event} {outer : List (Part × Nat)}
    (here : Cases owner ts cs rest events) (behind : Nested outer more) :
    Nested ((.cases, owner) :: outer) (events ++ more) := by
  cases here with
  | default _ inside =>
    rw [List.append_assoc]
    exact .word rfl (Block.nested inside (.ends rfl behind))
  | on _ _ _ inside others =>
    rw [List.append_assoc]
    exact .word rfl (Block.nested inside (Cases.nested others behind))

end

end Nesting

end Plc.Grammar
