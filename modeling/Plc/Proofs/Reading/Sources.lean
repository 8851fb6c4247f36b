import Plc.Proofs.Outcome
import Plc.Proofs.Reading.Blocks
import Plc.Token.Lexer

/-! Globals, functions and whole programs are read as they are derived. -/
namespace Plc.Grammar

open Reading Reading.Reader

variable {ts rest : List Token}

section Globals

variable {g : Plc.Global}

theorem globalHead_of_reads (read : of globalHead ts = .ok (g, rest)) {behind : List Token}
    (ends : Sign ";" rest behind) : Global ts g behind := by
  rw [of_globalHead] at read
  simp only [either_word_iff, refuse_ne_ok, and_false, or_false] at read
  obtain ⟨t₁, word, read⟩ | ⟨_, ⟨t₁, word, read⟩ | ⟨_, t₁, word, read⟩⟩ := read
  · rw [of_listGlobal] at read
    simp only [andThen_eq_ok, ↓operator_andThen_iff, name_iff, peek_eq_ok, refuse_ne_ok,
      and_false, false_or, give_eq_ok] at read
    obtain ⟨name, t₂, id, typeName, t₃, type, t₄, equals, t₅, opened, _, es, t₆, elements, _,
      closed, rfl, rfl⟩ := read
    exact .list word id (ascription_of_reads type) equals opened (values_of_reads elements) closed
      ends
  · rw [of_mutableGlobal] at read
    simp only [andThen_eq_ok, name_iff, give_eq_ok] at read
    obtain ⟨name, t₂, id, typeName, t₃, type, value, _, initial, rfl, rfl⟩ := read
    exact .mutable word id (ascription_of_reads type) (initial_of_reads initial) ends
  · rw [of_immutableGlobal] at read
    simp only [andThen_eq_ok, ↓operator_andThen_iff, name_iff, requiredExpression_iff,
      give_eq_ok] at read
    obtain ⟨name, t₂, id, typeName, t₃, type, t₄, equals, e, _, value, rfl, rfl⟩ := read
    exact .immutable word id (ascription_of_reads type) equals value ends

theorem global_of_reads (read : of global ts = .ok (g, rest)) : Global ts g rest := by
  rw [of_global] at read
  simp only [andThen_eq_ok, ↓operator_andThen_iff, give_eq_ok] at read
  obtain ⟨g, t₁, read, _, ends, rfl, rfl⟩ := read
  exact globalHead_of_reads read ends

section Heads

variable {t₁ t₂ t₃ t₄ t₅ : List Token} {name : String} {typeName : Option String}

theorem listGlobal_reads {es : List Expr} (id : Word name ts t₁) (type : Ascription t₁ typeName t₂)
    (equals : Sign "=" t₂ t₃) (opened : Sign "[" t₃ t₄) (elements : Values t₄ es t₅)
    (closed : Sign "]" t₅ rest) :
    of listGlobal ts = .ok (⟨name, typeName, true, some (.list es none), none⟩, rest) := by
  rw [of_listGlobal, andThen_of_ok (name_iff.mpr id),
    andThen_of_ok (type.reads (equals.startsWithOperator ":")), equals.andThen, opened.andThen,
    peek, startsWithOperator_of_startsExpression (by decide) elements.startsExpression,
    if_neg Bool.false_ne_true,
    andThen_of_ok (elements.reads (by decide) (closed.startsWithOperator ",")), closed.andThen]
  rfl

theorem mutableGlobal_reads {value : Option Expr} (id : Word name ts t₁)
    (type : Ascription t₁ typeName t₂) (initial : Initial t₂ value rest)
    (ends : Sign ";" rest t₃) :
    of mutableGlobal ts = .ok (⟨name, typeName, true, value, none⟩, rest) := by
  rw [of_mutableGlobal, andThen_of_ok (name_iff.mpr id),
    andThen_of_ok (type.reads (initial.startsWithOperator ends)),
    andThen_of_ok (initial.reads (ends.startsWithOperator "="))]
  rfl

theorem immutableGlobal_reads {e : Expr} (id : Word name ts t₁)
    (type : Ascription t₁ typeName t₂) (equals : Sign "=" t₂ t₃) (value : Value t₃ e rest) :
    of immutableGlobal ts = .ok (⟨name, typeName, false, some e, none⟩, rest) := by
  rw [of_immutableGlobal, andThen_of_ok (name_iff.mpr id),
    andThen_of_ok (type.reads (equals.startsWithOperator ":")), equals.andThen,
    andThen_of_ok (requiredExpression_iff.mpr value)]
  rfl

end Heads

theorem Global.reads (here : Global ts g rest) : of Reading.global ts = .ok (g, rest) := by
  rw [of_global, of_globalHead]
  cases here with
  | list word id type equals opened elements closed ends =>
    have read := listGlobal_reads id type equals opened elements closed
    rw [andThen_of_ok (word.either.trans read), ends.andThen]
    rfl
  | mutable word id type initial ends =>
    have read := mutableGlobal_reads id type initial ends
    rw [andThen_of_ok ((word.either_other (by decide)).trans (word.either.trans read)),
      ends.andThen]
    rfl
  | immutable word id type equals value ends =>
    have read := immutableGlobal_reads id type equals value
    rw [andThen_of_ok ((word.either_other (by decide)).trans
      ((word.either_other (by decide)).trans (word.either.trans read))), ends.andThen]
    rfl

theorem Word.startsGlobal {word : String} (here : Word word ts rest) :
    startsGlobal ts = (word == "LIST" || word == "VAR" || word == "VAL") := by
  rw [Reading.startsGlobal, here.startsWithKeyword, here.startsWithKeyword, here.startsWithKeyword]

theorem Global.startsGlobal (here : Global ts g rest) :
    startsGlobal ts = true ∧ ts.isEmpty = false := by
  cases here with
  | list word | mutable word | immutable word => exact ⟨word.startsGlobal, word.isEmpty⟩

theorem Global.length (here : Global ts g rest) : rest.length < ts.length :=
  (of_eq_ok.mp here.reads).1

end Globals

section Functions

variable {f : Plc.Function} {events : List Event} {ps : List (String × String)}

theorem parameters_of_reads (read : of parameters ts = .ok (ps, rest)) : Parameters ts ps rest := by
  induction h : ts.length using Nat.strongRecOn generalizing ts ps with
  | ind n ih =>
    subst h
    rw [of_parameters] at read
    simp only [andThen_eq_ok, either_sign_iff, peek_eq_ok, refuse_ne_ok, and_false, false_or,
      name_iff, give_eq_ok] at read
    obtain ⟨name, t₁, id, typeName, t₂, type, ⟨t₃, comma, _, ps, _, more, rfl, rfl⟩ |
      ⟨_, rfl, rfl⟩⟩ := read
    · have notLonger := (of_eq_ok.mp type).1
      have shorter := id.length
      have shorter' := comma.length
      exact .next ⟨id, ascription_of_reads type⟩ comma (ih _ (by omega) more rfl)
    · exact .last ⟨id, ascription_of_reads type⟩

/-- Parameters begin with a name. -/
theorem Parameters.startsWithOperator (parameters : Parameters ts ps rest) (symbol : String) :
    startsWithOperator symbol ts = false := by
  cases parameters with
  | last parameter | next parameter =>
    cases parameter with
    | mk id => exact id.startsWithOperator symbol

theorem Parameters.reads (parameters : Parameters ts ps rest) {behind : List Token}
    (closed : Sign ")" rest behind) : of Reading.parameters ts = .ok (ps, rest) := by
  induction parameters with
  | last parameter =>
    cases parameter with
    | mk id type =>
      rw [of_parameters, andThen_of_ok (name_iff.mpr id),
        andThen_of_ok (type.reads (closed.startsWithOperator ":"))]
      exact either_neg (closed.startsWithOperator ",")
  | next parameter comma others ih =>
    cases parameter with
    | mk id type =>
      rw [of_parameters, andThen_of_ok (name_iff.mpr id),
        andThen_of_ok (type.reads (comma.startsWithOperator ":")), comma.either, peek,
        others.startsWithOperator ")", if_neg Bool.false_ne_true, andThen_of_ok (ih closed)]
      rfl

theorem optionalParameters_of_reads (read : of optionalParameters ts = .ok (ps, rest)) :
    OptionalParameters ts ps rest := by
  rw [of_optionalParameters] at read
  simp only [peek_eq_ok, give_eq_ok] at read
  obtain ⟨_, rfl, rfl⟩ | ⟨_, read⟩ := read
  · exact .absent ts
  · exact .present (parameters_of_reads read)

theorem OptionalParameters.reads (parameters : OptionalParameters ts ps rest)
    {behind : List Token} (closed : Sign ")" rest behind) :
    of optionalParameters ts = .ok (ps, rest) := by
  rw [of_optionalParameters, peek]
  cases parameters with
  | absent =>
    rw [closed.startsWithOperator]
    rfl
  | present parameters =>
    rw [parameters.startsWithOperator ")"]
    exact parameters.reads closed

theorem function_of_reads (read : of function ts = .ok (f, rest)) :
    ∃ events, Function ts f rest events := by
  rw [of_function] at read
  simp only [andThen_eq_ok, ↓keyword_andThen_iff, ↓operator_andThen_iff, name_iff,
    give_eq_ok] at read
  obtain ⟨t₁, word, name, t₂, id, t₃, opened, ps, t₄, parameters, t₅, closed, resultName, t₆,
    result, t₇, begins, body, t₈, read, _, ends, rfl, rfl⟩ := read
  obtain ⟨events, inside⟩ :=
    (derivesBelow (t₇.length + 1)).block .function (Nat.lt_succ_self _) read
  exact ⟨_, .mk word id opened (optionalParameters_of_reads parameters) closed
    (ascription_of_reads result) begins inside ends⟩

theorem Function.reads (here : Function ts f rest events) :
    of Reading.function ts = .ok (f, rest) := by
  cases here with
  | mk word id opened parameters closed result begins inside ends =>
    have inside : of (Reading.block ["END"]) _ = .ok (_, _) :=
      inside.reads (ends.startsWith (by decide))
    rw [of_function, word.andThen, andThen_of_ok (name_iff.mpr id), opened.andThen,
      andThen_of_ok (parameters.reads closed), closed.andThen,
      andThen_of_ok (result.reads (begins.startsWithOperator ":")), begins.andThen,
      andThen_of_ok inside, ends.andThen]
    rfl

theorem Function.word (here : Function ts f rest events) : ∃ mid, Word "FUN" ts mid := by
  cases here with
  | mk word => exact ⟨_, word⟩

theorem Function.nested (here : Function ts f rest events) {more : List Event}
    {outer : List (Part × Nat)} (behind : Nested outer more) : Nested outer (events ++ more) := by
  cases here with
  | mk _ _ _ _ _ _ _ inside =>
    rw [List.append_assoc]
    exact .opens (inside.nested (.ends rfl behind))

theorem Functions.nested {fs : List Plc.Function} (functions : Functions ts fs rest events) :
    Nested [] events := by
  induction functions with
  | none => exact .done
  | next here _ ih => exact here.nested ih

end Functions

section Sources

variable {p : Program} {events : List Event} {gs : List Plc.Global} {fs : List Plc.Function}

theorem readProgram_iff : readProgram ts = .ok p ↔ definitionsReader false ts = .ok (p, []) := by
  rw [readProgram, mapError_eq_ok, definitionsReader, map_eq_ok]
  constructor
  · exact fun read => ⟨p, read, rfl⟩
  · rintro ⟨_, read, same⟩
    cases same
    exact read

theorem definitions_of_reads {functionSeen : Bool}
    (read : definitionsReader functionSeen ts = .ok (p, rest)) :
    (∃ events, Source ts p events) ∧ (functionSeen = true → p.globals = []) := by
  induction h : ts.length using Nat.strongRecOn generalizing ts p functionSeen with
  | ind n ih =>
    subst h
    rw [definitionsReader_eq] at read
    simp only [peek_eq_ok, andThen_eq_ok, give_eq_ok, refuse_ne_ok, and_false, or_false] at read
    obtain ⟨empty, rfl, rfl⟩ | ⟨_, ⟨_, read⟩ |
      ⟨_, _, f, t₁, function, others, _, more, rfl, rfl⟩⟩ := read
    · rw [List.isEmpty_iff.mp empty]
      exact ⟨⟨_, .mk (.none []) (.none [])⟩, fun _ => rfl⟩
    · cases functionSeen with
      | true => exact absurd read refuse_ne_ok
      | false =>
        simp only [Bool.false_eq_true, if_false, andThen_eq_ok, give_eq_ok] at read
        obtain ⟨g, t₁, global, others, _, more, rfl, rfl⟩ := read
        have here := global_of_reads global
        obtain ⟨⟨_, ⟨globals, functions⟩⟩, _⟩ := ih _ here.length more rfl
        exact ⟨⟨_, .mk (.next here globals) functions⟩, nofun⟩
    · obtain ⟨first, here⟩ := function_of_reads function
      obtain ⟨⟨_, ⟨globals, functions⟩⟩, noGlobals⟩ := ih _ (of_eq_ok.mp function).1 more rfl
      cases noGlobals rfl
      cases globals with
      | none => exact ⟨⟨_, .mk (.none ts) (.next here functions)⟩, fun _ => rfl⟩

theorem Functions.reads (functions : Functions ts fs rest events) (last : rest = [])
    (functionSeen : Bool) : definitionsReader functionSeen ts = .ok (⟨[], fs⟩, []) := by
  induction functions generalizing functionSeen with
  | none ts =>
    subst last
    rw [definitionsReader_eq]
    rfl
  | next here behind ih =>
    obtain ⟨mid, word⟩ := here.word
    rw [definitionsReader_eq, peek, word.isEmpty, if_neg Bool.false_ne_true, peek,
      word.startsGlobal, if_neg (by decide), peek, word.startsWithKeyword, if_pos (by decide),
      andThen_of_ok here.reads, andThen_of_ok (ih last true)]
    rfl

theorem Globals.reads {mid : List Token} (globals : Globals ts gs mid)
    (functions : Functions mid fs [] events) :
    definitionsReader false ts = .ok (⟨gs, fs⟩, []) := by
  induction globals with
  | none => exact functions.reads rfl false
  | next here behind ih =>
    obtain ⟨startsGlobal, notEmpty⟩ := here.startsGlobal
    rw [definitionsReader_eq, peek, notEmpty, if_neg Bool.false_ne_true, peek,
      if_pos startsGlobal, if_neg Bool.false_ne_true, andThen_of_ok here.reads,
      andThen_of_ok (ih functions)]
    rfl

theorem readProgram_iff_source : readProgram ts = .ok p ↔ ∃ events, Source ts p events := by
  rw [readProgram_iff]
  constructor
  · exact fun read => (definitions_of_reads read).1
  · rintro ⟨events, ⟨globals, functions⟩⟩
    exact globals.reads functions

/-- Exactly the programs that the grammar derives from all of the tokens are read, and there is
one at most. Globals stand in front of functions, and each word that ends or continues a construct
belongs to the innermost one. -/
theorem readProgram_iff_derives (ts : List Token) :
    (∀ p, readProgram ts = .ok p ↔ ∃ events, Source ts p events) ∧
    (∀ p q events others, Source ts p events → Source ts q others → p = q) ∧
    ∀ p events, Source ts p events →
      (∃ mid, Globals ts p.globals mid ∧ Functions mid p.functions [] events) ∧
      Nested [] events := by
  refine ⟨fun p => readProgram_iff_source, ?_, ?_⟩
  · intro p q events others first second
    have read := readProgram_iff_source.mpr ⟨events, first⟩
    rw [readProgram_iff_source.mpr ⟨others, second⟩] at read
    cases read
    rfl
  · rintro p events ⟨globals, functions⟩
    exact ⟨⟨_, globals, functions⟩, functions.nested⟩

/-- A word that does not end the innermost block is a name there. -/
theorem readProgram_iff_derives_else :
    ∃ ts, Token.lex "FUN f() DO IF a DO WHILE b DO ELSE; END ELSE c; END END" = .ok ts ∧
      ∃ p, readProgram ts = .ok p ∧ ∃ events, Source ts p events ∧ Nested [] events := by
  have reads : ∃ ts, Token.lex "FUN f() DO IF a DO WHILE b DO ELSE; END ELSE c; END END" = .ok ts ∧
      ∃ p, readProgram ts = .ok p ∧ p.functions.length = 1 := by
    decide +kernel
  obtain ⟨ts, lexed, p, read, _⟩ := reads
  obtain ⟨events, source⟩ := ((readProgram_iff_derives ts).1 p).mp read
  exact ⟨ts, lexed, p, read, events, source,
    ((readProgram_iff_derives ts).2.2 p events source).2⟩

end Sources

end Plc.Grammar
