import Plc.Proofs.Reading.Flattening
import Plc.Proofs.Reading.Sources
import Plc.Proofs.Reading.Viable
import Plc.Reading.Phrase

/-! Reading goes onward and stays within the tokens. Whatever the tokens are, each reader leaves a
part of them that stands at their end, and so does each of many phrases that are read one behind the
other, also behind one that could not be read. -/
namespace Plc.Reading

open Reader

variable {α : Type} {n : Nat}

section Pieces

variable {misread : Misread}

theorem takes_name (other : misread ∉ literalMisreads) : TakesSome n (of (name misread)) := by
  rw [of_name, need_andThen]
  exact .either (Nat.le_succ n) (fun _ _ => takes_give trivial) (takes_refuse other)

theorem takes_ascription : TakesSome n (of ascription) := by
  have name : TakesSome n (of (name .invalidType)) := takes_name (by decide)
  rw [of_ascription]
  exact .either (Nat.le_succ n) (fun _ _ => name.andThen fun _ _ _ => takes_give trivial)
    (takes_give trivial)

theorem takesSome_expression (n : Nat) : TakesSome n (of expression) :=
  (takes_expression n).mono fun _ _ _ => trivial

theorem takesSome_arguments (closing : String) : TakesSome n (of (arguments closing)) :=
  (takes_arguments closing (takes_expression n)).mono fun _ _ _ => trivial

theorem takes_requiredExpression (other : misread ∉ literalMisreads) :
    TakesSome n (of (requiredExpression misread)) := by
  rw [of_requiredExpression]
  exact .peek (takesSome_expression n) (takes_refuse other)

theorem takes_initializer : TakesSome n (of initializer) := by
  have value : TakesSome n (of (requiredExpression .missingAssignedValue)) :=
    takes_requiredExpression (by decide)
  rw [of_initializer]
  exact .either (Nat.le_succ n) (fun _ _ => value.andThen fun _ _ _ => takes_give trivial)
    (takes_give trivial)

/-- A value in front of a sign that is needed. -/
theorem takes_semicolon (value : α) :
    TakesSome n ((of (operator ";" .missingSemicolon)).andThen fun _ => give value) :=
  .pastOperator (by decide) fun _ _ => takes_give trivial

end Pieces

section Statements

theorem takes_declaration : TakesSome n (of declaration) := by
  rw [of_declaration]
  exact (takes_name (by decide)).andThen fun _ _ _ => takes_ascription.andThen fun _ _ _ =>
    takes_initializer.andThen fun _ _ _ => takes_semicolon _

theorem takes_result : TakesSome n (of result) := by
  rw [of_result]
  exact (takes_requiredExpression (by decide)).andThen fun _ _ _ => takes_semicolon _

theorem takes_plainStatement : TakesSome n (of plainStatement) := by
  rw [of_plainStatement]
  exact (takesSome_expression n).andThen fun _ _ _ => takes_initializer.andThen fun _ _ _ =>
    takes_semicolon _

structure StatementsTake (n : Nat) : Prop where
  statement : TakesSome n (of statement)
  block : ∀ words, TakesSome n (of (block words))
  cases : TakesSome n (of cases)

variable (below : StatementsTake n)

include below

theorem takes_alternative : TakesSome n (of alternative) := by
  rw [of_alternative]
  exact .either (Nat.le_succ n) (fun _ _ => below.block _) (takes_give trivial)

theorem takes_statement : TakesSome (n + 1) (of statement) := by
  rw [of_statement]
  refine .either (Nat.le_refl _) (fun _ _ => takes_declaration)
    (.either (Nat.le_refl _) (fun _ _ => ?switch) (.either (Nat.le_refl _) (fun _ _ => ?branch)
      (.either (Nat.le_refl _) (fun _ _ => ?loop)
        (.either (Nat.le_refl _) (fun _ _ => takes_result) takes_plainStatement))))
  case switch =>
    exact (takesSome_expression n).andThen fun _ _ _ => below.cases.andThen fun _ _ _ =>
      takes_give trivial
  case branch =>
    exact (takesSome_expression n).andThen fun _ _ _ => .pastKeyword (by decide)
      ((below.block _).andThen fun _ _ _ => (takes_alternative below).andThen fun _ _ _ =>
        .pastKeyword (by decide) (takes_give trivial))
  case loop =>
    exact (takesSome_expression n).andThen fun _ _ _ => .pastKeyword (by decide)
      ((below.block _).andThen fun _ _ _ => .pastKeyword (by decide) (takes_give trivial))

theorem takes_block (words : List String) : TakesSome (n + 1) (of (block words)) := by
  rw [of_block]
  refine .peek (takes_refuse (by decide)) (.peek (takes_give trivial) ?_)
  exact (takes_statement below).nonempty.andThen_shorter fun _ =>
    (below.block words).andThen fun _ _ _ => takes_give trivial

theorem takes_cases : TakesSome (n + 1) (of cases) := by
  rw [of_cases]
  refine .either (Nat.le_refl _) (fun _ _ => ?on) (.either (Nat.le_refl _) (fun _ _ => ?default)
    (.peek (takes_refuse (by decide)) (takes_refuse (by decide))))
  case on =>
    exact (takesSome_expression n).andThen fun _ _ _ => .pastOperator (by decide) fun _ _ =>
      (below.block _).andThen fun _ _ _ => below.cases.andThen fun _ _ _ => takes_give trivial
  case default =>
    exact (below.block _).andThen fun _ _ _ => .pastKeyword (by decide) (takes_give trivial)

omit below

theorem statementsTake (n : Nat) : StatementsTake n := by
  induction n with
  | zero => exact ⟨takes_zero, fun _ => takes_zero, takes_zero⟩
  | succ n ih => exact ⟨takes_statement ih, takes_block ih, takes_cases ih⟩

end Statements

section Programs

theorem takes_listGlobal : TakesSome n (of listGlobal) := by
  rw [of_listGlobal]
  refine (takes_name (by decide)).andThen fun _ _ _ => takes_ascription.andThen fun _ _ _ => ?_
  refine .pastOperator (by decide) fun _ _ => .pastOperator (by decide) fun _ _ => ?_
  exact .peek (takes_refuse (by decide)) ((takesSome_arguments "]").andThen fun _ _ _ =>
    .pastOperator (by decide) fun _ _ => takes_give trivial)

theorem takes_mutableGlobal : TakesSome n (of mutableGlobal) := by
  rw [of_mutableGlobal]
  exact (takes_name (by decide)).andThen fun _ _ _ => takes_ascription.andThen fun _ _ _ =>
    takes_initializer.andThen fun _ _ _ => takes_give trivial

theorem takes_immutableGlobal : TakesSome n (of immutableGlobal) := by
  rw [of_immutableGlobal]
  refine (takes_name (by decide)).andThen fun _ _ _ => takes_ascription.andThen fun _ _ _ => ?_
  exact .pastOperator (by decide) fun _ _ =>
    (takes_requiredExpression (by decide)).andThen fun _ _ _ => takes_give trivial

theorem takes_global : TakesSome n (of global) := by
  have head : TakesSome n (of globalHead) := by
    rw [of_globalHead]
    exact .either (Nat.le_succ n) (fun _ _ => takes_listGlobal)
      (.either (Nat.le_succ n) (fun _ _ => takes_mutableGlobal)
        (.either (Nat.le_succ n) (fun _ _ => takes_immutableGlobal) (takes_refuse (by decide))))
  rw [of_global]
  exact head.andThen fun _ _ _ => takes_semicolon _

theorem takes_parameters : TakesSome n (of parameters) := by
  induction n with
  | zero => exact takes_zero
  | succ n ih =>
    rw [of_parameters]
    refine (takes_name (by decide)).andThen fun _ _ _ => takes_ascription.andThen fun _ _ _ => ?_
    exact .either (Nat.le_refl _)
      (fun _ _ => .peek (takes_refuse (by decide)) (ih.andThen fun _ _ _ => takes_give trivial))
      (takes_give trivial)

theorem takes_function : TakesSome n (of function) := by
  have parameters : TakesSome n (of optionalParameters) := by
    rw [of_optionalParameters]
    exact .peek (takes_give trivial) takes_parameters
  rw [of_function]
  refine .pastKeyword (by decide) ((takes_name (by decide)).andThen fun _ _ _ => ?_)
  refine .pastOperator (by decide) fun _ _ => parameters.andThen fun _ _ _ => ?_
  refine .pastOperator (by decide) fun _ _ => takes_ascription.andThen fun _ _ _ => ?_
  refine .pastKeyword (by decide) (((statementsTake n).block _).andThen fun _ _ _ => ?_)
  exact .pastKeyword (by decide) (takes_give trivial)

theorem takes_definitions (functionSeen : Bool) :
    TakesSome n (definitionsReader functionSeen) := by
  induction n generalizing functionSeen with
  | zero => exact takes_zero
  | succ n ih =>
    rw [definitionsReader_eq]
    refine .peek (takes_give trivial) (.peek ?_ (.peek ?_ (takes_refuse (by decide))))
    · cases functionSeen with
      | true => exact takes_refuse (by decide)
      | false =>
        exact takes_global.nonempty.andThen_shorter fun _ =>
          (ih false).andThen fun _ _ _ => takes_give trivial
    · exact takes_function.nonempty.andThen_shorter fun _ =>
        (ih true).andThen fun _ _ _ => takes_give trivial

end Programs

section Phrases

def phraseReader : Phrase.Kind → Reader Phrase
  | .program => (definitionsReader false).andThen fun p => give (.program p)
  | .global => (of global).andThen fun g => give (.global g)
  | .function => (of function).andThen fun f => give (.function f)
  | .statement => (of statement).andThen fun s => give (.statement s)
  | .expression => (of expression).andThen fun e => give (.expression e)

theorem phrase_eq (kind : Phrase.Kind) : phrase kind = phraseReader kind := by
  funext ts
  cases kind <;> simp only [phrase, program, phraseReader, andThen, definitionsReader, of, plain]
  case program => cases definitions false ts <;> simp [Except.map, give]
  case global => cases global ts <;> simp [Except.map, give]
  case function => cases function ts <;> simp [Except.map, give]
  case statement => cases statement ts <;> simp [Except.map, give]
  case expression => cases expression ts <;> simp [Except.map, give]

theorem Takes.kept {read : Reader α} {β : Type} {keep : α → β} {holds : List Token → Prop}
    (takes : Takes n read fun _ taken => holds taken) :
    Takes n (read.andThen fun value => give (keep value)) fun _ taken => holds taken :=
  takes.andThen fun _ taken here => takes_give (by simpa using here)

theorem takes_phrase (kind : Phrase.Kind) :
    Takes n (phrase kind) fun _ taken => kind ≠ .program → taken ≠ [] := by
  rw [phrase_eq]
  cases kind with
  | program => exact (takes_definitions false).kept.mono fun _ _ _ other => absurd rfl other
  | global => exact takes_global.nonempty.kept.mono fun _ _ here _ => here
  | function => exact takes_function.nonempty.kept.mono fun _ _ here _ => here
  | statement => exact (statementsTake n).statement.nonempty.kept.mono fun _ _ here _ => here
  | expression => exact (takesSome_expression n).nonempty.kept.mono fun _ _ here _ => here

/-- A program is read from all of the tokens. -/
theorem source_of_phrase {ts rest : List Token} {answer : Phrase}
    (read : phrase .program ts = .ok (answer, rest)) :
    rest = [] ∧ ∃ p events, answer = .program p ∧ Grammar.Source ts p events := by
  simp only [phrase_eq, phraseReader, andThen_eq_ok, give_eq_ok] at read
  obtain ⟨p, _, read, rfl, rfl⟩ := read
  obtain ⟨⟨events, source⟩, _⟩ := Grammar.definitions_of_reads read
  cases all : definitions false ts with
  | error halt => simp [definitionsReader, all, Except.map] at read
  | ok q =>
    simp only [definitionsReader, all, Except.map, Except.ok.injEq, Prod.mk.injEq] at read
    exact ⟨read.2.symm, p, events, rfl, source⟩

end Phrases

/-! Many phrases are read from the same tokens. The state in between is a position: the number of
tokens that were taken so far. -/

structure Call where
  kind : Phrase.Kind
  start : Nat
  answer : Except Error Phrase
  stop : Nat

def call (ts : List Token) (kind : Phrase.Kind) (start : Nat) : Call :=
  match phrase kind (ts.drop start) with
  | .ok (answer, rest) => ⟨kind, start, .ok answer, ts.length - rest.length⟩
  | .error halt => ⟨kind, start, .error (halt.locate ts), ts.length - halt.rest.length⟩

def calls (ts : List Token) : List Phrase.Kind → Nat → List Call
  | [], _ => []
  | kind :: kinds, start => call ts kind start :: calls ts kinds (call ts kind start).stop

/-- A call goes onward and stays within the tokens. One that succeeds takes a token, or all of
them if it reads a program, and one that fails does so behind a token that exists. -/
structure Call.InBounds (ts : List Token) (c : Call) : Prop where
  onward : c.start ≤ c.stop
  within : c.stop ≤ ts.length
  takes : ∀ answer, c.kind ≠ .program → c.answer = .ok answer → c.start < c.stop
  whole : ∀ answer, c.kind = .program → c.answer = .ok answer → c.stop = ts.length ∧
    ∃ p events, answer = .program p ∧ Grammar.Source (ts.drop c.start) p events
  placed : ∀ e, c.answer = .error e →
    placeBehind? ts c.stop = some e.index ∨ ts = [] ∧ c.stop = 0 ∧ e.index = 0

section Calls

variable {ts taken rest : List Token} {start : Nat}

/-- The position behind what is taken from some position on. -/
theorem position_behind (inside : start ≤ ts.length) (split : ts.drop start = taken ++ rest) :
    ts.length - rest.length = start + taken.length ∧ start + taken.length ≤ ts.length ∧
      ts.drop (start + taken.length) = rest ∧ ts = ts.take start ++ taken ++ rest := by
  have lengths := congrArg List.length split
  rw [List.length_drop, List.length_append] at lengths
  refine ⟨by omega, by omega, ?_, ?_⟩
  · rw [← List.drop_drop, split, List.drop_left]
  · rw [List.append_assoc, ← split, List.take_append_drop]

theorem placeBehind?_locate (halt : Halt) (inside : start ≤ ts.length)
    (split : ts.drop start = taken ++ halt.rest) :
    placeBehind? ts (start + taken.length) = some (halt.locate ts).index ∨
      ts = [] ∧ start + taken.length = 0 ∧ (halt.locate ts).index = 0 := by
  obtain ⟨_, fits, _, parts⟩ := position_behind inside split
  by_cases none_ : ts = []
  · subst none_
    exact .inr ⟨rfl, Nat.le_zero.mp fits, by simp [Halt.locate, position]⟩
  · have length : (ts.take start ++ taken).length = start + taken.length := by
      rw [List.length_append, List.length_take, Nat.min_eq_left inside]
    have some_ : ts.take start ++ taken ++ halt.rest ≠ [] := parts ▸ none_
    have place := position_append some_
    rw [← parts, length] at place
    exact .inl place

/-- A call is in bounds, and what is left behind it stands at the end of the tokens. -/
theorem call_cases (kind : Phrase.Kind) (inside : start ≤ ts.length) :
    (call ts kind start).InBounds ts ∧ (call ts kind start).kind = kind ∧
      (call ts kind start).start = start ∧
      ∀ kinds, phrasesFrom ts (kind :: kinds) (ts.drop start) =
        (call ts kind start).answer ::
          phrasesFrom ts kinds (ts.drop (call ts kind start).stop) := by
  have takes := takes_phrase (n := (ts.drop start).length + 1) kind
  have shorter := Nat.lt_succ_self (ts.drop start).length
  cases read : phrase kind (ts.drop start) with
  | ok given =>
    obtain ⟨answer, rest⟩ := given
    obtain ⟨taken, split, some_⟩ := takes.gives shorter read
    obtain ⟨behind, fits, left, _⟩ := position_behind inside split
    simp only [call, read, behind, phrasesFrom, left]
    refine ⟨⟨Nat.le_add_right _ _, fits, ?_, ?_, nofun⟩, trivial, trivial, fun _ => trivial⟩
    · intro _ other _
      have positive := List.length_pos_iff.mpr (some_ other)
      exact Nat.lt_add_of_pos_right positive
    · rintro _ rfl ⟨⟩
      obtain ⟨rfl, source⟩ := source_of_phrase read
      exact ⟨by rw [← behind]; rfl, source⟩
  | error halt =>
    obtain ⟨taken, split, _⟩ := takes.halts shorter read
    obtain ⟨behind, fits, left, _⟩ := position_behind inside split
    simp only [call, read, behind, phrasesFrom, left]
    refine ⟨⟨Nat.le_add_right _ _, fits, nofun, nofun, ?_⟩, trivial, trivial, fun _ => trivial⟩
    rintro _ ⟨⟩
    exact placeBehind?_locate halt inside split

theorem phrasesFrom_eq (kinds : List Phrase.Kind) (inside : start ≤ ts.length) :
    phrasesFrom ts kinds (ts.drop start) = (calls ts kinds start).map Call.answer := by
  induction kinds generalizing start with
  | nil => simp [phrasesFrom, calls]
  | cons kind kinds ih =>
    obtain ⟨bounds, _, _, more⟩ := call_cases kind inside
    rw [more, ih bounds.within, calls, List.map_cons]

theorem calls_onward (kinds : List Phrase.Kind) (inside : start ≤ ts.length) :
    ∀ c ∈ calls ts kinds start, start ≤ c.start ∧ c.InBounds ts := by
  induction kinds generalizing start with
  | nil => exact fun _ member => nomatch member
  | cons kind kinds ih =>
    obtain ⟨bounds, _, begins, _⟩ := call_cases kind inside
    intro c member
    rcases List.mem_cons.mp member with rfl | member
    · exact ⟨Nat.le_of_eq begins.symm, bounds⟩
    · obtain ⟨behind, here⟩ := ih bounds.within c member
      have onward := bounds.onward
      exact ⟨by omega, here⟩

theorem calls_pairwise (kinds : List Phrase.Kind) (inside : start ≤ ts.length) :
    (calls ts kinds start).Pairwise fun c d => c.stop ≤ d.start := by
  induction kinds generalizing start with
  | nil => exact .nil
  | cons kind kinds ih =>
    obtain ⟨bounds, _⟩ := call_cases kind inside
    exact .cons (fun d member => (calls_onward kinds bounds.within d member).1)
      (ih bounds.within)

theorem calls_kinds (kinds : List Phrase.Kind) (inside : start ≤ ts.length) :
    (calls ts kinds start).map Call.kind = kinds := by
  induction kinds generalizing start with
  | nil => simp [calls]
  | cons kind kinds ih =>
    obtain ⟨bounds, same, _⟩ := call_cases kind inside
    rw [calls, List.map_cons, same, ih bounds.within]

end Calls

/-- Whatever the tokens are, and whichever phrases are read from them one behind the other, there
is an answer to each call, also behind those that failed. The position never goes back and never
leaves the tokens. A call that succeeds takes some token, or all that are left if it reads a
program. An error is placed by a token that exists, if there is any. -/
theorem calls_in_bounds (ts : List Token) (kinds : List Phrase.Kind) :
    (calls ts kinds 0).map Call.kind = kinds ∧
    (calls ts kinds 0).map Call.answer = phrases ts kinds ∧
    ((calls ts kinds 0).Pairwise fun c d => c.stop ≤ d.start) ∧
    ∀ c ∈ calls ts kinds 0, c.InBounds ts := by
  have inside := Nat.zero_le ts.length
  refine ⟨calls_kinds kinds inside, ?_, calls_pairwise kinds inside, ?_⟩
  · rw [phrases, ← phrasesFrom_eq kinds inside, List.drop_zero]
  · exact fun c member => (calls_onward kinds inside c member).2

/-- An expression is read behind a global that could not be. -/
theorem calls_in_bounds_behind_error :
    ∃ ts, Token.lex "VAL 1 a" = .ok ts ∧ ∃ c ∈ calls ts [.global, .expression, .program] 0,
      c.kind = .expression ∧ c.start = 1 ∧ c.stop = 2 ∧ c.InBounds ts := by
  have goes : ∃ ts, Token.lex "VAL 1 a" = .ok ts ∧
      (calls ts [.global, .expression, .program] 0).map (fun c => (c.kind, c.start, c.stop)) =
        [(.global, 0, 1), (.expression, 1, 2), (.program, 2, 2)] := by
    decide +kernel
  obtain ⟨ts, lexed, goes⟩ := goes
  have second : (.expression, 1, 2) ∈ (calls ts [.global, .expression, .program] 0).map
      fun c => (c.kind, c.start, c.stop) := by
    rw [goes]
    exact List.mem_cons_of_mem _ (List.mem_cons_self ..)
  obtain ⟨c, member, same⟩ := List.mem_map.mp second
  simp only [Prod.mk.injEq] at same
  exact ⟨ts, lexed, c, member, same.1, same.2.1, same.2.2,
    (calls_in_bounds ts [.global, .expression, .program]).2.2.2 c member⟩

end Plc.Reading
