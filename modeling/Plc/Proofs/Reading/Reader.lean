import Plc.Reading

/-! Readers put together from a few ways of reading. They answer without a proof that tokens were
taken. Each reader of phrases is one of these. -/
namespace Plc.Reading

abbrev Reader (α : Type) : Type := List Token → Except Halt (α × List Token)

namespace Reader

variable {α β : Type}

def plain {n : Nat} (answer : Except Halt (Read α n)) : Except Halt (α × List Token) :=
  answer.map fun r => (r.value, r.rest)

def of {n : List Token → Nat} (read : (ts : List Token) → Except Halt (Read α (n ts))) :
    Reader α :=
  fun ts => plain (read ts)

def give (value : α) : Reader α := fun ts => .ok (value, ts)

def refuse (misread : Misread) : Reader α := fun ts => .error ⟨misread, ts⟩

def andThen (first : Reader α) (next : α → Reader β) : Reader β := fun ts =>
  match first ts with
  | .ok (value, rest) => next value rest
  | .error halt => .error halt

def choose (ways : Token → Option (Reader α)) (otherwise : Reader α) : Reader α
  | [] => otherwise []
  | t :: rest =>
    match ways t with
    | some way => way rest
    | none => otherwise (t :: rest)

def either (test : Token → Bool) (onward : Token → Reader α) (otherwise : Reader α) : Reader α :=
  choose (fun t => if test t then some (onward t) else none) otherwise

def need (test : Token → Bool) (misread : Misread) : Reader Token :=
  either test give (refuse misread)

def peek (test : List Token → Bool) (yes no : Reader α) : Reader α := fun ts =>
  if test ts then yes ts else no ts

variable {ts rest : List Token} {value : α}

theorem give_eq_ok {other : α} : give other ts = .ok (value, rest) ↔ other = value ∧ ts = rest := by
  simp [give]

theorem refuse_ne_ok {misread : Misread} : refuse misread ts ≠ .ok (value, rest) := nofun

theorem andThen_eq_ok {first : Reader β} {next : β → Reader α} :
    first.andThen next ts = .ok (value, rest) ↔
      ∃ b mid, first ts = .ok (b, mid) ∧ next b mid = .ok (value, rest) := by
  rw [andThen]
  cases first ts with
  | error halt => simp
  | ok r => exact ⟨fun h => ⟨r.1, r.2, rfl, h⟩, fun ⟨_, _, here, h⟩ => by cases here; exact h⟩

theorem andThen_of_ok {first : Reader β} {next : β → Reader α} {b : β} {mid : List Token}
    (here : first ts = .ok (b, mid)) : first.andThen next ts = next b mid := by
  rw [andThen, here]

section Choose

variable {ways : Token → Option (Reader α)} {test : Token → Bool} {onward : Token → Reader α}
  {otherwise : Reader α} {t : Token}

theorem choose_some {way : Reader α} (found : ways t = some way) (rest : List Token) :
    choose ways otherwise (t :: rest) = way rest := by
  rw [choose, found]

theorem choose_none (found : ts.head?.bind ways = none) :
    choose ways otherwise ts = otherwise ts := by
  cases ts with
  | nil => rfl
  | cons t rest =>
    have none : ways t = none := found
    rw [choose, none]

theorem either_pos (passes : test t = true) (rest : List Token) :
    either test onward otherwise (t :: rest) = onward t rest :=
  choose_some (by rw [if_pos passes]) rest

theorem either_neg (fails : ts.head?.any test = false) :
    either test onward otherwise ts = otherwise ts := by
  apply choose_none
  cases ts with
  | nil => rfl
  | cons t rest => exact if_neg (Bool.eq_false_iff.mp fails)

theorem either_eq_ok : either test onward otherwise ts = .ok (value, rest) ↔
    (∃ t mid, test t = true ∧ ts = t :: mid ∧ onward t mid = .ok (value, rest)) ∨
      ts.head?.any test = false ∧ otherwise ts = .ok (value, rest) := by
  rcases fails : ts.head?.any test with _ | _
  · rw [either_neg fails]
    refine ⟨fun h => .inr ⟨rfl, h⟩, ?_⟩
    rintro (⟨t, mid, passes, rfl, _⟩ | ⟨_, h⟩)
    · rw [List.head?_cons, Option.any_some, passes] at fails
      cases fails
    · exact h
  · obtain ⟨t, head, passes⟩ := (Option.any_eq_true _ _).mp fails
    obtain ⟨mid, rfl⟩ := List.head?_eq_some_iff.mp head
    rw [either_pos passes]
    refine ⟨fun h => .inl ⟨t, mid, passes, rfl, h⟩, ?_⟩
    rintro (⟨_, _, _, same, h⟩ | ⟨absurd, _⟩)
    · cases same
      exact h
    · cases absurd

theorem need_eq_ok {misread : Misread} :
    need test misread ts = .ok (t, rest) ↔ test t = true ∧ ts = t :: rest := by
  rw [need, either_eq_ok]
  constructor
  · rintro (⟨u, mid, passes, rfl, given⟩ | ⟨_, refused⟩)
    · obtain ⟨rfl, rfl⟩ := give_eq_ok.mp given
      exact ⟨passes, rfl⟩
    · exact absurd refused refuse_ne_ok
  · rintro ⟨passes, rfl⟩
    exact .inl ⟨t, rest, passes, rfl, rfl⟩

theorem eq_choose {answer : Except Halt (α × List Token)}
    (some_ : ∀ t rest way, ts = t :: rest → ways t = some way → answer = way rest)
    (none_ : ts.head?.bind ways = none → answer = otherwise ts) :
    answer = choose ways otherwise ts := by
  cases ts with
  | nil => exact none_ rfl
  | cons t rest =>
    rw [choose]
    cases found : ways t with
    | none => exact none_ found
    | some way => exact some_ t rest way rfl found

theorem eq_either {answer : Except Halt (α × List Token)}
    (pos : ∀ t rest, ts = t :: rest → test t = true → answer = onward t rest)
    (neg : ts.head?.any test = false → answer = otherwise ts) :
    answer = either test onward otherwise ts := by
  rcases fails : ts.head?.any test with _ | _
  · rw [either_neg fails, neg fails]
  · obtain ⟨t, head, passes⟩ := (Option.any_eq_true _ _).mp fails
    obtain ⟨mid, rfl⟩ := List.head?_eq_some_iff.mp head
    rw [either_pos passes, pos t mid rfl passes]

end Choose

theorem peek_eq_ok {test : List Token → Bool} {yes no : Reader α} :
    peek test yes no ts = .ok (value, rest) ↔
      test ts = true ∧ yes ts = .ok (value, rest) ∨
        test ts = false ∧ no ts = .ok (value, rest) := by
  rw [peek]
  cases test ts <;> simp

theorem plain_bind {n m : Nat} {answer : Except Halt (Read α n)}
    {next : Read α n → Except Halt (Read β m)} {first : Reader α} {second : α → Reader β}
    (here : plain answer = first ts)
    (behind : ∀ r, plain (next r) = second r.value r.rest) :
    plain (answer >>= next) = first.andThen second ts := by
  rw [andThen, ← here]
  cases answer with
  | error halt => rfl
  | ok r => exact behind r

/-- A value given again with another bound. -/
theorem plain_bind_same {n m : Nat} {answer : Except Halt (Read α n)}
    {next : Read α n → Except Halt (Read α m)}
    (same : ∀ r, plain (next r) = .ok (r.value, r.rest)) :
    plain (answer >>= next) = plain answer := by
  cases answer with
  | error halt => rfl
  | ok r => exact same r

theorem of_eq_ok {n : List Token → Nat}
    {read : (ts : List Token) → Except Halt (Read α (n ts))} :
    of read ts = .ok (value, rest) ↔ ∃ shorter, read ts = .ok ⟨value, rest, shorter⟩ := by
  rw [of, plain]
  cases read ts with
  | error halt => simp [Except.map]
  | ok r =>
    constructor
    · intro h
      cases h
      exact ⟨r.shorter, rfl⟩
    · rintro ⟨_, h⟩
      cases h
      rfl

end Reader

open Reader

theorem token?_pos {test : Token → Bool} {t : Token} (passes : test t = true)
    (rest : List Token) : token? test (t :: rest) = some ⟨t, rest, Nat.lt_succ_self _⟩ :=
  if_pos passes

theorem token?_neg {test : Token → Bool} {ts : List Token} (fails : ts.head?.any test = false) :
    token? test ts = none := by
  cases ts with
  | nil => rfl
  | cons t rest => exact if_neg (Bool.eq_false_iff.mp fails)

theorem operator?_pos {symbol : String} {t : Token} (passes : t.isOperator symbol = true)
    (rest : List Token) : operator? symbol (t :: rest) = some ⟨t, rest, Nat.lt_succ_self _⟩ :=
  if_pos passes

theorem operator?_neg {symbol : String} {ts : List Token}
    (fails : ts.head?.any (·.isOperator symbol) = false) : operator? symbol ts = none :=
  token?_neg fails

theorem keyword?_pos {word : String} {t : Token} (passes : t.isKeyword word = true)
    (rest : List Token) : keyword? word (t :: rest) = some ⟨t, rest, Nat.lt_succ_self _⟩ :=
  if_pos passes

theorem keyword?_neg {word : String} {ts : List Token}
    (fails : ts.head?.any (·.isKeyword word) = false) : keyword? word ts = none :=
  token?_neg fails

theorem of_require (test : Token → Bool) (misread : Misread) :
    (of fun ts => require misread ts (token? test ts)) = need test misread := by
  funext ts
  apply eq_either
  · rintro t rest rfl passes
    rw [of, token?_pos passes]
    rfl
  · intro fails
    rw [of, token?_neg fails]
    rfl

theorem of_keyword (word : String) (misread : Misread) :
    of (keyword word misread) = need (·.isKeyword word) misread :=
  of_require _ misread

theorem of_operator (symbol : String) (misread : Misread) :
    of (operator symbol misread) = need (·.isOperator symbol) misread :=
  of_require _ misread

theorem of_name (misread : Misread) : of (name misread) =
    (need (·.kind == .identifier) misread).andThen fun t => give t.literal := by
  rw [← of_require]
  funext ts
  exact plain_bind rfl fun _ => rfl

theorem of_ascription : of ascription =
    either (·.isOperator ":") (fun _ => (of (name .invalidType)).andThen fun n => give (some n))
      (give none) := by
  funext ts
  apply eq_either
  · rintro t rest rfl colon
    rw [of, ascription, operator?_pos colon]
    exact plain_bind rfl fun _ => rfl
  · intro noColon
    rw [of, ascription, operator?_neg noColon]
    rfl

end Plc.Reading
