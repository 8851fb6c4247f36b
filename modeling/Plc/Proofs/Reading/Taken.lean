import Plc.Proofs.Reading.Blind
import Plc.Proofs.Reading.Steady

/-! What readers take of the tokens that they are given: a front of them, whether something is read
or reading comes to a halt behind it. A reader complains of a literal only behind a token that is
meant as one and stands for none. -/
namespace Plc.Reading

open Reader

variable {α β : Type} {n k : Nat}

def literalMisreads : List Misread := [.invalidInteger, .invalidDecimal, .invalidCharacter]

/-- If the complaint is one of a literal, a token gives reason for it. -/
def Complains (misread : Misread) (taken : List Token) : Prop :=
  misread ∈ literalMisreads → ∃ t ∈ taken, literal? t = some (.error misread)

/-- What is given, with the tokens taken for it, has a property, as long as there are fewer than so
many tokens. -/
structure Takes (n : Nat) (read : Reader α) (holds : α → List Token → Prop) : Prop where
  gives : ∀ {ts value rest}, ts.length < n → read ts = .ok (value, rest) →
    ∃ taken, ts = taken ++ rest ∧ holds value taken
  halts : ∀ {ts halt}, ts.length < n → read ts = .error halt →
    ∃ taken, ts = taken ++ halt.rest ∧ Complains halt.misread taken

abbrev TakesSome (n : Nat) (read : Reader α) : Prop := Takes n read fun _ _ => True

section Complaints

variable {misread : Misread} {front back : List Token}

theorem Complains.of_other (other : misread ∉ literalMisreads) : Complains misread front :=
  fun literal => absurd literal other

theorem Complains.behind (complains : Complains misread back) :
    Complains misread (front ++ back) := by
  intro literal
  obtain ⟨t, member, nothing⟩ := complains literal
  exact ⟨t, List.mem_append_right front member, nothing⟩

end Complaints

section Parts

variable {read : Reader α} {holds holds' : α → List Token → Prop}

theorem takes_zero : Takes 0 read holds :=
  ⟨fun shorter => absurd shorter (Nat.not_lt_zero _),
    fun shorter => absurd shorter (Nat.not_lt_zero _)⟩

theorem Takes.of_le (takes : Takes n read holds) (less : k ≤ n) : Takes k read holds :=
  ⟨fun shorter => takes.gives (Nat.lt_of_lt_of_le shorter less),
    fun shorter => takes.halts (Nat.lt_of_lt_of_le shorter less)⟩

theorem Takes.mono (takes : Takes n read holds)
    (weaker : ∀ value taken, holds value taken → holds' value taken) : Takes n read holds' where
  gives := by
    intro ts value rest shorter given
    obtain ⟨taken, split, here⟩ := takes.gives shorter given
    exact ⟨taken, split, weaker value taken here⟩
  halts := takes.halts

theorem takes_give {value : α} (here : holds value []) : Takes n (give value) holds where
  gives := by
    intro ts value rest _ given
    obtain ⟨rfl, rfl⟩ := give_eq_ok.mp given
    exact ⟨[], rfl, here⟩
  halts _ halted := nomatch halted

theorem takes_refuse {misread : Misread} (other : misread ∉ literalMisreads) :
    Takes n (refuse misread) holds where
  gives _ given := absurd given refuse_ne_ok
  halts := by
    intro ts halt _ halted
    cases halted
    exact ⟨[], rfl, .of_other other⟩

theorem Takes.andThen {first : Reader β} {next : β → Reader α} {here : β → List Token → Prop}
    (front : Takes n first here)
    (behind : ∀ value taken, here value taken →
      Takes n (next value) fun result more => holds result (taken ++ more)) :
    Takes n (first.andThen next) holds where
  gives := by
    intro ts value rest shorter given
    obtain ⟨v, mid, firstGiven, nextGiven⟩ := andThen_eq_ok.mp given
    obtain ⟨taken, rfl, has⟩ := front.gives shorter firstGiven
    rw [List.length_append] at shorter
    obtain ⟨more, rfl, result⟩ := (behind v taken has).gives (by omega) nextGiven
    exact ⟨taken ++ more, (List.append_assoc _ _ _).symm, result⟩
  halts := by
    intro ts halt shorter halted
    rcases andThen_eq_error.mp halted with firstHalted | ⟨v, mid, firstGiven, nextHalted⟩
    · exact front.halts shorter firstHalted
    · obtain ⟨taken, rfl, has⟩ := front.gives shorter firstGiven
      rw [List.length_append] at shorter
      obtain ⟨more, split, complains⟩ := (behind v taken has).halts (by omega) nextHalted
      exact ⟨taken ++ more, by rw [split, List.append_assoc], complains.behind⟩

/-- Behind a reader that takes some token, fewer are left. -/
theorem Takes.andThen_shorter {first : Reader β} {next : β → Reader α}
    (front : Takes (n + 1) first fun _ taken => taken ≠ [])
    (behind : ∀ value, TakesSome n (next value)) : TakesSome (n + 1) (first.andThen next) where
  gives := by
    intro ts value rest shorter given
    obtain ⟨v, mid, firstGiven, nextGiven⟩ := andThen_eq_ok.mp given
    obtain ⟨taken, rfl, some_⟩ := front.gives shorter firstGiven
    have positive := List.length_pos_iff.mpr some_
    rw [List.length_append] at shorter
    obtain ⟨more, rfl, _⟩ := (behind v).gives (by omega) nextGiven
    exact ⟨taken ++ more, (List.append_assoc _ _ _).symm, trivial⟩
  halts := by
    intro ts halt shorter halted
    rcases andThen_eq_error.mp halted with firstHalted | ⟨v, mid, firstGiven, nextHalted⟩
    · exact front.halts shorter firstHalted
    · obtain ⟨taken, rfl, some_⟩ := front.gives shorter firstGiven
      have positive := List.length_pos_iff.mpr some_
      rw [List.length_append] at shorter
      obtain ⟨more, split, complains⟩ := (behind v).halts (by omega) nextHalted
      exact ⟨taken ++ more, by rw [split, List.append_assoc], complains.behind⟩

/-- A phrase is not made of no tokens. -/
theorem Takes.nonempty {read : (ts : List Token) → Reads α ts} (takes : TakesSome n (of read)) :
    Takes n (of read) fun _ taken => taken ≠ [] where
  gives := by
    intro ts value rest shorter given
    obtain ⟨taken, split, _⟩ := takes.gives shorter given
    refine ⟨taken, split, ?_⟩
    rintro rfl
    obtain ⟨fewer, _⟩ := of_eq_ok.mp given
    rw [split] at fewer
    exact Nat.lt_irrefl _ fewer
  halts := takes.halts

/-- A token may be taken in front of a way, or is refused as a literal. -/
theorem Takes.choose {ways : Token → Option (Reader α)} {otherwise : Reader α} (less : k ≤ n + 1)
    (way : ∀ t w, ways t = some w → Takes n w (fun value more => holds value (t :: more)) ∨
      ∃ misread, literal? t = some (.error misread) ∧ w = refuse misread)
    (other : Takes k otherwise holds) : Takes k (choose ways otherwise) holds where
  gives := by
    intro ts value rest shorter given
    cases found : ts.head?.bind ways with
    | none =>
      rw [choose_none found] at given
      exact other.gives shorter given
    | some w =>
      obtain ⟨t, head, found⟩ := Option.bind_eq_some_iff.mp found
      obtain ⟨ts, rfl⟩ := List.head?_eq_some_iff.mp head
      rw [choose_some found] at given
      rw [List.length_cons] at shorter
      rcases way t w found with takes | ⟨misread, _, rfl⟩
      · obtain ⟨taken, rfl, here⟩ := takes.gives (by omega) given
        exact ⟨t :: taken, rfl, here⟩
      · exact absurd given refuse_ne_ok
  halts := by
    intro ts halt shorter halted
    cases found : ts.head?.bind ways with
    | none =>
      rw [choose_none found] at halted
      exact other.halts shorter halted
    | some w =>
      obtain ⟨t, head, found⟩ := Option.bind_eq_some_iff.mp found
      obtain ⟨ts, rfl⟩ := List.head?_eq_some_iff.mp head
      rw [choose_some found] at halted
      rw [List.length_cons] at shorter
      rcases way t w found with takes | ⟨misread, nothing, rfl⟩
      · obtain ⟨taken, split, complains⟩ := takes.halts (by omega) halted
        exact ⟨[t] ++ taken, by rw [split]; rfl, complains.behind⟩
      · cases halted
        exact ⟨[t], rfl, fun _ => ⟨t, List.mem_singleton_self t, nothing⟩⟩

theorem Takes.either {test : Token → Bool} {onward : Token → Reader α} {otherwise : Reader α}
    (less : k ≤ n + 1)
    (way : ∀ t, test t = true → Takes n (onward t) fun value more => holds value (t :: more))
    (other : Takes k otherwise holds) : Takes k (either test onward otherwise) holds := by
  refine .choose less ?_ other
  intro t w found
  split at found
  · rename_i passes
    cases found
    exact .inl (way t passes)
  · cases found

theorem Takes.peek {test : List Token → Bool} {yes no : Reader α} (yesTakes : Takes n yes holds)
    (noTakes : Takes n no holds) : Takes n (peek test yes no) holds where
  gives := by
    intro ts value rest shorter given
    rcases peek_eq_ok.mp given with ⟨_, given⟩ | ⟨_, given⟩
    · exact yesTakes.gives shorter given
    · exact noTakes.gives shorter given
  halts := by
    intro ts halt shorter halted
    rw [Reader.peek] at halted
    split at halted
    · exact yesTakes.halts shorter halted
    · exact noTakes.halts shorter halted

/-- A sign that is needed. -/
theorem Takes.pastOperator {symbol : String} {misread : Misread} {next : Reader α}
    (other : misread ∉ literalMisreads)
    (behind : ∀ t : Token, t.isOperator symbol = true →
      Takes n next fun value more => holds value (t :: more)) :
    Takes n ((of (operator symbol misread)).andThen fun _ => next) holds := by
  rw [of_operator, need_andThen]
  exact .either (Nat.le_succ n) behind (takes_refuse other)

theorem Takes.pastKeyword {word : String} {misread : Misread} {next : Reader α}
    (other : misread ∉ literalMisreads) (behind : TakesSome n next) :
    TakesSome n ((of (keyword word misread)).andThen fun _ => next) := by
  rw [of_keyword, need_andThen]
  exact .either (Nat.le_succ n) (fun _ _ => behind) (takes_refuse other)

end Parts

end Plc.Reading
