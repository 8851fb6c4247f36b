import Plc.Proofs.Reading.Reader
import Plc.Reading

/-! Readers that look no further than to the next token. What such a reader does with the tokens
that it takes follows from these and from the one behind them, and as long as it has not come to a
halt there are tokens with which it ends. -/
namespace Plc.Reading

def Meaningful (t : Token) : Prop := ∀ misread, literal? t ≠ some (.error misread)

/-- How a reader comes to an end: whether without a token, in front of which tokens, and with which
tokens taken in front of them. -/
structure Ending where
  idle : Prop
  closes : List Token → Prop
  completion : List Token

namespace Ending

def closed (completion : List Token) : Ending := ⟨False, fun _ => True, completion⟩

def nothing : Ending := ⟨True, fun _ => True, []⟩

def before (a b : Ending) : Ending :=
  ⟨a.idle ∧ b.idle, fun follow => b.closes follow ∧ (b.idle → a.closes follow),
    a.completion ++ b.completion⟩

def Joins (a b : Ending) : Prop :=
  ∀ follow, (a.before b).closes follow → a.closes (b.completion ++ follow)

end Ending

variable {α β : Type}

structure SteadyAt (read : Reader α) (e : Ending) (ts : List Token) : Prop where
  gives : ∀ {value rest}, read ts = .ok (value, rest) →
    ∃ taken, ts = taken ++ rest ∧ (taken = [] → e.idle) ∧
      ∀ follow, follow.head? = rest.head? ∨ e.closes follow →
        read (taken ++ follow) = .ok (value, follow)
  halts : ∀ {halt}, read ts = .error halt →
    ∃ taken, ts = taken ++ halt.rest ∧
      (∀ follow, follow.head? = halt.rest.head? →
        read (taken ++ follow) = .error ⟨halt.misread, follow⟩) ∧
      (taken ≠ [] → (∀ t ∈ taken, Meaningful t) → ∃ more, ∀ follow, e.closes follow →
        ∃ value, read (taken ++ (more ++ follow)) = .ok (value, follow))

/-- Before anything is taken, the completion may be. -/
def Completes (read : Reader α) (e : Ending) : Prop :=
  ∀ follow, e.closes follow → ∃ value, read (e.completion ++ follow) = .ok (value, follow)

structure Steady (n : Nat) (read : Reader α) (e : Ending) : Prop where
  on : ∀ {ts}, ts.length < n → SteadyAt read e ts
  completes : Completes read e

namespace Reader

variable {ts rest : List Token} {value : α} {halt : Halt} {e : Ending}

theorem andThen_eq_error {first : Reader β} {next : β → Reader α} :
    first.andThen next ts = .error halt ↔
      first ts = .error halt ∨ ∃ b mid, first ts = .ok (b, mid) ∧ next b mid = .error halt := by
  rw [andThen]
  cases first ts with
  | error halt => simp
  | ok r =>
    constructor
    · exact fun h => .inr ⟨r.1, r.2, rfl, h⟩
    · rintro (h | ⟨_, _, here, h⟩)
      · cases h
      · cases here
        exact h

theorem andThen_of_error {first : Reader β} {next : β → Reader α}
    (here : first ts = .error halt) : first.andThen next ts = .error halt := by
  rw [andThen, here]

end Reader

open Reader

variable {ts rest : List Token} {e e' a b : Ending} {n k : Nat}

theorem head?_append {taken us vs : List Token} (same : us.head? = vs.head?) :
    (taken ++ us).head? = (taken ++ vs).head? := by
  cases taken with
  | nil => exact same
  | cons t taken => rfl

section Parts

variable {read : Reader α}

theorem SteadyAt.weaken (steady : SteadyAt read e ts) (idle : e.idle → e'.idle)
    (closes : ∀ follow, e'.closes follow → e.closes follow) : SteadyAt read e' ts where
  gives := by
    intro value rest given
    obtain ⟨taken, split, empty, same⟩ := steady.gives given
    exact ⟨taken, split, fun h => idle (empty h),
      fun follow h => same follow (h.imp_right (closes _))⟩
  halts := by
    intro halt halted
    obtain ⟨taken, split, same, more⟩ := steady.halts halted
    refine ⟨taken, split, same, ?_⟩
    intro some_ meaningful
    obtain ⟨more, completes⟩ := more some_ meaningful
    exact ⟨more, fun follow h => completes follow (closes follow h)⟩

theorem Steady.weaken (steady : Steady n read e) (idle : e.idle → e'.idle)
    (closes : ∀ follow, e'.closes follow → e.closes follow)
    (completion : e'.completion = e.completion) : Steady n read e' where
  on shorter := (steady.on shorter).weaken idle closes
  completes := by
    intro follow h
    rw [completion]
    exact steady.completes follow (closes follow h)

theorem Steady.of_le (steady : Steady n read e) (less : k ≤ n) : Steady k read e :=
  ⟨fun shorter => steady.on (Nat.lt_of_lt_of_le shorter less), steady.completes⟩

theorem Completes.steady (completes : Completes read e) : Steady 0 read e :=
  ⟨nofun, completes⟩

theorem steadyAt_refuse {misread : Misread} : SteadyAt (refuse misread : Reader α) e ts where
  gives given := absurd given refuse_ne_ok
  halts := by
    intro halt halted
    cases halted
    exact ⟨[], rfl, fun follow _ => rfl, fun some_ => absurd rfl some_⟩

theorem steadyAt_give {value : α} (idle : e.idle) : SteadyAt (give value) e ts where
  gives := by
    intro value rest given
    obtain ⟨rfl, rfl⟩ := give_eq_ok.mp given
    exact ⟨[], rfl, fun _ => idle, fun follow _ => rfl⟩
  halts halted := nomatch halted

theorem completes_give {value : α} : Completes (give value) .nothing :=
  fun _ _ => ⟨value, rfl⟩

theorem steady_give {value : α} : Steady n (give value) .nothing :=
  ⟨fun _ => steadyAt_give trivial, completes_give⟩

end Parts

section AndThen

variable {first : Reader β} {next : β → Reader α}

theorem SteadyAt.andThen (joins : a.Joins b) (here : SteadyAt first a ts)
    (behind : ∀ {value mid}, first ts = .ok (value, mid) → SteadyAt (next value) b mid)
    (completes : ∀ value, Completes (next value) b) :
    SteadyAt (first.andThen next) (a.before b) ts where
  gives := by
    intro value rest given
    obtain ⟨v, mid, firstGiven, nextGiven⟩ := andThen_eq_ok.mp given
    obtain ⟨front, rfl, noFront, same⟩ := here.gives firstGiven
    obtain ⟨back, rfl, noBack, same'⟩ := (behind firstGiven).gives nextGiven
    refine ⟨front ++ back, (List.append_assoc _ _ _).symm, ?_, ?_⟩
    · intro empty
      obtain ⟨noFront', noBack'⟩ := List.append_eq_nil_iff.mp empty
      exact ⟨noFront noFront', noBack noBack'⟩
    · intro follow h
      -- If the second reader takes nothing, what follows it also follows the first one.
      have ends : (back ++ follow).head? = (back ++ rest).head? ∨ a.closes (back ++ follow) := by
        cases back with
        | nil => exact h.imp_right fun closes => closes.2 (noBack rfl)
        | cons t back => exact .inl rfl
      rw [List.append_assoc, andThen_of_ok (same _ ends)]
      exact same' follow (h.imp_right And.left)
  halts := by
    intro halt halted
    rcases andThen_eq_error.mp halted with firstHalted | ⟨v, mid, firstGiven, nextHalted⟩
    · obtain ⟨front, split, same, more⟩ := here.halts firstHalted
      refine ⟨front, split, fun follow h => andThen_of_error (same follow h), ?_⟩
      intro some_ meaningful
      -- The first reader is completed, and then the second one behind it.
      obtain ⟨more, ends⟩ := more some_ meaningful
      refine ⟨more ++ b.completion, ?_⟩
      intro follow closes
      obtain ⟨v, firstGiven⟩ := ends (b.completion ++ follow) (joins follow closes)
      rw [List.append_assoc, andThen_of_ok firstGiven]
      exact completes v follow closes.1
    · obtain ⟨front, rfl, _, same⟩ := here.gives firstGiven
      obtain ⟨back, rfl, same', more⟩ := (behind firstGiven).halts nextHalted
      refine ⟨front ++ back, (List.append_assoc _ _ _).symm, ?_, ?_⟩
      · intro follow h
        rw [List.append_assoc, andThen_of_ok (same _ (.inl (head?_append h)))]
        exact same' follow h
      · intro _ meaningful
        -- Behind the first reader nothing may be taken yet, and then anything may come.
        cases back with
        | nil =>
          refine ⟨b.completion, ?_⟩
          intro follow closes
          rw [List.append_nil, andThen_of_ok (same _ (.inr (joins follow closes)))]
          exact completes v follow closes.1
        | cons t back =>
          obtain ⟨more, ends⟩ := more (List.cons_ne_nil t back) fun u member =>
            meaningful u (List.mem_append_right front member)
          refine ⟨more, ?_⟩
          intro follow closes
          rw [List.append_assoc, andThen_of_ok (same (t :: back ++ (more ++ follow)) (.inl rfl))]
          exact ends follow closes.1

theorem Completes.andThen (joins : a.Joins b) (here : Completes first a)
    (completes : ∀ value, Completes (next value) b) :
    Completes (first.andThen next) (a.before b) := by
  intro follow closes
  obtain ⟨v, given⟩ := here (b.completion ++ follow) (joins follow closes)
  have split : (a.before b).completion ++ follow = a.completion ++ (b.completion ++ follow) :=
    List.append_assoc _ _ _
  rw [split, andThen_of_ok given]
  exact completes v follow closes.1

theorem Steady.andThen (here : Steady n first a) (behind : ∀ value, Steady n (next value) b)
    (joins : a.Joins b) : Steady n (first.andThen next) (a.before b) where
  on := by
    intro ts shorter
    refine (here.on shorter).andThen joins ?_ fun value => (behind value).completes
    intro value mid given
    obtain ⟨taken, rfl, _⟩ := (here.on shorter).gives given
    rw [List.length_append] at shorter
    exact (behind value).on (by omega)
  completes := here.completes.andThen joins fun value => (behind value).completes

/-- Behind a reader that takes some token there is one token less. -/
theorem Steady.andThen_shorter (here : Steady (n + 1) first a) (some_ : ¬ a.idle)
    (behind : ∀ value, Steady n (next value) b) (joins : a.Joins b) :
    Steady (n + 1) (first.andThen next) (a.before b) where
  on := by
    intro ts shorter
    refine (here.on shorter).andThen joins ?_ fun value => (behind value).completes
    intro value mid given
    obtain ⟨taken, rfl, empty, _⟩ := (here.on shorter).gives given
    have positive := List.length_pos_iff.mpr fun h => some_ (empty h)
    rw [List.length_append] at shorter
    exact (behind value).on (by omega)
  completes := here.completes.andThen joins fun value => (behind value).completes

theorem Steady.andThen_closed {completion : List Token} (here : Steady n first a)
    (behind : ∀ value, Steady n (next value) (.closed completion))
    (joins : ∀ follow, a.closes (completion ++ follow)) :
    Steady n (first.andThen next) (.closed (a.completion ++ completion)) :=
  (here.andThen behind fun follow _ => joins follow).weaken And.right
    (fun _ _ => ⟨trivial, nofun⟩) rfl

theorem Steady.closed_andThen {completion : List Token}
    (here : Steady n first (.closed completion)) (behind : ∀ value, Steady n (next value) b) :
    Steady n (first.andThen next) ⟨False, b.closes, completion ++ b.completion⟩ :=
  (here.andThen behind fun _ _ => trivial).weaken And.left
    (fun _ closes => ⟨closes, fun _ => trivial⟩) rfl

theorem Steady.andThen_give (here : Steady n first a) (make : β → α) :
    Steady n (first.andThen fun value => give (make value)) a :=
  (here.andThen (fun _ => steady_give) fun _ closes => closes.2 trivial).weaken And.left
    (fun _ closes => ⟨trivial, fun _ => closes⟩) (List.append_nil _).symm

end AndThen

section Choose

variable {read way : Reader α} {ways : Token → Option (Reader α)} {otherwise : Reader α}

/-- A reader goes the way that the next token shows. -/
theorem SteadyAt.of_next {idle : Prop} {shows : List Token → Prop}
    (next : ∀ {us vs : List Token}, us.head? = vs.head? → shows us → shows vs) (here : shows ts)
    (same : ∀ us, shows us → read us = way us)
    (steady : SteadyAt way ⟨idle, e.closes, e.completion⟩ ts)
    (stops : idle → e.idle ∧ ∀ follow, e.closes follow → shows follow) : SteadyAt read e ts := by
  have alike : ∀ us, us.head? = ts.head? → read us = way us :=
    fun us head => same us (next head.symm here)
  constructor
  · intro value rest given
    rw [alike ts rfl] at given
    obtain ⟨taken, rfl, empty, again⟩ := steady.gives given
    refine ⟨taken, rfl, fun h => (stops (empty h)).1, ?_⟩
    intro follow h
    rw [← again follow h]
    cases taken with
    | nil =>
      rcases h with head | closes
      · exact alike follow head
      · exact same follow ((stops (empty rfl)).2 follow closes)
    | cons t taken => exact alike _ rfl
  · intro halt halted
    rw [alike ts rfl] at halted
    obtain ⟨taken, rfl, again, more⟩ := steady.halts halted
    refine ⟨taken, rfl, ?_, ?_⟩
    · intro follow head
      rw [← again follow head]
      exact alike _ (head?_append head)
    · intro some_ meaningful
      obtain ⟨tail, ends⟩ := more some_ meaningful
      refine ⟨tail, ?_⟩
      intro follow closes
      obtain ⟨t, taken, rfl⟩ := List.exists_cons_of_ne_nil some_
      rw [alike (t :: taken ++ (tail ++ follow)) rfl]
      exact ends follow closes

/-- Behind a token that is taken. -/
theorem SteadyAt.cons {t : Token} {mid : List Token} (same : ∀ us, read (t :: us) = way us)
    (steady : SteadyAt way e' mid) (completes : Meaningful t → Completes way e')
    (closes : ∀ follow, e.closes follow → e'.closes follow) : SteadyAt read e (t :: mid) where
  gives := by
    intro value rest given
    rw [same] at given
    obtain ⟨taken, rfl, _, again⟩ := steady.gives given
    refine ⟨t :: taken, rfl, nofun, ?_⟩
    intro follow h
    rw [List.cons_append, same]
    exact again follow (h.imp_right (closes follow))
  halts := by
    intro halt halted
    rw [same] at halted
    obtain ⟨taken, rfl, again, more⟩ := steady.halts halted
    refine ⟨t :: taken, rfl, ?_, ?_⟩
    · intro follow head
      rw [List.cons_append, same]
      exact again follow head
    · intro _ meaningful
      obtain ⟨here, meaningful⟩ := List.forall_mem_cons.mp meaningful
      -- The way may not have taken anything yet, and then its completion follows.
      cases taken with
      | nil =>
        refine ⟨e'.completion, ?_⟩
        intro follow h
        obtain ⟨value, given⟩ := completes here follow (closes follow h)
        exact ⟨value, (same _).trans given⟩
      | cons u taken =>
        obtain ⟨more, ends⟩ := more (List.cons_ne_nil u taken) meaningful
        refine ⟨more, ?_⟩
        intro follow h
        obtain ⟨value, given⟩ := ends follow (closes follow h)
        exact ⟨value, (same _).trans given⟩

theorem SteadyAt.choose
    (onward : ∀ {t mid way}, ts = t :: mid → ways t = some way →
      ∃ e', SteadyAt way e' mid ∧ (Meaningful t → Completes way e') ∧
        ∀ follow, e.closes follow → e'.closes follow)
    (other : SteadyAt otherwise e ts)
    (stops : e.idle → ∀ follow, e.closes follow → follow.head?.bind ways = none) :
    SteadyAt (choose ways otherwise) e ts := by
  cases found : ts.head?.bind ways with
  | none =>
    have next : ∀ {us vs : List Token}, us.head? = vs.head? →
        us.head?.bind ways = none → vs.head?.bind ways = none := by
      intro us vs head none
      rw [← head]
      exact none
    exact .of_next next found (fun _ none => choose_none none) other
      fun idle => ⟨idle, stops idle⟩
  | some way =>
    cases ts with
    | nil => cases found
    | cons t mid =>
      have found : ways t = some way := found
      obtain ⟨e', steady, completes, closes⟩ := onward rfl found
      exact .cons (choose_some found) steady completes closes

end Choose

section Either

variable {test : Token → Bool} {onward : Token → Reader α} {otherwise : Reader α}

theorem SteadyAt.either (shorter : ts.length < n + 1)
    (way : ∀ t, test t = true → Steady n (onward t) a)
    (closes : ∀ follow, e.closes follow → a.closes follow) (other : SteadyAt otherwise e ts)
    (stops : e.idle → ∀ follow, e.closes follow → follow.head?.any test = false) :
    SteadyAt (either test onward otherwise) e ts := by
  refine .choose ?_ other ?_
  · intro t mid w split found
    rw [split, List.length_cons] at shorter
    split at found
    · rename_i passes
      cases found
      have steady := way t passes
      exact ⟨a, steady.on (by omega), fun _ => steady.completes, closes⟩
    · cases found
  · intro idle follow h
    have fails := stops idle follow h
    cases follow with
    | nil => rfl
    | cons t follow => exact if_neg (Bool.eq_false_iff.mp fails)

theorem Completes.either_pos {t : Token} (passes : test t = true) (way : Completes (onward t) a)
    (closes : ∀ follow, e.closes follow → a.closes follow)
    (completion : e.completion = t :: a.completion) :
    Completes (either test onward otherwise) e := by
  intro follow h
  obtain ⟨value, given⟩ := way follow (closes follow h)
  refine ⟨value, ?_⟩
  rw [completion]
  exact (Reader.either_pos passes _).trans given

theorem Completes.either_neg (other : Completes otherwise e)
    (fails : ∀ follow, e.closes follow → (e.completion ++ follow).head?.any test = false) :
    Completes (either test onward otherwise) e := by
  intro follow h
  obtain ⟨value, given⟩ := other follow h
  exact ⟨value, (Reader.either_neg (fails follow h)).trans given⟩

/-- A token of a kind is waited for. -/
theorem steady_need {misread : Misread} {t : Token} (passes : test t = true) :
    Steady n (need test misread) (.closed [t]) := by
  have both : Steady (n + 1) (need test misread) (.closed [t]) :=
    { on := fun shorter => .either shorter (fun t _ => steady_give) (fun _ _ => trivial)
        steadyAt_refuse nofun
      completes := .either_pos passes completes_give (fun _ _ => trivial) rfl }
  exact both.of_le (Nat.le_succ n)

end Either

section Peek

variable {test : List Token → Bool} {yes no : Reader α}

/-- Which of two ways is gone shows on the next token. -/
theorem SteadyAt.peek (yesIdle noIdle : Prop)
    (next : ∀ {us vs : List Token}, us.head? = vs.head? → test us = test vs)
    (yesSteady : test ts = true → SteadyAt yes ⟨yesIdle, e.closes, e.completion⟩ ts)
    (noSteady : test ts = false → SteadyAt no ⟨noIdle, e.closes, e.completion⟩ ts)
    (yesStops : yesIdle → e.idle ∧ ∀ follow, e.closes follow → test follow = true)
    (noStops : noIdle → e.idle ∧ ∀ follow, e.closes follow → test follow = false) :
    SteadyAt (peek test yes no) e ts := by
  have shown : ∀ (here : Bool) {us vs : List Token}, us.head? = vs.head? →
      test us = here → test vs = here := by
    intro here us vs head shows
    rw [← next head]
    exact shows
  cases shows : test ts with
  | true =>
    exact .of_next (shown true) shows (fun us h => by rw [Reader.peek, h, if_pos rfl])
      (yesSteady shows) yesStops
  | false =>
    exact .of_next (shown false) shows
      (fun us h => by rw [Reader.peek, h, if_neg Bool.false_ne_true]) (noSteady shows) noStops

theorem Completes.peek_yes (completes : Completes yes e)
    (shows : ∀ follow, e.closes follow → test (e.completion ++ follow) = true) :
    Completes (peek test yes no) e := by
  intro follow h
  obtain ⟨value, given⟩ := completes follow h
  refine ⟨value, ?_⟩
  rw [peek, shows follow h]
  exact given

theorem Completes.peek_no (completes : Completes no e)
    (shows : ∀ follow, e.closes follow → test (e.completion ++ follow) = false) :
    Completes (peek test yes no) e := by
  intro follow h
  obtain ⟨value, given⟩ := completes follow h
  refine ⟨value, ?_⟩
  rw [peek, shows follow h]
  exact given

end Peek

end Plc.Reading
