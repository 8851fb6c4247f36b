import Plc.Proofs.Token.Characters
import Plc.Proofs.Token.Cut

/-! Tokens may be set apart anew. Written in their order with blanks between them, they are cut
from the text again, each as it was. -/
namespace Plc.Token

def Alike (t u : Token) : Prop := t.kind = u.kind ∧ t.literal = u.literal

/-- The words stand in the text one after the other, with blanks behind each of them: at least one
if another word follows. -/
inductive Apart : List (List Char) → List Char → Prop where
  | nil : Apart [] []
  | cons {w gap text : List Char} {words : List (List Char)} (blank : ∀ c ∈ gap, c ∈ blanks)
      (apart : words ≠ [] → gap ≠ []) (behind : Apart words text) :
      Apart (w :: words) (w ++ (gap ++ text))

def Spaced (words : List (List Char)) (text : List Char) : Prop :=
  ∃ gap body, (∀ c ∈ gap, c ∈ blanks) ∧ Apart words body ∧ text = gap ++ body

variable {c : Char} {cs gap text rest w : List Char} {index : Nat} {kind : Kind}
  {tokens : List Token}

/-- The closing quote ends what is in quotes. -/
theorem text_of_scan_quoted {l : Lexeme} {quote : Char} (quoted : kind.quote? = some quote)
    (member : w ∈ kind.form) (split : w ++ rest = c :: cs) (found : scan c cs = .ok l) :
    l.text = w := by
  cases kind with
  | character =>
    obtain ⟨_, v, rfl, inside, rfl⟩ := mem_oneOf_mul.mp member
    obtain ⟨rfl, rfl⟩ := List.cons.inj split
    obtain ⟨body, rfl, closed⟩ := scanCharacter_of_mem inside rest
    cases found.symm.trans (scan_character closed)
    rfl
  | string =>
    obtain ⟨_, v, rfl, inside, rfl⟩ := mem_oneOf_mul.mp member
    obtain ⟨rfl, rfl⟩ := List.cons.inj split
    cases found.symm.trans (scan_string (scanString_of_mem inside))
    rfl
  | _ => cases quoted

/-- Whether a token is in quotes shows at its first character. -/
theorem quote?_of_longer {longer : Kind} {more : List Char} (quoteless : kind.quote? = none)
    (member : w ∈ kind.form) (whole : w ++ more ∈ longer.form) : longer.quote? = none := by
  cases quoted : longer.quote? with
  | none => rfl
  | some quote =>
    have solid := solid_of_mem_form quoteless w member
    obtain ⟨e, v, rfl⟩ := List.exists_cons_of_ne_nil (ne_nil_of_mem_form member)
    cases head?_of_mem_form quoted whole
    exact absurd (Kind.mem_of_quote? quoted) (solid quote List.mem_cons_self).2

/-- Neither a blank nor a quote goes on with a token that began before it. -/
theorem text_of_scan_quoteless {l : Lexeme} (quoteless : kind.quote? = none)
    (longest : Longest kind w (w ++ text)) (ended : ∀ c ∈ rest.head?, ¬ Solid c)
    (split : w ++ (text ++ rest) = c :: cs) (found : scan c cs = .ok l)
    (enough : w.length ≤ l.text.length) (blank : isBlank c = false) : l.text = w := by
  have whole : l.text ++ l.rest = (w ++ text) ++ rest := by
    rw [scan_append c cs l found, ← split, List.append_assoc]
  have known := mem_of_scan blank found
  rcases List.append_eq_append_iff.mp whole with ⟨more, inside, _⟩ | ⟨more, beyond, left⟩
  · rcases longest.longest _ _ known ⟨more, inside.symm⟩ with shorter | same
    · omega
    · exact same.1
  · cases more with
    | nil =>
      rw [List.append_nil] at beyond
      rcases longest.longest _ _ known ⟨[], by rw [beyond, List.append_nil]⟩ with shorter | same
      · omega
      · exact same.1
    | cons d more =>
      -- the longer token goes on with `d`, which is not solid, but it has no quotes
      rw [beyond, List.append_assoc] at known
      have solid := solid_of_mem_form (quote?_of_longer quoteless longest.form known) _ known
      exact absurd (solid d (by simp)) (ended d (by rw [left]; rfl))

/-- The longest token at the front of a text stays the longest one whatever comes behind the text,
if that begins with a blank or a quote. -/
theorem Longest.extend (longest : Longest kind w (w ++ text))
    (ended : ∀ c ∈ rest.head?, ¬ Solid c) : Longest kind w (w ++ (text ++ rest)) := by
  obtain ⟨c, cs, l, split, blank, found, enough, same⟩ := scans_of_mem longest.form (text ++ rest)
  have taken : l.text = w := by
    cases quoted : kind.quote? with
    | some quote => exact text_of_scan_quoted quoted longest.form split found
    | none => exact text_of_scan_quoteless quoted longest ended split found enough blank
  have extended := longest_of_scan blank found
  rw [← split, taken, same (congrArg List.length taken.symm)] at extended
  exact extended

theorem longest_self (member : w ∈ kind.form) : Longest kind w w := by
  obtain ⟨c, cs, l, split, blank, found, enough, same⟩ := scans_of_mem member []
  rw [List.append_nil] at split
  have whole := scan_append c cs l found
  rw [← split] at whole
  have none : l.rest = [] := by
    have lengths := congrArg List.length whole
    rw [List.length_append] at lengths
    exact List.length_eq_zero_iff.mp (by omega)
  have taken : l.text = w := by rw [← whole, none, List.append_nil]
  have longest := longest_of_scan blank found
  rw [← split, taken, same (congrArg List.length taken.symm)] at longest
  exact longest

/-- A token is not taken for a longer one if a blank follows. -/
theorem longest_before_blank (member : w ∈ kind.form) (ended : ∀ c ∈ rest.head?, c ∈ blanks) :
    Longest kind w (w ++ rest) := by
  have alone : Longest kind w (w ++ []) := by
    rw [List.append_nil]
    exact longest_self member
  exact alone.extend fun c head solid => solid.1 (ended c head)

theorem exists_cut_behind_gap (blank : ∀ c ∈ gap, c ∈ blanks) (behind : ∀ index, ∃ tokens',
    Cut index text tokens' rest ∧ List.Forall₂ Alike tokens tokens') (index : Nat) :
    ∃ tokens', Cut index (gap ++ text) tokens' rest ∧ List.Forall₂ Alike tokens tokens' := by
  induction gap generalizing index with
  | nil => exact behind index
  | cons c gap ih =>
    obtain ⟨here, others⟩ := List.forall_mem_cons.mp blank
    obtain ⟨tokens', cut, alike⟩ := ih others (index + 1)
    exact ⟨tokens', .blank here cut, alike⟩

theorem cut_of_apart (forms : ∀ t ∈ tokens, t.literal.toList ∈ t.kind.form)
    (apart : Apart (tokens.map (·.literal.toList)) text) (index : Nat) :
    ∃ tokens', Cut index text tokens' [] ∧ List.Forall₂ Alike tokens tokens' := by
  induction tokens generalizing text index with
  | nil =>
    cases apart
    exact ⟨[], .stop index [], .nil⟩
  | cons t tokens ih =>
    obtain ⟨form, forms⟩ := List.forall_mem_cons.mp forms
    rw [List.map_cons] at apart
    cases apart with
    | @cons _ gap text _ blank some_ behind =>
      have ended : ∀ c ∈ (gap ++ text).head?, c ∈ blanks := by
        intro c head
        cases gap with
        | cons d gap =>
          cases head
          exact blank c List.mem_cons_self
        | nil =>
          have none : tokens.map (·.literal.toList) = [] := by
            by_contra more
            exact some_ more rfl
          rw [none] at behind
          cases behind
          cases head
      obtain ⟨tokens', cut, alike⟩ := exists_cut_behind_gap blank
        (fun index => ih forms behind index) (index + t.literal.toList.length)
      exact ⟨_, .token (longest_before_blank form ended) cut,
        .cons ⟨rfl, (String.ofList_toList).symm⟩ alike⟩

/-- Tokens that are set apart anew are lexed anew. -/
theorem exists_lex_of_spaced (forms : ∀ t ∈ tokens, t.literal.toList ∈ t.kind.form) {text : String}
    (spaced : Spaced (tokens.map (·.literal.toList)) text.toList) :
    ∃ tokens', lex text = .ok tokens' ∧ List.Forall₂ Alike tokens tokens' := by
  obtain ⟨gap, body, blank, apart, split⟩ := spaced
  obtain ⟨tokens', cut, alike⟩ := exists_cut_behind_gap blank (cut_of_apart forms apart) 0
  obtain ⟨taken, _, equal⟩ := lexFrom_of_cut cut
  refine ⟨tokens', ?_, alike⟩
  rw [lex, split, equal, lexFrom]
  simp [Except.map]

end Plc.Token
