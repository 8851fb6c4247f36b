import Plc.Proofs.Token.Spacing

/-! Texts set one behind the other. A blank or a quote begins nothing anew inside of a token, so
what stands before it is cut as if nothing followed, and what follows is cut as if nothing stood
before, with all places moved. -/
namespace Plc.Token

variable {text taken rest w : List Char} {index : Nat} {kind : Kind} {tokens : List Token}

def after (count : Nat) (t : Token) : Token := { t with index := count + t.index }

def moved (count : Nat) : Except Malformed (List Token) → Except Malformed (List Token)
  | .ok tokens => .ok (tokens.map (after count))
  | .error m => .error (m.after count)

theorem moved_map (count : Nat) (t : Token) (answer : Except Malformed (List Token)) :
    moved count (answer.map (t :: ·)) = (moved count answer).map (after count t :: ·) := by
  cases answer <;> rfl

theorem Malformed.after_add (first second : Nat) (m : Malformed) :
    m.after (first + second) = (m.after second).after first := by
  simp only [Malformed.after, Nat.add_assoc]

/-- Only the places that are told depend on where a text stands. -/
theorem lexFrom_add (count index : Nat) (text : List Char) :
    lexFrom (count + index) text = moved count (lexFrom index text) := by
  induction index, text using lexFrom.induct with
  | case1 index => simp only [lexFrom, moved, List.map_nil]
  | case2 index c cs blank ih =>
    rw [lexFrom_blank blank, lexFrom_blank blank, ← ih, Nat.add_assoc]
  | case3 index c cs blank m failed =>
    have solid : isBlank c = false := by simpa using blank
    rw [lexFrom_malformed solid failed, lexFrom_malformed solid failed, Malformed.after_add]
    rfl
  | case4 index c cs blank l found _ m failed ih =>
    have solid : isBlank c = false := by simpa using blank
    rw [lexFrom_token solid found, lexFrom_token solid found, moved_map, ← ih, Nat.add_assoc]
    rfl
  | case5 index c cs blank l found _ others behind ih =>
    have solid : isBlank c = false := by simpa using blank
    rw [lexFrom_token solid found, lexFrom_token solid found, moved_map, ← ih, Nat.add_assoc]
    rfl

theorem lexFrom_eq (index : Nat) (text : List Char) :
    lexFrom index text = moved index (lexFrom 0 text) :=
  lexFrom_add index 0 text

/-- The longest token of a text is the longest one of every front of the text that it lies in. -/
theorem Longest.of_append (longest : Longest kind w (w ++ (taken ++ rest))) :
    Longest kind w (w ++ taken) where
  form := longest.form
  front := ⟨taken, rfl⟩
  longest := by
    rintro k v member ⟨more, inside⟩
    refine longest.longest k v member ⟨more ++ rest, ?_⟩
    rw [← List.append_assoc, inside, List.append_assoc]

/-- The characters that tokens were cut from are cut into them on their own. -/
theorem Cut.alone (cut : Cut index text tokens rest) :
    ∃ taken, text = taken ++ rest ∧ Cut index taken tokens [] := by
  induction cut with
  | stop index text => exact ⟨[], rfl, .stop index []⟩
  | @blank index c text rest tokens blank behind ih =>
    obtain ⟨taken, rfl, cut⟩ := ih
    exact ⟨c :: taken, rfl, .blank blank cut⟩
  | @token index kind w text rest tokens longest behind ih =>
    obtain ⟨taken, rfl, cut⟩ := ih
    exact ⟨w ++ taken, (List.append_assoc _ _ _).symm, .token longest.of_append cut⟩

/-- A text cut to its end is cut alike in front of a blank or a quote. -/
theorem Cut.extend (cut : Cut index text tokens []) (ended : ∀ c ∈ rest.head?, ¬ Solid c) :
    Cut index (text ++ rest) tokens rest := by
  -- The rest of a cut is an index, and no index may be `[]` for the induction.
  generalize none : ([] : List Char) = left at cut
  induction cut with
  | stop index text =>
    subst none
    exact .stop index rest
  | blank blank _ ih => exact .blank blank (ih none)
  | token longest _ ih =>
    rw [List.append_assoc]
    exact .token (longest.extend ended) (ih none)

/-- In front of a blank or a quote a text is lexed first, and then what is behind it. -/
theorem lexFrom_append (cut : Cut index text tokens []) (ended : ∀ c ∈ rest.head?, ¬ Solid c) :
    lexFrom index (text ++ rest) =
      (lexFrom (index + text.length) rest).map (tokens ++ ·) := by
  obtain ⟨taken, split, equal⟩ := lexFrom_of_cut (cut.extend ended)
  obtain rfl := List.append_cancel_right split
  exact equal

/-- Whatever has a form is lexed as this one token. -/
theorem lexFrom_of_mem_form (member : w ∈ kind.form) (index : Nat) :
    lexFrom index w = .ok [⟨kind, String.ofList w, index⟩] := by
  have alone : Longest kind w (w ++ []) := by
    rw [List.append_nil]
    exact longest_self member
  have cut : Cut index (w ++ []) _ [] := .token alone (.stop _ [])
  rw [List.append_nil] at cut
  obtain ⟨taken, _, equal⟩ := lexFrom_of_cut cut
  rw [equal, lexFrom]
  rfl

/-- A blank keeps two texts apart: the tokens of both are the tokens of the first and then those
of the second behind it, and what is wrong with the second is wrong in its place. -/
theorem lex_append_blank {s : String} (lexed : lex s = .ok tokens) {blank : Char}
    (known : blank ∈ [' ', '\t', '\n', '\r', '\x08']) (t : String) :
    (∀ others, lex t = .ok others →
      lex (s ++ blank.toString ++ t) = .ok (tokens ++ others.map (after (s.length + 1)))) ∧
    ∀ m, lex t = .error m → lex (s ++ blank.toString ++ t) = .error (m.after (s.length + 1)) := by
  have cut := cut_of_lexFrom lexed
  have ended : ∀ c ∈ (blank :: t.toList).head?, ¬ Solid c := by
    rintro c head solid
    cases head
    exact solid.1 known
  have whole : (s ++ blank.toString ++ t).toList = s.toList ++ blank :: t.toList := by
    simp [Char.toString]
  have answer : lex (s ++ blank.toString ++ t) =
      (moved (s.length + 1) (lex t)).map (tokens ++ ·) := by
    unfold lex
    rw [whole, lexFrom_append cut ended, lexFrom_blank (isBlank_iff.mpr known), lexFrom_eq,
      Nat.zero_add, String.length_toList]
  constructor
  · intro others behind
    rw [answer, behind]
    rfl
  · intro m behind
    rw [answer, behind]
    rfl

/-- A point with a digit behind the blank is no fraction, and the error keeps its place. -/
theorem lex_append_blank_point :
    lex "x - 1." = .ok [⟨.identifier, "x", 0⟩, ⟨.operator, "-", 2⟩, ⟨.integer, "1", 4⟩,
      ⟨.operator, ".", 5⟩] ∧
    lex "x - 1.\n5 'ab'" = .error ⟨.unterminatedCharacter, 11⟩ ∧
    lex "x - 1.\n5" = .ok [⟨.identifier, "x", 0⟩, ⟨.operator, "-", 2⟩, ⟨.integer, "1", 4⟩,
      ⟨.operator, ".", 5⟩, ⟨.integer, "5", 7⟩] := by
  have first : lex "x - 1." = .ok [⟨.identifier, "x", 0⟩, ⟨.operator, "-", 2⟩,
      ⟨.integer, "1", 4⟩, ⟨.operator, ".", 5⟩] := by
    decide +kernel
  have newline : '\n' ∈ [' ', '\t', '\n', '\r', '\x08'] := by decide
  exact ⟨first, (lex_append_blank first newline "5 'ab'").2 ⟨.unterminatedCharacter, 4⟩
      (by decide +kernel),
    (lex_append_blank first newline "5").1 [⟨.integer, "5", 0⟩] (by decide +kernel)⟩

end Plc.Token
