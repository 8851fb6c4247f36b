import Plc.Proofs.Token.Munch

/-! Which characters stand in a token. None holds the end of a line, and only between quotes is
there room for a blank. Hence a blank always ends a token that is no longer open. -/
namespace Plc.Token

open scoped Computability

def MadeOf (test : Char → Prop) (l : Language Char) : Prop := ∀ w ∈ l, ∀ c ∈ w, test c

section MadeOf

variable {test : Char → Prop} {k l : Language Char}

theorem madeOf_oneOf {among : Char → Prop} (all : ∀ c, among c → test c) :
    MadeOf test (oneOf among) := by
  rintro _ ⟨c, passes, rfl⟩ d member
  rw [List.mem_singleton.mp member]
  exact all c passes

theorem MadeOf.add (first : MadeOf test k) (second : MadeOf test l) : MadeOf test (k + l) := by
  rintro w (member | member)
  · exact first w member
  · exact second w member

theorem MadeOf.mul (first : MadeOf test k) (second : MadeOf test l) : MadeOf test (k * l) := by
  intro w member c inside
  obtain ⟨u, here, v, behind, rfl⟩ := Language.mem_mul.mp member
  rcases List.mem_append.mp inside with inside | inside
  · exact first u here c inside
  · exact second v behind c inside

theorem MadeOf.kstar (each : MadeOf test l) : MadeOf test l∗ := by
  intro w member c inside
  obtain ⟨parts, rfl, all⟩ := Language.mem_kstar.mp member
  obtain ⟨part, among, inside⟩ := List.mem_flatten.mp inside
  exact each part (all part among) c inside

theorem madeOf_one : MadeOf test 1 := by
  rintro w rfl c inside
  cases inside

end MadeOf

def Kind.quote? : Kind → Option Char
  | .character => some '\''
  | .string => some '"'
  | .identifier | .integer | .decimal | .operator => none

theorem Kind.mem_of_quote? {kind : Kind} {quote : Char} (quoted : kind.quote? = some quote) :
    quote ∈ ['\'', '"'] := by
  cases kind <;> cases quoted <;> decide

def Solid (c : Char) : Prop := c ∉ blanks ∧ c ∉ ['\'', '"']

section Classes

variable {c : Char}

theorem isBlank_of_isLineEnd (ends : isLineEnd c = true) : c ∈ blanks := by
  rcases isLineEnd_iff.mp ends with rfl | rfl <;> decide

theorem Solid.isLineEnd_eq_false (solid : Solid c) : isLineEnd c = false := by
  rw [← Bool.not_eq_true]
  exact fun ends => solid.1 (isBlank_of_isLineEnd ends)

theorem solid_of_forall_ne (differs : ∀ d ∈ ['\'', '"'] ++ blanks, c ≠ d) : Solid c :=
  ⟨fun blank => differs c (List.mem_append_right _ blank) rfl,
    fun quote => differs c (List.mem_append_left _ quote) rfl⟩

theorem solid_of_isNamePart (part : c = '@' ∨ isNamePart c = true) : Solid c := by
  apply solid_of_forall_ne
  rintro d member rfl
  simp only [blanks, List.cons_append, List.nil_append, List.mem_cons, List.not_mem_nil,
    or_false] at member
  rcases member with rfl | rfl | rfl | rfl | rfl | rfl | rfl <;> revert part <;> decide

theorem solid_of_isDigit (digit : c.isDigit = true) : Solid c := by
  apply solid_of_isNamePart
  simp [isNamePart, Char.isAlphanum, digit]

theorem isLineEnd_of_isEscape (known : isEscape c = true) : isLineEnd c = false := by
  simp only [isEscape, Bool.or_eq_true, beq_iff_eq] at known
  rcases known with (((((rfl | rfl) | rfl) | rfl) | rfl) | rfl) | rfl <;> rfl

end Classes

section Numbers

theorem madeOf_digit : MadeOf Solid digit := madeOf_oneOf fun _ => solid_of_isDigit

theorem madeOf_leading : MadeOf Solid leading :=
  madeOf_oneOf fun _ passes => solid_of_isDigit passes.1

theorem madeOf_zero : MadeOf Solid zero :=
  madeOf_oneOf fun _ same => solid_of_isDigit (by rw [same]; rfl)

theorem madeOf_point : MadeOf Solid point := by
  apply madeOf_oneOf
  rintro _ rfl
  unfold Solid
  decide

theorem madeOf_optionalMinus : MadeOf Solid optionalMinus := by
  refine madeOf_one.add (madeOf_oneOf ?_)
  rintro _ rfl
  unfold Solid
  decide

theorem madeOf_numeral : MadeOf Solid numeral :=
  madeOf_zero.add (madeOf_leading.mul madeOf_digit.kstar)

end Numbers

/-- Where there are no quotes, there is no room for a blank. -/
theorem solid_of_mem_form {kind : Kind} (quoteless : kind.quote? = none) :
    MadeOf Solid kind.form := by
  cases kind with
  | identifier =>
    refine (madeOf_oneOf ?_).mul (madeOf_oneOf ?_).kstar
    · rintro c (rfl | alpha)
      · exact solid_of_isNamePart (.inl rfl)
      · exact solid_of_isNamePart (.inr (by simp [isNamePart, Char.isAlphanum, alpha]))
    · exact fun c part => solid_of_isNamePart (.inr (isNamePart_iff.mpr part))
  | integer =>
    exact madeOf_zero.add (madeOf_optionalMinus.mul (madeOf_leading.mul madeOf_digit.kstar))
  | decimal =>
    exact madeOf_optionalMinus.mul
      (madeOf_numeral.mul (madeOf_point.mul (madeOf_digit.mul madeOf_digit.kstar)))
  | operator =>
    refine MadeOf.add ?_ (madeOf_oneOf ?_)
    · intro w member c inside
      rw [mem_pairs] at member
      simp only [List.mem_cons, List.not_mem_nil, or_false] at member
      rcases member with rfl | rfl | rfl | rfl
      all_goals
        simp only [List.mem_cons, List.not_mem_nil, or_false, or_self] at inside
        rcases inside with rfl | rfl <;> exact ⟨by decide, by decide⟩
    · intro c symbol
      have known := symbol.2.1
      simp only [List.mem_cons, List.not_mem_nil, or_false, not_or] at known
      exact ⟨symbol.1, by simp [known]⟩
  | character => cases quoteless
  | string => cases quoteless

theorem madeOf_quotable {quote : Char} : MadeOf (isLineEnd · = false) (quotable quote) := by
  refine (madeOf_oneOf ?_).add ((madeOf_oneOf ?_).mul (madeOf_oneOf ?_))
  · intro c plain
    simp only [List.mem_cons, List.not_mem_nil, or_false, not_or] at plain
    simp [isLineEnd, plain]
  · rintro _ rfl
    rfl
  · exact fun c known => isLineEnd_of_isEscape (isEscape_iff.mpr known)

/-- No token goes over the end of a line. -/
theorem inLine_of_mem_form (kind : Kind) : MadeOf (isLineEnd · = false) kind.form := by
  have quote : ∀ c : Char, isLineEnd c = false → MadeOf (isLineEnd · = false) (oneOf (· = c)) := by
    rintro c inside
    exact madeOf_oneOf fun d same => same ▸ inside
  cases quoted : kind.quote? with
  | none => exact fun w member c inside =>
      (solid_of_mem_form quoted w member c inside).isLineEnd_eq_false
  | some c =>
    cases kind with
    | character => exact (quote '\'' rfl).mul (madeOf_quotable.mul (quote '\'' rfl))
    | string => exact (quote '"' rfl).mul (madeOf_quotable.kstar.mul (quote '"' rfl))
    | _ => cases quoted

theorem ne_nil_of_mem_form {kind : Kind} {w : List Char} (member : w ∈ kind.form) : w ≠ [] := by
  rintro rfl
  obtain ⟨c, cs, _, split, _⟩ := scans_of_mem member []
  cases split

/-- A token in quotes begins with its quote. -/
theorem head?_of_mem_form {kind : Kind} {w : List Char} {quote : Char}
    (quoted : kind.quote? = some quote) (member : w ∈ kind.form) : w.head? = some quote := by
  cases kind with
  | character | string =>
    obtain ⟨c, v, rfl, _, rfl⟩ := mem_oneOf_mul.mp member
    exact quoted
  | _ => cases quoted

end Plc.Token
