import Plc.Proofs.Reading.Bounds

/-! Cutting and reading agree on literals, though each goes through their characters on its own.
What is cut as a literal is read as what it stands for, and no text is refused because of one. -/
namespace Plc.Reading

open Token Reader Quoted

variable {text : String} {tokens : List Token} {t : Token} {e : Error}

/-- Reading complains of a literal only if some token is meant as one and stands for none. -/
theorem other_of_meaningful (meaningful : ∀ t ∈ tokens, Meaningful t)
    (failed : readProgram tokens = .error e) : e.misread ∉ literalMisreads := by
  obtain ⟨halt, halted, rfl⟩ := readProgram_eq_error failed
  obtain ⟨taken, split, complains⟩ :=
    (takes_definitions false).halts (Nat.lt_succ_self tokens.length) halted
  intro literal
  obtain ⟨t, member, nothing⟩ := complains literal
  have member : t ∈ tokens := split ▸ List.mem_append_left _ member
  exact meaningful t member halt.misread nothing

theorem readProgram_of_parsing (failed : compile text = .error (.parsing e)) :
    ∃ tokens, lex text = .ok tokens ∧ readProgram tokens = .error e := by
  rcases compile_eq_error failed with ⟨_, _, other⟩ | ⟨tokens, _, lexed, read, same⟩ | ⟨_, other⟩
  · cases other
  · cases same
    exact ⟨tokens, lexed, read⟩
  · cases other

theorem of_primary_cons {l : Literal} (literal : literal? t = some (.ok l)) (rest : List Token) :
    of primary (t :: rest) = .ok (.literal l none, rest) := by
  simp only [of_primary, choose, primaryWays, literal, give]

/-- Each literal that is cut from a text stands for one value, and wherever an operand is looked
for it is read as that. So no complaint of a literal is made about any text. No string in memory
has 2 ^ 63 characters or more, and up to there each decimal has a scale that fits 64 bits. -/
theorem literals_agree (text : String) (short : text.length < 2 ^ 63) :
    (∀ tokens, lex text = .ok tokens → ∀ t ∈ tokens, t.kind ≠ .identifier → t.kind ≠ .operator →
      ∃ l, Stands t.kind t.literal.toList l ∧
        (∀ other, Stands t.kind t.literal.toList other → other = l) ∧
        ∀ rest, of primary (t :: rest) = .ok (.literal l none, rest)) ∧
    ∀ e, compile text = .error (.parsing e) → e.misread.message ∉
      ["Invalid integer literal", "Invalid decimal literal", "Invalid character literal"] := by
  constructor
  · intro tokens lexed t member name operator
    have shorter := Nat.lt_of_le_of_lt (length_of_lex lexed t member) short
    obtain ⟨l, stands⟩ := exists_stands (form_of_lex lexed t member) name operator
    have literal := literal?_of_stands stands shorter
    refine ⟨l, stands, fun other also => ?_, of_primary_cons literal⟩
    have again := literal?_of_stands also shorter
    rw [literal] at again
    cases again
    rfl
  · intro e failed message
    obtain ⟨tokens, lexed, failed⟩ := readProgram_of_parsing failed
    refine other_of_meaningful (meaningful_of_lex lexed short) failed ?_
    cases misread : e.misread <;> rw [misread] at message <;> revert message <;> decide

/-- A quote between quotes, behind a backslash. -/
theorem literals_agree_quote :
    ∃ tokens, lex "f('\\'', \"\\\\\\n\")" = .ok tokens ∧ ∃ t ∈ tokens, t.literal = "'\\''" ∧
      ∀ rest, of primary (t :: rest) = .ok (.literal (.character '\'') none, rest) := by
  have cut : ∃ tokens, lex "f('\\'', \"\\\\\\n\")" = .ok tokens ∧
      ⟨.character, "'\\''", 2⟩ ∈ tokens := by
    decide +kernel
  obtain ⟨tokens, lexed, member⟩ := cut
  obtain ⟨l, stands, only, read⟩ := (literals_agree _ (by decide +kernel)).1 tokens lexed _ member
    (by decide) (by decide)
  have denotes : Denotes ['\\', '\''] ['\''] := .escape (by decide) .done
  have quote : Stands .character "'\\''".toList (.character '\'') := .character denotes
  rw [← only _ quote] at read
  exact ⟨tokens, lexed, _, member, rfl, read⟩

end Plc.Reading
