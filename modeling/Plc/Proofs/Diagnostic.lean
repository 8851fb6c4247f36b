import Plc.Command
import Plc.Proofs.Reading.Viable
import Plc.Proofs.SourceText
import Plc.Proofs.Token.Place

/-! What is wrong with a text is shown in it: the line that is printed reaches the place, and the
mark below it stands under the character there or right behind the line. -/
namespace Plc

open Reading Token

variable {text : String} {tokens : List Token}

theorem beside_of_readProgram {e : Reading.Error} (lexed : lex text = .ok tokens)
    (failed : readProgram tokens = .error e) : Beside text.toList e.index := by
  obtain ⟨halt, halted, rfl⟩ := readProgram_eq_error failed
  obtain ⟨taken, split, _⟩ :=
    ((steady_definitions false).on (Nat.lt_succ_self tokens.length)).halts halted
  have some_ : taken ++ halt.rest ≠ [] := by
    intro empty
    obtain ⟨p, read⟩ := completes_definitions false [] rfl
    rw [split.trans empty] at halted
    cases halted.symm.trans read
  have place := position_append some_
  rw [← split] at place
  show Beside text.toList (position tokens halt.rest)
  rw [placeBehind?] at place
  split at place
  · obtain ⟨t, head, index⟩ := Option.map_eq_some_iff.mp place
    exact index ▸ beside_start lexed (List.mem_of_head? head)
  · obtain ⟨t, here, stop⟩ := Option.map_eq_some_iff.mp place
    exact stop ▸ beside_stop lexed (List.mem_of_getElem? here)

/-- All that is wrong before the analysis has a place, beside a character of a line. -/
theorem beside_of_compile {e : CompileError} (failed : compile text = .error e)
    (early : ∀ fault, e ≠ .analysis fault) : ∃ d index, e.diagnostics.entries = [d] ∧
      d.index = some index ∧ Beside text.toList index := by
  rcases compile_eq_error failed with ⟨m, lexed, rfl⟩ | ⟨tokens, e', lexed, read, rfl⟩ |
    ⟨fault, rfl⟩
  · exact ⟨_, m.index, rfl, rfl, beside_of_lexFrom lexed [] rfl⟩
  · exact ⟨_, e'.index, rfl, rfl, beside_of_readProgram lexed read⟩
  · exact absurd rfl (early fault)

namespace SourceText

/-- The line of a place is `front ++ behind`, and the place is between the two. -/
structure Shown (cs : List Char) (index : Nat) (front behind : List Char) : Prop where
  inside : index ≤ cs.length
  line : line? cs (location cs index).line = some (front ++ behind)
  column : (location cs index).column - 1 = front.length
  since_newline : front = lastLine (cs.take index)
  on_from_place : behind <+: cs.drop index

/-- A place beside a character that ends no line is shown. -/
theorem exists_shown_of_beside {cs : List Char} {index : Nat} (beside : Beside cs index) :
    ∃ front behind, Shown cs index front behind := by
  obtain ⟨before, rest, rfl, rfl, solid⟩ := beside
  have some_ : lastLine before ++ rest ≠ [] := by
    intro empty
    obtain ⟨noFront, rfl⟩ := List.append_eq_nil_iff.mp empty
    rcases solid with ⟨c, last, solid⟩ | ⟨c, head, _⟩
    · have newline := lastLine_eq_nil noFront last
      rw [newline] at solid
      cases solid
    · cases head
  have whole : before.getLast? = some '\r' → rest.head? ≠ some '\n' := by
    intro last head
    rcases solid with ⟨c, here, solid⟩ | ⟨c, here, solid⟩
    · cases last.symm.trans here
      cases solid
    · cases head.symm.trans here
      cases solid
  refine ⟨lastLine before, untilEnd rest, ?_⟩
  exact
    { inside := by simp
      line := line?_location before rest some_ whole
      column := by rw [location_append, Nat.add_sub_cancel]
      since_newline := by rw [List.take_left]
      on_from_place := by
        rw [List.drop_left]
        exact untilEnd_prefix rest }

end SourceText

namespace Report

theorem widen_append (cs ds : List Char) : widen (cs ++ ds) = widen cs ++ widen ds :=
  List.flatMap_append

/-- The line of a place in two parts, as wide as it is printed, and below it a mark that stands
where the second part begins. -/
def marked (front behind : List Char) : String :=
  "      " ++ String.ofList (widen front ++ widen behind) ++ "\n      " ++
    String.ofList (List.replicate (widen front).length ' ' ++ ['^']) ++ "\n"

theorem diagnosticText_of_shown {cs front behind : List Char} {index : Nat} {d : Diagnostic}
    (placed : d.index = some index) (shown : SourceText.Shown cs index front behind)
    (path : String) :
    ∃ heading, diagnosticText path cs d = heading ++ "\n" ++ marked front behind := by
  refine ⟨"  - error: " ++ d.message ++ "\n" ++ "     --> " ++ path ++ ":" ++
    toString (SourceText.location cs index).line ++ ":" ++
    toString (SourceText.location cs index).column, ?_⟩
  rw [diagnosticText, placed]
  dsimp only
  rw [shown.line]
  dsimp only
  rw [shown.column, List.take_left, caret, List.map_const', widen_append, marked]
  simp only [String.append_assoc]

end Report

/-- What is wrong with a text before its analysis is reported once, at a place in the text. The
line that is printed holds the characters since the last newline and those behind the place, and
the mark stands where the latter begin, or would. -/
theorem diagnostic_points_into_text (text : String) (e : CompileError)
    (failed : compile text = .error e) (early : ∀ fault, e ≠ .analysis fault) :
    ∃ d index front behind, e.diagnostics.entries = [d] ∧ d.index = some index ∧
      SourceText.Shown text.toList index front behind ∧
      ∀ path, ∃ heading,
        Report.diagnosticText path text.toList d =
          heading ++ "\n" ++ Report.marked front behind := by
  obtain ⟨d, index, only, placed, beside⟩ := beside_of_compile failed early
  obtain ⟨front, behind, shown⟩ := SourceText.exists_shown_of_beside beside
  exact ⟨d, index, front, behind, only, placed, shown,
    fun path => Report.diagnosticText_of_shown placed shown path⟩

/-- A backslash in front of the end of a line of two characters, behind a tab. -/
theorem diagnostic_points_into_text_backslash :
    compile "VAL a = 1;\r\n\tVAL b = \"ü\\\r\n" = .error (.lexing ⟨.invalidEscape, 24⟩) ∧
    ∃ d index front behind,
      (CompileError.lexing ⟨.invalidEscape, 24⟩).diagnostics.entries = [d] ∧ d.index = some index ∧
      SourceText.Shown "VAL a = 1;\r\n\tVAL b = \"ü\\\r\n".toList index front behind ∧
      ∀ path, ∃ heading, Report.diagnosticText path "VAL a = 1;\r\n\tVAL b = \"ü\\\r\n".toList d =
        heading ++ "\n" ++ Report.marked front behind := by
  have lexed : lex "VAL a = 1;\r\n\tVAL b = \"ü\\\r\n" = .error ⟨.invalidEscape, 24⟩ := by
    decide +kernel
  have failed : compile "VAL a = 1;\r\n\tVAL b = \"ü\\\r\n" =
      .error (.lexing ⟨.invalidEscape, 24⟩) := by
    rw [compile, lexed]
    rfl
  exact ⟨failed, diagnostic_points_into_text _ _ failed nofun⟩

end Plc
