import Plc.Compile
import Plc.Proofs.Reading.Literal
import Plc.Proofs.Reading.Sources
import Plc.Proofs.Reading.Steady.Program

/-! An error of reading stands behind the longest front of the tokens with which some program
begins. -/
namespace Plc.Reading

open Token

variable {ts rest : List Token}

/-- Some program begins with these tokens. -/
def Viable (ts : List Token) : Prop := ∃ more p, readProgram (ts ++ more) = .ok p

/-- The place behind the first `k` tokens, or before the first one. -/
def placeBehind? (ts : List Token) (k : Nat) : Option Nat :=
  if k = 0 then ts.head?.map (·.index) else ts[k - 1]?.map (·.stop)

theorem readProgram_eq_error {e : Error} (failed : readProgram ts = .error e) :
    ∃ halt, definitionsReader false ts = .error halt ∧ e = halt.locate ts := by
  obtain ⟨halt, read, rfl⟩ := mapError_eq_error.mp failed
  have read : definitions false ts = .error halt := read
  refine ⟨halt, ?_, rfl⟩
  rw [definitionsReader, read]
  rfl

/-- What is wrong with a text shows when it is lexed, when it is read, or when it is analysed. -/
theorem compile_eq_error {text : String} {e : CompileError} (failed : compile text = .error e) :
    (∃ m, lex text = .error m ∧ e = .lexing m) ∨
    (∃ tokens e', lex text = .ok tokens ∧ readProgram tokens = .error e' ∧ e = .parsing e') ∨
    ∃ fault, e = .analysis fault := by
  rcases bind_eq_error.mp failed with lexed | ⟨tokens, lexed, failed⟩
  · obtain ⟨m, here, rfl⟩ := mapError_eq_error.mp lexed
    exact .inl ⟨m, here, rfl⟩
  · rcases bind_eq_error.mp failed with read | ⟨p, _, analysed⟩
    · obtain ⟨e', here, rfl⟩ := mapError_eq_error.mp read
      exact .inr (.inl ⟨tokens, e', mapError_eq_ok.mp lexed, here, rfl⟩)
    · obtain ⟨fault, _, rfl⟩ := mapError_eq_error.mp analysed
      exact .inr (.inr ⟨fault, rfl⟩)

theorem not_viable_of_error (failed : ∀ more, ∃ halt, definitionsReader false (ts ++ more) =
    .error halt) : ¬ Viable ts := by
  rintro ⟨more, p, read⟩
  obtain ⟨halt, failed⟩ := failed more
  rw [Grammar.readProgram_iff, failed] at read
  cases read

theorem viable_of_reads {more : List Token}
    (ends : ∃ p, definitionsReader false (ts ++ more) = .ok (p, [])) : Viable ts := by
  obtain ⟨p, read⟩ := ends
  exact ⟨more, p, Grammar.readProgram_iff.mpr read⟩

/-- Where reading comes to a halt, the tokens before may be completed. -/
theorem viable_of_halt {taken : List Token} (meaningful : ∀ t ∈ taken, Meaningful t)
    (more : taken ≠ [] → (∀ t ∈ taken, Meaningful t) → ∃ more, ∀ follow : List Token, follow = [] →
      ∃ p, definitionsReader false (taken ++ (more ++ follow)) = .ok (p, follow)) :
    Viable taken := by
  cases taken with
  | nil =>
    obtain ⟨p, read⟩ := completes_definitions false [] rfl
    exact viable_of_reads ⟨p, read⟩
  | cons t taken =>
    obtain ⟨more, ends⟩ := more (List.cons_ne_nil t taken) meaningful
    obtain ⟨p, read⟩ := ends [] rfl
    exact viable_of_reads ⟨p, read⟩

theorem position_append {taken : List Token} (some_ : taken ++ rest ≠ []) :
    placeBehind? (taken ++ rest) taken.length = some (position (taken ++ rest) rest) := by
  have front : (taken ++ rest).take ((taken ++ rest).length - rest.length) = taken := by
    rw [List.length_append, Nat.add_sub_cancel, List.take_left]
  rw [position, front, placeBehind?]
  rcases List.eq_nil_or_concat taken with rfl | ⟨taken, t, rfl⟩
  · obtain ⟨t, rest, rfl⟩ := List.exists_cons_of_ne_nil some_
    rfl
  · simp

/-- A text with an error in it has a longest front with which some program begins, and the error
is placed behind it. No text is so long that scales of decimals do not suffice for it. -/
theorem error_behind_longest_viable (text : String) (tokens : List Token) (e : Error)
    (short : text.length < 2 ^ 63) (lexed : lex text = .ok tokens)
    (failed : readProgram tokens = .error e) :
    ∃ k ≤ tokens.length, placeBehind? tokens k = some e.index ∧ Viable (tokens.take k) ∧
      (k < tokens.length → ¬ Viable (tokens.take (k + 1))) := by
  obtain ⟨halt, halted, rfl⟩ := readProgram_eq_error failed
  have steady := (steady_definitions false).on (Nat.lt_succ_self tokens.length)
  obtain ⟨taken, split, same, more⟩ := steady.halts halted
  have meaningful := meaningful_of_lex lexed short
  have some_ : tokens ≠ [] := by
    rintro rfl
    obtain ⟨p, read⟩ := completes_definitions false [] rfl
    cases halted.symm.trans read
  rw [split] at some_ meaningful ⊢
  -- What was taken can be completed, and with the next token it comes to the same halt again.
  refine ⟨taken.length, by simp, position_append some_, ?_, ?_⟩
  · rw [List.take_left]
    exact viable_of_halt (fun t member => meaningful t (List.mem_append_left _ member)) more
  · intro longer
    obtain ⟨t, rest, left⟩ : ∃ t rest, halt.rest = t :: rest := by
      apply List.exists_cons_of_ne_nil
      intro empty
      rw [empty, List.append_nil] at longer
      exact Nat.lt_irrefl _ longer
    have front : (taken ++ halt.rest).take (taken.length + 1) = taken ++ [t] := by
      rw [left, List.take_append]
      simp
    rw [front]
    apply not_viable_of_error
    intro more
    rw [List.append_assoc]
    exact ⟨_, same ([t] ++ more) (by rw [left]; rfl)⟩

/-- The end of a switch is not looked for before its default. -/
theorem error_behind_longest_viable_default :
    ∃ tokens, lex "FUN f() DO SWITCH a CASE 1: END END" = .ok tokens ∧
      readProgram tokens = .error ⟨.missingDefault, 27⟩ ∧
      ∃ k ≤ tokens.length, placeBehind? tokens k = some 27 ∧ Viable (tokens.take k) ∧
        (k < tokens.length → ¬ Viable (tokens.take (k + 1))) := by
  have reads : ∃ tokens, lex "FUN f() DO SWITCH a CASE 1: END END" = .ok tokens ∧
      (readProgram tokens).map (fun _ => ()) = .error ⟨.missingDefault, 27⟩ := by
    decide +kernel
  obtain ⟨tokens, lexed, failed⟩ := reads
  have failed : readProgram tokens = .error ⟨.missingDefault, 27⟩ := by
    cases read : readProgram tokens with
    | ok p =>
      rw [read] at failed
      cases failed
    | error e =>
      rw [read] at failed
      cases failed
      rfl
  exact ⟨tokens, lexed, failed,
    error_behind_longest_viable _ tokens _ (by decide +kernel) lexed failed⟩

end Plc.Reading
