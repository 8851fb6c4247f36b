import Plc.Proofs.Outcome
import Plc.Proofs.Reading.Blind
import Plc.Proofs.Reading.Steady.Program

/-! The blanks between tokens mean nothing. However tokens are set apart, the same program is read
from them, or reading fails for the same reason behind as many of them. -/
namespace Plc.Reading

open Reader Token

variable {ts us : List Token}

/-- What reading a program comes to on two lists of tokens alike: the same program, or a halt for
the same reason with as many tokens taken. -/
inductive SameReading (ts us : List Token) : Prop where
  | program {p : Program} (first : program ts = .ok p) (second : program us = .ok p)
  | halt {misread : Misread} {taken rest taken' rest' : List Token}
      (first : program ts = .error ⟨misread, rest⟩) (split : ts = taken ++ rest)
      (second : program us = .error ⟨misread, rest'⟩) (split' : us = taken' ++ rest')
      (equal : taken.length = taken'.length)

theorem program_eq_ok {p : Program} {rest : List Token}
    (read : definitionsReader false ts = .ok (p, rest)) : program ts = .ok p := by
  rw [definitionsReader] at read
  rw [program]
  cases answer : definitions false ts with
  | ok q =>
    rw [answer] at read
    cases read
    rfl
  | error halt =>
    rw [answer] at read
    cases read

theorem program_eq_error {halt : Halt} (read : definitionsReader false ts = .error halt) :
    program ts = .error halt ∧ ∃ taken, ts = taken ++ halt.rest := by
  obtain ⟨taken, split, _⟩ :=
    ((steady_definitions false).on (Nat.lt_succ_self ts.length)).halts read
  rw [definitionsReader] at read
  rw [program]
  cases answer : definitions false ts with
  | ok q =>
    rw [answer] at read
    cases read
  | error halt' =>
    rw [answer] at read
    cases read
    exact ⟨rfl, taken, split⟩

theorem sameReading_of_alike (alike : List.Forall₂ Alike ts us) : SameReading ts us := by
  have agree := blind_definitions false ts us (Nat.lt_succ_self ts.length) alike
  generalize first : definitionsReader false ts = answer at agree
  generalize second : definitionsReader false us = answer' at agree
  cases agree with
  | ok left _ => exact .program (program_eq_ok first) (program_eq_ok second)
  | error left =>
    obtain ⟨first, taken, split⟩ := program_eq_error first
    obtain ⟨second, taken', split'⟩ := program_eq_error second
    have all := alike.length_eq
    have remaining := left.length_eq
    rw [split, split', List.length_append, List.length_append, remaining] at all
    exact .halt first split second split' (Nat.add_right_cancel all)

/-- Tokens set apart anew with any blanks are the same tokens, and mean the same. -/
theorem spacing_keeps_reading (text text' : String) (tokens : List Token)
    (lexed : lex text = .ok tokens)
    (spaced : Spaced (tokens.map (·.literal.toList)) text'.toList) :
    ∃ tokens', lex text' = .ok tokens' ∧ List.Forall₂ Alike tokens tokens' ∧
      SameReading tokens tokens' := by
  obtain ⟨tokens', lexed', alike⟩ := exists_lex_of_spaced (form_of_lex lexed) spaced
  exact ⟨tokens', lexed', alike, sameReading_of_alike alike⟩

/-- Numbers that touch each other, and are cut nonetheless, come apart. -/
theorem spacing_keeps_reading_touching : ∃ tokens tokens' : List Token,
    lex "VAL x=-007.5.3;" = .ok tokens ∧
      Spaced (tokens.map (·.literal.toList)) "VAL\tx = - 0\r\n0 7.5 . 3 ;\x08".toList ∧
      lex "VAL\tx = - 0\r\n0 7.5 . 3 ;\x08" = .ok tokens' ∧ List.Forall₂ Alike tokens tokens' ∧
      SameReading tokens tokens' := by
  obtain ⟨tokens, lexed, words⟩ : ∃ tokens, lex "VAL x=-007.5.3;" = .ok tokens ∧
      tokens.map (·.literal.toList) = [['V', 'A', 'L'], ['x'], ['='], ['-'], ['0'], ['0'],
        ['7', '.', '5'], ['.'], ['3'], [';']] := by
    decide +kernel
  have letters : "VAL\tx = - 0\r\n0 7.5 . 3 ;\x08".toList = ['V', 'A', 'L', '\t', 'x', ' ', '=',
      ' ', '-', ' ', '0', '\r', '\n', '0', ' ', '7', '.', '5', ' ', '.', ' ', '3', ' ', ';',
      '\x08'] := by
    decide +kernel
  have spaced : Spaced (tokens.map (·.literal.toList))
      "VAL\tx = - 0\r\n0 7.5 . 3 ;\x08".toList := by
    rw [words, letters]
    refine ⟨[], _, nofun, ?_, rfl⟩
    refine @Apart.cons _ ['\t'] _ _ (by simp [blanks]) (by simp) ?_
    refine @Apart.cons _ [' '] _ _ (by simp [blanks]) (by simp) ?_
    refine @Apart.cons _ [' '] _ _ (by simp [blanks]) (by simp) ?_
    refine @Apart.cons _ [' '] _ _ (by simp [blanks]) (by simp) ?_
    refine @Apart.cons _ ['\r', '\n'] _ _ (by simp [blanks]) (by simp) ?_
    refine @Apart.cons _ [' '] _ _ (by simp [blanks]) (by simp) ?_
    refine @Apart.cons _ [' '] _ _ (by simp [blanks]) (by simp) ?_
    refine @Apart.cons _ [' '] _ _ (by simp [blanks]) (by simp) ?_
    refine @Apart.cons _ [' '] _ _ (by simp [blanks]) (by simp) ?_
    exact @Apart.cons _ ['\x08'] _ _ (by simp [blanks]) (by simp) .nil
  obtain ⟨tokens', lexed', alike, same⟩ := spacing_keeps_reading _ _ tokens lexed spaced
  exact ⟨tokens, tokens', lexed, spaced, lexed', alike, same⟩

end Plc.Reading
