import Plc.Proofs.Token.Munch

/-! A text is cut into tokens from the left. At each place blanks are skipped, and the longest text
that has a form is the next token. -/
namespace Plc.Token

/-- `w` is the longest text at the front that has a form, and `kind` says which. -/
structure Longest (kind : Kind) (w text : List Char) : Prop where
  form : w ∈ kind.form
  front : w <+: text
  longest : ∀ k v, v ∈ Kind.form k → v <+: text → v.length < w.length ∨ v = w ∧ k = kind

/-- Neither a blank nor anything that has a form stands at the front. -/
def Stuck (text : List Char) : Prop :=
  (∃ c ∈ text.head?, c ∉ blanks) ∧ ∀ kind w, w ∈ Kind.form kind → ¬ w <+: text

/-- `Cut index text tokens rest`: behind `index` characters, `tokens` are cut from the front of
`text` and leave `rest`. -/
inductive Cut : Nat → List Char → List Token → List Char → Prop where
  | stop (index : Nat) (text : List Char) : Cut index text [] text
  | blank {index : Nat} {c : Char} {text rest : List Char} {tokens : List Token}
      (blank : c ∈ blanks) (behind : Cut (index + 1) text tokens rest) :
      Cut index (c :: text) tokens rest
  | token {index : Nat} {kind : Kind} {w text rest : List Char} {tokens : List Token}
      (longest : Longest kind w (w ++ text)) (behind : Cut (index + w.length) text tokens rest) :
      Cut index (w ++ text) (⟨kind, String.ofList w, index⟩ :: tokens) rest

variable {c : Char} {cs text rest : List Char} {index : Nat} {tokens : List Token}

theorem longest_of_scan {l : Lexeme} (blank : isBlank c = false) (found : scan c cs = .ok l) :
    Longest l.kind l.text (c :: cs) where
  form := mem_of_scan blank found
  front := ⟨l.rest, scan_append c cs l found⟩
  longest := by
    rintro k v member ⟨behind, whole⟩
    obtain ⟨d, ds, l', split, _, found', enough, same⟩ := scans_of_mem member behind
    rw [whole] at split
    obtain ⟨rfl, rfl⟩ := List.cons.inj split
    obtain rfl := Except.ok.inj (found.symm.trans found')
    rcases Nat.lt_or_eq_of_le enough with shorter | equal
    · exact .inl shorter
    · refine .inr ⟨?_, (same equal).symm⟩
      have both := whole.trans (scan_append c cs l found).symm
      exact (List.append_inj both equal).1

theorem Longest.scan {kind : Kind} {w : List Char} (longest : Longest kind w text) :
    ∃ c cs l, text = c :: cs ∧ isBlank c = false ∧ scan c cs = .ok l ∧ l.kind = kind ∧
      l.text = w := by
  obtain ⟨behind, rfl⟩ := longest.front
  obtain ⟨c, cs, l, split, blank, found, enough, _⟩ := scans_of_mem longest.form behind
  have here := longest_of_scan blank found
  rw [← split] at here
  rcases longest.longest _ _ here.form here.front with shorter | ⟨same, kind⟩
  · omega
  · exact ⟨c, cs, l, split, blank, found, kind, same⟩

theorem lexFrom_blank (blank : isBlank c = true) :
    lexFrom index (c :: cs) = lexFrom (index + 1) cs := by
  rw [lexFrom, if_pos blank]

theorem lexFrom_token {l : Lexeme} (blank : isBlank c = false) (found : scan c cs = .ok l) :
    lexFrom index (c :: cs) = (lexFrom (index + l.text.length) l.rest).map
      (⟨l.kind, String.ofList l.text, index⟩ :: ·) := by
  rw [lexFrom, blank, if_neg Bool.false_ne_true]
  split
  · rename_i failed
    rw [found] at failed
    cases failed
  · rename_i l' found'
    obtain rfl := Except.ok.inj (found.symm.trans found')
    dsimp only
    cases lexFrom (index + l.text.length) l.rest <;> rfl

theorem lexFrom_malformed {m : Malformed} (blank : isBlank c = false)
    (failed : scan c cs = .error m) : lexFrom index (c :: cs) = .error (m.after index) := by
  rw [lexFrom, blank, if_neg Bool.false_ne_true]
  split
  · rename_i m' failed'
    obtain rfl := Except.error.inj (failed.symm.trans failed')
    rfl
  · rename_i found
    rw [failed] at found
    cases found

/-- What is cut from the front is lexed the same whatever becomes of the rest. -/
theorem lexFrom_of_cut (cut : Cut index text tokens rest) : ∃ taken, text = taken ++ rest ∧
    lexFrom index text = (lexFrom (index + taken.length) rest).map (tokens ++ ·) := by
  induction cut with
  | stop index text =>
    refine ⟨[], rfl, ?_⟩
    cases lexFrom index text <;> rfl
  | @blank index c text rest tokens blank behind ih =>
    obtain ⟨taken, rfl, equal⟩ := ih
    refine ⟨c :: taken, rfl, ?_⟩
    rw [lexFrom_blank (isBlank_iff.mpr blank), equal, List.length_cons]
    congr 2
    omega
  | @token index kind w text rest tokens longest behind ih =>
    obtain ⟨taken, rfl, equal⟩ := ih
    refine ⟨w ++ taken, (List.append_assoc _ _ _).symm, ?_⟩
    obtain ⟨c, cs, l, split, blank, found, rfl, rfl⟩ := longest.scan
    have whole := scan_append c cs l found
    rw [← split] at whole
    have left : l.rest = taken ++ rest := List.append_cancel_left whole
    rw [split, lexFrom_token blank found, left, equal, List.length_append, ← Nat.add_assoc]
    cases lexFrom (index + l.text.length + taken.length) rest <;> rfl

/-- A lexed text is cut to its end. -/
theorem cut_of_lexFrom (lexed : lexFrom index text = .ok tokens) : Cut index text tokens [] := by
  induction index, text using lexFrom.induct generalizing tokens with
  | case1 index =>
    rw [lexFrom] at lexed
    cases lexed
    exact .stop index []
  | case2 index c cs blank ih =>
    rw [lexFrom_blank blank] at lexed
    exact .blank (isBlank_iff.mp blank) (ih lexed)
  | case3 index c cs blank m failed =>
    rw [lexFrom_malformed (by simpa using blank) failed] at lexed
    cases lexed
  | case4 index c cs blank l found _ m failed ih =>
    rw [lexFrom_token (by simpa using blank) found, failed] at lexed
    cases lexed
  | case5 index c cs blank l found _ others behind ih =>
    have solid : isBlank c = false := by simpa using blank
    rw [lexFrom_token solid found, behind] at lexed
    cases lexed
    have longest := longest_of_scan solid found
    rw [← scan_append c cs l found] at longest ⊢
    exact .token longest (ih behind)

theorem stuck_of_scan {m : Malformed} (blank : isBlank c = false) (failed : scan c cs = .error m) :
    Stuck (c :: cs) := by
  refine ⟨⟨c, rfl, fun known => ?_⟩, ?_⟩
  · rw [isBlank_iff.mpr known] at blank
    cases blank
  · rintro kind w member ⟨rest, whole⟩
    obtain ⟨d, ds, l, split, _, found, _⟩ := scans_of_mem member rest
    rw [whole] at split
    obtain ⟨rfl, rfl⟩ := List.cons.inj split
    cases failed.symm.trans found

/-- A text that is not lexed is cut up to a place where no token begins. -/
theorem exists_cut_of_lexFrom {m : Malformed} (failed : lexFrom index text = .error m) :
    ∃ tokens rest, Cut index text tokens rest ∧ Stuck rest := by
  induction index, text using lexFrom.induct with
  | case1 index =>
    rw [lexFrom] at failed
    cases failed
  | case2 index c cs blank ih =>
    rw [lexFrom_blank blank] at failed
    obtain ⟨tokens, rest, cut, stuck⟩ := ih failed
    exact ⟨tokens, rest, .blank (isBlank_iff.mp blank) cut, stuck⟩
  | case3 index c cs blank m malformed =>
    exact ⟨[], c :: cs, .stop index _, stuck_of_scan (by simpa using blank) malformed⟩
  | case4 index c cs blank l found _ m' behind ih =>
    have solid : isBlank c = false := by simpa using blank
    rw [lexFrom_token solid found, behind] at failed
    cases failed
    obtain ⟨tokens, rest, cut, stuck⟩ := ih behind
    have longest := longest_of_scan solid found
    rw [← scan_append c cs l found] at longest ⊢
    exact ⟨_, rest, .token longest cut, stuck⟩
  | case5 index c cs blank l found _ others behind ih =>
    rw [lexFrom_token (by simpa using blank) found, behind] at failed
    cases failed

theorem Stuck.exists_scan (stuck : Stuck text) :
    ∃ c cs m, text = c :: cs ∧ isBlank c = false ∧ scan c cs = .error m := by
  obtain ⟨⟨c, head, solid⟩, formless⟩ := stuck
  obtain ⟨cs, rfl⟩ := List.head?_eq_some_iff.mp head
  have blank : isBlank c = false := by
    rw [← Bool.not_eq_true, isBlank_iff]
    exact solid
  cases found : scan c cs with
  | error m => exact ⟨c, cs, m, rfl, blank, found⟩
  | ok l => exact absurd ⟨l.rest, scan_append c cs l found⟩ (formless _ _ (mem_of_scan blank found))

theorem Stuck.exists_malformed (stuck : Stuck text) (index : Nat) :
    ∃ m, lexFrom index text = .error m := by
  obtain ⟨c, cs, m, rfl, blank, failed⟩ := stuck.exists_scan
  exact ⟨_, lexFrom_malformed blank failed⟩

/-- Every token is the longest at its place in the text. -/
theorem Cut.longest (cut : Cut index text tokens rest) (before : List Char)
    (start : before.length = index) : ∀ t ∈ tokens,
    Longest t.kind t.literal.toList ((before ++ text).drop t.index) := by
  induction cut generalizing before with
  | stop => exact fun _ => nofun
  | @blank index c text rest tokens blank behind ih =>
    intro t member
    simpa using ih (before ++ [c]) (by simp [start]) t member
  | @token index kind w text rest tokens longest behind ih =>
    intro t member
    rcases List.mem_cons.mp member with rfl | member
    · simpa [← start] using longest
    · simpa using ih (before ++ w) (by simp [start]) t member

theorem form_of_lex {text : String} (lexed : lex text = .ok tokens) :
    ∀ t ∈ tokens, t.literal.toList ∈ t.kind.form :=
  fun t member => ((cut_of_lexFrom lexed).longest [] rfl t member).form

theorem length_of_lex {text : String} (lexed : lex text = .ok tokens) :
    ∀ t ∈ tokens, t.literal.length ≤ text.length := by
  intro t member
  obtain ⟨behind, split⟩ := ((cut_of_lexFrom lexed).longest [] rfl t member).front
  have lengths := congrArg List.length split
  rw [List.length_append, List.length_drop, List.nil_append, String.length_toList,
    String.length_toList] at lengths
  omega

/-- Lexing is the cut of the whole text into the longest tokens. It fails exactly if the cut comes
to a place that is not blank and where no token begins. -/
theorem lex_cuts_longest (text : String) :
    (∀ tokens, lex text = .ok tokens ↔ Cut 0 text.toList tokens []) ∧
    (∀ tokens, lex text = .ok tokens → ∀ t ∈ tokens,
      Longest t.kind t.literal.toList (text.toList.drop t.index)) ∧
    ((∃ m, lex text = .error m) ↔
      ∃ tokens rest, Cut 0 text.toList tokens rest ∧ Stuck rest) := by
  have cut_iff : ∀ tokens, lex text = .ok tokens ↔ Cut 0 text.toList tokens [] := by
    intro tokens
    constructor
    · exact fun lexed => cut_of_lexFrom lexed
    · intro cut
      obtain ⟨taken, _, equal⟩ := lexFrom_of_cut cut
      rw [lex, equal, lexFrom]
      simp [Except.map]
  refine ⟨cut_iff, ?_, ?_, ?_⟩
  · intro tokens lexed t member
    exact ((cut_iff tokens).mp lexed).longest [] rfl t member
  · rintro ⟨m, failed⟩
    exact exists_cut_of_lexFrom failed
  · rintro ⟨tokens, rest, cut, stuck⟩
    obtain ⟨taken, _, equal⟩ := lexFrom_of_cut cut
    obtain ⟨m, failed⟩ := stuck.exists_malformed (0 + taken.length)
    exact ⟨m, by rw [lex, equal, failed]; rfl⟩

/-- A minus sign goes with a zero only if a fraction follows. -/
theorem lex_cuts_longest_minus :
    lex "-0.5-0" = .ok [⟨.decimal, "-0.5", 0⟩, ⟨.operator, "-", 4⟩, ⟨.integer, "0", 5⟩] ∧
      Longest .operator "-".toList ("-0.5-0".toList.drop 4) := by
  have lexed : lex "-0.5-0" =
      .ok [⟨.decimal, "-0.5", 0⟩, ⟨.operator, "-", 4⟩, ⟨.integer, "0", 5⟩] := by
    decide +kernel
  exact ⟨lexed, (lex_cuts_longest "-0.5-0").2.1 _ lexed ⟨.operator, "-", 4⟩ (by simp)⟩

end Plc.Token
