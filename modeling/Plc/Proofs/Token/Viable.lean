import Plc.Proofs.Token.Junction

/-! What is wrong with a text shows behind the longest front of it that some text made of tokens
begins with. The character that stands there settles it: no text with this one more character is
lexed, and all of them fail alike. -/
namespace Plc.Token

open scoped Computability

variable {c : Char} {cs text w : List Char} {m : Malformed} {l : Language Char}

/-- Where `read` breaks off, the front of the text can be completed to a text of the language, and
with the next character it breaks off in the same way whatever follows. -/
structure BreaksOff {α : Type} (read : List Char → Except Malformed α) (l : Language Char)
    (m : Malformed) (text : List Char) : Prop where
  inside : m.index ≤ text.length
  viable : ∃ more, text.take m.index ++ more ∈ l
  settled : m.index < text.length → ∀ other, text.take (m.index + 1) <+: other →
    read other = .error m

section BreaksOff

variable {α β : Type} {read : List Char → Except Malformed α}
  {read' : List Char → Except Malformed β}
  {l' : Language Char} {defect : Defect}

theorem breaksOff_at_end (text : List Char) {more : List Char} (completes : text ++ more ∈ l) :
    BreaksOff read l ⟨defect, text.length⟩ text where
  inside := Nat.le_refl _
  viable := ⟨more, by rwa [List.take_length]⟩
  settled less := absurd less (Nat.lt_irrefl _)

theorem breaksOff_before (front : List Char) {more : List Char} (completes : front ++ more ∈ l)
    (settled : ∀ other, read (front ++ c :: other) = .error ⟨defect, front.length⟩) :
    BreaksOff read l ⟨defect, front.length⟩ (front ++ c :: cs) where
  inside := by simp
  viable := ⟨more, by rwa [List.take_left]⟩
  settled := by
    rintro _ _ ⟨other, rfl⟩
    rw [List.take_length_add_append, List.take_succ_cons, List.take_zero, List.append_assoc]
    exact settled other

/-- What is read behind some characters breaks off as it does alone, that much later. -/
theorem BreaksOff.after (breaks : BreaksOff read l m text) (front : List Char)
    (completes : ∀ w ∈ l, front ++ w ∈ l')
    (step : ∀ other, text.take (m.index + 1) <+: other → read other = .error m →
      read' (front ++ other) = .error (m.after front.length)) :
    BreaksOff read' l' (m.after front.length) (front ++ text) where
  inside := by
    have := breaks.inside
    simp only [Malformed.after, List.length_append]
    omega
  viable := by
    obtain ⟨more, member⟩ := breaks.viable
    refine ⟨more, ?_⟩
    rw [Malformed.after, List.take_length_add_append, List.append_assoc]
    exact completes _ member
  settled := by
    intro less other begins
    rw [Malformed.after, Nat.add_assoc, List.take_length_add_append] at begins
    obtain ⟨rest, rfl⟩ := begins
    rw [List.append_assoc]
    refine step _ ⟨rest, rfl⟩ (breaks.settled ?_ _ ⟨rest, rfl⟩)
    simp only [Malformed.after, List.length_append] at less
    omega

end BreaksOff

section Strings

theorem string_escape (known : isEscape c = true) (member : w ∈ (quotable '"')∗ * oneOf (· = '"')) :
    '\\' :: c :: w ∈ (quotable '"')∗ * oneOf (· = '"') := by
  rw [kstar_mul_eq]
  exact .inr (mem_quotable_mul.mpr (.inr ⟨c, w, isEscape_iff.mp known, member, rfl⟩))

theorem string_plain (plain : c ∉ ['"', '\n', '\r', '\\'])
    (member : w ∈ (quotable '"')∗ * oneOf (· = '"')) :
    c :: w ∈ (quotable '"')∗ * oneOf (· = '"') := by
  rw [kstar_mul_eq]
  exact .inr (mem_quotable_mul.mpr (.inl ⟨c, w, plain, member, rfl⟩))

theorem string_closed : ['"'] ∈ (quotable '"')∗ * oneOf (· = '"') := by
  rw [kstar_mul_eq]
  exact .inl ⟨'"', rfl, rfl⟩

theorem string_backslash : ['\\', '\\', '"'] ∈ (quotable '"')∗ * oneOf (· = '"') :=
  string_escape rfl string_closed

theorem scanString_lineEnd (ends : isLineEnd c = true) (other : List Char) :
    scanString (c :: other) = .error ⟨.unterminatedString, 0⟩ := by
  rcases isLineEnd_iff.mp ends with rfl | rfl <;> simp [scanString, isLineEnd]

theorem breaksOff_scanString (failed : scanString cs = .error m) :
    BreaksOff scanString ((quotable '"')∗ * oneOf (· = '"')) m cs := by
  fun_induction scanString cs generalizing m with
  | case1 =>
    cases failed
    exact breaksOff_at_end [] string_closed
  | case3 =>
    cases failed
    exact breaksOff_at_end ['\\'] string_backslash
  | case5 c cs known m' deeper ih =>
    cases failed
    refine (ih deeper).after ['\\', c] (fun w => string_escape known) ?_
    intro other _ failed
    simp [scanString, known, failed]
  | case6 c cs unknown =>
    cases failed
    refine breaksOff_before ['\\'] string_backslash ?_
    intro other
    simp [scanString, unknown]
  | case7 c cs noQuote _ _ ends =>
    cases failed
    exact breaksOff_before [] string_closed (scanString_lineEnd ends)
  | case9 c cs noQuote noEnd noBackslash inside m' deeper ih =>
    cases failed
    have other : c ≠ '\\' := ne_backslash noEnd noBackslash
    have quoteless : c ≠ '"' := noQuote
    have plain : c ∉ ['"', '\n', '\r', '\\'] := by
      rw [isLineEnd_iff, not_or] at inside
      simp [quoteless, inside, other]
    refine (ih deeper).after [c] (fun w => string_plain plain) ?_
    intro behind _ failed
    simp [scanString, other, inside, failed]
  | _ => cases failed

end Strings

section Characters

variable {body rest : List Char}

theorem scanCharacter_local (found : scanCharacter cs = .ok (body, rest)) (other : List Char) :
    scanCharacter (body ++ other) = .ok (body, other) := by
  rcases cases_of_scanCharacter found with ⟨d, known, rfl⟩ | ⟨d, _, noEscape, inside, rfl⟩
  · simp [scanCharacter, known]
  · simp [scanCharacter, noEscape, inside]

theorem character_escape (known : isEscape c = true) :
    ['\\', c, '\''] ∈ quotable '\'' * oneOf (· = '\'') :=
  mem_quotable_mul.mpr (.inr ⟨c, ['\''], isEscape_iff.mp known, ⟨'\'', rfl, rfl⟩, rfl⟩)

theorem breaksOff_scanCharacter (failed : scanCharacter cs = .error m) :
    BreaksOff scanCharacter (quotable '\'' * oneOf (· = '\'')) m cs := by
  have letter : ['n', '\''] ∈ quotable '\'' * oneOf (· = '\'') :=
    mem_quotable_mul.mpr (.inl ⟨'n', ['\''], by decide, ⟨'\'', rfl, rfl⟩, rfl⟩)
  unfold scanCharacter at failed
  split at failed
  · cases failed
    exact breaksOff_at_end [] letter
  · cases failed
    exact breaksOff_before [] letter fun other => rfl
  · cases failed
    exact breaksOff_at_end ['\\'] (character_escape (c := '\\') rfl)
  · split at failed
    · cases failed
    · rename_i unknown
      cases failed
      refine breaksOff_before ['\\'] (character_escape (c := '\\') rfl) ?_
      intro other
      simp [scanCharacter, unknown]
  · split at failed
    · rename_i ends
      cases failed
      refine breaksOff_before [] letter ?_
      intro other
      rcases isLineEnd_iff.mp ends with rfl | rfl <;> rfl
    · cases failed

end Characters

theorem Malformed.after_zero (m : Malformed) : m.after 0 = m := by
  simp only [Malformed.after, Nat.zero_add]

theorem lexFrom_zero_malformed (blank : isBlank c = false) (failed : scan c cs = .error m) :
    lexFrom 0 (c :: cs) = .error m := by
  rw [lexFrom_malformed blank failed, Malformed.after_zero]

/-- One character stands behind a quote, and then anything but a quote, or nothing. -/
theorem breaksOff_unclosed {body rest : List Char} (closed : scanCharacter cs = .ok (body, rest))
    (noQuote : '\'' ∉ rest.head?) :
    BreaksOff (lexFrom 0) Kind.character.form ⟨.unterminatedCharacter, 1 + body.length⟩
      ('\'' :: cs) := by
  have completes : '\'' :: body ++ ['\''] ∈ Kind.character.form :=
    mem_oneOf_mul.mpr ⟨'\'', _, rfl, mem_of_scanCharacter closed, rfl⟩
  rw [← scanCharacter_append _ _ _ closed, Nat.add_comm]
  cases rest with
  | nil =>
    rw [List.append_nil]
    exact breaksOff_at_end _ completes
  | cons d rest =>
    refine breaksOff_before ('\'' :: body) completes fun other => ?_
    rw [List.length_cons, Nat.add_comm]
    exact lexFrom_zero_malformed (by decide)
      (scan_character_open (scanCharacter_local closed (d :: other)) noQuote)

/-- A text at the front of which no token begins breaks off in a token in quotes. -/
theorem breaksOff_of_scan (failed : scan c cs = .error m) :
    ∃ kind : Kind, kind.quote? = some c ∧ BreaksOff (lexFrom 0) kind.form m (c :: cs) := by
  rcases scan_eq_error failed with ⟨rfl, m', open_, rfl⟩ |
    ⟨rfl, body, rest, closed, noQuote, rfl⟩ | ⟨rfl, m', open_, rfl⟩
  · refine ⟨.character, rfl, (breaksOff_scanCharacter open_).after ['\''] ?_ ?_⟩
    · exact fun w member => mem_oneOf_mul.mpr ⟨'\'', w, rfl, member, rfl⟩
    · exact fun other _ failed =>
        lexFrom_zero_malformed (by decide) (scan_character_malformed failed)
  · exact ⟨.character, rfl, breaksOff_unclosed closed noQuote⟩
  · refine ⟨.string, rfl, (breaksOff_scanString open_).after ['"'] ?_ ?_⟩
    · exact fun w member => mem_oneOf_mul.mpr ⟨'"', w, rfl, member, rfl⟩
    · exact fun other _ failed =>
        lexFrom_zero_malformed (by decide) (scan_string_malformed failed)

def lexable : Language Char := {w | ∃ tokens, lexFrom 0 w = .ok tokens}

theorem not_solid_of_quote? {kind : Kind} (quoted : kind.quote? = some c) : ¬ Solid c :=
  fun solid => solid.2 (Kind.mem_of_quote? quoted)

theorem append_mem_lexable {tokens : List Token} {kind : Kind} (cut : Cut 0 text tokens [])
    (quoted : kind.quote? = some c) (member : w ∈ kind.form) : text ++ w ∈ lexable := by
  have ended : ∀ d ∈ w.head?, ¬ Solid d := by
    intro d head
    rw [head?_of_mem_form quoted member] at head
    cases head
    exact not_solid_of_quote? quoted
  refine ⟨tokens ++ [⟨kind, String.ofList w, text.length⟩], ?_⟩
  rw [lexFrom_append cut ended, Nat.zero_add, lexFrom_of_mem_form member]
  rfl

/-- A text that is not lexed breaks off behind the tokens that are cut from it. -/
theorem breaksOff_of_lexFrom (failed : lexFrom 0 text = .error m) :
    BreaksOff (lexFrom 0) lexable m text := by
  obtain ⟨tokens, rest, whole, stuck⟩ := exists_cut_of_lexFrom failed
  obtain ⟨c, cs, m', rfl, blank, malformed⟩ := stuck.exists_scan
  obtain ⟨taken, rfl, cut⟩ := whole.alone
  obtain ⟨kind, quoted, breaks⟩ := breaksOff_of_scan malformed
  have behind : ∀ other, (c :: cs).take (m'.index + 1) <+: other →
      lexFrom 0 other = .error m' →
      lexFrom 0 (taken ++ other) = .error (m'.after taken.length) := by
    rintro _ ⟨other, rfl⟩ failed
    have ended : ∀ d ∈ ((c :: cs).take (m'.index + 1) ++ other).head?, ¬ Solid d := by
      intro d head
      cases head
      exact not_solid_of_quote? quoted
    rw [lexFrom_append cut ended, Nat.zero_add, lexFrom_eq, failed]
    rfl
  have same : m = m'.after taken.length := by
    have again := behind (c :: cs) (List.take_prefix _ _) (lexFrom_zero_malformed blank malformed)
    rw [failed] at again
    exact Except.error.inj again
  rw [same]
  exact breaks.after taken (fun w => append_mem_lexable cut quoted) behind

/-- What is wrong with a text shows where the longest front ends that some lexed text begins with:
no text that begins with one more character is lexed, and each of them is wrong in the same way at
the same place. -/
theorem lex_breaks_off_behind_viable {text : String} (failed : lex text = .error m) :
    m.index ≤ text.length ∧
    (∃ (other : String) (tokens : List Token), text.toList.take m.index <+: other.toList ∧
      lex other = .ok tokens) ∧
    (m.index < text.length → ∀ other : String, text.toList.take (m.index + 1) <+: other.toList →
      lex other = .error m) := by
  have breaks := breaksOff_of_lexFrom failed
  obtain ⟨more, tokens, lexed⟩ := breaks.viable
  refine ⟨?_, ⟨String.ofList (text.toList.take m.index ++ more), tokens, ?_, ?_⟩, ?_⟩
  · rw [← String.length_toList]
    exact breaks.inside
  · rw [String.toList_ofList]
    exact List.prefix_append _ _
  · rw [lex, String.toList_ofList]
    exact lexed
  · intro less other begins
    rw [← String.length_toList] at less
    exact breaks.settled less other.toList begins

/-- Half an escape in a string, and a minus sign before it that belongs to no number. -/
theorem lex_breaks_off_behind_viable_escape :
    lex "-'\\\\' \"\\q.\" x" = .error ⟨.invalidEscape, 8⟩ ∧
      ∀ other : String, "-'\\\\' \"\\q".toList <+: other.toList →
        lex other = .error ⟨.invalidEscape, 8⟩ := by
  have failed : lex "-'\\\\' \"\\q.\" x" = .error ⟨.invalidEscape, 8⟩ := by
    decide +kernel
  have front : "-'\\\\' \"\\q.\" x".toList.take 9 = "-'\\\\' \"\\q".toList := by
    decide +kernel
  have settled := (lex_breaks_off_behind_viable failed).2.2 (by decide +kernel)
  rw [front] at settled
  exact ⟨failed, settled⟩

end Plc.Token
