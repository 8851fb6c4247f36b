import Plc.Proofs.Token.Characters
import Plc.Proofs.Token.Cut

/-! Places of tokens, and of what is not a token. Beside each of them stands a character that does
not end a line. -/
namespace Plc.Token

variable {c : Char} {cs text body rest front : List Char} {index : Nat} {tokens : List Token}
  {m : Malformed}

/-- In front of the place or behind it is a character that does not end a line. -/
def Beside (text : List Char) (index : Nat) : Prop :=
  ∃ before rest, text = before ++ rest ∧ before.length = index ∧
    ((∃ c ∈ before.getLast?, isLineEnd c = false) ∨ ∃ c ∈ rest.head?, isLineEnd c = false)

def Malformed.InLine (m : Malformed) (text : List Char) : Prop :=
  ∃ front rest, text = front ++ rest ∧ front.length = m.index ∧ ∀ c ∈ front, isLineEnd c = false

theorem Malformed.InLine.after (inLine : m.InLine text) (front : List Char)
    (solid : ∀ c ∈ front, isLineEnd c = false) : (m.after front.length).InLine (front ++ text) := by
  obtain ⟨mid, rest, rfl, length, others⟩ := inLine
  refine ⟨front ++ mid, rest, (List.append_assoc _ _ _).symm, ?_, ?_⟩
  · rw [List.length_append, length]
    rfl
  · exact List.forall_mem_append.mpr ⟨solid, others⟩

theorem inLine_here (defect : Defect) (front rest : List Char)
    (solid : ∀ c ∈ front, isLineEnd c = false) :
    (⟨defect, front.length⟩ : Malformed).InLine (front ++ rest) :=
  ⟨front, rest, rfl, rfl, solid⟩

theorem solid_backslash : ∀ c ∈ ['\\'], isLineEnd c = false := List.forall_mem_singleton.mpr rfl

theorem inLine_of_scanString (failed : scanString cs = .error m) : m.InLine cs := by
  fun_induction scanString cs generalizing m with
  | case1 =>
    cases failed
    exact inLine_here _ [] [] (List.forall_mem_nil _)
  | case3 =>
    cases failed
    exact inLine_here _ ['\\'] [] solid_backslash
  | case5 c cs known m' deeper ih =>
    cases failed
    exact (ih deeper).after ['\\', c] (by simp [isLineEnd_of_isEscape known]; rfl)
  | case6 c cs unknown =>
    cases failed
    exact inLine_here _ ['\\'] (c :: cs) solid_backslash
  | case7 c cs =>
    cases failed
    exact inLine_here _ [] (c :: cs) (List.forall_mem_nil _)
  | case9 c cs _ _ _ inside m' deeper ih =>
    cases failed
    exact (ih deeper).after [c] (by simpa using inside)
  | _ => cases failed

theorem inLine_of_scanCharacter (failed : scanCharacter cs = .error m) : m.InLine cs := by
  unfold scanCharacter at failed
  split at failed
  · cases failed
    exact inLine_here _ [] _ (List.forall_mem_nil _)
  · cases failed
    exact inLine_here _ [] _ (List.forall_mem_nil _)
  · cases failed
    exact inLine_here _ ['\\'] _ solid_backslash
  · split at failed
    · cases failed
    · cases failed
      exact inLine_here _ ['\\'] _ solid_backslash
  · split at failed
    · cases failed
      exact inLine_here _ [] _ (List.forall_mem_nil _)
    · cases failed

theorem solid_of_scanCharacter (found : scanCharacter cs = .ok (body, rest)) :
    ∀ c ∈ body, isLineEnd c = false := by
  rcases cases_of_scanCharacter found with ⟨d, known, rfl⟩ | ⟨d, _, _, inside, rfl⟩
  · simpa using ⟨rfl, isLineEnd_of_isEscape known⟩
  · simpa using inside

/-- What is wrong with a token shows behind its first character, in the same line. -/
theorem inLine_of_scan (failed : scan c cs = .error m) : m.InLine (c :: cs) ∧ 0 < m.index := by
  have solid (quote : Char) (known : isLineEnd quote = false) :
      ∀ d ∈ [quote], isLineEnd d = false := List.forall_mem_singleton.mpr known
  rcases scan_eq_error failed with ⟨rfl, m', open_, rfl⟩ |
    ⟨rfl, body, rest, closed, _, rfl⟩ | ⟨rfl, m', open_, rfl⟩
  · exact ⟨(inLine_of_scanCharacter open_).after _ (solid '\'' rfl),
      Nat.lt_add_right _ Nat.one_pos⟩
  · have inside := solid_of_scanCharacter closed
    rw [← scanCharacter_append _ _ _ closed]
    refine ⟨?_, Nat.lt_add_right _ Nat.one_pos⟩
    exact (inLine_here .unterminatedCharacter body rest inside).after _ (solid '\'' rfl)
  · exact ⟨(inLine_of_scanString open_).after _ (solid '"' rfl), Nat.lt_add_right _ Nat.one_pos⟩

theorem beside_of_last {before : List Char} (some_ : front ≠ [])
    (solid : ∀ c ∈ front, isLineEnd c = false) :
    Beside (before ++ (front ++ rest)) (before.length + front.length) := by
  refine ⟨before ++ front, rest, (List.append_assoc _ _ _).symm, List.length_append, .inl ?_⟩
  have last := List.getLast?_eq_some_getLast some_
  refine ⟨_, ?_, solid _ (List.getLast_mem some_)⟩
  rw [List.getLast?_append, last]
  rfl

/-- What is wrong with a text shows behind a character of its line. -/
theorem beside_of_lexFrom (failed : lexFrom index text = .error m) (before : List Char)
    (start : before.length = index) : Beside (before ++ text) m.index := by
  induction index, text using lexFrom.induct generalizing before with
  | case1 index =>
    rw [lexFrom] at failed
    cases failed
  | case2 index c cs blank ih =>
    rw [lexFrom_blank blank] at failed
    simpa using ih failed (before ++ [c]) (by simp [start])
  | case3 index c cs blank m' malformed =>
    rw [lexFrom_malformed (by simpa using blank) malformed] at failed
    cases failed
    obtain ⟨⟨front, rest, split, length, solid⟩, some_⟩ := inLine_of_scan malformed
    rw [split, ← start, Malformed.after, ← length]
    exact beside_of_last (List.length_pos_iff.mp (length ▸ some_)) solid
  | case4 index c cs blank l found _ m' behind ih =>
    rw [lexFrom_token (by simpa using blank) found, behind] at failed
    cases failed
    have here := ih behind (before ++ l.text) (by simp [start])
    rwa [List.append_assoc, scan_append c cs l found] at here
  | case5 index c cs blank l found _ others behind ih =>
    rw [lexFrom_token (by simpa using blank) found, behind] at failed
    cases failed

/-- A token stands in the text as it is written. -/
theorem exists_span_of_lex {text : String} (lexed : lex text = .ok tokens) {t : Token}
    (member : t ∈ tokens) : t.literal.toList ≠ [] ∧ (∀ c ∈ t.literal.toList, isLineEnd c = false) ∧
      ∃ before rest, text.toList = before ++ (t.literal.toList ++ rest) ∧
        before.length = t.index := by
  have longest := (cut_of_lexFrom lexed).longest [] rfl t member
  have some_ := ne_nil_of_mem_form longest.form
  obtain ⟨rest, split⟩ := longest.front
  refine ⟨some_, inLine_of_mem_form t.kind _ longest.form, text.toList.take t.index, rest, ?_, ?_⟩
  · rw [split]
    exact (List.take_append_drop _ _).symm
  · have inside : text.toList.drop t.index ≠ [] := by
      intro empty
      rw [List.nil_append, empty] at split
      exact some_ (List.append_eq_nil_iff.mp split).1
    rw [List.length_take, Nat.min_eq_left]
    exact Nat.le_of_not_le fun beyond => inside (List.drop_eq_nil_of_le beyond)

theorem beside_start {text : String} (lexed : lex text = .ok tokens) {t : Token}
    (member : t ∈ tokens) : Beside text.toList t.index := by
  obtain ⟨some_, solid, before, rest, split, start⟩ := exists_span_of_lex lexed member
  obtain ⟨c, front, written⟩ := List.exists_cons_of_ne_nil some_
  refine ⟨before, _, split, start, .inr ⟨c, ?_, solid c ?_⟩⟩
  · rw [written]
    rfl
  · rw [written]
    exact List.mem_cons_self

theorem beside_stop {text : String} (lexed : lex text = .ok tokens) {t : Token}
    (member : t ∈ tokens) : Beside text.toList t.stop := by
  obtain ⟨some_, solid, before, rest, split, start⟩ := exists_span_of_lex lexed member
  rw [split, stop, ← start, ← String.length_toList]
  exact beside_of_last some_ solid

end Plc.Token
