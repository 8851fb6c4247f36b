import Plc.Proofs.Token.Place

/-! Nothing of a text is lost in its tokens but blanks. The tokens stand in the text one behind
another, each as it is written, and with the blanks between them they make up the text again. -/
namespace Plc.Token

variable {c : Char} {cs text rest : List Char} {index : Nat} {t : Token} {tokens : List Token}

def Covers (t : Token) (i : Nat) : Prop := t.index ≤ i ∧ i < t.stop

instance (t : Token) (i : Nat) : Decidable (t.Covers i) := inferInstanceAs (Decidable (_ ∧ _))

/-- What of a text lies in none of the tokens, where `index` characters stand before the text. -/
def between (tokens : List Token) : Nat → List Char → List Char
  | _, [] => []
  | index, c :: cs =>
    if ∃ t ∈ tokens, t.Covers index then between tokens (index + 1) cs
    else c :: between tokens (index + 1) cs

/-- Lays the tokens out from `index` on and fills the gaps with characters of `filling`. -/
def layOut (index : Nat) : List Token → List Char → List Char
  | [], filling => filling
  | t :: tokens, filling =>
    filling.take (t.index - index) ++
      (t.literal.toList ++ layOut t.stop tokens (filling.drop (t.index - index)))

theorem between_cons_of_free (free : ∀ t ∈ tokens, ¬ t.Covers index) :
    between tokens index (c :: cs) = c :: between tokens (index + 1) cs := by
  rw [between, if_neg]
  rintro ⟨t, member, covers⟩
  exact free t member covers

/-- Of a token's own characters nothing is left. -/
theorem between_append (member : t ∈ tokens) (w : List Char) (start : t.index ≤ index)
    (inside : index + w.length ≤ t.stop) :
    between tokens index (w ++ text) = between tokens (index + w.length) text := by
  induction w generalizing index with
  | nil => rfl
  | cons c w ih =>
    rw [List.length_cons] at inside ⊢
    rw [List.cons_append, between, if_pos ⟨t, member, start, by omega⟩, ih (by omega) (by omega)]
    congr 1
    omega

/-- A token that stands before a text takes nothing out of it. -/
theorem between_cons_token (before : t.stop ≤ index) :
    between (t :: tokens) index cs = between tokens index cs := by
  induction cs generalizing index with
  | nil => rfl
  | cons c cs ih =>
    have outside : ¬ t.Covers index := fun covers => by
      have := covers.2
      omega
    simp only [between, List.exists_mem_cons_iff, outside, false_or, ih (Nat.le_succ_of_le before)]

theorem layOut_cons (behind : ∀ t ∈ tokens, index + 1 ≤ t.index) :
    layOut index tokens (c :: cs) = c :: layOut (index + 1) tokens cs := by
  cases tokens with
  | nil => rfl
  | cons t tokens =>
    have later := behind t List.mem_cons_self
    have gap : t.index - index = t.index - (index + 1) + 1 := by omega
    simp only [layOut, gap, List.take_succ_cons, List.drop_succ_cons, List.cons_append]

/-- What is cut from a text begins where the text does or behind. -/
theorem Cut.start (cut : Cut index text tokens rest) : ∀ t ∈ tokens, index ≤ t.index := by
  induction cut with
  | stop => exact fun _ => nofun
  | blank _ _ ih => exact fun t member => Nat.le_of_succ_le (ih t member)
  | token _ _ ih =>
    exact List.forall_mem_cons.mpr
      ⟨Nat.le_refl _, fun t member => Nat.le_of_add_right_le (ih t member)⟩

theorem Cut.ordered (cut : Cut index text tokens rest) :
    tokens.Pairwise fun t u => t.stop ≤ u.index := by
  induction cut with
  | stop => exact .nil
  | blank _ _ ih => exact ih
  | @token index kind w text rest tokens longest behind ih =>
    refine List.pairwise_cons.mpr ⟨fun u member => ?_, ih⟩
    rw [Token.stop, String.length_ofList]
    exact behind.start u member

/-- What lies in no token is blank, as far as the text is cut. -/
theorem Cut.isBlank_of_mem_between (cut : Cut index text tokens []) :
    ∀ c ∈ between tokens index text, c ∈ blanks := by
  generalize none : ([] : List Char) = rest at cut
  induction cut with
  | stop index text =>
    subst none
    exact fun _ => nofun
  | @blank index c text rest tokens blank behind ih =>
    rw [between_cons_of_free fun t member covers => by
      have := behind.start t member
      have := covers.1
      omega]
    exact List.forall_mem_cons.mpr ⟨blank, ih none⟩
  | @token index kind w text rest tokens longest behind ih =>
    have stop : Token.stop ⟨kind, String.ofList w, index⟩ = index + w.length := by
      rw [Token.stop, String.length_ofList]
    rw [between_append List.mem_cons_self w (Nat.le_refl index) stop.ge,
      between_cons_token stop.le]
    exact ih none

/-- A text cut to its end is laid out again from the tokens and what lies between them. -/
theorem Cut.layOut_between (cut : Cut index text tokens []) :
    layOut index tokens (between tokens index text) = text := by
  generalize none : ([] : List Char) = rest at cut
  induction cut with
  | stop index text =>
    subst none
    rfl
  | @blank index c text rest tokens blank behind ih =>
    rw [between_cons_of_free fun t member covers => by
      have := behind.start t member
      have := covers.1
      omega, layOut_cons behind.start, ih none]
  | @token index kind w text rest tokens longest behind ih =>
    have stop : Token.stop ⟨kind, String.ofList w, index⟩ = index + w.length := by
      rw [Token.stop, String.length_ofList]
    rw [between_append List.mem_cons_self w (Nat.le_refl index) stop.ge,
      between_cons_token stop.le, layOut, Nat.sub_self, stop]
    simp only [List.take_zero, List.drop_zero, List.nil_append, String.toList_ofList, ih none]

theorem mem_between {i : Nat} (there : cs[i]? = some c)
    (free : ∀ t ∈ tokens, ¬ t.Covers (index + i)) : c ∈ between tokens index cs := by
  induction cs generalizing index i with
  | nil => cases there
  | cons d cs ih =>
    cases i with
    | zero =>
      cases there
      have here : ∀ t ∈ tokens, ¬ t.Covers index := free
      rw [between_cons_of_free here]
      exact List.mem_cons_self
    | succ i =>
      have later : c ∈ between tokens (index + 1) cs := ih there (by rwa [Nat.add_right_comm])
      rw [between]
      split
      · exact later
      · exact List.mem_cons_of_mem d later

/-- The tokens of a text have characters, stand in it as they are written, in their order and
without overlap; whatever lies in none of them is a blank; and so the text is what is laid out
again from its tokens and the blanks between them. -/
theorem lex_is_lossless {text : String} (lexed : lex text = .ok tokens) :
    (∀ t ∈ tokens, t.literal ≠ "" ∧ t.index + t.literal.length = t.stop ∧
      t.stop ≤ text.length ∧ (text.toList.take t.stop).drop t.index = t.literal.toList) ∧
    tokens.Pairwise (fun t u => t.stop ≤ u.index) ∧
    (∀ i c, text.toList[i]? = some c → (∀ t ∈ tokens, ¬ t.Covers i) →
      c ∈ [' ', '\t', '\n', '\r', '\x08']) ∧
    (∀ c ∈ between tokens 0 text.toList, c ∈ [' ', '\t', '\n', '\r', '\x08']) ∧
    String.ofList (layOut 0 tokens (between tokens 0 text.toList)) = text := by
  have cut := cut_of_lexFrom lexed
  refine ⟨fun t member => ?_, cut.ordered, fun i c there free => ?_, cut.isBlank_of_mem_between, ?_⟩
  · obtain ⟨some_, _, before, rest, split, start⟩ := exists_span_of_lex lexed member
    have length : text.length = t.index + (t.literal.length + rest.length) := by
      rw [← String.length_toList, split, ← start, List.length_append, List.length_append,
        String.length_toList]
    refine ⟨fun empty => some_ (by rw [empty]; rfl), rfl, ?_, ?_⟩
    · rw [stop]
      omega
    · rw [split, stop, ← start, ← String.length_toList, ← List.append_assoc,
        ← List.length_append, List.take_left, List.drop_left]
  · exact cut.isBlank_of_mem_between c (mem_between there (by simpa using free))
  · rw [cut.layOut_between, String.ofList_toList]

/-- Blanks in quotes belong to the string, and characters are counted, not bytes. -/
theorem lex_is_lossless_quoted :
    lex "\" é \"\t' '" = .ok [⟨.string, "\" é \"", 0⟩, ⟨.character, "' '", 6⟩] ∧
      String.ofList (layOut 0 [⟨.string, "\" é \"", 0⟩, ⟨.character, "' '", 6⟩] ['\t']) =
        "\" é \"\t' '" := by
  have lexed : lex "\" é \"\t' '" =
      .ok [⟨.string, "\" é \"", 0⟩, ⟨.character, "' '", 6⟩] := by
    decide +kernel
  have gap : between [⟨.string, "\" é \"", 0⟩, ⟨.character, "' '", 6⟩] 0 "\" é \"\t' '".toList =
      ['\t'] := by
    decide +kernel
  have whole := (lex_is_lossless lexed).2.2.2.2
  rw [gap] at whole
  exact ⟨lexed, whole⟩

end Plc.Token
