import Mathlib.Data.List.DropRight
import Plc.SourceText

/-! Where a place is shown. Lines are counted by their newlines and columns from the last newline,
while the lines themselves lose a carriage return in front of their newline. A place between the
two is the only one that its line does not reach. Still the two views of a text agree: the line of a
character shows it at its column, or ends with it, and every line is reached. -/
namespace Plc.SourceText

variable {cs before rest : List Char} {c : Char}

def lastLine (cs : List Char) : List Char := cs.rtakeWhile (· ≠ '\n')

def fullLines (cs : List Char) : List Char := cs.rdropWhile (· ≠ '\n')

theorem fullLines_append_lastLine (cs : List Char) : fullLines cs ++ lastLine cs = cs :=
  List.rdropWhile_append_rtakeWhile

theorem eq_newline_of_fullLines (last : (fullLines cs).getLast? = some c) : c = '\n' := by
  have some_ : fullLines cs ≠ [] := by
    intro empty
    simp [empty] at last
  rw [List.getLast?_eq_some_getLast some_] at last
  have newline := List.rdropWhile_last_not (· ≠ '\n') cs some_
  change ¬ decide ((fullLines cs).getLast some_ ≠ '\n') = true at newline
  simpa [Option.some.inj last] using newline

theorem newline_not_mem_lastLine (cs : List Char) : '\n' ∉ lastLine cs := by
  intro member
  simpa using List.mem_rtakeWhile_imp member

theorem lastLine_eq_nil (empty : lastLine cs = []) (last : cs.getLast? = some c) : c = '\n' := by
  have whole := fullLines_append_lastLine cs
  rw [empty, List.append_nil] at whole
  exact eq_newline_of_fullLines (by rwa [whole])

theorem count_fullLines (cs : List Char) : (fullLines cs).count '\n' = cs.count '\n' := by
  conv_rhs => rw [← fullLines_append_lastLine cs, List.count_append,
    List.count_eq_zero_of_not_mem (newline_not_mem_lastLine cs), Nat.add_zero]

theorem getLast?_of_lastLine (last : (lastLine cs).getLast? = some c) : cs.getLast? = some c := by
  obtain ⟨front, split⟩ := List.getLast?_eq_some_iff.mp last
  rw [← fullLines_append_lastLine cs, split, ← List.append_assoc]
  exact List.getLast?_concat

theorem foldl_next (cs : List Char) :
    cs.foldl Location.next ⟨1, 1⟩ = ⟨cs.count '\n' + 1, (lastLine cs).length + 1⟩ := by
  induction cs using List.reverseRecOn with
  | nil => rfl
  | append_singleton cs c ih =>
    rw [List.foldl_append, ih, List.foldl_cons, List.foldl_nil, Location.next]
    by_cases newline : c = '\n'
    · simp [newline, lastLine]
    · simp [newline, lastLine]

/-- The line counts the newlines before a place, the column the characters since the last one. -/
theorem location_eq (cs : List Char) (index : Nat) : location cs index =
    ⟨(cs.take index).count '\n' + 1, (lastLine (cs.take index)).length + 1⟩ :=
  foldl_next _

theorem location_append (before rest : List Char) : location (before ++ rest) before.length =
    ⟨before.count '\n' + 1, (lastLine before).length + 1⟩ := by
  rw [location_eq, List.take_left]

theorem lines_cons (inside : c ≠ '\n') (whole : ¬ (c = '\r' ∧ cs.head? = some '\n')) :
    lines (c :: cs) = onFirst c (lines cs) := by
  rw [lines]
  · exact inside
  · rintro cs rfl rfl
    exact whole ⟨rfl, rfl⟩

/-- Behind a newline the lines begin anew. -/
theorem lines_append (before : List Char) (ended : ∀ c ∈ before.getLast?, c = '\n') : ∃ above,
    above.length = before.count '\n' ∧ ∀ rest, lines (before ++ rest) = above ++ lines rest := by
  fun_induction lines before with
  | case1 => exact ⟨[], rfl, fun _ => rfl⟩
  | case2 cs ih =>
    obtain ⟨above, counted, split⟩ := ih fun c last => ended c (by cases cs <;> simp_all)
    exact ⟨[] :: above, by simp [counted], fun rest => by simp [lines, split]⟩
  | case3 cs ih =>
    obtain ⟨above, counted, split⟩ := ih fun c last => ended c (by cases cs <;> simp_all)
    exact ⟨[] :: above, by simp [counted], fun rest => by simp [lines, split]⟩
  | case4 c cs inside whole ih =>
    cases cs with
    | nil => exact absurd (ended c rfl) inside
    | cons d cs =>
      have ended : ∀ c ∈ (d :: cs).getLast?, c = '\n' := by simpa using ended
      obtain ⟨above, counted, split⟩ := ih ended
      -- the line that `c` begins ends before `rest`
      have newline : '\n' ∈ d :: cs := by
        have last := List.getLast?_eq_some_getLast (List.cons_ne_nil d cs)
        exact ended _ last ▸ List.mem_of_getLast? last
      rw [← List.count_pos_iff, ← counted, List.length_pos_iff_exists_cons] at newline
      obtain ⟨line, others, rfl⟩ := newline
      refine ⟨(c :: line) :: others, by rw [List.count_cons_of_ne inside, ← counted]; rfl, ?_⟩
      intro rest
      rw [List.cons_append, lines_cons inside, split]
      · rfl
      · rintro ⟨rfl, head⟩
        exact whole cs rfl (by simpa using head)

def untilEnd : List Char → List Char
  | [] => []
  | '\n' :: _ => []
  | '\r' :: '\n' :: _ => []
  | c :: cs => c :: untilEnd cs

theorem untilEnd_prefix (cs : List Char) : untilEnd cs <+: cs := by
  fun_induction untilEnd cs with
  | case1 => exact List.prefix_rfl
  | case2 => exact List.nil_prefix
  | case3 => exact List.nil_prefix
  | case4 c cs _ _ ih => exact (List.prefix_cons_inj c).mpr ih

theorem untilEnd_cons (inside : c ≠ '\n') (whole : ¬ (c = '\r' ∧ cs.head? = some '\n')) :
    untilEnd (c :: cs) = c :: untilEnd cs := by
  rw [untilEnd]
  · exact inside
  · rintro cs rfl rfl
    exact whole ⟨rfl, rfl⟩

/-- A line goes on at least up to a place in it, unless the place is between a carriage return and
its newline. -/
theorem untilEnd_append {front : List Char} (inside : '\n' ∉ front)
    (whole : front.getLast? = some '\r' → rest.head? ≠ some '\n') :
    untilEnd (front ++ rest) = front ++ untilEnd rest := by
  induction front with
  | nil => rfl
  | cons c front ih =>
    simp only [List.mem_cons, not_or] at inside
    have here : untilEnd (c :: (front ++ rest)) = c :: untilEnd (front ++ rest) := by
      apply untilEnd_cons (Ne.symm inside.1)
      rintro ⟨rfl, head⟩
      cases front with
      | nil => exact whole rfl head
      | cons d front => exact inside.2 (by simp_all)
    rw [List.cons_append, here, ih inside.2, List.cons_append]
    intro last
    obtain ⟨front, rfl⟩ := List.getLast?_eq_some_iff.mp last
    exact whole (List.getLast?_concat (l := c :: front))

/-- A text that is not empty has a first line. -/
theorem exists_lines_eq (some_ : cs ≠ []) : ∃ others, lines cs = untilEnd cs :: others := by
  fun_induction lines cs with
  | case1 => contradiction
  | case2 cs => exact ⟨lines cs, rfl⟩
  | case3 cs => exact ⟨lines cs, rfl⟩
  | case4 c cs inside whole ih =>
    have whole : ¬ (c = '\r' ∧ cs.head? = some '\n') := by
      rintro ⟨rfl, head⟩
      obtain ⟨cs, rfl⟩ := List.head?_eq_some_iff.mp head
      exact whole cs rfl rfl
    rw [untilEnd_cons inside whole]
    cases cs with
    | nil => exact ⟨[], rfl⟩
    | cons d cs =>
      obtain ⟨others, split⟩ := ih (List.cons_ne_nil d cs)
      rw [split]
      exact ⟨others, rfl⟩

/-- The line of a place begins with the characters since the last newline and goes on with those
behind the place. -/
theorem line?_location (before rest : List Char) (some_ : lastLine before ++ rest ≠ [])
    (whole : before.getLast? = some '\r' → rest.head? ≠ some '\n') :
    line? (before ++ rest) (location (before ++ rest) before.length).line =
      some (lastLine before ++ untilEnd rest) := by
  obtain ⟨above, counted, split⟩ := lines_append (fullLines before)
    fun _ last => eq_newline_of_fullLines last
  obtain ⟨others, here⟩ := exists_lines_eq some_
  rw [untilEnd_append (newline_not_mem_lastLine before) fun last =>
    whole (getLast?_of_lastLine last)] at here
  rw [location_append, line?, if_neg (Nat.succ_ne_zero _), Nat.add_sub_cancel, ← count_fullLines,
    ← counted]
  conv_lhs => rw [← fullLines_append_lastLine before, List.append_assoc, split, here]
  simp

/-- What a column of a line tells of a character with `next` behind it: the character stands there,
or it ends the line, as a newline or as the carriage return in front of one. -/
inductive AtColumn (chars : List Char) (column : Nat) : Char → Option Char → Prop
  | character {k : Nat} {c : Char} {next : Option Char} (counted : column = k + 1)
      (here : chars[k]? = some c) : AtColumn chars column c next
  | newline {next : Option Char} (behind : chars.length < column) :
      AtColumn chars column '\n' next
  | carriageReturn (behind : column = chars.length + 1) :
      AtColumn chars column '\r' (some '\n')

theorem lastLine_concat (inside : c ≠ '\n') :
    lastLine (before ++ [c]) = lastLine before ++ [c] := by
  simp [lastLine, inside]

/-- Between a carriage return and its newline the line is that of the carriage return. -/
theorem line?_between (front after : List Char) :
    line? ((front ++ ['\r']) ++ '\n' :: after)
        (location ((front ++ ['\r']) ++ '\n' :: after) (front ++ ['\r']).length).line =
      some (lastLine front) := by
  have before := line?_location front ('\r' :: '\n' :: after) (by simp) (by simp)
  rw [location_append, untilEnd, List.append_nil] at before
  rw [location_append, List.append_assoc, List.singleton_append]
  simpa using before

theorem exists_atColumn (before after : List Char) (c : Char) :
    ∃ line,
      line? (before ++ c :: after) (location (before ++ c :: after) before.length).line =
        some line ∧
      AtColumn line (location (before ++ c :: after) before.length).column c after.head? := by
  by_cases between : before.getLast? = some '\r' ∧ c = '\n'
  · obtain ⟨last, rfl⟩ := between
    obtain ⟨front, rfl⟩ := List.getLast?_eq_some_iff.mp last
    refine ⟨lastLine front, line?_between front after, .newline ?_⟩
    rw [location_append, lastLine_concat (by decide), List.length_append]
    exact Nat.lt_add_of_pos_right (Nat.succ_pos _)
  · have line := line?_location before (c :: after) (by simp) fun last head =>
      between ⟨last, Option.some.inj head⟩
    refine ⟨_, line, ?_⟩
    rw [location_append]
    by_cases newline : c = '\n'
    · subst newline
      exact .newline (by simp [untilEnd])
    · by_cases cut : c = '\r' ∧ after.head? = some '\n'
      · obtain ⟨rfl, head⟩ := cut
        obtain ⟨rest, rfl⟩ := List.head?_eq_some_iff.mp head
        exact .carriageReturn (by simp [untilEnd])
      · rw [untilEnd_cons newline cut]
        exact .character rfl (by simp)

def Location.Before (l m : Location) : Prop :=
  l.line < m.line ∨ l.line = m.line ∧ l.column < m.column

theorem Location.Before.trans {l m k : Location} (first : l.Before m) (second : m.Before k) :
    l.Before k := by
  unfold Before at *
  omega

theorem Location.Before.ne {l m : Location} (before : l.Before m) : l ≠ m := by
  rintro rfl
  unfold Before at before
  omega

theorem Location.before_next (l : Location) (c : Char) : l.Before (l.next c) := by
  rw [Location.next]
  split
  · exact .inl (Nat.lt_succ_self _)
  · exact .inr ⟨rfl, Nat.lt_succ_self _⟩

theorem location_succ {index : Nat} (inside : index < cs.length) :
    location cs (index + 1) = (location cs index).next cs[index] := by
  rw [location, location, List.take_succ_eq_append_getElem inside, List.foldl_append]
  rfl

/-- Every character leads to a later location. -/
theorem location_before {i j : Nat} (earlier : i < j) (inside : j ≤ cs.length) :
    (location cs i).Before (location cs j) := by
  induction j, earlier using Nat.le_induction with
  | base =>
    rw [location_succ inside]
    exact Location.before_next _ _
  | succ j _ ih =>
    rw [location_succ inside]
    exact (ih (Nat.le_of_succ_le inside)).trans (Location.before_next _ _)

/-- In every line there is a character or the end of the line. -/
theorem exists_count_of_lt {k : Nat} (line : k < (lines cs).length) :
    ∃ index < cs.length, (cs.take index).count '\n' = k := by
  fun_induction lines cs generalizing k with
  | case1 => cases line
  | case2 cs ih =>
    cases k with
    | zero => exact ⟨0, Nat.succ_pos _, rfl⟩
    | succ k =>
      obtain ⟨index, inside, counted⟩ := ih (Nat.lt_of_succ_lt_succ line)
      exact ⟨index + 1, Nat.succ_lt_succ inside, by simp [counted]⟩
  | case3 cs ih =>
    cases k with
    | zero => exact ⟨0, Nat.succ_pos _, rfl⟩
    | succ k =>
      obtain ⟨index, inside, counted⟩ := ih (Nat.lt_of_succ_lt_succ line)
      exact ⟨index + 2, Nat.succ_lt_succ (Nat.succ_lt_succ inside), by simp [counted]⟩
  | case4 c cs inside _ ih =>
    cases k with
    | zero => exact ⟨0, Nat.succ_pos _, rfl⟩
    | succ k =>
      have below : k + 1 < (lines cs).length := by
        cases others : lines cs with
        | nil => simp [others, onFirst] at line
        | cons first others' => simpa [others, onFirst] using line
      obtain ⟨index, found, counted⟩ := ih below
      refine ⟨index + 1, Nat.succ_lt_succ found, ?_⟩
      rw [List.take_succ_cons, List.count_cons_of_ne inside, counted]

theorem exists_location_of_line {number : Nat} (there : (line? cs number).isSome) :
    ∃ i < cs.length, (location cs i).line = number := by
  cases number with
  | zero => cases there
  | succ k =>
    obtain ⟨line, found⟩ := Option.isSome_iff_exists.mp there
    obtain ⟨below, _⟩ := List.getElem?_eq_some_iff.mp found
    obtain ⟨i, inside, counted⟩ := exists_count_of_lt below
    exact ⟨i, inside, by rw [location_eq, counted, Nat.add_sub_cancel]⟩

/-- Locations and lines tell the same of a text. The line of a character has the character at its
column, unless the character ends the line. Locations come one after the other in reading order, no
two of them the same, and end with the text; and there are just the lines in which a character or
the end of a line is located. -/
theorem locations_and_lines_agree (cs : List Char) :
    (∀ i (inside : i < cs.length), ∃ line, line? cs (location cs i).line = some line ∧
      AtColumn line (location cs i).column cs[i] cs[i + 1]?) ∧
    (∀ i j, i < j → j ≤ cs.length → (location cs i).Before (location cs j)) ∧
    (∀ i j, i ≤ cs.length → j ≤ cs.length → location cs i = location cs j → i = j) ∧
    (∀ j, cs.length < j → location cs j = location cs cs.length) ∧
    ∀ number, (line? cs number).isSome ↔ ∃ i < cs.length, (location cs i).line = number := by
  have shown (i : Nat) (inside : i < cs.length) :
      ∃ line, line? cs (location cs i).line = some line ∧
        AtColumn line (location cs i).column cs[i] cs[i + 1]? := by
    have split : cs = cs.take i ++ cs[i] :: cs.drop (i + 1) := by
      rw [← List.drop_eq_getElem_cons inside, List.take_append_drop]
    have length : (cs.take i).length = i := List.length_take_of_le (Nat.le_of_lt inside)
    have found := exists_atColumn (cs.take i) (cs.drop (i + 1)) cs[i]
    rwa [← split, length, List.head?_drop] at found
  have increasing (i j : Nat) (earlier : i < j) (inside : j ≤ cs.length) :
      (location cs i).Before (location cs j) :=
    location_before earlier inside
  refine ⟨shown, increasing, fun i j first second same => ?_, fun j beyond => ?_, fun number => ?_⟩
  · rcases Nat.lt_trichotomy i j with earlier | equal | later
    · exact absurd same (increasing i j earlier second).ne
    · exact equal
    · exact absurd same.symm (increasing j i later first).ne
  · rw [location, location, List.take_of_length_le (Nat.le_of_lt beyond), List.take_length]
  · constructor
    · exact exists_location_of_line
    · rintro ⟨i, inside, rfl⟩
      obtain ⟨line, there, _⟩ := shown i inside
      rw [there, Option.isSome_some]

/-- A carriage return in a line, one in front of a newline, and no newline at the end. -/
theorem locations_and_lines_agree_mixed :
    let cs := "a\rb\r\n\nc".toList
    (∃ line, line? cs 1 = some line ∧ AtColumn line 2 '\r' (some 'b')) ∧
    (∃ line, line? cs 1 = some line ∧ AtColumn line 4 '\r' (some '\n')) ∧
    (location cs 4).Before (location cs 5) ∧
    location cs 9 = ⟨3, 2⟩ ∧ (line? cs 3).isSome ∧ ¬ (line? cs 4).isSome := by
  intro cs
  obtain ⟨shown, increasing, _, beyond, counted⟩ := locations_and_lines_agree cs
  refine ⟨shown 1 (by decide), shown 3 (by decide), increasing 4 5 (by decide) (by decide),
    beyond 9 (by decide), (counted 3).mpr ⟨6, by decide, rfl⟩, ?_⟩
  intro there
  obtain ⟨i, inside, fourth⟩ := (counted 4).mp there
  have within : ∀ i < cs.length, (location cs i).line ≠ 4 := by decide
  exact within i inside fourth

end Plc.SourceText
