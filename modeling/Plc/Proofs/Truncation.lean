import Plc.Compile
import Plc.Proofs.Machine.Lockstep
import Plc.Proofs.Session

/-! The same run with room for any lines and with room for a number of them. Both go through the
same points until a line is printed for which there is no room; there the second stops in a
fault. -/
namespace Plc

/-- The same lines are printed, in the first output with room for any lines and in the second with
room for `n` in all. -/
inductive Output.Within (n : Nat) (report : String) : Output → Output → Prop
  | mk {lines : Array String} {other : String} : lines.size ≤ n →
      Within n report ⟨lines, none, other⟩ ⟨lines, some (n - lines.size), report⟩

namespace Store

variable {n : Nat} (scope scope' : Scope Binding Callable) (heap : Heap) (lines : Array String)
  (report other : String)

/-- Where there is room for any lines, all are printed. -/
theorem printAll_of_room (values : List Value) :
    ∃ all, printAll ⟨scope, heap, ⟨lines, none, other⟩⟩ values =
        (.ok (), ⟨scope, heap, ⟨all, none, other⟩⟩) ∧ lines.toList <+: all.toList := by
  induction values generalizing lines with
  | nil => exact ⟨lines, rfl, List.prefix_rfl⟩
  | cons v values ih =>
    obtain ⟨all, printed, more⟩ := ih (lines.push (heap.text v))
    rw [Array.toList_push] at more
    exact ⟨all, printed, (List.prefix_append _ _).trans more⟩

/-- Where there is room for `n` lines in all, the first `n` are printed. -/
theorem printAll_within (enough : lines.size ≤ n) (values : List Value) :
    ∃ all, printAll ⟨scope, heap, ⟨lines, none, other⟩⟩ values =
        (.ok (), ⟨scope, heap, ⟨all, none, other⟩⟩) ∧
      (all.size ≤ n ∧ printAll ⟨scope', heap, ⟨lines, some (n - lines.size), report⟩⟩ values =
          (.ok (), ⟨scope', heap, ⟨all, some (n - all.size), report⟩⟩) ∨
        n < all.size ∧ ∃ front, front.toList = all.toList.take n ∧
          printAll ⟨scope', heap, ⟨lines, some (n - lines.size), report⟩⟩ values =
            (.error (.outputFull report), ⟨scope', heap, ⟨front, some 0, report⟩⟩)) := by
  induction values generalizing lines with
  | nil => exact ⟨lines, rfl, .inl ⟨enough, rfl⟩⟩
  | cons v values ih =>
    rcases Nat.lt_or_eq_of_le enough with below | full
    · obtain ⟨all, printed, narrow⟩ := ih (lines.push (heap.text v)) (by rwa [Array.size_push])
      have left : n - lines.size = n - (lines.push (heap.text v)).size + 1 := by
        rw [Array.size_push]
        omega
      refine ⟨all, printed, ?_⟩
      rw [left]
      exact narrow
    · obtain ⟨all, printed, more⟩ :=
        printAll_of_room scope heap (lines.push (heap.text v)) other values
      obtain ⟨others, same⟩ := more
      rw [Array.toList_push, List.append_assoc] at same
      have longer : n < all.size := by
        rw [← full, ← Array.length_toList, ← Array.length_toList, ← same]
        simp
      refine ⟨all, printed, .inr ⟨longer, lines, ?_, ?_⟩⟩
      · rw [← same, ← full, ← Array.length_toList, List.take_left]
      · rw [full, Nat.sub_self]
        rfl

end Store

namespace Machine

variable {n : Nat} {report : String} {a b : Config}

/-- The second of two runs stops where the first makes the step to `behind`, as there is no room for
what this step prints. -/
structure Overrun (n : Nat) (report : String) (before : Store) (behind narrow : Config) : Prop where
  enough : before.output.lines.size ≤ n
  tooMany : n < behind.store.output.lines.size
  focus : narrow.focus = .failing (.outputFull report)
  pending : narrow.pending = behind.pending
  vars : narrow.store.scope.root.vars = before.scope.root.vars
  heap : narrow.store.heap = before.heap
  lines : narrow.store.output.lines.toList = behind.store.output.lines.toList.take n

theorem print_within {s t : Store} (alike : s.Alike (Output.Within n report) t)
    (pending : List Pending) (values : List Value) :
    Config.Alike (Output.Within n report) (invoke s pending values .print)
        (invoke t pending values .print) ∨
      Overrun n report s (invoke s pending values .print) (invoke t pending values .print) := by
  cases alike with
  | @mk inner vars funs funs' heap _ _ same within =>
    obtain @⟨lines, other, enough⟩ := within
    obtain ⟨all, printed, ⟨enough', narrow⟩ | ⟨tooMany, front, first, narrow⟩⟩ :=
      Store.printAll_within ⟨inner, ⟨vars, funs⟩⟩ ⟨inner, ⟨vars, funs'⟩⟩ heap lines report other
        enough values
    · rw [invoke, invoke, printed, narrow]
      exact .inl (.mk (.mk same (.mk enough')))
    · rw [invoke, invoke, printed, narrow]
      exact .inr ⟨enough, tooMany, rfl, rfl, rfl, rfl, first⟩

/-- Both make the same step, or what the first prints there is too much for the second. -/
theorem step_within (alike : a.Alike (Output.Within n report) b) :
    Option.Rel (fun next narrow => next.Alike (Output.Within n report) narrow ∨
      Overrun n report a.store next narrow) (step? a) (step? b) := by
  have stepped := alongside_step alike
  generalize step? a = x at stepped ⊢
  generalize step? b = y at stepped ⊢
  cases alike with
  | mk stores =>
    cases stepped with
    | none => exact .none
    | some alongside =>
      cases alongside with
      | alike alike => exact .some (.inl alike)
      | print => exact .some (print_within stores _ _)

/-- A run that ends does so with less room as well, or there is a step at which the room runs out.
From there on it has still as many steps to go as it needs for what is pending. -/
theorem run_within {limit : Nat} {last : Config} (alike : a.Alike (Output.Within n report) b)
    (ran : run limit a = some last) :
    (∃ other, run limit b = some other ∧ last.Alike (Output.Within n report) other) ∨
      ∃ m narrow rest, Overrun n report (a.after m).store (a.after (m + 1)) narrow ∧
        run rest (a.after (m + 1)) = some last ∧ run limit b = run rest narrow := by
  induction limit generalizing a b with
  | zero => cases ran
  | succ limit ih =>
    have stepped := step_within alike
    rw [run] at ran ⊢
    generalize first : step? a = x at stepped ran
    generalize step? b = y at stepped ⊢
    cases stepped with
    | none =>
      obtain rfl := Option.some.inj ran
      exact .inl ⟨b, rfl, alike⟩
    | @some next narrow behind =>
      have here : a.next = next := Config.next_eq first
      rcases behind with alike | overrun
      · rcases ih alike ran with ended | ⟨m, stopped, rest, overrun, onward, same⟩
        · exact .inl ended
        · rw [← here, Config.after_next, Config.after_next] at overrun
          rw [← here, Config.after_next] at onward
          exact .inr ⟨m + 1, stopped, rest, overrun, onward, same⟩
      · rw [← here] at overrun ran
        exact .inr ⟨0, narrow, limit, overrun, ran, rfl⟩

theorem guarded_start (room : Option Nat) (report : String) (p : Program) :
    ((Store.initial room report).start p).Guarded := ⟨rfl, rfl⟩

/-- What is there at one point of a run is kept up to its end. -/
theorem Config.Guarded.keeps_of_run {c last : Config} {limit : Nat} (guarded : c.Guarded)
    (ran : run limit c = some last) : c.Keeps 1 last ∧ last.Guarded := by
  obtain ⟨⟨k, rfl⟩, _⟩ := exists_after_of_run ran
  exact ((Precedes.stay c.one_le_levels).after_root k).keeps guarded

namespace Overrun

variable {before : Store} {behind narrow last : Config} {limit : Nat}
  (overrun : Overrun n report before behind narrow)
include overrun

/-- The second run leaves its frames and is over, long before the first. -/
theorem exists_run (onward : run limit behind = some last) : ∃ inner,
    run limit narrow = some ⟨.failing (.outputFull report), [], narrow.store.withInner inner⟩ := by
  have steps := length_pending_lt_of_run onward
  rw [← overrun.pending] at steps
  have focus := overrun.focus
  obtain ⟨_, pending, store⟩ := narrow
  obtain rfl := focus
  exact exists_run_failing (.outputFull report) store steps

/-- Of all that the first run prints up to its end the second has printed the first lines. -/
theorem lines_of_run (guarded : behind.Guarded) (onward : run limit behind = some last) :
    n < last.store.output.lines.size ∧
      narrow.store.output.lines.toList = last.store.output.lines.toList.take n := by
  obtain ⟨⟨_, _, others, all⟩, _⟩ := guarded.keeps_of_run onward
  have tooMany := overrun.tooMany
  rw [← Array.length_toList] at tooMany ⊢
  rw [← all, List.take_append_of_le_length (Nat.le_of_lt tooMany), List.length_append]
  exact ⟨Nat.lt_add_right _ tooMany, overrun.lines⟩

end Overrun

/-- With less room for its lines a program prints the same and comes to the same result, if there is
enough for all of them. If not, it fails behind those for which there is room and does nothing
more: variables and lists are as they were when the next line was about to be printed. A line is
what is printed of one value. -/
theorem output_is_truncated {p : Program} {limit : Nat} {answer : Except Fault Value}
    {last : Store} (ran : (Store.initial none).runProgram limit p = some (answer, last)) (n : Nat)
    (report : String) :
    (last.output.lines.size ≤ n → ∃ store,
      (Store.initial (some n) report).runProgram limit p = some (answer, store) ∧
        store.output.lines = last.output.lines ∧ store.heap = last.heap ∧
        store.scope.root.vars = last.scope.root.vars) ∧
    (n < last.output.lines.size → ∃ fault store,
      (Store.initial (some n) report).runProgram limit p = some (.error fault, store) ∧
        fault.message = s!"Failed to write output: {report}" ∧
        store.output.lines.toList = last.output.lines.toList.take n ∧
        ∃ m, ∃ c, c = ((Store.initial none).start p).after m ∧
          c.store.output.lines.size ≤ n ∧ n < c.next.store.output.lines.size ∧
          store.heap = c.store.heap ∧ store.scope.root.vars = c.store.scope.root.vars ∧
          store.scope.inner = []) := by
  obtain ⟨c, ended, same⟩ := Option.map_eq_some_iff.mp ran
  cases same
  have alike : Config.Alike (Output.Within n report) ((Store.initial none).start p)
      ((Store.initial (some n) report).start p) := .mk (.mk (fun _ => rfl) (.mk (Nat.zero_le n)))
  -- Either the second run prints all there is, or it stops at the first line for which there is no
  -- room.
  rcases run_within alike ended with ⟨other, also, alike⟩ | ⟨m, narrow, rest, overrun, onward, same⟩
  · have finished : (Store.initial (some n) report).runProgram limit p =
        some (other.answer, other.store) := by
      rw [Store.runProgram, also]
      rfl
    cases alike with
    | mk stores =>
      cases stores with
      | mk _ within =>
        obtain ⟨enough⟩ := within
        exact ⟨fun _ => ⟨_, finished, rfl, rfl, rfl⟩,
          fun tooMany => absurd tooMany (Nat.not_lt.mpr enough)⟩
  -- What the first run has printed up to there comes first in what it prints to its end.
  · obtain ⟨_, guarded⟩ := ((Precedes.stay (Config.one_le_levels _)).after_root (m + 1)).keeps
      (guarded_start none _ p)
    obtain ⟨more, first⟩ := overrun.lines_of_run guarded onward
    obtain ⟨inner, stops⟩ := overrun.exists_run onward
    rw [stops] at same
    obtain ⟨_, _, alone⟩ := (guarded_start (some n) report p).keeps_of_run same
    have failed : (Store.initial (some n) report).runProgram limit p =
        some (.error (.outputFull report), narrow.store.withInner inner) := by
      rw [Store.runProgram, same]
      rfl
    exact ⟨fun enough => absurd more (Nat.not_lt.mpr enough), fun _ => ⟨_, _, failed, rfl, first, m,
      _, rfl, overrun.enough, overrun.tooMany, overrun.heap, overrun.vars, alone⟩⟩

def countdown : String :=
  "FUN f(n: Integer): Integer DO print(n); IF n > 0 DO RETURN f(n - 1) + 1; END RETURN 0; END
  FUN main(): Integer DO LET i = 0; WHILE f(i) < 1 DO i = i + 1; END RETURN i; END"

/-- With room for 2 lines the innermost call fails. -/
theorem output_is_truncated_countdown : ∃ p last, compile countdown = .ok p ∧
    (Store.initial none).runProgram 200 p = some (.ok (.integer 1), last) ∧
    last.output.lines = #["0", "1", "0"] ∧
    (∃ store, (Store.initial (some 3)).runProgram 200 p = some (.ok (.integer 1), store) ∧
      store.output.lines = #["0", "1", "0"]) ∧
    ∃ fault store, (Store.initial (some 2)).runProgram 200 p = some (.error fault, store) ∧
      fault.message = "Failed to write output: sink full" ∧
      store.output.lines.toList = ["0", "1"] := by
  have runs : ∃ p, compile countdown = .ok p ∧
      ((Store.initial none).runProgram 200 p).map
        (fun r => (r.1.toOption, r.2.output.lines)) =
          some (some (.integer 1), #["0", "1", "0"]) := by
    decide +kernel
  obtain ⟨p, compiled, ran⟩ := runs
  obtain ⟨⟨answer, last⟩, ran, same⟩ := Option.map_eq_some_iff.mp ran
  obtain ⟨answered, printed⟩ := Prod.mk.inj same
  change last.output.lines = #["0", "1", "0"] at printed
  cases answer with
  | error fault => cases answered
  | ok v =>
    obtain rfl := Option.some.inj answered
    obtain ⟨enough, _⟩ := output_is_truncated ran 3 _
    obtain ⟨_, tooMany⟩ := output_is_truncated ran 2 _
    rw [printed] at enough tooMany
    obtain ⟨store, finished, lines, _⟩ := enough (Nat.le_refl 3)
    obtain ⟨fault, store', failed, message, first, _⟩ := tooMany (Nat.lt_succ_self 2)
    exact ⟨p, last, compiled, ran, printed, ⟨store, finished, lines⟩, fault, store', failed,
      message, first⟩

end Machine

end Plc
