import Plc.Compile
import Plc.Proofs.Machine.Growth

/-! Sessions: what is asked for one after the other of one store, whether or not the requests before
came to a value. A store takes nothing back in the whole of one. -/
namespace Plc

def Store.request (store : Store) : Phrase → Machine.Config
  | .program p => store.start p
  | .expression e => ⟨.evaluate e, [], store⟩
  | .statement s => ⟨.execute s, [], store⟩
  | .global g => ⟨.define g, [], store⟩
  | .function f => Machine.change store [] (store.defineFunction f)

namespace Machine

inductive Move : Config → Config → Prop
  | step {c next : Config} : step? c = some next → Move c next
  | request {c : Config} (phrase : Phrase) : step? c = none → Move c (c.store.request phrase)

/-- One point comes before the other in a session, in which the oldest frames, as many as the number
says, are there all along. -/
inductive Precedes (k : Nat) : Config → Config → Prop
  | stay {c : Config} : k ≤ c.levels.length → Precedes k c c
  | move {a b c : Config} : Precedes k a b → Move b c → k ≤ c.levels.length → Precedes k a c

/-- The root frame is always there. -/
theorem Config.one_le_levels (c : Config) : 1 ≤ c.levels.length :=
  Nat.succ_le_succ (Nat.zero_le _)

def Config.idle (room : Option Nat) (report : String := "sink full") : Config :=
  ⟨.done, [], .initial room report⟩

theorem advances_request {c : Config} (guarded : c.Guarded) (stopped : step? c = none)
    (phrase : Phrase) : Advances c.store c.pending (c.store.request phrase) := by
  have empty := pending_eq_nil_of_stopped stopped
  have alone : Machine.Guarded c.store.scope [] := empty ▸ guarded.pending
  rw [empty]
  cases phrase with
  | program p => exact advances_stay alone alone
  | expression e => exact advances_stay alone trivial
  | statement s => exact advances_stay alone trivial
  | global g => exact advances_stay alone alone
  | function f => exact advances_change alone fun _ => Store.grows_defineFunction

theorem Move.advances {a b : Config} (move : Move a b) (guarded : a.Guarded) :
    Advances a.store a.pending b := by
  cases move with
  | step stepped => exact advances_step guarded stepped
  | request phrase stopped => exact advances_request guarded stopped phrase

structure Config.Keeps (a : Config) (k : Nat) (b : Config) : Prop where
  frames : ∀ i < k, ∃ f g, a.levels[i]? = some f ∧ b.levels[i]? = some g ∧ f.Grows g
  heap : a.store.heap.Grows b.store.heap
  output : a.store.output.lines.toList <+: b.store.output.lines.toList

namespace Precedes

variable {k : Nat} {a b : Config}

theorem keeps (precedes : Precedes k a b) (guarded : a.Guarded) : a.Keeps k b ∧ b.Guarded := by
  induction precedes with
  | stay enough =>
    refine ⟨⟨?_, .refl _, List.prefix_rfl⟩, guarded⟩
    intro i below
    have here := List.getElem?_eq_getElem (Nat.lt_of_lt_of_le below enough)
    exact ⟨_, _, here, here, .refl _⟩
  | @move b c precedes move enough ih =>
    obtain ⟨keeps, guarded⟩ := ih
    have advances := move.advances guarded
    refine ⟨⟨?_, keeps.heap.trans advances.heap, keeps.output.trans advances.output⟩,
      advances.guarded⟩
    intro i below
    obtain ⟨f, g, first, there, grows⟩ := keeps.frames i below
    have here := List.getElem?_eq_getElem (Nat.lt_of_lt_of_le below enough)
    exact ⟨f, _, first, here, grows.trans (advances.frames i g _ there here)⟩

theorem next (precedes : Precedes k a b) (enough : k ≤ b.next.levels.length) :
    Precedes k a b.next := by
  rw [Config.next] at enough ⊢
  cases stepped : step? b with
  | none => exact precedes
  | some c =>
    rw [stepped] at enough
    exact .move precedes (.step stepped) enough

theorem after (precedes : Precedes k a b) {n : Nat}
    (enough : ∀ m ≤ n, k ≤ (b.after m).levels.length) : Precedes k a (b.after n) := by
  induction n with
  | zero => exact precedes
  | succ n ih =>
    exact (ih fun m before => enough m (Nat.le_succ_of_le before)).next (enough _ (Nat.le_refl _))

theorem after_root (precedes : Precedes 1 a b) (n : Nat) : Precedes 1 a (b.after n) :=
  precedes.after fun m _ => (b.after m).one_le_levels

theorem ask (precedes : Precedes 1 a b) (stopped : step? b = none) (phrase : Phrase) :
    Precedes 1 a (b.store.request phrase) :=
  precedes.move (.request phrase stopped) (Config.one_le_levels _)

end Precedes

theorem guarded_idle (room : Option Nat) (report : String) : (Config.idle room report).Guarded :=
  ⟨trivial, rfl⟩

/-- Of two points of a session, the later one has taken nothing back. The frames that are there all
along keep every name and every function, constants keep what they hold, lists keep their lengths,
and what was printed comes first in what is printed. -/
theorem store_takes_nothing_back {room : Option Nat} {report : String} {k : Nat}
    {earlier later : Config}
    (reached : Precedes 0 (.idle room report) earlier) (on : Precedes k earlier later) :
    (∀ i < k, ∃ f g, earlier.levels[i]? = some f ∧ later.levels[i]? = some g ∧ f.Grows g) ∧
      earlier.store.heap.Grows later.store.heap ∧
      ∃ more, later.store.output.text = earlier.store.output.text ++ more := by
  obtain ⟨_, guarded⟩ := reached.keeps (guarded_idle room report)
  obtain ⟨⟨frames, heap, output⟩, _⟩ := on.keeps guarded
  exact ⟨frames, heap, Output.exists_text_eq_append output⟩

def failing : String :=
  "VAL c = 1; LIST l = [1, 2];
  FUN write(x: Any) DO x[0] = 9; print(x[0]); c = 2; END
  FUN main(): Integer DO print(c); write(l); RETURN c; END"

def firstElement : Phrase := .expression (.element "l" (.literal (.integer 0) none) none)

/-- At step 25 `main` has printed the constant, and at step 49 the assignment fails inside of the
call. The list can be asked for behind it. -/
theorem store_takes_nothing_back_failing : ∃ p, compile failing = .ok p ∧
    ∃ inside fault asked, Precedes 0 (.idle none) inside ∧ Precedes 2 inside fault ∧
      Precedes 1 inside asked ∧ fault.answer = .error (.immutableAssignment "c") ∧
      asked.answer = .ok (.integer 9) ∧
      (∃ f g, inside.levels[1]? = some f ∧ fault.levels[1]? = some g ∧ f.Grows g) ∧
      (∃ f g, inside.levels[0]? = some f ∧ asked.levels[0]? = some g ∧ f.Grows g) ∧
      inside.store.heap.Grows asked.store.heap ∧
      ∃ more, asked.store.output.text = inside.store.output.text ++ more := by
  have runs : ∃ p, compile failing = .ok p ∧
      (∀ m ≤ 24, 2 ≤ ((((Store.initial none).start p).after 25).after m).levels.length) ∧
      ((((Store.initial none).start p).after 25).after 24).answer =
        .error (.immutableAssignment "c") ∧
      (step? ((((Store.initial none).start p).after 25).after 40)).isNone = true ∧
      ((((((Store.initial none).start p).after 25).after 40).store.request firstElement).after
        10).answer = .ok (.integer 9) := by
    decide +kernel
  obtain ⟨p, compiled, there, failed, stopped, answered⟩ := runs
  have reached : Precedes 0 (.idle none) (((Store.initial none).start p).after 25) :=
    (Precedes.move (.stay (Nat.zero_le _)) (.request (.program p) rfl) (Nat.zero_le _)).after
      fun _ _ => Nat.zero_le _
  generalize ((Store.initial none).start p).after 25 = inside at *
  have on : Precedes 2 inside (inside.after 24) := .after (.stay (there 0 (Nat.zero_le _))) there
  have root : Precedes 1 inside (inside.after 40) := .after_root (.stay inside.one_le_levels) 40
  have asked := (root.ask (Option.isNone_iff_eq_none.mp stopped) firstElement).after_root 10
  obtain ⟨inCall, _⟩ := store_takes_nothing_back reached on
  obtain ⟨frames, heap, output⟩ := store_takes_nothing_back reached asked
  exact ⟨p, compiled, inside, _, _, reached, on, asked, failed, answered,
    inCall 1 (Nat.lt_succ_self 1), frames 0 (Nat.lt_succ_self 0), heap, output⟩

end Machine
end Plc
