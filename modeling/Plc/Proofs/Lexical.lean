import Plc.Compile
import Plc.Proofs.Machine.Calls
import Plc.Proofs.Machine.Lockstep

/-! Calls from two callers side by side. What a function does depends on the root frame, the lists
and its arguments, and not on the frames of its caller, which it leaves as they are. -/
namespace Plc

def Store.calling (store : Store) (f : Function) (arguments : List Value) : Machine.Config :=
  ⟨.call f arguments, [], store⟩

def Store.call (store : Store) (limit : Nat) (f : Function) (arguments : List Value) :
    Option (Except Fault Value × Store) :=
  (Machine.run limit (store.calling f arguments)).map fun c => (c.answer, c.store)

namespace Machine

/-- The frames inside the root frame: those in force, and behind them those of each caller. -/
def Config.innerFrames (c : Config) : List (Frame Binding Callable) :=
  c.store.scope.inner ++ (saved c.pending).flatten

/-- Two runs have come to the same point, with the same frames of their own on top of those of two
callers. -/
structure SameAbove (xs ys : List (Frame Binding Callable)) (a b : Config) : Prop where
  focus : a.focus = b.focus
  root : a.store.scope.root = b.store.scope.root
  heap : a.store.heap = b.store.heap
  output : a.store.output = b.store.output
  frames : ∃ own, a.innerFrames = own ++ xs ∧ b.innerFrames = own ++ ys

/-- Two calls are over, the one made on the store `s` and the other on the store `t`. -/
structure SameBehind (s t : Store) (x y : Except Fault Value × Store) : Prop where
  answer : x.1 = y.1
  root : x.2.scope.root = y.2.scope.root
  heap : x.2.heap = y.2.heap
  output : x.2.output = y.2.output
  first : x.2.scope.inner = s.scope.inner
  second : y.2.scope.inner = t.scope.inner

inductive Apart (xs ys : List (Frame Binding Callable)) : Config → Config → Prop
  | begins (store : Store) (f : Function) (arguments : List Value) :
      Apart xs ys ((store.withInner xs).calling f arguments)
        ((store.withInner ys).calling f arguments)
  | inside (c : Config) : Apart xs ys (c.below [.leaveCall xs]) (c.below [.leaveCall ys])
  | behind {focus : Focus} (store : Store) : step? ⟨focus, [], store⟩ = none →
      Apart xs ys ⟨focus, [], store.withInner xs⟩ ⟨focus, [], store.withInner ys⟩

variable {xs ys : List (Frame Binding Callable)} {a b : Config}

theorem Apart.same (apart : Apart xs ys a b) : SameAbove xs ys a b := by
  cases apart with
  | begins store f arguments =>
    exact ⟨rfl, rfl, rfl, rfl, [], List.append_nil xs, List.append_nil ys⟩
  | behind store stopped => exact ⟨rfl, rfl, rfl, rfl, [], List.append_nil xs, List.append_nil ys⟩
  | inside c =>
    have frames (zs : List (Frame Binding Callable)) :
        (c.below [.leaveCall zs]).innerFrames = c.innerFrames ++ zs := by
      rw [Config.innerFrames, Config.below, saved_append, List.flatten_append, ← List.append_assoc]
      exact congrArg (c.innerFrames ++ ·) (List.append_nil zs)
    exact ⟨rfl, rfl, rfl, rfl, c.innerFrames, frames xs, frames ys⟩

/-- The body runs on the same store for both callers, and nothing of it looks below the end of the
call, where the frames of the caller are. -/
theorem lockstep_apart : Lockstep (Apart xs ys) := by
  intro a b apart
  cases apart with
  | begins store f arguments =>
    show Option.Rel _ (some (callBody (store.withInner xs) [] f arguments))
      (some (callBody (store.withInner ys) [] f arguments))
    rw [callBody, callBody]
    split
    · exact .some (.behind store rfl)
    · rename_i frame _
      exact .some (.inside ⟨.block f.body, [], store.withInner [frame]⟩)
  | @behind focus store stopped =>
    cases focus with
    | value | done | returning | failing => exact .none
    | block ss => cases ss <;> cases stopped
    | _ => cases stopped
  | inside c =>
    cases stepped : step? c with
    | some next =>
      rw [step?_below _ stepped, step?_below _ stepped]
      exact .some (.inside next)
    | none =>
      have empty := pending_eq_nil_of_stopped stepped
      obtain ⟨focus, pending, store⟩ := c
      obtain rfl : pending = [] := empty
      cases focus with
      | value | done | returning | failing => exact .some (.behind store rfl)
      | block ss => cases ss <;> cases stepped
      | _ => cases stepped

/-- Behind the call the frames of each caller are in force again. -/
theorem Apart.ended (apart : Apart xs ys a b) (stopped : step? a = none) :
    a.store.scope.inner = xs ∧ b.store.scope.inner = ys := by
  cases apart with
  | begins store f arguments => cases stopped
  | inside c =>
    exact absurd (pending_eq_nil_of_stopped stopped)
      (List.append_ne_nil_of_right_ne_nil _ (List.cons_ne_nil _ _))
  | behind store stopped => exact ⟨rfl, rfl⟩

theorem apart_of_same {s t : Store} (root : s.scope.root = t.scope.root) (heap : s.heap = t.heap)
    (output : s.output = t.output) (f : Function) (arguments : List Value) :
    Apart s.scope.inner t.scope.inner (s.calling f arguments) (t.calling f arguments) := by
  have same : t = s.withInner t.scope.inner := by
    obtain ⟨⟨inner, _⟩, _, _⟩ := t
    cases root
    cases heap
    cases output
    rfl
  have begins : Apart s.scope.inner t.scope.inner _ _ := .begins s f arguments
  rw [← same] at begins
  exact begins

/-- For two callers that see the same root frame, the same lists and the same output, a function
runs through the same points. The frames of each stay as they are all along, whether or not the
function comes to an end, and so the result, the root frame, the lists and the output are the same
behind it. -/
theorem calls_are_lexical {s t : Store} (root : s.scope.root = t.scope.root)
    (heap : s.heap = t.heap) (output : s.output = t.output) (f : Function)
    (arguments : List Value) :
    (∀ n, SameAbove s.scope.inner t.scope.inner ((s.calling f arguments).after n)
      ((t.calling f arguments).after n)) ∧
    ∀ limit, Option.Rel (SameBehind s t) (s.call limit f arguments) (t.call limit f arguments) := by
  have apart := apart_of_same root heap output f arguments
  refine ⟨fun n => (lockstep_apart.after apart n).same, fun limit => ?_⟩
  -- Either both runs stop, and at the same step, or neither does.
  have ended := lockstep_apart.run apart limit
  rw [Store.call, Store.call]
  generalize run limit (s.calling f arguments) = x at ended ⊢
  generalize run limit (t.calling f arguments) = y at ended ⊢
  cases ended with
  | none => exact .none
  | @some u v behind =>
    obtain ⟨apart, stopped, _⟩ := behind
    obtain ⟨focus, root, heap, output, _⟩ := apart.same
    have answer : u.answer = v.answer := by rw [Config.answer, Config.answer, focus]
    obtain ⟨first, second⟩ := apart.ended stopped
    exact .some ⟨answer, root, heap, output, first, second⟩

def shadowed : String :=
  "VAR x = 1; LIST l = [0];
  FUN up(n: Integer) DO x = x + n; l[0] = x; print(l); IF n > 0 DO up(n - 1); END END
  FUN main(): Integer DO LET x = 7; up(1); RETURN x; END"

/-- At step 26 `main` is about to call the function. -/
theorem calls_are_lexical_shadowed : ∃ p f, compile shadowed = .ok p ∧ p.functions[0]? = some f ∧
    ∃ s t : Store, s = (((Store.initial none).start p).after 26).store ∧ t = s.withInner [] ∧
      (s.scope.getVariable? "x").map (·.value) = some (.integer 7) ∧
      (t.scope.getVariable? "x").map (·.value) = some (.integer 1) ∧
      (s.call 100 f [.integer 1]).map (fun r => (r.1.toOption, r.2.output.text)) =
        some (some .nil, "[2]\n[2]\n") ∧
      Option.Rel (SameBehind s t) (s.call 100 f [.integer 1]) (t.call 100 f [.integer 1]) := by
  have runs : ∃ p, compile shadowed = .ok p ∧
      (let s := (((Store.initial none).start p).after 26).store
      (s.scope.getVariable? "x").map (·.value) = some (.integer 7) ∧
      ((s.withInner []).scope.getVariable? "x").map (·.value) = some (.integer 1) ∧
      (p.functions[0]?.bind fun f => (s.call 100 f [.integer 1]).map
        fun r => (r.1.toOption, r.2.output.text)) =
          some (some .nil, "[2]\n[2]\n")) := by
    decide +kernel
  obtain ⟨p, compiled, inside, outside, ran⟩ := runs
  obtain ⟨f, first, ran⟩ := Option.bind_eq_some_iff.mp ran
  refine ⟨p, f, compiled, first, _, _, rfl, rfl, ?_⟩
  generalize (((Store.initial none).start p).after 26).store = s at inside outside ran ⊢
  obtain ⟨_, same⟩ := calls_are_lexical (s := s) (t := s.withInner []) rfl rfl rfl f [.integer 1]
  exact ⟨inside, outside, ran, same 100⟩

end Machine
end Plc
