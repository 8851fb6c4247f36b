import Plc.Proofs.Machine.Kept

/-! Lists that hold no lists. Whatever is shown or compared then lies no deeper than one list, and
what a step writes to the heap is a value that the machine has in its hand. -/
namespace Plc

def Value.isList : Value → Bool
  | .list _ => true
  | _ => false

namespace Heap

variable {heap : Heap}

def Flat (heap : Heap) : Prop := ∀ a, ∀ v ∈ heap.elements a, v.isList = false

/-- The depth does not matter for a single value. -/
theorem textTo_single (heap : Heap) {v : Value} (single : v.isList = false) (m n : Nat) :
    heap.textTo m v = heap.textTo n v := by
  cases v with
  | list a => cases single
  | _ => simp only [textTo]

theorem equalTo_single (heap : Heap) {v w : Value} (single : v.isList = false) (m n : Nat) :
    heap.equalTo m v w = heap.equalTo n v w := by
  cases v with
  | list a => cases single
  | _ => cases w <;> cases m <;> cases n <;> simp only [equalTo]

theorem elements_of_empty (empty : heap.lists.size = 0) (a : Nat) : heap.elements a = #[] := by
  rw [elements, Array.getD, dif_neg (by omega)]

namespace Flat

theorem textTo_succ (flat : heap.Flat) (m n : Nat) (v : Value) :
    heap.textTo (m + 1) v = heap.textTo (n + 1) v := by
  cases v with
  | list a =>
    have same : (heap.elements a).toList.map (heap.textTo m) =
        (heap.elements a).toList.map (heap.textTo n) :=
      List.map_congr_left fun v member => textTo_single heap (flat a v (by simpa using member)) m n
    rw [textTo, textTo, same]
  | _ => exact textTo_single heap rfl _ _

theorem equalTo_succ (flat : heap.Flat) (m n : Nat) (v w : Value) :
    heap.equalTo (m + 1) v w = heap.equalTo (n + 1) v w := by
  cases v with
  | list a =>
    cases w with
    | list b =>
      rw [equalTo, equalTo]
      congr 1
      rw [Bool.eq_iff_iff, List.all_eq_true, List.all_eq_true]
      refine forall₂_congr fun (x, y) member => ?_
      have left : x ∈ heap.elements a := by simpa using (List.of_mem_zip member).1
      dsimp only
      rw [equalTo_single heap (flat a x left) m n]
    | _ => simp only [equalTo]
  | _ => exact equalTo_single heap rfl _ _

/-- What is shown of a value does not depend on the depth to which lists are opened, if they are
opened at all. -/
theorem textTo_eq_text (flat : heap.Flat) (depth : Nat) (v : Value) :
    heap.textTo (depth + 1) v = heap.text v := by
  rw [text]
  cases size : heap.lists.size with
  | succ n => exact flat.textTo_succ depth n v
  | zero =>
    cases v with
    | list a =>
      rw [textTo, textTo, elements_of_empty size]
      rfl
    | _ => exact textTo_single heap rfl _ _

theorem equalTo_eq_equal (flat : heap.Flat) (depth : Nat) (v w : Value) :
    heap.equalTo (depth + 1) v w = heap.equal v w := by
  rw [equal]
  cases size : heap.lists.size with
  | succ n => exact flat.equalTo_succ depth n v w
  | zero =>
    cases v with
    | list a =>
      cases w with
      | list b =>
        rw [equalTo, equalTo, elements_of_empty size, elements_of_empty size]
        rfl
      | _ => simp only [equalTo]
    | _ => exact equalTo_single heap rfl _ _

theorem allocate (flat : heap.Flat) {values : List Value}
    (single : ∀ v ∈ values, v.isList = false) : (heap.allocate values).2.Flat := by
  intro a v member
  rw [elements_allocate] at member
  split at member
  · exact single v (by simpa using member)
  · exact flat a v member

theorem write (flat : heap.Flat) {x : Value} (single : x.isList = false) (a i : Nat) :
    (heap.write a i x).Flat := by
  intro b v member
  rw [elements_write] at member
  split at member
  · rcases Array.mem_or_eq_of_mem_setIfInBounds member with member | rfl
    · exact flat b v member
    · exact single
  · exact flat b v member

end Flat
end Heap

namespace Machine

def Config.hand (c : Config) : List Value :=
  match c.focus, c.pending with
  | .value v, .gather .list found _ :: _ => found ++ [v]
  | .value v, .assignElement .. :: _ => [v]
  | _, _ => []

/-- The heap stays flat as long as no list is written to it. -/
theorem flat_step {c next : Config} (flat : c.store.heap.Flat)
    (single : ∀ v ∈ c.hand, v.isList = false) (stepped : step? c = some next) :
    next.store.heap.Flat := by
  cases step?_eq_some_iff.mp stepped with
  | allocate gathers =>
    refine flat.allocate ?_
    cases gathers with
    | list => exact nofun
    | next => exact single
  | print =>
    rw [(printAll_spec _ _).2.1]
    exact flat
  | change changes result =>
    cases changes with
    | bind =>
      obtain ⟨scope, _, rfl⟩ := map_eq_ok.mp result
      exact flat
    | assign =>
      simp only [Store.assign, bind_eq_ok, pure_eq_ok] at result
      obtain ⟨_, _, rfl⟩ := result
      exact flat
    | assignElement =>
      simp only [Store.assignElement, bind_eq_ok, pure_eq_ok] at result
      obtain ⟨⟨a, i⟩, _, rfl⟩ := result
      exact flat.write (single _ List.mem_cons_self) a i
  | define defined =>
    obtain ⟨scope, _, rfl⟩ := map_eq_ok.mp defined
    exact flat
  | _ => exact flat

end Machine
end Plc
