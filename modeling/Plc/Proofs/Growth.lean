import Mathlib.Data.List.Forall2
import Plc.Proofs.Scope
import Plc.Store

/-! What nothing takes back. Frames keep their bindings, of which only the mutable ones change their
values, lists keep their lengths, and what is printed stays printed. -/
namespace Plc

structure Binding.Stays (b b' : Binding) : Prop where
  name : b'.name = b.name
  mutable : b'.mutable = b.mutable
  value : b.mutable = false → b'.value = b.value

structure Frame.Grows (f g : Frame Binding Callable) : Prop where
  vars : ∀ {name b}, f.getVariable? name = some b → ∃ b', g.getVariable? name = some b' ∧ b.Stays b'
  funs : ∀ {name arity callable}, f.getFunction? name arity = some callable →
    g.getFunction? name arity = some callable

structure Frame.GrowsMutably (f g : Frame Binding Callable) : Prop extends f.Grows g where
  added : ∀ {name b'}, g.getVariable? name = some b' → f.getVariable? name = none →
    b'.mutable = true

/-- Each frame keeps what it has, and those inside the root frame get none but mutable
variables. -/
structure Scope.Grows (s t : Scope Binding Callable) : Prop where
  root : s.root.Grows t.root
  inner : List.Forall₂ Frame.GrowsMutably s.inner t.inner

structure Heap.Grows (h k : Heap) : Prop where
  size : h.lists.size ≤ k.lists.size
  length : ∀ a < h.lists.size, (k.elements a).size = (h.elements a).size

structure Store.Grows (s t : Store) : Prop where
  scope : s.scope.Grows t.scope
  heap : s.heap.Grows t.heap
  output : s.output.lines.toList <+: t.output.lines.toList

namespace Binding.Stays

variable {b c d : Binding}

theorem refl (b : Binding) : b.Stays b := ⟨rfl, rfl, fun _ => rfl⟩

theorem trans (first : b.Stays c) (second : c.Stays d) : b.Stays d where
  name := second.name.trans first.name
  mutable := second.mutable.trans first.mutable
  value fixed := (second.value (first.mutable.trans fixed)).trans (first.value fixed)

end Binding.Stays

namespace Frame

variable {f g h : Frame Binding Callable} {name : String} {b : Binding}

theorem Grows.refl (f : Frame Binding Callable) : f.Grows f :=
  ⟨fun {_ b} found => ⟨b, found, .refl b⟩, id⟩

theorem Grows.trans (first : f.Grows g) (second : g.Grows h) : f.Grows h where
  vars found := by
    obtain ⟨c, found, stays⟩ := first.vars found
    obtain ⟨d, found, stays'⟩ := second.vars found
    exact ⟨d, found, stays.trans stays'⟩
  funs found := second.funs (first.funs found)

theorem GrowsMutably.refl (f : Frame Binding Callable) : f.GrowsMutably f where
  toGrows := .refl f
  added found free := by
    rw [free] at found
    cases found

theorem GrowsMutably.refl_all (fs : List (Frame Binding Callable)) :
    List.Forall₂ GrowsMutably fs fs :=
  List.forall₂_same.mpr fun f _ => .refl f

theorem grows_bindVariable (free : f.getVariable? name = none) (b : Binding) :
    f.Grows (f.bindVariable name b) where
  vars {other c} found := by
    refine ⟨c, ?_, .refl c⟩
    rw [getVariable?_bindVariable, if_neg, found]
    rintro rfl
    rw [free] at found
    cases found
  funs found := found

theorem growsMutably_bindVariable (free : f.getVariable? name = none) (mutable : b.mutable = true) :
    f.GrowsMutably (f.bindVariable name b) where
  toGrows := grows_bindVariable free b
  added found absent := by
    rcases eq_or_of_getVariable?_bindVariable found with ⟨_, rfl⟩ | here
    · exact mutable
    · rw [absent] at here
      cases here

/-- No variable is added where a function is. -/
theorem growsMutably_bindFunction {arity : Nat} (free : f.getFunction? name arity = none)
    (callable : Callable) : f.GrowsMutably (f.bindFunction name arity callable) where
  vars {_ b} found := ⟨b, found, .refl b⟩
  funs {other count c} found := by
    rw [getFunction?_bindFunction, if_neg, found]
    intro same
    obtain ⟨rfl, rfl⟩ := Prod.mk.inj same
    rw [free] at found
    cases found
  added found absent := by
    rw [getVariable?_bindFunction, absent] at found
    cases found

/-- A mutable variable gets another value. -/
theorem growsMutably_setVariable (here : f.getVariable? name = some b) (mutable : b.mutable = true)
    (v : Value) : f.GrowsMutably (f.setVariable name { b with value := v }) where
  vars {other c} found := by
    rw [getVariable?_setVariable]
    split
    · rename_i same
      subst same
      rw [here] at found ⊢
      obtain rfl := Option.some.inj found
      refine ⟨_, rfl, rfl, rfl, ?_⟩
      rw [mutable]
      exact nofun
    · exact ⟨c, found, .refl c⟩
  funs found := found
  added {other c} found absent := by
    rw [getVariable?_setVariable] at found
    split at found
    · rename_i same
      subst same
      rw [here] at absent
      cases absent
    · rw [absent] at found
      cases found

end Frame

namespace Scope

variable {s t : Scope Binding Callable} {name : String}

theorem Grows.refl (s : Scope Binding Callable) : s.Grows s :=
  ⟨.refl _, Frame.GrowsMutably.refl_all _⟩

def Writable (s : Scope Binding Callable) (name : String) : Prop :=
  ∃ b, s.getVariable? name = some b ∧ b.mutable = true

/-- What the name means afterwards may be another variable, but then it was bound in between and is
mutable. -/
theorem Writable.grows (writable : s.Writable name) (grows : s.Grows t) : t.Writable name := by
  obtain ⟨inner, root⟩ := s
  obtain ⟨inner', root'⟩ := t
  obtain ⟨atRoot, inside⟩ := grows
  obtain ⟨b, found, mutable⟩ := writable
  change root.Grows root' at atRoot
  change List.Forall₂ Frame.GrowsMutably inner inner' at inside
  induction inside with
  | nil =>
    rw [getVariable?_nil] at found
    obtain ⟨b', found, stays⟩ := atRoot.vars found
    exact ⟨b', by rw [getVariable?_nil, found], stays.mutable.trans mutable⟩
  | @cons f g fs gs here _ ih =>
    rw [getVariable?_cons] at found
    cases old : f.getVariable? name with
    | some c =>
      rw [old] at found
      obtain rfl := Option.some.inj found
      obtain ⟨b', new, stays⟩ := here.vars old
      exact ⟨b', by rw [getVariable?_cons, new]; rfl, stays.mutable.trans mutable⟩
    | none =>
      rw [old] at found
      cases new : g.getVariable? name with
      | some c => exact ⟨c, by rw [getVariable?_cons, new]; rfl, here.added new old⟩
      | none =>
        obtain ⟨b', found, mutable⟩ := ih found
        exact ⟨b', by rw [getVariable?_cons, new]; exact found, mutable⟩

/-- Outside of the root frame, only mutable variables are bound. -/
theorem grows_bindVariable {b : Binding} (free : s.current.getVariable? name = none)
    (open_ : b.mutable = true ∨ s.inner = []) : s.Grows (s.bindVariable name b) := by
  obtain ⟨inner, root⟩ := s
  cases inner with
  | nil => exact ⟨Frame.grows_bindVariable free b, .nil⟩
  | cons f inner =>
    rcases open_ with mutable | empty
    · exact ⟨.refl root, .cons (Frame.growsMutably_bindVariable free mutable)
        (Frame.GrowsMutably.refl_all _)⟩
    · cases empty

theorem grows_bindFunction {arity : Nat} (free : s.current.getFunction? name arity = none)
    (callable : Callable) : s.Grows (s.bindFunction name arity callable) := by
  obtain ⟨inner, root⟩ := s
  cases inner with
  | nil => exact ⟨(Frame.growsMutably_bindFunction free callable).toGrows, .nil⟩
  | cons f inner =>
    exact ⟨.refl root, .cons (Frame.growsMutably_bindFunction free callable)
      (Frame.GrowsMutably.refl_all _)⟩

theorem grows_setVariable {b : Binding} (found : s.getVariable? name = some b)
    (mutable : b.mutable = true) (v : Value) :
    s.Grows (s.setVariable name { b with value := v }) := by
  obtain ⟨inner, root⟩ := s
  induction inner with
  | nil =>
    rw [getVariable?_nil] at found
    exact ⟨(Frame.growsMutably_setVariable found mutable v).toGrows, .nil⟩
  | cons f inner ih =>
    rw [getVariable?_cons] at found
    rw [setVariable_cons]
    cases here : f.getVariable? name with
    | some c =>
      rw [here] at found
      obtain rfl := Option.some.inj found
      exact ⟨.refl root, .cons (Frame.growsMutably_setVariable here mutable v)
        (Frame.GrowsMutably.refl_all _)⟩
    | none =>
      rw [here] at found
      obtain ⟨atRoot, inside⟩ := ih found
      exact ⟨atRoot, .cons (.refl f) inside⟩

end Scope

namespace Heap

theorem elements_allocate (heap : Heap) (values : List Value) (a : Nat) :
    (heap.allocate values).2.elements a =
      if a = heap.lists.size then values.toArray else heap.elements a := by
  simp only [allocate, elements, Array.getD_eq_getD_getElem?, Array.getElem?_push]
  split
  · rfl
  · rfl

theorem elements_write (heap : Heap) (a i : Nat) (v : Value) (other : Nat) :
    (heap.write a i v).elements other =
      if a = other then (heap.elements other).setIfInBounds i v else heap.elements other := by
  simp only [write, elements, Array.getD_eq_getD_getElem?, Array.getElem?_modify]
  split
  · rename_i same
    subst same
    cases heap.lists[a]? <;> simp
  · rfl

theorem size_write (heap : Heap) (a i : Nat) (v : Value) :
    (heap.write a i v).lists.size = heap.lists.size := by
  simp [write]

end Heap

namespace Heap.Grows

variable {h k l : Heap}

theorem refl (h : Heap) : h.Grows h := ⟨Nat.le_refl _, fun _ _ => rfl⟩

theorem trans (first : h.Grows k) (second : k.Grows l) : h.Grows l where
  size := Nat.le_trans first.size second.size
  length a bound :=
    (second.length a (Nat.lt_of_lt_of_le bound first.size)).trans (first.length a bound)

theorem allocate (h : Heap) (elements : List Value) : h.Grows (h.allocate elements).2 where
  size := by simp [Heap.allocate]
  length a bound := by rw [elements_allocate, if_neg (Nat.ne_of_lt bound)]

theorem write (h : Heap) (address index : Nat) (v : Value) : h.Grows (h.write address index v) where
  size := Nat.le_of_eq (size_write h address index v).symm
  length a _ := by
    rw [elements_write]
    split
    · exact Array.size_setIfInBounds
    · rfl

end Heap.Grows

theorem Output.exists_text_eq_append {output output' : Output}
    (more : output.lines.toList <+: output'.lines.toList) :
    ∃ text, output'.text = output.text ++ text := by
  obtain ⟨lines, same⟩ := more
  refine ⟨String.join (lines.map fun line => line ++ "\n"), ?_⟩
  rw [text, textFrom, ← same, List.drop_zero, List.map_append, String.join_append]
  rfl

namespace Store

variable {s t : Store} {name : String} {v : Value}

theorem Grows.refl (s : Store) : s.Grows s := ⟨.refl _, .refl _, List.prefix_rfl⟩

theorem grows_bind {mutable : Bool} (open_ : mutable = true ∨ s.scope.inner = [])
    (bound : s.bind name mutable v = .ok t) : s.Grows t := by
  obtain ⟨scope, added, rfl⟩ := map_eq_ok.mp bound
  obtain ⟨free, rfl⟩ := Scope.defineVariable_eq_ok.mp added
  exact ⟨Scope.grows_bindVariable free open_, .refl _, List.prefix_rfl⟩

theorem grows_defineFunction {f : Function} (defined : s.defineFunction f = .ok t) : s.Grows t := by
  obtain ⟨scope, added, rfl⟩ := map_eq_ok.mp defined
  obtain ⟨free, rfl⟩ := Scope.defineFunction_eq_ok.mp added
  exact ⟨Scope.grows_bindFunction free _, .refl _, List.prefix_rfl⟩

theorem grows_assign (writable : s.scope.Writable name) (assigned : s.assign name v = .ok t) :
    s.Grows t := by
  obtain ⟨b, found, mutable⟩ := writable
  obtain ⟨b', looked, same⟩ := bind_eq_ok.mp assigned
  obtain rfl := Option.some.inj (found.symm.trans (Scope.lookupVariable_eq_ok.mp looked))
  obtain rfl := pure_eq_ok.mp same
  exact ⟨Scope.grows_setVariable found mutable v, .refl _, List.prefix_rfl⟩

theorem grows_assignElement {offset : Value} (assigned : s.assignElement name offset v = .ok t) :
    s.Grows t := by
  obtain ⟨⟨address, index⟩, _, same⟩ := bind_eq_ok.mp assigned
  obtain rfl := pure_eq_ok.mp same
  exact ⟨.refl _, .write _ _ _ _, List.prefix_rfl⟩

theorem grows_allocate (s : Store) (elements : List Value) : s.Grows (s.allocate elements).2 :=
  ⟨.refl _, .allocate _ _, List.prefix_rfl⟩

/-- What is printed stays, whether or not the rest can be printed. -/
theorem grows_printAll (s : Store) (vs : List Value) : s.Grows (s.printAll vs).2 := by
  suffices printed : ∃ output, (s.printAll vs).2 = { s with output := output } ∧
      s.output.lines.toList <+: output.lines.toList by
    obtain ⟨output, same, more⟩ := printed
    rw [same]
    exact ⟨.refl _, .refl _, more⟩
  induction vs generalizing s with
  | nil => exact ⟨s.output, rfl, List.prefix_rfl⟩
  | cons v vs ih =>
    rw [printAll]
    cases printed : s.print v with
    | error fault => exact ⟨s.output, rfl, List.prefix_rfl⟩
    | ok next =>
      obtain ⟨output, line, rfl⟩ := map_eq_ok.mp printed
      obtain ⟨behind, same, more⟩ := ih { s with output := output }
      refine ⟨behind, same, .trans ?_ more⟩
      rw [Output.print] at line
      split at line
      · cases line
        simp
      · cases line
      · cases line
        simp

theorem writable_of_requireMutable {u : Unit} (may : s.requireMutable name = .ok u) :
    s.scope.Writable name := by
  obtain ⟨b, looked, checked⟩ := bind_eq_ok.mp may
  refine ⟨b, Scope.lookupVariable_eq_ok.mp looked, ?_⟩
  cases mutable : b.mutable with
  | true => rfl
  | false =>
    rw [mutable] at checked
    cases checked

end Store

end Plc
