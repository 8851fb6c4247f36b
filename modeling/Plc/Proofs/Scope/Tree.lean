import Plc.Proofs.Scope
import Plc.Scope.Tree

/-! Variables and functions of a tree of frames alike. A definition binds a key in one frame, and a
key is looked up along the path of a frame. -/
namespace Plc

variable {V F : Type}

inductive Key where
  | ofVariable (name : String)
  | ofFunction (name : String) (arity : Nat)
deriving DecidableEq

namespace Key

def undefined : Key → Fault
  | ofVariable name => .undefinedVariable name
  | ofFunction name arity => .undefinedFunction name arity

def alreadyDefined : Key → Fault
  | ofVariable name => .variableAlreadyDefined name
  | ofFunction name arity => .functionAlreadyDefined name arity

def require {α : Type} (key : Key) : Option α → Except Fault α
  | some a => .ok a
  | none => .error key.undefined

end Key

inductive Definition (V F : Type) where
  | ofVariable (name : String) (value : V)
  | ofFunction (name : String) (arity : Nat) (value : F)

namespace Definition

def key : Definition V F → Key
  | ofVariable name _ => .ofVariable name
  | ofFunction name arity _ => .ofFunction name arity

def value : Definition V F → V ⊕ F
  | ofVariable _ value => .inl value
  | ofFunction _ _ value => .inr value

end Definition

namespace Frame

def get? (frame : Frame V F) : Key → Option (V ⊕ F)
  | .ofVariable name => (frame.getVariable? name).map .inl
  | .ofFunction name arity => (frame.getFunction? name arity).map .inr

def bind (frame : Frame V F) : Definition V F → Frame V F
  | .ofVariable name value => frame.bindVariable name value
  | .ofFunction name arity value => frame.bindFunction name arity value

theorem get?_empty (key : Key) : ({} : Frame V F).get? key = none := by
  cases key <;> rfl

theorem get?_bind (frame : Frame V F) (d : Definition V F) (key : Key) :
    (frame.bind d).get? key = if key = d.key then some d.value else frame.get? key := by
  cases d with
  | ofVariable name value =>
    cases key with
    | ofVariable other =>
      simp only [get?, bind, getVariable?_bindVariable, Definition.key, Key.ofVariable.injEq]
      split <;> rfl
    | ofFunction other count => rfl
  | ofFunction name arity value =>
    cases key with
    | ofVariable other => rfl
    | ofFunction other count =>
      simp only [get?, bind, getFunction?_bindFunction, Definition.key, Key.ofFunction.injEq,
        Prod.mk.injEq]
      split <;> rfl

end Frame

namespace Scope

def lookup (scope : Scope V F) : Key → Except Fault (V ⊕ F)
  | .ofVariable name => (scope.lookupVariable name).map .inl
  | .ofFunction name arity => (scope.lookupFunction name arity).map .inr

theorem lookup_eq (scope : Scope V F) (key : Key) :
    scope.lookup key = key.require (scope.frames.findSome? (·.get? key)) := by
  cases key with
  | ofVariable name =>
    have found : scope.frames.findSome? (·.get? (.ofVariable name)) =
        (scope.getVariable? name).map .inl := List.map_findSome?.symm
    rw [found, lookup, lookupVariable]
    cases scope.getVariable? name <;> rfl
  | ofFunction name arity =>
    have found : scope.frames.findSome? (·.get? (.ofFunction name arity)) =
        (scope.getFunction? name arity).map .inr := List.map_findSome?.symm
    rw [found, lookup, lookupFunction]
    cases scope.getFunction? name arity <;> rfl

end Scope

namespace ScopeTree

def lookup (tree : ScopeTree V F) (frame : Nat) (key : Key) : Except Fault (V ⊕ F) :=
  (tree.scope frame).lookup key

def define (tree : ScopeTree V F) (frame : Nat) : Definition V F → Except Fault (ScopeTree V F)
  | .ofVariable name value => tree.defineVariable frame name value
  | .ofFunction name arity value => tree.defineFunction frame name arity value

/-- The path of each frame but the root goes on with the path of an older one. -/
structure Formed (tree : ScopeTree V F) : Prop where
  sizes : tree.paths.size = tree.frames.size
  root : tree.path 0 = [0]
  above : ∀ i, 0 < i → i < tree.frames.size → ∃ j < i, tree.path i = i :: tree.path j

def bind (tree : ScopeTree V F) (frame : Nat) (d : Definition V F) : ScopeTree V F :=
  { tree with frames := tree.frames.setIfInBounds frame ((tree.frame frame).bind d) }

theorem frame_bind {tree : ScopeTree V F} {frame : Nat} (there : frame < tree.frames.size)
    (d : Definition V F) (other : Nat) :
    (tree.bind frame d).frame other =
      if other = frame then (tree.frame frame).bind d else tree.frame other := by
  simp only [bind, ScopeTree.frame, Array.getD_eq_getD_getElem?, Array.getElem?_setIfInBounds]
  by_cases same : frame = other
  · rw [if_pos same, if_pos there, if_pos same.symm, Option.getD_some]
  · rw [if_neg same, if_neg (Ne.symm same)]

theorem get?_frame_bind {tree : ScopeTree V F} {frame : Nat} (there : frame < tree.frames.size)
    (d : Definition V F) (other : Nat) (key : Key) :
    ((tree.bind frame d).frame other).get? key =
      if other = frame ∧ key = d.key then some d.value else (tree.frame other).get? key := by
  rw [frame_bind there]
  by_cases same : other = frame
  · rw [if_pos same, Frame.get?_bind, same]
    simp only [true_and]
  · rw [if_neg same, if_neg fun both => same both.1]

theorem frame_child (tree : ScopeTree V F) (frame other : Nat) :
    (tree.child frame).2.frame other = tree.frame other := by
  simp only [child, ScopeTree.frame, Array.getD_eq_getD_getElem?, Array.getElem?_push]
  split
  · rename_i fresh
    rw [fresh, Array.getElem?_eq_none (Nat.le_refl _)]
    rfl
  · rfl

namespace Formed

variable {tree : ScopeTree V F} {i : Nat}

theorem ofFunctions (builtins : List ((String × Nat) × F)) :
    (ofFunctions builtins : ScopeTree V F).Formed :=
  ⟨rfl, rfl, fun _ positive below => absurd below (Nat.not_lt.mpr positive)⟩

theorem pos (formed : tree.Formed) : 0 < tree.frames.size := by
  rw [← formed.sizes]
  apply Nat.pos_of_ne_zero
  intro empty
  have root := formed.root
  rw [path, Array.getD_eq_getD_getElem?, Array.getElem?_eq_none (Nat.le_of_eq empty)] at root
  cases root

theorem bind (formed : tree.Formed) (frame : Nat) (d : Definition V F) :
    (tree.bind frame d).Formed where
  sizes := formed.sizes.trans Array.size_setIfInBounds.symm
  root := formed.root
  above i positive below := formed.above i positive (Array.size_setIfInBounds ▸ below)

theorem path_child (formed : tree.Formed) (frame other : Nat) :
    (tree.child frame).2.path other =
      if other = tree.frames.size then other :: tree.path frame else tree.path other := by
  simp only [child, path, Array.getD_eq_getD_getElem?, Array.getElem?_push, formed.sizes]
  split
  · rename_i fresh
    rw [fresh, Option.getD_some]
  · rfl

theorem child (formed : tree.Formed) {frame : Nat} (there : frame < tree.frames.size) :
    (tree.child frame).2.Formed where
  sizes := by
    show (tree.paths.push _).size = (tree.frames.push _).size
    rw [Array.size_push, Array.size_push, formed.sizes]
  root := by
    rw [formed.path_child, if_neg (Nat.ne_of_lt formed.pos), formed.root]
  above i positive below := by
    have below : i < tree.frames.size + 1 := Array.size_push _ ▸ below
    rcases Nat.lt_succ_iff_lt_or_eq.mp below with old | fresh
    · obtain ⟨j, under, goesOn⟩ := formed.above i positive old
      refine ⟨j, under, ?_⟩
      rw [formed.path_child, formed.path_child, if_neg (Nat.ne_of_lt old),
        if_neg (Nat.ne_of_lt (Nat.lt_trans under old)), goesOn]
    · refine ⟨frame, fresh ▸ there, ?_⟩
      rw [formed.path_child, formed.path_child, if_pos fresh, if_neg (Nat.ne_of_lt there)]

/-- Every path leads to the root. -/
theorem dropLast_path (formed : tree.Formed) (there : i < tree.frames.size) :
    (tree.path i).dropLast ++ [0] = tree.path i := by
  induction i using Nat.strongRecOn with
  | _ i ih =>
    rcases Nat.eq_zero_or_pos i with rfl | positive
    · rw [formed.root]
      rfl
    · obtain ⟨j, under, goesOn⟩ := formed.above i positive there
      have behind := ih j under (Nat.lt_trans under there)
      rw [goesOn, ← behind, ← List.cons_append, List.dropLast_concat]

theorem head?_path (formed : tree.Formed) (there : i < tree.frames.size) :
    (tree.path i)[0]? = some i := by
  rcases Nat.eq_zero_or_pos i with rfl | positive
  · rw [formed.root]
    rfl
  · obtain ⟨j, _, goesOn⟩ := formed.above i positive there
    rw [goesOn]
    rfl

theorem frames_scope (formed : tree.Formed) (there : i < tree.frames.size) :
    (tree.scope i).frames = (tree.path i).map tree.frame := by
  have whole := congrArg (List.map tree.frame) (formed.dropLast_path there)
  rw [List.map_append] at whole
  exact whole

theorem current_scope (formed : tree.Formed) (there : i < tree.frames.size) :
    (tree.scope i).current = tree.frame i := by
  rcases Nat.eq_zero_or_pos i with rfl | positive
  · rw [scope, formed.root]
    rfl
  · obtain ⟨j, under, goesOn⟩ := formed.above i positive there
    have behind := formed.dropLast_path (Nat.lt_trans under there)
    rw [scope, goesOn, ← behind, ← List.cons_append, List.dropLast_concat]
    rfl

theorem define_eq (formed : tree.Formed) (there : i < tree.frames.size) (d : Definition V F) :
    tree.define i d =
      match (tree.frame i).get? d.key with
      | some _ => .error d.key.alreadyDefined
      | none => .ok (tree.bind i d) := by
  have current := formed.current_scope there
  cases d with
  | ofVariable name value =>
    rw [define, defineVariable, Scope.defineVariable, current, Frame.defineVariable,
      Definition.key, Frame.get?]
    cases (tree.frame i).getVariable? name with
    | some old => rfl
    | none =>
      show Except.ok (tree.withScope i _) = _
      rw [withScope, Scope.current_withCurrent]
      rfl
  | ofFunction name arity value =>
    rw [define, defineFunction, Scope.defineFunction, current, Frame.defineFunction,
      Definition.key, Frame.get?]
    cases (tree.frame i).getFunction? name arity with
    | some old => rfl
    | none =>
      show Except.ok (tree.withScope i _) = _
      rw [withScope, Scope.current_withCurrent]
      rfl

theorem le_of_mem_path (formed : tree.Formed) (there : i < tree.frames.size) {j : Nat}
    (member : j ∈ tree.path i) : j ≤ i := by
  induction i using Nat.strongRecOn with
  | _ i ih =>
    rcases Nat.eq_zero_or_pos i with rfl | positive
    · rw [formed.root] at member
      exact Nat.le_of_eq (List.mem_singleton.mp member)
    · obtain ⟨above, under, goesOn⟩ := formed.above i positive there
      rw [goesOn] at member
      rcases List.mem_cons.mp member with rfl | member
      · exact Nat.le_refl _
      · exact Nat.le_of_lt (Nat.lt_of_le_of_lt
          (ih above under (Nat.lt_trans under there) member) under)

theorem zero_mem_path (formed : tree.Formed) (there : i < tree.frames.size) : 0 ∈ tree.path i :=
  formed.dropLast_path there ▸ List.mem_append_right _ List.mem_cons_self

/-- The scope of a frame depends on the frames of its path. -/
theorem scope_congr (formed : tree.Formed) (there : i < tree.frames.size)
    {other : ScopeTree V F} (path : other.path i = tree.path i)
    (frames : ∀ j ∈ tree.path i, other.frame j = tree.frame j) : other.scope i = tree.scope i := by
  rw [scope, scope, path, frames 0 (formed.zero_mem_path there)]
  congr 1
  exact List.map_congr_left fun j member => frames j (List.dropLast_subset _ member)

theorem scope_of_path (formed : tree.Formed) {j : Nat} (there : j < tree.frames.size)
    (goesOn : tree.path i = i :: tree.path j) :
    tree.scope i = (tree.scope j).enter (tree.frame i) := by
  rw [scope, goesOn, ← formed.dropLast_path there, ← List.cons_append, List.dropLast_concat]
  rfl

/-- A frame that is another now is another in the scope, as the innermost one. -/
theorem scope_withCurrent (formed : tree.Formed) (there : i < tree.frames.size)
    {other : ScopeTree V F} (formed' : other.Formed) (there' : i < other.frames.size)
    (path : ∀ j ≤ i, other.path j = tree.path j)
    (frames : ∀ j < i, other.frame j = tree.frame j) :
    other.scope i = (tree.scope i).withCurrent (other.frame i) := by
  rcases Nat.eq_zero_or_pos i with rfl | positive
  · rw [scope, scope, formed.root, formed'.root]
    rfl
  · obtain ⟨j, under, goesOn⟩ := formed.above i positive there
    have below := Nat.lt_trans under there
    have same : other.path i = i :: other.path j := by
      rw [path i (Nat.le_refl _), goesOn, path j (Nat.le_of_lt under)]
    have outer := formed.scope_congr below (path j (Nat.le_of_lt under)) fun k member =>
      frames k (Nat.lt_of_le_of_lt (formed.le_of_mem_path below member) under)
    rw [formed.scope_of_path below goesOn, formed'.scope_of_path (Nat.lt_trans under there') same,
      outer]
    rfl

/-- The scope of a new frame is that of the old one and nothing inside it yet. -/
theorem scope_child (formed : tree.Formed) (there : i < tree.frames.size) :
    (tree.child i).2.scope (tree.child i).1 = (tree.scope i).enter {} := by
  have older : ∀ j < tree.frames.size, (tree.child i).2.path j = tree.path j := by
    intro j below
    rw [formed.path_child, if_neg (Nat.ne_of_lt below)]
  have outer : (tree.child i).2.scope i = tree.scope i :=
    formed.scope_congr there (older i there) fun j _ => tree.frame_child i j
  have fresh : (tree.child i).2.frame tree.frames.size = {} := by
    rw [frame_child, ScopeTree.frame, Array.getD_eq_getD_getElem?,
      Array.getElem?_eq_none (Nat.le_refl _)]
    rfl
  have goesOn : (tree.child i).2.path tree.frames.size =
      tree.frames.size :: (tree.child i).2.path i := by
    rw [formed.path_child, if_pos rfl, older i there]
  have below : i < (tree.child i).2.frames.size := by
    rw [ScopeTree.child, Array.size_push]
    exact Nat.lt_succ_of_lt there
  rw [← outer, ← fresh]
  exact (formed.child there).scope_of_path below goesOn

end Formed

end ScopeTree
end Plc
