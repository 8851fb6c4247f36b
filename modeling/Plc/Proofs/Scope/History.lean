import Mathlib.Data.List.Basic
import Plc.Proofs.Scope.Tree

/-! A tree of frames against what was asked of it. Each frame is a finite map from keys to the first
values that they were defined with, and a look-up finds the map nearest on the way to the root that
has the key. -/
namespace Plc

variable {V F : Type}

inductive ScopeTree.Request (V F : Type) where
  | child (frame : Nat)
  | define (frame : Nat) (d : Definition V F)
  | lookup (frame : Nat) (key : Key)

inductive ScopeTree.Answer (V F : Type) where
  | frame (number : Nat)
  | value (value : V ⊕ F)

structure ScopeTree.Event (V F : Type) where
  request : Request V F
  answer : Except Fault (Answer V F)

namespace ScopeTree

def Request.frame : Request V F → Nat
  | child frame => frame
  | define frame _ => frame
  | lookup frame _ => frame

def perform (tree : ScopeTree V F) : Request V F → Except Fault (Answer V F) × ScopeTree V F
  | .child frame => (.ok (.frame (tree.child frame).1), (tree.child frame).2)
  | .define frame d =>
    match tree.define frame d with
    | .error fault => (.error fault, tree)
    | .ok later => (.ok (.value d.value), later)
  | .lookup frame key => ((tree.lookup frame key).map .value, tree)

def answers (tree : ScopeTree V F) : List (Request V F) → List (Except Fault (Answer V F))
  | [] => []
  | r :: rs => (tree.perform r).1 :: (tree.perform r).2.answers rs

/-- What has come of a root with some functions in it, where nothing was asked but of frames that
were there. The oldest event comes first. -/
inductive Grown (builtins : List ((String × Nat) × F)) :
    List (Event V F) → ScopeTree V F → Prop where
  | root : Grown builtins [] (.ofFunctions builtins)
  | request {history : List (Event V F)} {tree : ScopeTree V F} (r : Request V F) :
      Grown builtins history tree → r.frame < tree.frames.size →
      Grown builtins (history ++ [⟨r, (tree.perform r).1⟩]) (tree.perform r).2

def Event.made? : Event V F → Option (Nat × Definition V F)
  | ⟨.define frame d, .ok _⟩ => some (frame, d)
  | _ => none

def Event.parent? : Event V F → Option Nat
  | ⟨.child frame, _⟩ => some frame
  | _ => none

/-- The parents of all frames, which are numbered in the order in which they were made. -/
def parents (history : List (Event V F)) : List (Option Nat) :=
  none :: (history.filterMap Event.parent?).map some

def parentIn (history : List (Event V F)) (frame : Nat) : Option Nat :=
  (parents history)[frame]?.join

def builtin : (String × Nat) × F → Nat × Definition V F
  | ((name, arity), f) => (0, .ofFunction name arity f)

/-- All definitions that were made, in their order. Of the functions that were there from the
beginning, a later one counts before an earlier one. -/
def made (builtins : List ((String × Nat) × F)) (history : List (Event V F)) :
    List (Nat × Definition V F) :=
  builtins.reverse.map builtin ++ history.filterMap Event.made?

def first? (builtins : List ((String × Nat) × F)) (history : List (Event V F)) (key : Key)
    (frame : Nat) : Option (V ⊕ F) :=
  ((made builtins history).find? fun entry => entry.1 = frame ∧ entry.2.key = key).map (·.2.value)

/-- What the nearest map has, on the way up from a frame, or nothing if none has anything. -/
inductive Nearest {α : Type} (up : Nat → Option Nat) (has : Nat → Option α) :
    Nat → Option α → Prop where
  | here {i : Nat} {a : α} : has i = some a → Nearest up has i (some a)
  | above {i j : Nat} {a : Option α} : has i = none → up i = some j → Nearest up has j a →
      Nearest up has i a
  | nowhere {i : Nat} : has i = none → up i = none → Nearest up has i none

/-- On the way up from a frame one comes to the other past nothing but frames whose maps have
nothing. -/
inductive Exposed {α : Type} (up : Nat → Option Nat) (has : Nat → Option α) :
    Nat → Nat → Prop where
  | here {i : Nat} : Exposed up has i i
  | above {i j k : Nat} : has i = none → up i = some j → Exposed up has j k → Exposed up has i k

section Nearest

variable {α : Type} {up : Nat → Option Nat} {has : Nat → Option α} {i k : Nat}

theorem Nearest.unique {a b : Option α} (first : Nearest up has i a) (second : Nearest up has i b) :
    a = b := by
  induction first with
  | here found =>
    cases second with
    | here found' => exact found.symm.trans found'
    | above absent _ _ => cases found.symm.trans absent
    | nowhere absent _ => cases found.symm.trans absent
  | above absent parent _ ih =>
    cases second with
    | here found => cases found.symm.trans absent
    | above _ parent' behind =>
      cases parent.symm.trans parent'
      exact ih behind
    | nowhere _ alone => cases parent.symm.trans alone
  | nowhere absent alone =>
    cases second with
    | here found => cases found.symm.trans absent
    | above _ parent _ => cases parent.symm.trans alone
    | nowhere _ _ => rfl

variable {later : Nat → Option α} {a : α}

/-- What comes to be in a map is found from where the map is exposed. -/
theorem Exposed.nearest (exposed : Exposed up has i k)
    (new : ∀ j, later j = if j = k then some a else has j) : Nearest up later i (some a) := by
  induction exposed with
  | here => exact .here (by rw [new, if_pos rfl])
  | @above i j k absent parent _ ih =>
    by_cases same : i = k
    · exact .here (by rw [new, if_pos same])
    · exact .above (by rw [new, if_neg same, absent]) parent (ih new)

theorem Nearest.of_not_exposed {b : Option α} (nearest : Nearest up has i b)
    (hidden : ¬ Exposed up has i k) (new : ∀ j, later j = if j = k then some a else has j) :
    Nearest up later i b := by
  have other : i ≠ k := by
    rintro rfl
    exact hidden .here
  have same : later i = has i := by rw [new, if_neg other]
  induction nearest with
  | here found => exact .here (same.trans found)
  | nowhere absent alone => exact .nowhere (same.trans absent) alone
  | @above i j b absent parent _ ih =>
    refine .above (same.trans absent) parent ?_
    have behind : ¬ Exposed up has j k := fun exposed => hidden (.above absent parent exposed)
    have otherToo : j ≠ k := by
      rintro rfl
      exact behind .here
    exact ih behind otherToo (by rw [new, if_neg otherToo])

/-- A look-up finds the nearest frame that has the key. -/
theorem Formed.exists_nearest {tree : ScopeTree V F} (formed : tree.Formed)
    (there : i < tree.frames.size) (key : Key) :
    ∃ r, Nearest tree.parent? (fun j => (tree.frame j).get? key) i r ∧
      tree.lookup i key = key.require r := by
  have searched : tree.lookup i key =
      key.require ((tree.path i).findSome? fun j => (tree.frame j).get? key) := by
    rw [lookup, Scope.lookup_eq, formed.frames_scope there, List.findSome?_map]
    rfl
  refine ⟨_, ?_, searched⟩
  clear searched
  induction i using Nat.strongRecOn with
  | _ i ih =>
    rcases Nat.eq_zero_or_pos i with rfl | positive
    · rw [formed.root, List.findSome?_cons, List.findSome?_nil]
      have alone : tree.parent? 0 = none := by rw [parent?, formed.root]; rfl
      cases held : (tree.frame 0).get? key with
      | none => exact .nowhere held alone
      | some v => exact .here held
    · obtain ⟨j, under, goesOn⟩ := formed.above i positive there
      have below := Nat.lt_trans under there
      have parent : tree.parent? i = some j := by
        rw [parent?, goesOn, List.getElem?_cons_succ, formed.head?_path below]
      rw [goesOn, List.findSome?_cons]
      cases held : (tree.frame i).get? key with
      | none => exact .above held parent (ih j under below)
      | some v => exact .here held

end Nearest

structure Follows (builtins : List ((String × Nat) × F)) (history : List (Event V F))
    (tree : ScopeTree V F) : Prop where
  formed : tree.Formed
  size : (parents history).length = tree.frames.size
  parents : ∀ i, tree.parent? i = parentIn history i
  frames : ∀ key i, (tree.frame i).get? key = first? builtins history key i

section Follows

variable {builtins : List ((String × Nat) × F)} {history : List (Event V F)}
  {tree : ScopeTree V F}

theorem first?_append (e : Event V F) (key : Key) (i : Nat) :
    first? builtins (history ++ [e]) key i = (first? builtins history key i).or
      ((e.made?.toList.find? fun entry => entry.1 = i ∧ entry.2.key = key).map (·.2.value)) := by
  have made : made builtins (history ++ [e]) = made builtins history ++ e.made?.toList := by
    rw [ScopeTree.made, List.filterMap_append, ← List.append_assoc, List.filterMap_cons,
      List.filterMap_nil, ScopeTree.made]
    cases e.made? <;> rfl
  rw [first?, made, List.find?_append, Option.map_or]
  rfl

theorem parents_append (e : Event V F) :
    parents (history ++ [e]) = parents history ++ e.parent?.toList.map some := by
  rw [parents, List.filterMap_append, List.map_append, List.filterMap_cons, List.filterMap_nil]
  cases e.parent? <;> rfl

theorem find?_builtin (entries : List ((String × Nat) × F)) (key : Key) (i : Nat) :
    ((entries.map builtin).find? fun entry : Nat × Definition V F =>
        entry.1 = i ∧ entry.2.key = key).map (·.2.value) =
      if i = 0 then Frame.get? { funs := entries } key else none := by
  induction entries with
  | nil => cases key <;> simp [Frame.get?, Frame.getVariable?, Frame.getFunction?]
  | cons entry entries ih =>
    obtain ⟨⟨name, arity⟩, f⟩ := entry
    have bound : Frame.get? { funs := ((name, arity), f) :: entries } key =
        if key = .ofFunction name arity then some (.inr f)
        else Frame.get? ({ funs := entries } : Frame V F) key :=
      Frame.get?_bind { funs := entries } (.ofFunction name arity f) key
    rw [List.map_cons, List.find?_cons, bound]
    by_cases here : 0 = i ∧ Key.ofFunction name arity = key
    · obtain ⟨rfl, rfl⟩ := here
      simp [builtin, Definition.key, Definition.value]
    · have passed : decide ((builtin ((name, arity), f) : Nat × Definition V F).1 = i ∧
          (builtin ((name, arity), f) : Nat × Definition V F).2.key = key) = false :=
        decide_eq_false here
      rw [passed, ih]
      by_cases root : i = 0
      · rw [if_pos root, if_pos root, if_neg fun same => here ⟨root.symm, same.symm⟩]
      · rw [if_neg root, if_neg root]

theorem follows_root (builtins : List ((String × Nat) × F)) :
    Follows builtins [] (.ofFunctions builtins : ScopeTree V F) where
  formed := .ofFunctions builtins
  size := rfl
  parents i := by
    cases i with
    | zero => rfl
    | succ i => rfl
  frames key i := by
    rw [first?, made, List.filterMap_nil, List.append_nil, find?_builtin]
    cases i with
    | zero => rfl
    | succ i => exact Frame.get?_empty key

theorem Follows.quiet (follows : Follows builtins history tree) {e : Event V F}
    (made : e.made? = none) (parent : e.parent? = none) :
    Follows builtins (history ++ [e]) tree where
  formed := follows.formed
  size := by
    rw [parents_append, parent, Option.toList_none, List.map_nil, List.append_nil, follows.size]
  parents i := by
    rw [follows.parents, parentIn, parentIn, parents_append, parent, Option.toList_none,
      List.map_nil, List.append_nil]
  frames key i := by
    rw [first?_append, made, Option.toList_none, List.find?_nil, Option.map_none, Option.or_none,
      follows.frames]

theorem Follows.child (follows : Follows builtins history tree) {frame : Nat}
    (there : frame < tree.frames.size) {answer : Except Fault (Answer V F)} :
    Follows builtins (history ++ [⟨.child frame, answer⟩]) (tree.child frame).2 where
  formed := follows.formed.child there
  size := by
    rw [parents_append, List.length_append, follows.size]
    exact (Array.size_push _).symm
  parents i := by
    have old := follows.parents i
    rw [parent?] at old ⊢
    rw [parentIn, parents_append, follows.formed.path_child]
    split
    · rename_i fresh
      rw [fresh, ← follows.size, List.getElem?_append_right (Nat.le_refl _), Nat.sub_self]
      exact follows.formed.head?_path there
    · rename_i other
      rw [old, parentIn]
      rcases Nat.lt_or_gt_of_ne other with before | behind
      · rw [List.getElem?_append_left (follows.size ▸ before)]
      · rw [List.getElem?_eq_none (follows.size ▸ Nat.le_of_lt behind), List.getElem?_eq_none]
        rw [List.length_append, follows.size]
        exact behind
  frames key i := by
    rw [first?_append, frame_child, follows.frames]
    exact Option.or_none.symm

theorem Follows.define (follows : Follows builtins history tree) {frame : Nat}
    (there : frame < tree.frames.size) {d : Definition V F} {a : Answer V F}
    (free : first? builtins history d.key frame = none) :
    Follows builtins (history ++ [⟨.define frame d, .ok a⟩]) (tree.bind frame d) where
  formed := follows.formed.bind frame d
  size := by
    rw [parents_append, List.length_append, follows.size]
    exact Array.size_setIfInBounds.symm
  parents i := by
    rw [parentIn, parents_append]
    show tree.parent? i = _
    rw [follows.parents, parentIn]
    exact congrArg (fun l => l[i]?.join) (List.append_nil _).symm
  frames key i := by
    rw [first?_append, get?_frame_bind there, follows.frames]
    by_cases here : i = frame ∧ key = d.key
    · obtain ⟨rfl, rfl⟩ := here
      rw [if_pos ⟨rfl, rfl⟩, free, Option.none_or]
      simp [Event.made?]
    · rw [if_neg here]
      have passed : ¬ (frame = i ∧ d.key = key) := fun same => here ⟨same.1.symm, same.2.symm⟩
      simp [Event.made?, passed]

theorem Follows.perform_define (follows : Follows builtins history tree) {frame : Nat}
    (there : frame < tree.frames.size) (d : Definition V F) :
    tree.perform (.define frame d) =
      match first? builtins history d.key frame with
      | some _ => (.error d.key.alreadyDefined, tree)
      | none => (.ok (.value d.value), tree.bind frame d) := by
  rw [perform, follows.formed.define_eq there, follows.frames]
  cases first? builtins history d.key frame <;> rfl

theorem Grown.follows (grown : Grown builtins history tree) : Follows builtins history tree := by
  induction grown with
  | root => exact follows_root builtins
  | @request history tree r grown there ih =>
    cases r with
    | child frame => exact ih.child there
    | lookup frame key => exact ih.quiet rfl rfl
    | define frame d =>
      have there : frame < tree.frames.size := there
      rw [ih.perform_define there]
      cases free : first? builtins history d.key frame with
      | some v => exact ih.quiet rfl rfl
      | none => exact ih.define there free

theorem Follows.exists_nearest (follows : Follows builtins history tree) {frame : Nat}
    (there : frame < tree.frames.size) (key : Key) :
    ∃ r, Nearest (parentIn history) (first? builtins history key) frame r ∧
      tree.lookup frame key = key.require r := by
  have maps : (fun i => (tree.frame i).get? key) = first? builtins history key :=
    funext (follows.frames key)
  rw [← funext follows.parents, ← maps]
  exact follows.formed.exists_nearest there key

/-- A definition is found from where its frame is exposed, and changes nothing anywhere else. -/
theorem Follows.lookup_bind (follows : Follows builtins history tree) {frame other : Nat}
    (there : frame < tree.frames.size) (d : Definition V F)
    (thereToo : other < tree.frames.size) :
    (∀ key, key ≠ d.key → (tree.bind frame d).lookup other key = tree.lookup other key) ∧
    (Exposed (parentIn history) (first? builtins history d.key) other frame →
      (tree.bind frame d).lookup other d.key = .ok d.value) ∧
    (¬ Exposed (parentIn history) (first? builtins history d.key) other frame →
      (tree.bind frame d).lookup other d.key = tree.lookup other d.key) := by
  have formed := follows.formed.bind frame d
  have thereStill : other < (tree.bind frame d).frames.size :=
    Array.size_setIfInBounds.symm ▸ thereToo
  have nearest (key : Key) := formed.exists_nearest thereStill key
  have maps : (fun i => (tree.frame i).get? d.key) = first? builtins history d.key :=
    funext (follows.frames d.key)
  rw [← funext follows.parents, ← maps]
  -- Only the map of `frame` changes, and there only at the key of `d`.
  have new (i : Nat) : ((tree.bind frame d).frame i).get? d.key =
      if i = frame then some d.value else (tree.frame i).get? d.key := by
    rw [get?_frame_bind there]
    simp only [and_true]
  refine ⟨?_, ?_, ?_⟩
  · intro key differs
    have still : (fun i => ((tree.bind frame d).frame i).get? key) =
        fun i => (tree.frame i).get? key := by
      funext i
      rw [get?_frame_bind there, if_neg fun both => differs both.2]
    obtain ⟨r, found, answered⟩ := nearest key
    obtain ⟨r', found', answered'⟩ := follows.formed.exists_nearest thereToo key
    rw [still] at found
    obtain rfl := found.unique found'
    rw [answered, answered']
  · intro exposed
    obtain ⟨r, found, answered⟩ := nearest d.key
    obtain rfl := found.unique (exposed.nearest new)
    exact answered
  · intro hidden
    obtain ⟨r, found, answered⟩ := nearest d.key
    obtain ⟨r', found', answered'⟩ := follows.formed.exists_nearest thereToo d.key
    obtain rfl := found.unique (found'.of_not_exposed hidden new)
    rw [answered, answered']

end Follows

/-- Frames are maps one inside the other. A key means the first definition of it in the nearest
frame that has one, as the history tells. It can be defined in a frame if and only if that frame
has no definition of it. Then it is found from there and from every frame that sees nothing nearer,
old or new, and no other key or frame is concerned. A definition that fails goes unnoticed ever
after. -/
theorem scopes_are_nested_maps {builtins : List ((String × Nat) × F)}
    {history : List (Event V F)} {tree : ScopeTree V F} (grown : Grown builtins history tree)
    {frame : Nat} (there : frame < tree.frames.size) :
    tree.parent? frame = parentIn history frame ∧
    (∀ key v, tree.lookup frame key = .ok v ↔
      Nearest (parentIn history) (first? builtins history key) frame (some v)) ∧
    (∀ key fault, tree.lookup frame key = .error fault ↔
      Nearest (parentIn history) (first? builtins history key) frame none ∧
        fault = key.undefined) ∧
    (∀ d, first? builtins history d.key frame = none →
      ∃ later, tree.perform (.define frame d) = (.ok (.value d.value), later) ∧
        ∀ other < tree.frames.size,
          (∀ key, key ≠ d.key → later.lookup other key = tree.lookup other key) ∧
          (Exposed (parentIn history) (first? builtins history d.key) other frame →
            later.lookup other d.key = .ok d.value) ∧
          (¬ Exposed (parentIn history) (first? builtins history d.key) other frame →
            later.lookup other d.key = tree.lookup other d.key)) ∧
    ∀ d v, first? builtins history d.key frame = some v → ∀ rs : List (Request V F),
      tree.answers (.define frame d :: rs) = .error d.key.alreadyDefined :: tree.answers rs := by
  have follows := grown.follows
  -- Whether it is a value or a fault, a look-up answers with the nearest frame, of which there is
  -- one.
  refine ⟨follows.parents frame, ?_, ?_, ?_, ?_⟩
  · intro key v
    obtain ⟨r, nearest, answered⟩ := follows.exists_nearest there key
    rw [answered]
    constructor
    · intro found
      cases r with
      | none => cases found
      | some w => exact Except.ok.inj found ▸ nearest
    · intro nearest'
      rw [nearest.unique nearest', Key.require]
  · intro key fault
    obtain ⟨r, nearest, answered⟩ := follows.exists_nearest there key
    rw [answered]
    constructor
    · intro failed
      cases r with
      | none => exact ⟨nearest, (Except.error.inj failed).symm⟩
      | some w => cases failed
    · rintro ⟨nearest', rfl⟩
      rw [nearest.unique nearest', Key.require]
  · intro d free
    refine ⟨tree.bind frame d, ?_, fun other thereToo => follows.lookup_bind there d thereToo⟩
    rw [follows.perform_define there, free]
  · intro d v taken rs
    rw [answers, follows.perform_define there, taken]

/-- Two functions of one name and arity, of which the second one counts, and a frame in a frame in
the root, where a variable is defined when both are there. -/
theorem scopes_are_nested_maps_late :
    ∃ (history : List (Event String String)) (tree : ScopeTree String String),
      Grown [(("f", 1), "one"), (("f", 1), "two")] history tree ∧
      tree.lookup 2 (.ofFunction "f" 1) = .ok (.inr "two") ∧
      tree.lookup 2 (.ofVariable "x") = .error (.undefinedVariable "x") ∧
      (∃ later, tree.perform (.define 0 (.ofVariable "x" "v")) = (.ok (.value (.inl "v")), later) ∧
        later.lookup 2 (.ofVariable "x") = .ok (.inl "v")) ∧
      ∀ rs, tree.answers (.define 0 (.ofFunction "f" 1 "three") :: rs) =
        .error (.functionAlreadyDefined "f" 1) :: tree.answers rs := by
  have grown := Grown.request (.child 1) (.request (.child 0)
    (@Grown.root String String [(("f", 1), "one"), (("f", 1), "two")]) (by decide)) (by decide)
  have inner := @scopes_are_nested_maps _ _ _ _ _ grown 2 (by decide)
  have root := @scopes_are_nested_maps _ _ _ _ _ grown 0 (by decide)
  obtain ⟨_, found, undefined, _, _⟩ := inner
  obtain ⟨_, _, _, defined, refused⟩ := root
  obtain ⟨later, performed, seen⟩ := defined (.ofVariable "x" "v") rfl
  refine ⟨_, _, grown, ?_, ?_, ⟨later, performed, ?_⟩, ?_⟩
  · exact (found (.ofFunction "f" 1) (.inr "two")).mpr
      (.above rfl rfl (.above rfl rfl (.here (by decide))))
  · exact (undefined (.ofVariable "x") _).mpr
      ⟨.above rfl rfl (.above rfl rfl (.nowhere rfl rfl)), rfl⟩
  · exact (seen 2 (by decide)).2.1 (.above rfl rfl (.above rfl rfl .here))
  · exact refused (.ofFunction "f" 1 "three") (.inr "two") (by decide)

end ScopeTree
end Plc
