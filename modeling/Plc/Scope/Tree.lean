import Plc.Scope

/-! A tree of frames, all of which stay in use: each frame but the root hangs below an older one,
and what a name means in a frame is what it means in the scope that leads from there to the
root. -/
namespace Plc

/-- The frames of a tree by number. The path of a frame leads from it to the root. -/
structure ScopeTree (V F : Type) where
  frames : Array (Frame V F)
  paths : Array (List Nat)

namespace ScopeTree

variable {V F : Type}

def ofFunctions (builtins : List ((String × Nat) × F)) : ScopeTree V F :=
  ⟨#[Frame.ofFunctions builtins], #[[0]]⟩

def path (tree : ScopeTree V F) (frame : Nat) : List Nat :=
  tree.paths.getD frame []

def frame (tree : ScopeTree V F) (frame : Nat) : Frame V F :=
  tree.frames.getD frame {}

def parent? (tree : ScopeTree V F) (frame : Nat) : Option Nat :=
  (tree.path frame)[1]?

def child (tree : ScopeTree V F) (frame : Nat) : Nat × ScopeTree V F :=
  let fresh := tree.frames.size
  (fresh, ⟨tree.frames.push {}, tree.paths.push (fresh :: tree.path frame)⟩)

def scope (tree : ScopeTree V F) (frame : Nat) : Scope V F :=
  ⟨(tree.path frame).dropLast.map tree.frame, tree.frame 0⟩

def withScope (tree : ScopeTree V F) (frame : Nat) (scope : Scope V F) : ScopeTree V F :=
  { tree with frames := tree.frames.setIfInBounds frame scope.current }

def lookupVariable (tree : ScopeTree V F) (frame : Nat) (name : String) : Except Fault V :=
  (tree.scope frame).lookupVariable name

def lookupFunction (tree : ScopeTree V F) (frame : Nat) (name : String) (arity : Nat) :
    Except Fault F :=
  (tree.scope frame).lookupFunction name arity

def defineVariable (tree : ScopeTree V F) (frame : Nat) (name : String) (value : V) :
    Except Fault (ScopeTree V F) :=
  ((tree.scope frame).defineVariable name value).map (tree.withScope frame)

def defineFunction (tree : ScopeTree V F) (frame : Nat) (name : String) (arity : Nat)
    (value : F) : Except Fault (ScopeTree V F) :=
  ((tree.scope frame).defineFunction name arity value).map (tree.withScope frame)

end ScopeTree
end Plc
