import Plc.Decimal.Order
import Plc.Fault
import Plc.Tree

/-! The values of a run. A list is known by its address, so that all who hold it see the same
elements; the elements are kept in a heap, from which nothing is ever taken away. -/
namespace Plc

inductive Value where
  | nil
  | boolean (value : Bool)
  | character (value : Char)
  | string (value : String)
  | integer (value : Int)
  | decimal (value : Decimal)
  | list (address : Nat)
deriving DecidableEq

namespace Value

def shape : Value → Shape
  | nil => .plain .nil
  | boolean _ => .plain .boolean
  | character _ => .plain .character
  | string _ => .plain .string
  | integer _ => .plain .integer
  | decimal _ => .plain .decimal
  | list _ => .list

def ofLiteral : Literal → Value
  | .nil => nil
  | .boolean b => boolean b
  | .character c => character c
  | .string s => string s
  | .integer i => integer i
  | .decimal d => decimal d

def isString : Value → Bool
  | string _ => true
  | _ => false

def truth : Value → Except Fault Bool
  | boolean b => .ok b
  | v => .error (.typeMismatch (.plain .boolean) v.shape)

def index (length : Nat) : Value → Except Fault Nat
  | integer i =>
    if 0 ≤ i ∧ i < length then .ok i.toNat else .error (.indexOutOfBounds i length)
  | v => .error (.typeMismatch (.plain .integer) v.shape)

end Value

structure Heap where
  lists : Array (Array Value) := #[]

namespace Heap

def elements (heap : Heap) (address : Nat) : Array Value :=
  heap.lists.getD address #[]

def allocate (heap : Heap) (elements : List Value) : Nat × Heap :=
  (heap.lists.size, ⟨heap.lists.push elements.toArray⟩)

def write (heap : Heap) (address index : Nat) (value : Value) : Heap :=
  ⟨heap.lists.modify address fun elements => elements.setIfInBounds index value⟩

def textTo (heap : Heap) : Nat → Value → String
  | _, .nil => "null"
  | _, .boolean b => if b then "true" else "false"
  | _, .character c => c.toString
  | _, .string s => s
  | _, .integer i => toString i
  | _, .decimal d => d.toText
  | 0, .list _ => "[]"
  | depth + 1, .list address =>
    let texts := (heap.elements address).toList.map (heap.textTo depth)
    "[" ++ ", ".intercalate texts ++ "]"

/-- The text of a value. Lists that lie one in another are no more than there are lists. -/
def text (heap : Heap) (v : Value) : String := heap.textTo heap.lists.size v

def equalTo (heap : Heap) : Nat → Value → Value → Bool
  | depth + 1, .list a, .list b =>
    let left := (heap.elements a).toList
    let right := (heap.elements b).toList
    left.length == right.length &&
      (left.zip right).all fun (x, y) => heap.equalTo depth x y
  | 0, .list _, .list _ => true
  | _, .decimal a, .decimal b => a.compare b == .eq
  | _, a, b => a == b

/-- Decimals are equal when their numbers are, and lists when their elements are. -/
def equal (heap : Heap) (a b : Value) : Bool := heap.equalTo heap.lists.size a b

end Heap
end Plc
