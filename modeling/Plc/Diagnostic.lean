/-! What is reported about a text, with a place in it where there is one. -/
namespace Plc

structure Diagnostic where
  message : String
  index : Option Nat
deriving DecidableEq

structure Diagnostics where
  entries : List Diagnostic := []
deriving DecidableEq

namespace Diagnostics

def push (ds : Diagnostics) (d : Diagnostic) : Diagnostics := ⟨ds.entries ++ [d]⟩

def isEmpty (ds : Diagnostics) : Bool := ds.entries.isEmpty

end Diagnostics
end Plc
