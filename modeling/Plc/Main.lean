import Plc.Command.Files

/-! The program `plc`: it runs a file, or builds Java from it. -/

namespace Plc.Shell

/-- The number by which the system knows an error, which may come negated. -/
def systemNumber (code : UInt32) : Nat :=
  if code.toNat < Nat.pow 2 31 then code.toNat else Nat.pow 2 32 - code.toNat

def systemError (code : UInt32) (details : String) : PathError :=
  match systemNumber code with
  | 2 => .notFound
  | 17 => .present
  | 20 => .notAFolder
  | 21 => .isAFolder
  | 36 => .nameTooLong
  | number => .other s!"{details} (os error {number})"

def pathError : IO.Error → PathError
  | .noFileOrDirectory _ code details => systemError code details
  | .inappropriateType _ code details => systemError code details
  | .permissionDenied _ code details => systemError code details
  | .alreadyExists _ code details => systemError code details
  | .invalidArgument _ code details => systemError code details
  | .resourceExhausted _ code details => systemError code details
  | .otherError code details => systemError code details
  | e => .other (toString e)

def attempt {α : Type} (action : IO α) : BaseIO (Except PathError α) := do
  match ← action.toBaseIO with
  | .ok a => return .ok a
  | .error e => return .error (pathError e)

def access : Files BaseIO where
  read path := attempt (IO.FS.readBinFile path)
  write path contents := attempt (IO.FS.writeBinFile path contents)
  makeFolder path := attempt (IO.FS.createDir path)
  isFolder path := do
    match ← attempt (IO.FS.realPath path) with
    | .ok resolved => resolved.isDir
    | .error _ => return false

def deliver (report : Report) : IO UInt32 := do
  let out ← IO.getStdout
  out.putStr report.out
  out.flush
  (← IO.getStderr).putStr report.err
  return report.code.toUInt32

end Plc.Shell

open Plc in
def main (arguments : List String) : IO UInt32 := do
  match Request.ofArguments? arguments with
  | none => Shell.deliver ⟨2, "", "Usage: plc [run|build] <INPUT>\n"⟩
  | some request =>
    match ← Shell.access.serve Machine.ample request with
    | none => return 1
    | some report => Shell.deliver report
