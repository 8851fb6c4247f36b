import Plc.Command

/-! Answering a request where files can be read and written. The files may be those of a system or
of a folder in memory: all that is asked of them is told by four operations. -/
namespace Plc

inductive PathError where
  | notFound
  | present
  | notAFolder
  | isAFolder
  | nameTooLong
  | other (cause : String)
deriving DecidableEq

def PathError.message : PathError → String
  | notFound => "No such file or directory (os error 2)"
  | present => "File exists (os error 17)"
  | notAFolder => "Not a directory (os error 20)"
  | isAFolder => "Is a directory (os error 21)"
  | nameTooLong => "File name too long (os error 36)"
  | other cause => cause

structure Files (m : Type → Type) where
  read (path : String) : m (Except PathError ByteArray)
  write (path : String) (contents : ByteArray) : m (Except PathError Unit)
  makeFolder (path : String) : m (Except PathError Unit)
  isFolder (path : String) : m Bool

namespace Files

variable {m : Type → Type} [Monad m]

def ensureFolder (files : Files m) (path : String) : m (Except PathError Unit) := do
  match ← files.makeFolder path with
  | .ok _ => return .ok ()
  | .error .notFound => return .error .notFound
  | .error e => if ← files.isFolder path then return .ok () else return .error e

/-- Makes the folder with the given parts, the last part first, and those it lies in as far as
they are not there. -/
def ensureAll (files : Files m) : List String → m (Except PathError Unit)
  | [] => return .ok ()
  | last :: more => do
    let path := Path.ofParts (last :: more).reverse
    match ← files.ensureFolder path with
    | .error .notFound =>
      match ← files.ensureAll more with
      | .error e => return .error e
      | .ok _ => files.ensureFolder path
    | answer => return answer

def ensureParent (files : Files m) (parent : String) : m (Except PathError Unit) :=
  if parent.isEmpty then return .ok () else files.ensureAll (Path.parts parent).reverse

def save (files : Files m) (path text : String) : m (Except WriteFailure Unit) := do
  let parent := (Path.parent? path).getD ""
  match ← files.ensureParent parent with
  | .error e => return .error (.folder parent e.message)
  | .ok _ =>
    match ← files.write path text.toUTF8 with
    | .error e => return .error (.file e.message)
    | .ok _ => return .ok ()

def serve (files : Files m) (limit : Nat) (r : Request) : m (Option Report) := do
  let contents := (← files.read r.input).mapError (·.message)
  match r.respond limit contents with
  | none => return none
  | some (.finish report) => return some report
  | some (.write path text out) =>
    return some (Report.ofWrite path out (← files.save path text))

end Files
end Plc
