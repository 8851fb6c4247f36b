import Plc.Command.Files

/-! A folder held in memory, and what a command does in it. -/
namespace Plc

/-- Files and folders by the names that lead to them. What lies around the folder and not in it has
names that begin with `..` or at the root. -/
structure Folder where
  files : List (List String × ByteArray) := []
  folders : List (List String) := []

namespace Folder

inductive Place where
  | folder (names : List String)
  | file (names : List String) (contents : ByteArray)
  | free (names : List String)
  | tooLong

def nameLimit : Nat := 255

def pathLimit : Nat := 4095

def root : List String := [""]

/-- The folder itself, the root, and those that the folder lies in are always there. -/
def isFolder (folder : Folder) (names : List String) : Bool :=
  names == root || names.all (· == "..") || folder.folders.contains names

def above (names : List String) : List String :=
  if names == root then root
  else if names.all (· == "..") then names ++ [".."]
  else names.dropLast

def follow (folder : Folder) (names : List String) : List String → Except PathError Place
  | [] => .ok (.folder names)
  | part :: more =>
    if Path.isFiller part then folder.follow names more
    else if part = ".." then folder.follow (above names) more
    else
      let inner := names ++ [part]
      let ends := more.all (· == "")
      if nameLimit < part.utf8ByteSize then
        if ends then .ok .tooLong else .error .nameTooLong
      else if folder.isFolder inner then folder.follow inner more
      else
        match folder.files.lookup inner with
        | some contents => if ends then .ok (.file inner contents) else .error .notAFolder
        | none => if ends then .ok (.free inner) else .error .notFound

def find (folder : Folder) (path : String) : Except PathError Place :=
  if path.isEmpty then .error .notFound
  else if pathLimit < path.utf8ByteSize then .error .nameTooLong
  else if path.startsWith "/" then folder.follow root (Path.parts path)
  else folder.follow [] (Path.parts path)

def asksForFolder (path : String) : Bool := path.endsWith "/"

def read (folder : Folder) (path : String) : Except PathError ByteArray := do
  match ← folder.find path with
  | .file _ contents => if asksForFolder path then throw .notAFolder else return contents
  | .folder _ => throw .isAFolder
  | .free _ => throw .notFound
  | .tooLong => throw .nameTooLong

def put (folder : Folder) (names : List String) (contents : ByteArray) : Folder :=
  { folder with files := (names, contents) :: folder.files }

def write (folder : Folder) (path : String) (contents : ByteArray) :
    Except PathError Folder := do
  match asksForFolder path, ← folder.find path with
  | false, .file names _ | false, .free names => return folder.put names contents
  | false, .tooLong => throw .nameTooLong
  | _, _ => throw .isAFolder

def makeFolder (folder : Folder) (path : String) : Except PathError Folder := do
  match ← folder.find path with
  | .free names => return { folder with folders := names :: folder.folders }
  | .folder _ | .file _ _ => throw .present
  | .tooLong => throw .nameTooLong

def change (operation : Folder → Except PathError Folder) :
    StateM Folder (Except PathError Unit) :=
  fun folder =>
    match operation folder with
    | .ok folder => (.ok (), folder)
    | .error e => (.error e, folder)

def access : Files (StateM Folder) where
  read path := fun folder => (folder.read path, folder)
  write path contents := change fun folder => folder.write path contents
  makeFolder path := change fun folder => folder.makeFolder path
  isFolder path := fun folder =>
    match folder.find path with
    | .ok (.folder _) => (true, folder)
    | _ => (false, folder)

def serve (folder : Folder) (limit : Nat) (r : Request) : Option Report × Folder :=
  (access.serve limit r).run folder

def ofFiles (files : List (String × ByteArray)) : Folder :=
  files.foldl (fun folder (path, contents) =>
    let names := Path.parts path
    let folders := (List.range (names.length - 1)).map fun n => names.take (n + 1)
    ⟨(names, contents) :: folder.files, folders ++ folder.folders⟩) {}

end Folder
end Plc
