/-! Paths of files, taken apart at the slashes between their parts. -/
namespace Plc.Path

def parts (path : String) : List String := path.splitOn "/"

def isFiller (part : String) : Bool := part == "" || part == "."

/-- The parts without the fillers at the end. The first part stays, as it tells where the path
begins. -/
def trim : List String → List String
  | [] => []
  | first :: more => first :: (more.reverse.dropWhile isFiller).reverse

def ofParts : List String → String
  | [""] => "/"
  | parts => "/".intercalate parts

def parent? (path : String) : Option String :=
  match trim (parts path) with
  | [] | [""] => none
  | [_] => some ""
  | ps => some (ofParts (trim ps.dropLast))

def fileName? (path : String) : Option String :=
  (trim (parts path)).getLast?.filter fun part => !isFiller part && part != ".."

def append (folder name : String) : String :=
  if folder.isEmpty then name
  else if folder.endsWith "/" then folder ++ name
  else folder ++ "/" ++ name

def withFileName (path name : String) : String :=
  match fileName? path, parent? path with
  | some _, some folder => append folder name
  | _, _ => append path name

end Plc.Path
