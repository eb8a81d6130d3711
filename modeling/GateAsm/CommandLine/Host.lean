import GateAsm.Source.FileFault

/-!
# Surroundings of the program

What the program asks of the system that it runs on. `Directory.host` is a system in memory, in which
the effects of a run can be looked at. The program works in one directory of it; around that directory
there are only the usual folders and the device that keeps nothing.
-/

namespace GateAsm.CommandLine

structure Host (m : Type → Type) where
  readFile : String → m (Except FileFault String)
  writeFile : String → String → m (Except FileFault Unit)
  readInput : m String
  print : String → m Unit
  printError : String → m Unit
  now : m String

structure Directory where
  /-- The files by their paths, those outside the working directory with a slash in front. -/
  files : List (String × String)
  input : String
  output : String
  errors : String
  clock : String
  deriving DecidableEq, Repr

namespace Directory

def parts (path : String) : List String := (path.splitOn "/").filter (· != "")

def home : List String := ["tmp", "work"]

def rootFolders : List String :=
  ["bin", "boot", "dev", "etc", "home", "lib", "media", "mnt", "opt", "proc", "root", "run", "sbin", "srv", "sys",
   "tmp", "usr", "var"]

def nullDevice : List String := ["dev", "null"]

def placeOf (name : String) : List String := if name.startsWith "/" then parts name else home ++ parts name

def nameAt (place : List String) : String :=
  if home.isPrefixOf place then "/".intercalate (place.drop home.length) else "/" ++ "/".intercalate place

def isFolder (d : Directory) (place : List String) : Bool :=
  place.isPrefixOf home || (place.length = 1 && place.all rootFolders.contains)
    || d.files.any fun f => place.isPrefixOf (placeOf f.1).dropLast

def isFile (d : Directory) (place : List String) : Bool :=
  place = nullDevice || (d.files.lookup (nameAt place)).isSome

def nameLimit : Nat := 255

def pathLimit : Nat := 4096

def walk (d : Directory) : (folder : List String) → List String → Except FileFault (List String)
  | folder, [] => .ok folder
  | folder, name :: names =>
    if name = "." then walk d folder names
    else if name = ".." then walk d folder.dropLast names
    else if nameLimit < name.utf8ByteSize then .error .nameTooLong
    else
      let place := folder ++ [name]
      if d.isFolder place then walk d place names
      else if names.isEmpty then .ok place
      else .error (if d.isFile place then .notDirectory else .notFound)

def follow (d : Directory) (path : String) (names : List String) : Except FileFault (List String) :=
  if path.contains '\x00' then .error .noPath
  else if path = "" then .error .notFound
  else if pathLimit ≤ path.utf8ByteSize then .error .nameTooLong
  else d.walk (if path.startsWith "/" then [] else home) names

def resolve (d : Directory) (path : String) : Except FileFault (List String) := d.follow path (parts path)

def plainPath (path : String) : String :=
  nameAt ((parts path).foldl (fun place name =>
    if name = "." then place else if name = ".." then place.dropLast else place ++ [name])
    (if path.startsWith "/" then [] else home))

def read (d : Directory) (path : String) : Except FileFault String := do
  let place ← d.resolve path
  if d.isFolder place then throw .isDirectory
  if !d.isFile place then throw .notFound
  if path.endsWith "/" then throw .notDirectory
  return (d.files.lookup (nameAt place)).getD ""

def put (name text : String) : List (String × String) → List (String × String)
  | [] => [(name, text)]
  | f :: fs => if f.1 = name then (name, text) :: fs else f :: put name text fs

/-- Writes a file. A path with a slash at its end is none of a file, whatever its last name is. -/
def write (d : Directory) (path text : String) : Except FileFault Directory := do
  if path.endsWith "/" then
    let _ ← d.follow path (parts path).dropLast
    throw .isDirectory
  let place ← d.resolve path
  if d.isFolder place then throw .isDirectory
  return if place = nullDevice then d else { d with files := put (nameAt place) text d.files }

def host : Host (StateM Directory) where
  readFile path := return (← get).read path
  writeFile path text := do
    match (← get).write path text with
    | .ok d => do
      set d
      return .ok ()
    | .error f => return .error f
  readInput := return (← get).input
  print text := modify fun d => { d with output := d.output ++ text }
  printError text := modify fun d => { d with errors := d.errors ++ text }
  now := return (← get).clock

end Directory

end GateAsm.CommandLine
