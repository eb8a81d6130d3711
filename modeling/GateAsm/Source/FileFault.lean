import GateAsm.Text.Quoted

/-!
# Refusals of the file system

Why a file is not read or written, and what a message says of it.
-/

namespace GateAsm

inductive FileFault
  | notFound
  | isDirectory
  | notDirectory
  | denied
  | nameTooLong
  | noPath
  | notText
  deriving DecidableEq, Repr

def FileFault.system? : FileFault → Option (Nat × String)
  | notFound => some (2, "No such file or directory")
  | denied => some (13, "Permission denied")
  | notDirectory => some (20, "Not a directory")
  | isDirectory => some (21, "Is a directory")
  | nameTooLong => some (36, "File name too long")
  | noPath | notText => none

def FileFault.message (f : FileFault) (path : String) : String :=
  match f.system? with
  | some (number, wording) => s!"[Errno {number}] {wording}: {Text.quoted path}"
  | none => s!"{Text.quoted path} is no text file"

end GateAsm
