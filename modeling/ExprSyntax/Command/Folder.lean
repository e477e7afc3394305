/-!
# Files of a folder

A folder of files as a value, and the reading of a path from inside it. Only the folder's own files
can be named; of what lies outside it only the directories above are known.
-/

namespace ExprSyntax

namespace Command

/-- Why a file could not be read as text. -/
inductive ReadError where
  | notFound
  | notDirectory
  | isDirectory
  | nameTooLong
  | notText
  /-- Any other failure, in the words of the system. -/
  | system (description : String)
deriving DecidableEq, Inhabited

def ReadError.message : ReadError → String
  | notFound => "No such file or directory (os error 2)"
  | notDirectory => "Not a directory (os error 20)"
  | isDirectory => "Is a directory (os error 21)"
  | nameTooLong => "File name too long (os error 36)"
  | notText => "stream did not contain valid UTF-8"
  | system description => description

/-- Files by their names. -/
structure Folder where
  files : List (String × List UInt8)

namespace Folder

/-- Where a path has led so far. -/
inductive Place where
  | here
  | above
  | file (contents : List UInt8)

/-- A path has less than this many bytes. -/
def pathLimit : Nat := 4096

/-- A name has at most this many bytes. -/
def nameLimit : Nat := 255

/-- Follows one part of a path; parts stand between slashes, so they may be empty. -/
def follow (folder : Folder) (place : Place) (part : String) : Except ReadError Place :=
  match place with
  | .file _ => .error .notDirectory
  | .here | .above =>
    if part = "" ∨ part = "." then .ok place
    else if part = ".." then .ok .above
    else if nameLimit < part.utf8ByteSize then .error .nameTooLong
    else
      match place, folder.files.lookup part with
      | .here, some contents => .ok (.file contents)
      | _, _ => .error .notFound

/-- The bytes of the file that `path` names. -/
def read (folder : Folder) (path : String) : Except ReadError (List UInt8) := do
  if pathLimit ≤ path.utf8ByteSize then throw .nameTooLong
  let first : Place := if path.startsWith "/" then .above else .here
  match ← (path.splitOn "/").foldlM folder.follow first with
  | .file contents => return contents
  | _ => throw .isDirectory

end Folder

end Command

end ExprSyntax
