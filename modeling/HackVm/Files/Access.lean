import HackVm.Files.Path
import HackVm.Text.Quoted

set_option autoImplicit false

/-! # Access to files

What a build asks of the files around it: what is at a path, which names a directory holds, what
a file contains, and that a text be written. Any monad that answers these is a `FileSystem`;
the answers say by an `AccessError` why something could not be done. -/

namespace HackVm

open Text

inductive AccessError
  | missing
  | notDirectory
  | isDirectory
  | nameTooLong
  /-- A path may not hold the null character. -/
  | nullCharacter
  /-- Any other refusal, with its number and description. -/
  | refused (number : Nat) (description : String)
  deriving DecidableEq, Repr

/-- The message about a path that could not be used. -/
def AccessError.message (path : String) : AccessError → String
  | .missing => numbered 2 "No such file or directory"
  | .notDirectory => numbered 20 "Not a directory"
  | .isDirectory => numbered 21 "Is a directory"
  | .nameTooLong => numbered 36 "File name too long"
  | .nullCharacter => "embedded null byte"
  | .refused number description => numbered number description
where
  numbered (number : Nat) (description : String) : String :=
    "[Errno " ++ toString number ++ "] " ++ description ++ ": " ++ quoted path

/-- What a path leads to. -/
inductive FileKind
  | directory
  | file
  deriving DecidableEq, Repr

/-- The answers to what a build asks. -/
class FileSystem (m : Type → Type) where
  /-- What is at a path; nothing if there is nothing. -/
  kind : Path → m (Except AccessError (Option FileKind))
  /-- The names in a directory, in any order. -/
  entries : Path → m (List String)
  /-- The name that a directory has in its parent, empty for the topmost one. -/
  ownName : Path → m String
  read : Path → m (Except AccessError ByteArray)
  /-- Replaces or makes the file that a path, taken as it is written, leads to. -/
  write : String → String → m (Except AccessError Unit)

end HackVm
