import AnnotatedWasm.Files.Path

/-!
What a program asks of a file system, and how that can fail.
-/

namespace AnnotatedWasm

inductive FileError where
  | missing
  | alreadyThere
  | notDirectory
  | isDirectory
  | notText
  | other (words : String)
deriving Repr, DecidableEq

def FileError.message : FileError → String
  | missing => "No such file or directory (os error 2)"
  | alreadyThere => "File exists (os error 17)"
  | notDirectory => "Not a directory (os error 20)"
  | isDirectory => "Is a directory (os error 21)"
  | notText => "stream did not contain valid UTF-8"
  | other words => words

/-- Computations that can reach files. -/
class Files (m : Type → Type) where
  read : Path → ExceptT FileError m ByteArray
  /-- Makes a directory and those above it, as far as they are missing. -/
  makeDirectories : Path → ExceptT FileError m Unit
  /-- Makes a file or replaces its contents. -/
  write : Path → ByteArray → ExceptT FileError m Unit

end AnnotatedWasm
