import AnnotatedWasm.Compile
import AnnotatedWasm.Files.Basic
import AnnotatedWasm.Ir.Listing
import AnnotatedWasm.Wasm.Text

/-!
Compilation of a file: reading it, and writing what it compiles to beside it or elsewhere.
-/

namespace AnnotatedWasm

/-- Where and what to write for each file. -/
structure Output where
  /-- The directory to write to; by default that of the file itself. -/
  directory : Option Path := none
  /-- A listing of the intermediate code is written too. -/
  listing : Bool := false
deriving Repr, DecidableEq

inductive FileFailure where
  | read (path : Path) (cause : FileError)
  | write (path : Path) (cause : FileError)
  | source (path : Path) (text : String) (cause : SourceError)
deriving Repr, DecidableEq

def FileFailure.message : FileFailure → String
  | read path cause => s!"cannot read \"{path.text}\": {cause.message}"
  | write path cause => s!"cannot write \"{path.text}\": {cause.message}"
  | source path text cause => cause.report path.text text

namespace Output

def directoryFor (o : Output) (path : Path) : Path := o.directory.getD path.parent

/-- What a file's outputs are called before they have an extension. -/
def baseFor (o : Output) (path : Path) : Path :=
  (o.directoryFor path).join (path.stem?.getD "module")

def pathFor (o : Output) (path : Path) (extension : String) : Path :=
  (o.baseFor path).withExtension extension

end Output

section

variable {m : Type → Type} [Monad m] [Files m] {α : Type}

/-- A file operation, with the failure that its error means. -/
def attempt (blame : FileError → FileFailure) (x : ExceptT FileError m α) :
    LoggedT FileFailure m α :=
  ExceptT.mk do
    match ← (x.run : m _) with
    | .ok a => return .ok a
    | .error e => return .error (blame e)

def readSource (path : Path) : LoggedT FileFailure m String := do
  let bytes ← attempt (.read path) (Files.read path)
  match String.fromUTF8? bytes with
  | some text => return text
  | none => throw (.read path .notText)

def writeFile (path : Path) (contents : ByteArray) : LoggedT FileFailure m Unit :=
  attempt (.write path) (Files.write path contents)

def writeBinary (path : Path) (bytes : List UInt8) : LoggedT FileFailure m Unit := do
  writeFile path ⟨bytes.toArray⟩
  report (.moduleWritten path.text bytes.length)

def writeText (path : Path) (binary : Wasm.Module) : LoggedT FileFailure m Unit := do
  writeFile path binary.text.toUTF8
  report (.textWritten path.text)

def writeListing (path : Path) (module : Ir.Module) : LoggedT FileFailure m Unit := do
  writeFile path module.listing.toUTF8
  report (.listingWritten path.text)

/-- Writes what a file compiled to and gives the paths written. -/
def writeArtifact (output : Output) (path : Path) (a : Artifact) :
    LoggedT FileFailure m (List Path) := do
  let directory := output.directoryFor path
  unless directory.isEmpty do
    attempt (.write directory) (Files.makeDirectories directory)
  let binary := output.pathFor path "wasm"
  writeBinary binary a.bytes
  let text := output.pathFor path "wat"
  writeText text a.binary
  if output.listing then
    let listing := output.pathFor path "ir"
    writeListing listing a.module
    return [binary, text, listing]
  return [binary, text]

/-- Compiles a file and gives the paths written. Nothing is written where no function is
marked. -/
def compileFile (options : Options) (output : Output) (path : Path) :
    LoggedT FileFailure m (List Path) := do
  let source ← readSource path
  let compiled := ExceptT.adapt (FileFailure.source path source)
    (compileSource options path.text source)
  match ← Logged.embed compiled with
  | none =>
    report (.nothingFound path.text)
    return []
  | some a => writeArtifact output path a

end

end AnnotatedWasm
