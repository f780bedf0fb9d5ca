import AnnotatedWasm.Command.Run

/-!
The command: files from the real file system, messages to standard error.
-/

namespace AnnotatedWasm

def FileError.ofSystem : IO.Error → FileError
  | .noFileOrDirectory .. => .missing
  | .alreadyExists .. => .alreadyThere
  | e => .other (toString e)

def guarded {α : Type} (action : IO α) : ExceptT FileError IO α :=
  ExceptT.mk do
    try
      return .ok (← action)
    catch e =>
      return .error (FileError.ofSystem e)

instance : Files IO where
  read p := guarded (IO.FS.readBinFile p.text)
  makeDirectories p := guarded (IO.FS.createDirAll p.text)
  write p contents := guarded (IO.FS.writeBinFile p.text contents)

def usage : String := "Usage: wasmfunc [OPTIONS] <FILES>...

Options:
  -g, --enable-gc               Enable arrays
  -s, --enable-strings          Enable strings, and with them arrays
      --floor-division <MODE>   Rounding of integer //: truncate (the default) or floor
  -o, --out-dir <DIR>           Directory for generated files
      --emit-ir                 Also write a listing of the intermediate code
  -v, --verbose                 More logging
  -h, --help                    Print help
  -V, --version                 Print version"

def Command.ArgsError.words : Command.ArgsError → String
  | .noFile => "error: no files given"
  | .unknown word => s!"error: unexpected argument '{word}'"
  | .badValue => "error: invalid or missing value"
  | .repeated => "error: an option was given more than once"
  | .needlessValue => "error: a value was given to an option that takes none"
  | .help => usage
  | .version => "wasmfunc 0.1.0"

end AnnotatedWasm

def main (args : List String) : IO UInt32 := do
  match AnnotatedWasm.Command.Arguments.parse args with
  | .error e =>
    if e.exitCode = 0 then IO.println e.words else IO.eprintln s!"{e.words}\n\n{AnnotatedWasm.usage}"
    return UInt32.ofNat e.exitCode
  | .ok a =>
    let outcome : AnnotatedWasm.Command.Outcome ← a.run
    for message in outcome.messages do
      IO.eprintln message
    return UInt32.ofNat outcome.exitCode
