import AnnotatedWasm.Command.Args
import AnnotatedWasm.CompileFile

/-!
A run of the command over the files that its arguments name.
-/

namespace AnnotatedWasm.Command

/-- How a run ends. -/
structure Outcome where
  exitCode : Nat
  /-- The log and the failures, in the order in which they came up. -/
  messages : List String
deriving Repr, DecidableEq

namespace Arguments

def detail (a : Arguments) : Level := if a.verbosity = 0 then .info else .debug

def output (a : Arguments) : Output := ⟨a.outDir.map Path.ofText, a.emitIr⟩

section

variable {m : Type → Type} [Monad m] [Files m]

/-- Compiles one file. Gives the messages, and whether it failed. -/
def compileOne (a : Arguments) (file : String) : m (List String × Bool) := do
  let (result, events) ← (compileFile a.options a.output (Path.ofText file)).run.run []
  let log := logLines a.detail events
  match result with
  | .ok _ => return (log, false)
  | .error e => return (log ++ [e.message], true)

/-- Compiles files in turn; one that fails does not stop the others. Gives the messages, and how
many failed. -/
def compileAll (a : Arguments) : List String → m (List String × Nat)
  | [] => return ([], 0)
  | file :: files => do
    let (first, failed) ← a.compileOne file
    let (rest, n) ← a.compileAll files
    return (first ++ rest, if failed then n + 1 else n)

def run (a : Arguments) : m Outcome := do
  let (messages, failed) ← a.compileAll a.files
  if failed = 0 then
    return ⟨0, messages⟩
  return ⟨1, messages ++ [s!"{failed} of {a.files.length} files failed to compile"]⟩

end

end Arguments

end AnnotatedWasm.Command
