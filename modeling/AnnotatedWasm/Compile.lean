import AnnotatedWasm.Grammar.Stmt
import AnnotatedWasm.Lowering.Module
import AnnotatedWasm.Wasm.Exports

/-!
The whole way from a source text to a WebAssembly binary.
-/

namespace AnnotatedWasm

/-- The WebAssembly form of a module, whether or not its exports have names of their own. -/
def encodeModule (m : Ir.Module) : Logged CompileError Wasm.Module := do
  match Wasm.Module.ofIr m with
  | .error e => throw (.encoding e)
  | .ok w =>
    report (.encoded m.functions.length m.globals.length w.types.length w.bytes.length)
    return w

/-- The WebAssembly form of a module in which no two exports share a name. -/
def assemble (m : Ir.Module) : Logged CompileError Wasm.Module := do
  let w ← encodeModule m
  match w.duplicateExport? with
  | some (name, offset) => throw (.duplicateExport name offset)
  | none => return w

/-- The WebAssembly form of a parsed source. -/
def compileModule (options : Options) (m : Syntax.Module) : Logged CompileError Wasm.Module := do
  assemble (← lower options m)

/-- What is wrong with a source. -/
inductive SourceError where
  | parse (cause : Grammar.ParseError)
  | compile (cause : CompileError)
deriving Repr, DecidableEq

namespace SourceError

def message : SourceError → String
  | parse e => e.message
  | compile e => e.message

def span? : SourceError → Option Span
  | parse e => some e.span
  | compile e => e.span?

/-- The error as reported for a file: the file, the line if there is one, and the message. -/
def report (file source : String) (e : SourceError) : String :=
  let place := match e.span? with
    | some span => s!", line {(LineTable.ofSource source).lineOf span}"
    | none => ""
  s!"\"{file}\"{place}: {e.message}"

end SourceError

/-- A compiled source. -/
structure Artifact where
  module : Ir.Module
  binary : Wasm.Module

def Artifact.bytes (a : Artifact) : List UInt8 := a.binary.bytes

def orCompileError {α : Type} (x : Logged CompileError α) : Logged SourceError α :=
  ExceptT.adapt SourceError.compile x

/-- Compiles a source text; `file` is its name for the log. There is nothing to compile where no
function is marked. -/
def compileSource (options : Options) (file source : String) :
    Logged SourceError (Option Artifact) := do
  match Grammar.parse source with
  | .error e => throw (.parse e)
  | .ok m =>
    let module ← orCompileError (lower options m)
    if module.functions.isEmpty then
      return none
    let binary ← orCompileError (assemble module)
    AnnotatedWasm.report (.compiled file module.functions.length binary.bytes.length)
    return some ⟨module, binary⟩

end AnnotatedWasm
