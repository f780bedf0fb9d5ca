import AnnotatedWasm.Ir.Node
import AnnotatedWasm.Wasm.Binary

/-!
From the intermediate code to a WebAssembly module.

Emission turns names into indices: labels into depths, functions and globals into their
positions, types into entries of the type table, and string constants into data segments. It
fails at the first name that stands for nothing.
-/

namespace AnnotatedWasm.Wasm

/-- Why a module of intermediate code has no WebAssembly form. -/
inductive EmitError where
  | voidLocal (function : String)
  | unknownLabel (label : Ir.Label)
  | unknownFunction (name : String)
  | unknownGlobal (name : String)
deriving Repr, DecidableEq

def EmitError.message : EmitError → String
  | voidLocal f => s!"void local in function '{f}'"
  | unknownLabel l => s!"branch to unknown label '{l}'"
  | unknownFunction f => s!"call to unknown function '{f}'"
  | unknownGlobal g => s!"reference to unknown global '{g}'"

/-- What emission adds to. -/
structure Pool where
  types : TypeTable := {}
  /-- The segments of the string constants so far. -/
  data : List (List UInt8) := []
deriving Repr, DecidableEq

abbrev Emit := StateT Pool (Except EmitError)

/-- The names of a module's functions and globals, in order. -/
structure Symbols where
  functions : List String
  globals : List String

def Symbols.ofModule (m : Ir.Module) : Symbols :=
  ⟨m.functions.map (·.name), m.globals.map (·.name)⟩

/-- The position of a name; of two equal names the later one counts. -/
def lastIndexOf? (name : String) : List String → Option Nat
  | [] => none
  | n :: ns =>
    match lastIndexOf? name ns with
    | some i => some (i + 1)
    | none => if n = name then some 0 else none

def Symbols.function (s : Symbols) (name : String) : Emit Nat :=
  match lastIndexOf? name s.functions with
  | some i => return i
  | none => throw (.unknownFunction name)

def Symbols.global (s : Symbols) (name : String) : Emit Nat :=
  match lastIndexOf? name s.globals with
  | some i => return i
  | none => throw (.unknownGlobal name)

/-- The index of an array type. -/
def arrayType (s : Storage) : Emit Nat := do
  let (i, types) := (← get).types.array s
  modify ({ · with types })
  return i

def valType (t : Ty) : Emit (Option ValType) := do
  let (v, types) := (← get).types.valType t
  modify ({ · with types })
  return v

/-- Adds a segment and gives its number. -/
def addSegment (bytes : List UInt8) : Emit Nat := do
  let s ← get
  set { s with data := s.data ++ [bytes] }
  return s.data.length

/-- The constructs around a place, the innermost first; those without a label count too. -/
abbrev Labels := List (Option Ir.Label)

def depthOf (labels : Labels) (label : Ir.Label) : Emit Nat :=
  match labels.idxOf? (some label) with
  | some d => return d
  | none => throw (.unknownLabel label)

/-- A string is copied from its own segment, whole. -/
def emitString (value : String) : Emit (List Instr) := do
  let bytes := value.toUTF8.toList
  let t ← arrayType .byte
  let s ← addSegment bytes
  return [.const (.i32 0), .const (.i32 bytes.length), .arrayNewData t s]

mutual

/-- The instructions of a node, operands first. -/
def emit (symbols : Symbols) (labels : Labels) : Ir.Node → Emit (List Instr)
  | .nop => return [.nop]
  | .unreachable => return [.unreachable]
  | .const v => return [.const v]
  | .string s => emitString s
  | .localGet i _ => return [.localGet i]
  | .localSet i v => do
    let v ← emit symbols labels v
    return v ++ [.localSet i]
  | .globalGet g _ => do
    let i ← symbols.global g
    return [.globalGet i]
  | .globalSet g v => do
    let v ← emit symbols labels v
    let i ← symbols.global g
    return v ++ [.globalSet i]
  | .unary op v => do
    let v ← emit symbols labels v
    return v ++ [.unary op]
  | .binary op a b => do
    let a ← emit symbols labels a
    let b ← emit symbols labels b
    return a ++ b ++ [.binary op]
  | .select c a b => do
    let ty := a.ty
    let a ← emit symbols labels a
    let b ← emit symbols labels b
    let c ← emit symbols labels c
    let last ←
      if ty.isReference then do
        match ← valType ty with
        | some t => pure (Instr.selectTyped t)
        | none => pure .select
      else pure .select
    return a ++ b ++ c ++ [last]
  | .block label body ty => do
    let t ← valType ty
    let body ← emitAll symbols (label :: labels) body
    return [.block t body]
  | .loop label body => do
    let body ← emit symbols (some label :: labels) body
    return [.loop body]
  | .ifElse c a none => do
    let c ← emit symbols labels c
    let a ← emit symbols (none :: labels) a
    return c ++ [.ifThen a]
  | .ifElse c a (some b) => do
    let c ← emit symbols labels c
    let a ← emit symbols (none :: labels) a
    let b ← emit symbols (none :: labels) b
    return c ++ [.ifElse a b]
  | .br label => do
    let d ← depthOf labels label
    return [.br d]
  | .brIf label c => do
    let d ← depthOf labels label
    let c ← emit symbols labels c
    return c ++ [.brIf d]
  | .call f args _ => do
    let args ← emitAll symbols labels args
    let i ← symbols.function f
    return args ++ [.call i]
  | .ret none => return [.ret]
  | .ret (some v) => do
    let v ← emit symbols labels v
    return v ++ [.ret]
  | .drop v => do
    let v ← emit symbols labels v
    return v ++ [.drop]
  | .arrayNew k init size => do
    let init ← emit symbols labels init
    let size ← emit symbols labels size
    let t ← arrayType (.num k)
    return init ++ size ++ [.arrayNew t]
  | .arrayNewFixed k values => do
    let n := values.length
    let values ← emitAll symbols labels values
    let t ← arrayType (.num k)
    return values ++ [.arrayNewFixed t n]
  | .arrayGet k a i => do
    let a ← emit symbols labels a
    let i ← emit symbols labels i
    let t ← arrayType (.num k)
    return a ++ i ++ [.arrayGet t]
  | .arraySet k a i v => do
    let a ← emit symbols labels a
    let i ← emit symbols labels i
    let v ← emit symbols labels v
    let t ← arrayType (.num k)
    return a ++ i ++ v ++ [.arraySet t]
  | .arrayLen a => do
    let a ← emit symbols labels a
    return a ++ [.arrayLen]

def emitAll (symbols : Symbols) (labels : Labels) : List Ir.Node → Emit (List Instr)
  | [] => return []
  | n :: ns => do
    let first ← emit symbols labels n
    let rest ← emitAll symbols labels ns
    return first ++ rest

end

/-- The value types of the locals of a function, which must have some. -/
def localTypes (function : String) : List Ty → Emit (List ValType)
  | [] => return []
  | t :: ts => do
    match ← valType t with
    | none => throw (.voidLocal function)
    | some v => return v :: (← localTypes function ts)

/-- Neighbours that are equal, counted. -/
def runs : List ValType → List (Nat × ValType)
  | [] => []
  | v :: vs =>
    match runs vs with
    | (n, u) :: rest => if u = v then (n + 1, u) :: rest else (1, v) :: (n, u) :: rest
    | [] => [(1, v)]

/-- A function that has a result leaves it by a return, so the end of its body is not
reached. -/
def emitFunction (symbols : Symbols) (f : Ir.Function) : Emit Code := do
  let locals ← localTypes f.name f.locals
  let body ← emitAll symbols [] f.body
  return ⟨runs locals, if f.result.isVoid then body else body ++ [.unreachable]⟩

def emitFunctions (symbols : Symbols) : List Ir.Function → Emit (List Code)
  | [] => return []
  | f :: fs => do
    let code ← emitFunction symbols f
    return code :: (← emitFunctions symbols fs)

/-- The indices of the types of functions. -/
def functionTypes : List Ir.Function → Emit (List Nat)
  | [] => return []
  | f :: fs => do
    let (i, types) := (← get).types.func f.params f.result
    modify ({ · with types })
    return i :: (← functionTypes fs)

/-- Items with their positions. -/
def indexed {α : Type} (xs : List α) : List (Nat × α) := xs.zipIdx.map fun (x, i) => (i, x)

def exportsOf (m : Ir.Module) : List Export :=
  (indexed m.functions).map (fun (i, f) => ⟨f.name, .func, i⟩) ++
    (indexed m.globals).map (fun (i, g) => ⟨g.name, .global, i⟩)

def namesOf (m : Ir.Module) : Names where
  functions := (indexed m.functions).map fun (i, f) => (i, f.name)
  locals := (indexed m.functions).map fun (i, f) => (i, f.localNames)
  globals := (indexed m.globals).map fun (i, g) => (i, g.name)

/-- The WebAssembly form of a module. The types of the functions enter the table first, then
those that the bodies use. -/
def Module.ofIr (m : Ir.Module) : Except EmitError Module := do
  let symbols := Symbols.ofModule m
  let emission : Emit (List Nat × List Code) := do
    let functions ← functionTypes m.functions
    let codes ← emitFunctions symbols m.functions
    return (functions, codes)
  let ((functions, codes), pool) ← emission.run {}
  return {
    types := pool.types.entries
    functions
    globals := m.globals.map fun g => ⟨g.kind, g.isMutable, g.init⟩
    exports := exportsOf m
    codes
    data := pool.data
    names := namesOf m }

/-- A module as a binary file. -/
def encode (m : Ir.Module) : Except EmitError (List UInt8) := return (← Module.ofIr m).bytes

end AnnotatedWasm.Wasm
