import AnnotatedWasm.Ir.Op
import AnnotatedWasm.Number.Literal
import AnnotatedWasm.Wasm.Type

/-!
WebAssembly modules in the abstract: structured instructions, and the contents of the sections.
-/

namespace AnnotatedWasm.Wasm

/-- An instruction. Numeric instructions are the operators of the intermediate code, and a
branch counts the constructs between itself and its target. -/
inductive Instr where
  | nop
  | unreachable
  | const (value : Literal)
  | localGet (index : Nat)
  | localSet (index : Nat)
  | globalGet (index : Nat)
  | globalSet (index : Nat)
  | unary (op : Ir.UnaryOp)
  | binary (op : Ir.BinaryOp)
  | select
  /-- Selection between values that are not numbers names their type. -/
  | selectTyped (ty : ValType)
  | block (result : Option ValType) (body : List Instr)
  | loop (body : List Instr)
  | ifThen (body : List Instr)
  | ifElse (thenBody elseBody : List Instr)
  | br (depth : Nat)
  | brIf (depth : Nat)
  | call (function : Nat)
  | ret
  | drop
  | arrayNew (type : Nat)
  | arrayNewFixed (type size : Nat)
  | arrayNewData (type segment : Nat)
  | arrayGet (type : Nat)
  | arraySet (type : Nat)
  | arrayLen

structure Global where
  kind : NumKind
  isMutable : Bool
  init : Literal
deriving Repr, DecidableEq

inductive ExportKind where
  | func
  | global
deriving Repr, DecidableEq

structure Export where
  name : String
  kind : ExportKind
  index : Nat
deriving Repr, DecidableEq

/-- The locals of a function, in runs of one type, and its instructions. -/
structure Code where
  locals : List (Nat × ValType)
  body : List Instr

/-- Names for debuggers, each with the index of what it names. -/
structure Names where
  functions : List (Nat × String)
  locals : List (Nat × List (Nat × String))
  globals : List (Nat × String)
deriving Repr, DecidableEq

structure Module where
  types : List TypeDef
  /-- The type of each function. -/
  functions : List Nat
  globals : List Global
  exports : List Export
  codes : List Code
  /-- Segments that instructions build strings from. -/
  data : List (List UInt8)
  names : Names

end AnnotatedWasm.Wasm
