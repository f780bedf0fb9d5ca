import AnnotatedWasm.Wasm.Leb128
import AnnotatedWasm.Wasm.Module

/-!
The binary format of modules.
-/

namespace AnnotatedWasm.Wasm

/-- The `n` low bytes of a number, the lowest first. -/
def littleEndian : Nat → Nat → List UInt8
  | 0, _ => []
  | n + 1, v => UInt8.ofNat (v % 256) :: littleEndian n (v / 256)

/-- A sequence with its length in front. -/
def vector {α : Type} (item : α → List UInt8) (xs : List α) : List UInt8 :=
  uleb xs.length ++ xs.flatMap item

/-- Bytes with their number in front. -/
def sized (bytes : List UInt8) : List UInt8 := uleb bytes.length ++ bytes

def nameBytes (s : String) : List UInt8 := sized s.toUTF8.toList

def kindByte : NumKind → UInt8
  | .i32 => 0x7f
  | .i64 => 0x7e
  | .f32 => 0x7d
  | .f64 => 0x7c

namespace ValType

def bytes : ValType → List UInt8
  | num k => [kindByte k]
  | ref i => 0x63 :: sleb i

end ValType

def Storage.byteCode : Storage → UInt8
  | num k => kindByte k
  | byte => 0x78

def TypeDef.bytes : TypeDef → List UInt8
  | array s => [0x5e, s.byteCode, 0x01]
  | func ps rs => 0x60 :: vector ValType.bytes ps ++ vector ValType.bytes rs

def constBytes : Literal → List UInt8
  | .int .w32 v => 0x41 :: sleb v.toInt
  | .int .w64 v => 0x42 :: sleb v.toInt
  | .float .w32 b => 0x43 :: littleEndian 4 b.toNat
  | .float .w64 b => 0x44 :: littleEndian 8 b.toNat

/-- Truncation to an integer is the saturating one. -/
def unaryBytes : Ir.UnaryOp → List UInt8
  | .extend => [0xac]
  | .wrap => [0xa7]
  | .convert .w32 .w32 => [0xb2]
  | .convert .w32 .w64 => [0xb7]
  | .convert .w64 .w32 => [0xb4]
  | .convert .w64 .w64 => [0xb9]
  | .truncate .w32 .w32 => [0xfc, 0x00]
  | .truncate .w64 .w32 => [0xfc, 0x02]
  | .truncate .w32 .w64 => [0xfc, 0x04]
  | .truncate .w64 .w64 => [0xfc, 0x06]
  | .promote => [0xbb]
  | .demote => [0xb6]
  | .neg .w32 => [0x8c]
  | .neg .w64 => [0x9a]
  | .floor .w32 => [0x8e]
  | .floor .w64 => [0x9c]
  | .ceil => [0x9b]

def arithByte : Ir.Arith → NumKind → UInt8
  | .add, .i32 => 0x6a
  | .sub, .i32 => 0x6b
  | .mul, .i32 => 0x6c
  | .div, .i32 => 0x6d
  | .add, .i64 => 0x7c
  | .sub, .i64 => 0x7d
  | .mul, .i64 => 0x7e
  | .div, .i64 => 0x7f
  | .add, .f32 => 0x92
  | .sub, .f32 => 0x93
  | .mul, .f32 => 0x94
  | .div, .f32 => 0x95
  | .add, .f64 => 0xa0
  | .sub, .f64 => 0xa1
  | .mul, .f64 => 0xa2
  | .div, .f64 => 0xa3

def compareByte : Ir.Comparison → NumKind → UInt8
  | .eq, .i32 => 0x46
  | .ne, .i32 => 0x47
  | .lt, .i32 => 0x48
  | .gt, .i32 => 0x4a
  | .le, .i32 => 0x4c
  | .ge, .i32 => 0x4e
  | .eq, .i64 => 0x51
  | .ne, .i64 => 0x52
  | .lt, .i64 => 0x53
  | .gt, .i64 => 0x55
  | .le, .i64 => 0x57
  | .ge, .i64 => 0x59
  | .eq, .f32 => 0x5b
  | .ne, .f32 => 0x5c
  | .lt, .f32 => 0x5d
  | .gt, .f32 => 0x5e
  | .le, .f32 => 0x5f
  | .ge, .f32 => 0x60
  | .eq, .f64 => 0x61
  | .ne, .f64 => 0x62
  | .lt, .f64 => 0x63
  | .gt, .f64 => 0x64
  | .le, .f64 => 0x65
  | .ge, .f64 => 0x66

def binaryByte : Ir.BinaryOp → UInt8
  | .arith op k => arithByte op k
  | .rem .w32 => 0x6f
  | .rem .w64 => 0x81
  | .compare c k => compareByte c k

/-- The type of a construct that takes nothing and leaves at most one value. -/
def blockTypeBytes : Option ValType → List UInt8
  | none => [0x40]
  | some t => t.bytes

namespace Instr

mutual

def bytes : Instr → List UInt8
  | nop => [0x01]
  | unreachable => [0x00]
  | const v => constBytes v
  | localGet i => 0x20 :: uleb i
  | localSet i => 0x21 :: uleb i
  | globalGet i => 0x23 :: uleb i
  | globalSet i => 0x24 :: uleb i
  | unary op => unaryBytes op
  | binary op => [binaryByte op]
  | select => [0x1b]
  | selectTyped t => 0x1c :: 0x01 :: t.bytes
  | block t body => 0x02 :: blockTypeBytes t ++ bytesAll body ++ [0x0b]
  | loop body => 0x03 :: 0x40 :: bytesAll body ++ [0x0b]
  | ifThen body => 0x04 :: 0x40 :: bytesAll body ++ [0x0b]
  | ifElse a b => 0x04 :: 0x40 :: bytesAll a ++ [0x05] ++ bytesAll b ++ [0x0b]
  | br d => 0x0c :: uleb d
  | brIf d => 0x0d :: uleb d
  | call f => 0x10 :: uleb f
  | ret => [0x0f]
  | drop => [0x1a]
  | arrayNew t => 0xfb :: 0x06 :: uleb t
  | arrayNewFixed t n => 0xfb :: 0x08 :: uleb t ++ uleb n
  | arrayNewData t s => 0xfb :: 0x09 :: uleb t ++ uleb s
  | arrayGet t => 0xfb :: 0x0b :: uleb t
  | arraySet t => 0xfb :: 0x0e :: uleb t
  | arrayLen => [0xfb, 0x0f]

def bytesAll : List Instr → List UInt8
  | [] => []
  | i :: is => bytes i ++ bytesAll is

end

end Instr

def Global.bytes (g : Global) : List UInt8 :=
  [kindByte g.kind, if g.isMutable then 0x01 else 0x00] ++ constBytes g.init ++ [0x0b]

def ExportKind.byte : ExportKind → UInt8
  | func => 0x00
  | global => 0x03

def Export.bytes (e : Export) : List UInt8 := nameBytes e.name ++ e.kind.byte :: uleb e.index

def localsBytes (run : Nat × ValType) : List UInt8 := uleb run.1 ++ run.2.bytes

def Code.bytes (c : Code) : List UInt8 :=
  sized (vector localsBytes c.locals ++ Instr.bytesAll c.body ++ [0x0b])

/-- A segment that is copied from only when an instruction asks for it. -/
def segmentBytes (bytes : List UInt8) : List UInt8 := 0x01 :: sized bytes

def nameEntry (entry : Nat × String) : List UInt8 := uleb entry.1 ++ nameBytes entry.2

def localNamesEntry (entry : Nat × List (Nat × String)) : List UInt8 :=
  uleb entry.1 ++ vector nameEntry entry.2

/-- A part with its code and its size in front, as sections have it and parts of the name
section. -/
def part (id : UInt8) (payload : List UInt8) : List UInt8 := id :: sized payload

def Names.bytes (n : Names) : List UInt8 :=
  nameBytes "name" ++ part 0x01 (vector nameEntry n.functions) ++
    part 0x02 (vector localNamesEntry n.locals) ++
    part 0x07 (vector nameEntry n.globals)

namespace Module

def preamble : List UInt8 := [0x00, 0x61, 0x73, 0x6d, 0x01, 0x00, 0x00, 0x00]

/-- Everything before the exports. -/
def headBytes (m : Module) : List UInt8 :=
  preamble ++ part 0x01 (vector TypeDef.bytes m.types) ++
    part 0x03 (vector uleb m.functions) ++
    if m.globals.isEmpty then [] else part 0x06 (vector Global.bytes m.globals)

def dataCountBytes (m : Module) : List UInt8 :=
  if m.data.isEmpty then [] else part 0x0c (uleb m.data.length)

def dataBytes (m : Module) : List UInt8 :=
  if m.data.isEmpty then [] else part 0x0b (vector segmentBytes m.data)

/-- The module as a file. Sections for globals and data are left out where there are none. -/
def bytes (m : Module) : List UInt8 :=
  m.headBytes ++ part 0x07 (vector Export.bytes m.exports) ++ m.dataCountBytes ++
    part 0x0a (vector Code.bytes m.codes) ++ m.dataBytes ++ part 0x00 m.names.bytes

end Module

end AnnotatedWasm.Wasm
