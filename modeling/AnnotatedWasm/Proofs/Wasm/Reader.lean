import AnnotatedWasm.Wasm.Module
import Mathlib

/-!
A reader of the binary format of modules.

It follows the grammar of the format for the types, instructions and sections that modules here
can have. Numbers have a number of bits at most, which is 32 for indices and sizes in the format; a
reader may also set no limit. A section, a function body and a part of the name section are cut out by their
declared sizes and have to be used up.
-/

namespace AnnotatedWasm.Wasm

/-- Reads from the front of bytes and leaves the rest. -/
abbrev Reader := StateT (List UInt8) Option

/-- How many bits a number may have, if there is a limit. -/
abbrev Limit := Option Nat

namespace Limit

def Holds : Limit → Nat → Prop
  | none, _ => True
  | some bits, n => n < 2 ^ bits

def HoldsSigned : Limit → Int → Prop
  | none, _ => True
  | some bits, n => -2 ^ (bits - 1) ≤ n ∧ n < 2 ^ (bits - 1)

instance : ∀ (w : Limit) (n : Nat), Decidable (w.Holds n)
  | none, _ => .isTrue trivial
  | some bits, n => inferInstanceAs (Decidable (n < 2 ^ bits))

instance : ∀ (w : Limit) (n : Int), Decidable (w.HoldsSigned n)
  | none, _ => .isTrue trivial
  | some bits, n => inferInstanceAs (Decidable (-2 ^ (bits - 1) ≤ n ∧ n < 2 ^ (bits - 1)))

/-- Whether another byte may follow the one that takes seven of the bits. -/
def goesOn (w : Limit) : Bool := w.all (7 < ·)

/-- What is left for the bytes that follow. -/
def less (w : Limit) : Limit := w.map (· - 7)

/-- A reference type holds an index as a signed number, which takes one bit more. -/
def withSign (w : Limit) : Limit := w.map (· + 1)

end Limit

namespace Reader

variable {α : Type}

def byte : Reader UInt8
  | [] => none
  | c :: cs => some (c, cs)

/-- A byte that has to be this one. -/
def expect (c : UInt8) : Reader Unit := do guard ((← byte) = c)

def take (n : Nat) : Reader (List UInt8) := fun cs =>
  if n ≤ cs.length then some (cs.take n, cs.drop n) else none

/-- All that is left. -/
def rest : Reader (List UInt8) := fun cs => some (cs, [])

/-- What bytes stand for that have to be used up. -/
def whole (r : Reader α) (cs : List UInt8) : Option α :=
  match r.run cs with
  | some (a, []) => some a
  | _ => none

/-! ### Numbers -/

/-- A number in base 128, the low digit first; every byte but the last has its high bit set. -/
def unsigned : Limit → List UInt8 → Option (Nat × List UInt8)
  | _, [] => none
  | w, c :: cs =>
    if c.toNat < 128 then
      if w.Holds c.toNat then some (c.toNat, cs) else none
    else if w.goesOn then do
      let (n, cs) ← unsigned w.less cs
      return (128 * n + (c.toNat - 128), cs)
    else none

/-- The same for a signed number: the last byte stands for a number from -64 to 63. -/
def signed : Limit → List UInt8 → Option (Int × List UInt8)
  | _, [] => none
  | w, c :: cs =>
    if c.toNat < 128 then
      let last : Int := if c.toNat < 64 then c.toNat else c.toNat - 128
      if w.HoldsSigned last then some (last, cs) else none
    else if w.goesOn then do
      let (n, cs) ← signed w.less cs
      return (128 * n + (c.toNat - 128), cs)
    else none

/-- A number of so many bytes, the lowest first. -/
def fixed : Nat → Reader Nat
  | 0 => return 0
  | n + 1 => do
    let c ← byte
    return c.toNat + 256 * (← fixed n)

/-! ### Sequences -/

def items (r : Reader α) : Nat → Reader (List α)
  | 0 => return []
  | n + 1 => do
    let a ← r
    return a :: (← items r n)

/-- A sequence with its length in front. -/
def counted (w : Limit) (r : Reader α) : Reader (List α) := do
  let n ← unsigned w
  items r n

/-- Something with the number of its bytes in front, which has to use them up. -/
def boxed (w : Limit) (r : Reader α) : Reader α := do
  let n ← unsigned w
  whole r (← take n)

def text (w : Limit) : Reader String := do
  String.fromUTF8? (← boxed w rest).toByteArray

/-! ### Types -/

def kind? : UInt8 → Option NumKind
  | 0x7f => some .i32
  | 0x7e => some .i64
  | 0x7d => some .f32
  | 0x7c => some .f64
  | _ => none

def valTypeFrom (w : Limit) : UInt8 → Reader ValType
  | 0x63 => do
    let n ← signed w.withSign
    guard (0 ≤ n)
    return .ref n.toNat
  | c => return .num (← kind? c)

def valType (w : Limit) : Reader ValType := do valTypeFrom w (← byte)

def storage : Reader Storage := do
  match ← byte with
  | 0x78 => return .byte
  | c => return .num (← kind? c)

def typeDef (w : Limit) : Reader TypeDef := do
  match ← byte with
  | 0x5e => do
    let s ← storage
    expect 0x01
    return .array s
  | 0x60 => return .func (← counted w (valType w)) (← counted w (valType w))
  | _ => failure

/-- The type of a construct: empty, or one value. -/
def blockType (w : Limit) : Reader (Option ValType) := do
  match ← byte with
  | 0x40 => return none
  | c => return some (← valTypeFrom w c)

/-! ### Instructions -/

def unaryOp? : UInt8 → Option Ir.UnaryOp
  | 0xac => some .extend
  | 0xa7 => some .wrap
  | 0xb2 => some (.convert .w32 .w32)
  | 0xb7 => some (.convert .w32 .w64)
  | 0xb4 => some (.convert .w64 .w32)
  | 0xb9 => some (.convert .w64 .w64)
  | 0xbb => some .promote
  | 0xb6 => some .demote
  | 0x8c => some (.neg .w32)
  | 0x9a => some (.neg .w64)
  | 0x8e => some (.floor .w32)
  | 0x9c => some (.floor .w64)
  | 0x9b => some .ceil
  | _ => none

/-- Saturating truncations, which are numbered on their own. -/
def truncation? : Nat → Option Ir.UnaryOp
  | 0 => some (.truncate .w32 .w32)
  | 2 => some (.truncate .w64 .w32)
  | 4 => some (.truncate .w32 .w64)
  | 6 => some (.truncate .w64 .w64)
  | _ => none

def binaryOp? : UInt8 → Option Ir.BinaryOp
  | 0x46 => some (.compare .eq .i32)
  | 0x47 => some (.compare .ne .i32)
  | 0x48 => some (.compare .lt .i32)
  | 0x4a => some (.compare .gt .i32)
  | 0x4c => some (.compare .le .i32)
  | 0x4e => some (.compare .ge .i32)
  | 0x51 => some (.compare .eq .i64)
  | 0x52 => some (.compare .ne .i64)
  | 0x53 => some (.compare .lt .i64)
  | 0x55 => some (.compare .gt .i64)
  | 0x57 => some (.compare .le .i64)
  | 0x59 => some (.compare .ge .i64)
  | 0x5b => some (.compare .eq .f32)
  | 0x5c => some (.compare .ne .f32)
  | 0x5d => some (.compare .lt .f32)
  | 0x5e => some (.compare .gt .f32)
  | 0x5f => some (.compare .le .f32)
  | 0x60 => some (.compare .ge .f32)
  | 0x61 => some (.compare .eq .f64)
  | 0x62 => some (.compare .ne .f64)
  | 0x63 => some (.compare .lt .f64)
  | 0x64 => some (.compare .gt .f64)
  | 0x65 => some (.compare .le .f64)
  | 0x66 => some (.compare .ge .f64)
  | 0x6a => some (.arith .add .i32)
  | 0x6b => some (.arith .sub .i32)
  | 0x6c => some (.arith .mul .i32)
  | 0x6d => some (.arith .div .i32)
  | 0x6f => some (.rem .w32)
  | 0x7c => some (.arith .add .i64)
  | 0x7d => some (.arith .sub .i64)
  | 0x7e => some (.arith .mul .i64)
  | 0x7f => some (.arith .div .i64)
  | 0x81 => some (.rem .w64)
  | 0x92 => some (.arith .add .f32)
  | 0x93 => some (.arith .sub .f32)
  | 0x94 => some (.arith .mul .f32)
  | 0x95 => some (.arith .div .f32)
  | 0xa0 => some (.arith .add .f64)
  | 0xa1 => some (.arith .sub .f64)
  | 0xa2 => some (.arith .mul .f64)
  | 0xa3 => some (.arith .div .f64)
  | _ => none

/-- Instructions on arrays, which are numbered on their own. -/
def arrayInstr (w : Limit) : Nat → Reader Instr
  | 0x06 => return .arrayNew (← unsigned w)
  | 0x08 => return .arrayNewFixed (← unsigned w) (← unsigned w)
  | 0x09 => return .arrayNewData (← unsigned w) (← unsigned w)
  | 0x0b => return .arrayGet (← unsigned w)
  | 0x0e => return .arraySet (← unsigned w)
  | 0x0f => return .arrayLen
  | _ => failure

/-- The instructions of a construct that ends with `end`. -/
def closed (body : Reader (List Instr × Bool)) : Reader (List Instr) := do
  let (is, isElse) ← body
  guard (!isElse)
  return is

/-- A conditional after the instructions that run if its condition holds. -/
def conditional (body : Reader (List Instr × Bool)) : List Instr × Bool → Reader Instr
  | (is, false) => return .ifThen is
  | (is, true) => return .ifElse is (← closed body)

/-- An instruction after its first byte. What reads the instructions inside of a construct also
tells whether they end with `else`. -/
def instr (w : Limit) (body : Reader (List Instr × Bool)) : UInt8 → Reader Instr
  | 0x00 => return .unreachable
  | 0x01 => return .nop
  | 0x02 => return .block (← blockType w) (← closed body)
  | 0x03 => do
    expect 0x40
    return .loop (← closed body)
  | 0x04 => do
    expect 0x40
    conditional body (← body)
  | 0x0c => return .br (← unsigned w)
  | 0x0d => return .brIf (← unsigned w)
  | 0x0f => return .ret
  | 0x10 => return .call (← unsigned w)
  | 0x1a => return .drop
  | 0x1b => return .select
  | 0x1c => do
    expect 0x01
    return .selectTyped (← valType w)
  | 0x20 => return .localGet (← unsigned w)
  | 0x21 => return .localSet (← unsigned w)
  | 0x23 => return .globalGet (← unsigned w)
  | 0x24 => return .globalSet (← unsigned w)
  | 0x41 => return .const (.i32 (← signed (some 32)))
  | 0x42 => return .const (.i64 (← signed (some 64)))
  | 0x43 => return .const (.float .w32 (.ofNat _ (← fixed 4)))
  | 0x44 => return .const (.float .w64 (.ofNat _ (← fixed 8)))
  | 0xfb => do arrayInstr w (← unsigned (some 32))
  | 0xfc => do return .unary (← truncation? (← unsigned (some 32)))
  | c =>
    match unaryOp? c with
    | some op => return .unary op
    | none => return .binary (← binaryOp? c)

/-- Instructions up to the `end` or `else` that closes them, of which there are less than a
number. -/
def instrs (w : Limit) : Nat → Reader (List Instr × Bool)
  | 0 => failure
  | fuel + 1 => do
    match ← byte with
    | 0x0b => return ([], false)
    | 0x05 => return ([], true)
    | c => do
      let i ← instr w (instrs w fuel) c
      let (is, isElse) ← instrs w fuel
      return (i :: is, isElse)

/-- Instructions that end with `end`. There are no more than bytes. -/
def expr (w : Limit) : Reader (List Instr) := do
  let cs ← get
  closed (instrs w cs.length)

/-! ### Entries of sections -/

def isMutable? : UInt8 → Option Bool
  | 0x00 => some false
  | 0x01 => some true
  | _ => none

/-- A global starts as a constant. -/
def global (w : Limit) : Reader Global := do
  let kind ← kind? (← byte)
  let isMutable ← isMutable? (← byte)
  match ← expr w with
  | [.const init] => return { kind, isMutable, init }
  | _ => failure

def exportKind? : UInt8 → Option ExportKind
  | 0x00 => some .func
  | 0x03 => some .global
  | _ => none

def exportEntry (w : Limit) : Reader Export := do
  let name ← text w
  let kind ← exportKind? (← byte)
  return { name, kind, index := ← unsigned w }

def localRun (w : Limit) : Reader (Nat × ValType) := return (← unsigned w, ← valType w)

def code (w : Limit) : Reader Code :=
  boxed w do return { locals := ← counted w (localRun w), body := ← expr w }

/-- A segment that is copied from only when an instruction asks for it. -/
def segment (w : Limit) : Reader (List UInt8) := do
  expect 0x01
  boxed w rest

def namedIndex (w : Limit) : Reader (Nat × String) := return (← unsigned w, ← text w)

def localNames (w : Limit) : Reader (Nat × List (Nat × String)) :=
  return (← unsigned w, ← counted w (namedIndex w))

end Reader

/-! ### Sections -/

/-- A section, or a part of the name section, with its code. -/
structure Section where
  id : UInt8
  payload : List UInt8

/-- Sections up to the end, of which there are at most a number. -/
def readParts (w : Limit) : Nat → List UInt8 → Option (List Section)
  | _, [] => some []
  | 0, _ :: _ => none
  | fuel + 1, id :: cs => do
    let (payload, cs) ← (Reader.boxed w Reader.rest).run cs
    return ⟨id, payload⟩ :: (← readParts w fuel cs)

/-- Takes the next section if it has this code. -/
def nextPart {α : Type} (id : UInt8) (r : Reader α) : StateT (List Section) Option (Option α) := do
  match ← get with
  | s :: rest =>
    if s.id = id then do
      set rest
      return some (← Reader.whole r s.payload)
    else return none
  | [] => return none

/-- A section that is not there has no entries. -/
def entries {α : Type} (w : Limit) (id : UInt8) (r : Reader α) :
    StateT (List Section) Option (List α) :=
  return (← nextPart id (Reader.counted w r)).getD []

def noneLeft : StateT (List Section) Option Unit := do guard (← get).isEmpty

def Names.ofParts (w : Limit) : StateT (List Section) Option Names := do
  let functions ← entries w 0x01 (Reader.namedIndex w)
  let locals ← entries w 0x02 (Reader.localNames w)
  let globals ← entries w 0x07 (Reader.namedIndex w)
  noneLeft
  return { functions, locals, globals }

/-- A custom section with the title `name`. -/
def Reader.names (w : Limit) : Reader Names := do
  guard ((← text w) = "name")
  let cs ← rest
  (Names.ofParts w).run' (← readParts w cs.length cs)

/-- The contents of sections, which come in this order. There are as many bodies as functions, and
as many segments as are announced. -/
def Module.ofParts (w : Limit) : StateT (List Section) Option Module := do
  let types ← entries w 0x01 (Reader.typeDef w)
  let functions ← entries w 0x03 (Reader.unsigned w)
  let globals ← entries w 0x06 (Reader.global w)
  let exports ← entries w 0x07 (Reader.exportEntry w)
  let announced ← nextPart 0x0c (Reader.unsigned w)
  let codes ← entries w 0x0a (Reader.code w)
  let data ← entries w 0x0b (Reader.segment w)
  let names ← nextPart 0x00 (Reader.names w)
  noneLeft
  guard (codes.length = functions.length)
  guard (announced.getD 0 = data.length)
  return { types, functions, globals, exports, codes, data, names := names.getD ⟨[], [], []⟩ }

/-- The sections of a file, after the magic number and the version. -/
def readSections (w : Limit) : List UInt8 → Option (List Section)
  | 0x00 :: 0x61 :: 0x73 :: 0x6d :: 0x01 :: 0x00 :: 0x00 :: 0x00 :: cs =>
    readParts w cs.length cs
  | _ => none

end AnnotatedWasm.Wasm
