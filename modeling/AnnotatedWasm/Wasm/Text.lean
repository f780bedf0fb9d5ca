import AnnotatedWasm.Wasm.Module

/-!
The text format of modules. Instructions refer to everything by index; functions and slots
carry their names where they are declared.
-/

namespace AnnotatedWasm.Wasm

def Storage.text : Storage → String
  | num k => k.name
  | byte => "i8"

def ValType.text : ValType → String
  | num k => k.name
  | ref i => s!"(ref null {i})"

/-- A declaration of one or more types under a word. -/
def typesText (word : String) (types : List ValType) : String :=
  let list := String.intercalate " " (types.map ValType.text)
  if types.isEmpty then "" else s!" ({word} {list})"

def TypeDef.text : TypeDef → String
  | array s => s!"(array (mut {s.text}))"
  | func ps rs =>
    let params := typesText "param" ps
    let results := typesText "result" rs
    s!"(func{params}{results})"

/-- The text format writes the words for what is no number in small letters. -/
def constText (v : Literal) : String := v.text.toLower

def unaryText : Ir.UnaryOp → String
  | .extend => "i64.extend_i32_s"
  | .wrap => "i32.wrap_i64"
  | .convert s t => s!"f{t.digits}.convert_i{s.digits}_s"
  | .truncate s t => s!"i{t.digits}.trunc_sat_f{s.digits}_s"
  | .promote => "f64.promote_f32"
  | .demote => "f32.demote_f64"
  | .neg w => s!"f{w.digits}.neg"
  | .floor w => s!"f{w.digits}.floor"
  | .ceil => "f64.ceil"

/-- Operations that depend on the sign of an integer say so. -/
def signMark (k : NumKind) : String := if k.isFloat then "" else "_s"

def arithText : Ir.Arith → NumKind → String
  | .add, _ => "add"
  | .sub, _ => "sub"
  | .mul, _ => "mul"
  | .div, k => "div" ++ signMark k

def compareText : Ir.Comparison → NumKind → String
  | .eq, _ => "eq"
  | .ne, _ => "ne"
  | .lt, k => "lt" ++ signMark k
  | .gt, k => "gt" ++ signMark k
  | .le, k => "le" ++ signMark k
  | .ge, k => "ge" ++ signMark k

def binaryText : Ir.BinaryOp → String
  | .arith op k => s!"{k.name}.{arithText op k}"
  | .rem w => s!"i{w.digits}.rem_s"
  | .compare c k => s!"{k.name}.{compareText c k}"

def padded (depth : Nat) (s : String) : String :=
  String.ofList (List.replicate (2 * depth) ' ') ++ s

namespace Instr

mutual

def lines (d : Nat) : Instr → List String
  | nop => [padded d "nop"]
  | unreachable => [padded d "unreachable"]
  | const v => [padded d (constText v)]
  | localGet i => [padded d s!"local.get {i}"]
  | localSet i => [padded d s!"local.set {i}"]
  | globalGet i => [padded d s!"global.get {i}"]
  | globalSet i => [padded d s!"global.set {i}"]
  | unary op => [padded d (unaryText op)]
  | binary op => [padded d (binaryText op)]
  | select => [padded d "select"]
  | selectTyped t => [padded d s!"select (result {t.text})"]
  | block t body =>
    padded d ("block" ++ typesText "result" t.toList) :: linesAll (d + 1) body ++ [padded d "end"]
  | loop body => padded d "loop" :: linesAll (d + 1) body ++ [padded d "end"]
  | ifThen body => padded d "if" :: linesAll (d + 1) body ++ [padded d "end"]
  | ifElse a b =>
    padded d "if" :: linesAll (d + 1) a ++ padded d "else" :: linesAll (d + 1) b ++
      [padded d "end"]
  | br n => [padded d s!"br {n}"]
  | brIf n => [padded d s!"br_if {n}"]
  | call f => [padded d s!"call {f}"]
  | ret => [padded d "return"]
  | drop => [padded d "drop"]
  | arrayNew t => [padded d s!"array.new {t}"]
  | arrayNewFixed t n => [padded d s!"array.new_fixed {t} {n}"]
  | arrayNewData t s => [padded d s!"array.new_data {t} {s}"]
  | arrayGet t => [padded d s!"array.get {t}"]
  | arraySet t => [padded d s!"array.set {t}"]
  | arrayLen => [padded d "array.len"]

def linesAll (d : Nat) : List Instr → List String
  | [] => []
  | i :: is => lines d i ++ linesAll d is

end

end Instr

/-- Letters, digits and underscores stand in identifiers as they are. -/
def isPlainName (s : String) : Bool := !s.isEmpty && s.toList.all fun c => c.isAlphanum || c = '_'

def hexPair (n : Nat) : String := String.ofList [Nat.digitChar (n / 16), Nat.digitChar (n % 16)]

/-- Bytes in quotes; all but letters and digits are written by their numbers. -/
def quotedBytes (bytes : List UInt8) : String :=
  let byte (b : UInt8) : String :=
    let c := Char.ofNat b.toNat
    if c.isAlphanum || c = '_' then String.ofList [c] else "\\" ++ hexPair b.toNat
  "\"" ++ String.join (bytes.map byte) ++ "\""

def quotedName (s : String) : String := quotedBytes s.toUTF8.toList

/-- The name of an item with a blank in front; nothing if it has none. -/
def idText (names : List (Nat × String)) (index : Nat) : String :=
  match names.lookup index with
  | some n => if isPlainName n then s!" ${n}" else " $" ++ quotedName n
  | none => ""

def slotLines (word : String) (names : List (Nat × String)) (first : Nat) :
    List ValType → List String
  | [] => []
  | t :: ts => s!"({word}{idText names first} {t.text})" :: slotLines word names (first + 1) ts

namespace Module

def functionLines (m : Module) (index typeIndex : Nat) (code : Code) : List String :=
  let names := (m.names.locals.lookup index).getD []
  let (params, results) := match m.types.drop typeIndex with
    | .func ps rs :: _ => (ps, rs)
    | _ => ([], [])
  let head := s!"(func{idText m.names.functions index} (type {typeIndex})"
  let result := typesText "result" results
  let declared := code.locals.flatMap fun (n, t) => List.replicate n t
  padded 1 (String.intercalate " " (head :: slotLines "param" names 0 params) ++ result) ::
    (slotLines "local" names params.length declared).map (padded 2) ++
    Instr.linesAll 2 code.body ++ [padded 1 ")"]

def globalLine (m : Module) (index : Nat) (g : Global) : String :=
  let kind := if g.isMutable then s!"(mut {g.kind.name})" else g.kind.name
  padded 1 s!"(global{idText m.names.globals index} {kind} {constText g.init})"

def exportLine (e : Export) : String :=
  let word := match e.kind with
    | .func => "func"
    | .global => "global"
  padded 1 s!"(export {quotedName e.name} ({word} {e.index}))"

def text (m : Module) : String :=
  let types := m.types.map fun t => padded 1 s!"(type {t.text})"
  let globals := m.globals.zipIdx.map fun (g, i) => m.globalLine i g
  let functions := (m.functions.zip m.codes).zipIdx.flatMap fun ((t, c), i) =>
    m.functionLines i t c
  let segments := m.data.map fun bytes => padded 1 s!"(data {quotedBytes bytes})"
  let lines := ["(module"] ++ types ++ globals ++ m.exports.map exportLine ++ functions ++
    segments ++ [")"]
  String.join (lines.map (· ++ "\n"))

end Module

end AnnotatedWasm.Wasm
