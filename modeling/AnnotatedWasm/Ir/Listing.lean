import AnnotatedWasm.Ir.Node
import AnnotatedWasm.Text.Quoted

/-!
The intermediate code as text: one line for each node, operands indented below it in the order
in which they are evaluated.
-/

namespace AnnotatedWasm.Ir

/-- The lines of a node: its head alone, or opened before and closed after its operands. -/
def bracket (depth : Nat) (head : String) (operands : List String) : List String :=
  let pad := String.ofList (List.replicate (2 * depth) ' ')
  if operands.isEmpty then [s!"{pad}({head})"]
  else s!"{pad}({head}" :: operands ++ [s!"{pad})"]

/-- The type that a block or a function leaves, if it leaves any. -/
def resultText (t : Ty) : String := if t.isVoid then "" else s!" (result {t.text})"

namespace Node

/-- What names a node in a listing. -/
def head : Node → String
  | nop => "nop"
  | unreachable => "unreachable"
  | const v => v.text
  | string s => s!"string.const {Text.quoted s}"
  | localGet i _ => s!"local.get {i}"
  | localSet i _ => s!"local.set {i}"
  | globalGet g _ => s!"global.get ${g}"
  | globalSet g _ => s!"global.set ${g}"
  | unary op _ => op.name
  | binary op _ _ => op.name
  | select _ _ _ => "select"
  | block (some l) _ t => s!"block ${l}{resultText t}"
  | block none _ t => s!"block{resultText t}"
  | loop l _ => s!"loop ${l}"
  | ifElse _ _ _ => "if"
  | br l => s!"br ${l}"
  | brIf l _ => s!"br_if ${l}"
  | call f _ _ => s!"call ${f}"
  | ret _ => "return"
  | drop _ => "drop"
  | arrayNew k _ _ => s!"array.new {k.name}"
  | arrayNewFixed k vs => s!"array.new_fixed {k.name} {vs.length}"
  | arrayGet k _ _ => s!"array.get {k.name}"
  | arraySet k _ _ _ => s!"array.set {k.name}"
  | arrayLen _ => "array.len"

mutual

/-- The lines of a node at a given depth of indentation. -/
def lines (d : Nat) : Node → List String
  | n@nop | n@unreachable | n@(const _) | n@(string _) | n@(localGet _ _)
  | n@(globalGet _ _) | n@(br _) => bracket d n.head []
  | n@(localSet _ v) | n@(globalSet _ v) | n@(unary _ v) | n@(drop v) | n@(arrayLen v)
  | n@(loop _ v) | n@(brIf _ v) => bracket d n.head (lines (d + 1) v)
  | n@(binary _ a b) | n@(arrayNew _ a b) | n@(arrayGet _ a b) =>
    bracket d n.head (lines (d + 1) a ++ lines (d + 1) b)
  | n@(select c a b) =>
    bracket d n.head (lines (d + 1) a ++ lines (d + 1) b ++ lines (d + 1) c)
  | n@(arraySet _ a b c) =>
    bracket d n.head (lines (d + 1) a ++ lines (d + 1) b ++ lines (d + 1) c)
  | n@(block _ body _) | n@(call _ body _) | n@(arrayNewFixed _ body) =>
    bracket d n.head (linesAll (d + 1) body)
  | n@(ifElse c t e) =>
    bracket d n.head (lines (d + 1) c ++ lines (d + 1) t ++ linesOpt (d + 1) e)
  | n@(ret v) => bracket d n.head (linesOpt (d + 1) v)

def linesAll (d : Nat) : List Node → List String
  | [] => []
  | n :: ns => lines d n ++ linesAll d ns

def linesOpt (d : Nat) : Option Node → List String
  | none => []
  | some n => lines d n

end

end Node

/-- A slot by the first name given to it, or else by its number. -/
def Function.slotText (f : Function) (index : Nat) : String :=
  match f.localNames.find? (·.1 = index) with
  | some (_, name) => s!"${name}"
  | none => toString index

/-- Slots from `first` on, each with the type at its place in the list. -/
def Function.slotTexts (f : Function) (word : String) (first : Nat) : List Ty → List String
  | [] => []
  | t :: ts => s!"({word} {f.slotText first} {t.text})" :: f.slotTexts word (first + 1) ts

def Function.lines (f : Function) : List String :=
  let params := f.slotTexts "param" 0 f.params
  let head := String.intercalate " " (s!"(func ${f.name}" :: params)
  s!"  {head}{resultText f.result}" ::
    (f.slotTexts "local" f.params.length f.locals).map ("    " ++ ·) ++
    Node.linesAll 2 f.body ++ ["  )"]

def Global.line (g : Global) : String :=
  let kind := if g.isMutable then s!"(mut {g.kind.name})" else g.kind.name
  s!"  (global ${g.name} {kind} ({g.init.text}))"

/-- The listing of a module: globals, then functions. -/
def Module.listing (m : Module) : String :=
  String.intercalate "\n"
    (["(module"] ++ m.globals.map Global.line ++ m.functions.flatMap Function.lines ++ [")"])

end AnnotatedWasm.Ir
