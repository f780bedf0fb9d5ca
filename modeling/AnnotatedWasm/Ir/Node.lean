import AnnotatedWasm.Ir.Op
import AnnotatedWasm.Number.Literal
import AnnotatedWasm.Ty

/-!
The intermediate code of a function: a tree of typed nodes.

Control constructs carry names, and a branch goes to the innermost construct around it that
has the name it gives. A branch to a block leaves it, one to a loop starts it again.
-/

namespace AnnotatedWasm.Ir

abbrev Label := String

inductive Node where
  | nop
  /-- Stops the program. -/
  | unreachable
  | const (value : Literal)
  | string (value : String)
  | localGet (index : Nat) (ty : Ty)
  | localSet (index : Nat) (value : Node)
  | globalGet (name : String) (ty : Ty)
  | globalSet (name : String) (value : Node)
  | unary (op : UnaryOp) (value : Node)
  | binary (op : BinaryOp) (left right : Node)
  /-- Evaluates both arms, then takes one. -/
  | select (condition ifTrue ifFalse : Node)
  /-- Its value is that of the last node. -/
  | block (label : Option Label) (body : List Node) (ty : Ty)
  | loop (label : Label) (body : Node)
  | ifElse (condition thenBranch : Node) (elseBranch : Option Node)
  | br (label : Label)
  | brIf (label : Label) (condition : Node)
  | call (target : String) (args : List Node) (ty : Ty)
  | ret (value : Option Node)
  | drop (value : Node)
  | arrayNew (element : NumKind) (init size : Node)
  | arrayNewFixed (element : NumKind) (values : List Node)
  | arrayGet (element : NumKind) (array index : Node)
  | arraySet (element : NumKind) (array index value : Node)
  | arrayLen (array : Node)

instance : Inhabited Node := ⟨.nop⟩

namespace Node

def i32 (value : Int) : Node := .const (.i32 value)

/-- The type of the value that a node leaves. -/
def ty : Node → Ty
  | const v => .num v.kind
  | string _ => .str
  | localGet _ t | globalGet _ t | block _ _ t | call _ _ t => t
  | unary op _ => .num op.resultKind
  | binary op _ _ => .num op.resultKind
  | select _ t _ => t.ty
  | arrayNew k _ _ | arrayNewFixed k _ => .array k
  | arrayGet k _ _ => .num k
  | arrayLen _ => .i32
  | nop | unreachable | localSet _ _ | globalSet _ _ | loop _ _ | ifElse _ _ _ | br _
  | brIf _ _ | ret _ | drop _ | arraySet _ _ _ _ => .void

mutual

/-- A node and all nodes below it, parents first. -/
def subnodes : Node → List Node
  | n@nop | n@unreachable | n@(const _) | n@(string _) | n@(localGet _ _)
  | n@(globalGet _ _) | n@(br _) => [n]
  | n@(localSet _ v) | n@(globalSet _ v) | n@(unary _ v) | n@(drop v) | n@(arrayLen v)
  | n@(loop _ v) | n@(brIf _ v) => n :: subnodes v
  | n@(binary _ a b) | n@(arrayNew _ a b) | n@(arrayGet _ a b) =>
    n :: subnodes a ++ subnodes b
  | n@(select a b c) | n@(arraySet _ a b c) =>
    n :: subnodes a ++ subnodes b ++ subnodes c
  | n@(block _ body _) | n@(call _ body _) | n@(arrayNewFixed _ body) =>
    n :: subnodesAll body
  | n@(ifElse c t e) => n :: subnodes c ++ subnodes t ++ subnodesOpt e
  | n@(ret v) => n :: subnodesOpt v

def subnodesAll : List Node → List Node
  | [] => []
  | n :: ns => subnodes n ++ subnodesAll ns

def subnodesOpt : Option Node → List Node
  | none => []
  | some n => subnodes n

end

end Node

/-- A compiled function. Its parameters are the first local slots, then come `locals`. -/
structure Function where
  name : String
  params : List Ty
  result : Ty
  locals : List Ty
  /-- The slots that have a name in the source. -/
  localNames : List (Nat × String)
  body : List Node

def Function.subnodes (f : Function) : List Node := Node.subnodesAll f.body

structure Global where
  name : String
  kind : NumKind
  isMutable : Bool
  init : Literal
deriving Repr, DecidableEq

/-- Functions and globals; each is exported under its name. -/
structure Module where
  functions : List Function := []
  globals : List Global := []

namespace Module

def function? (m : Module) (name : String) : Option Function :=
  m.functions.find? (·.name = name)

def global? (m : Module) (name : String) : Option Global := m.globals.find? (·.name = name)

end Module

end AnnotatedWasm.Ir
