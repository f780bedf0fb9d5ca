import AnnotatedWasm.Lowering.Expr

/-!
Lowering of statements.
-/

namespace AnnotatedWasm.Lowering

open Ir (Node)
open Syntax (Expr Stmt Branch BinOp)

/-- The type on record for a name. -/
def recordedType? (f : Frame) (name : String) : Option Ty :=
  (f.slot? name).map (·.ty) <|> f.global? name

/-- The type on record for a target, if it is a known name. -/
def targetType? (f : Frame) (target : Expr) : Option Ty := target.name? >>= recordedType? f

/-- A value for a variable that has a type already: numbers are converted, and nothing else may
change the type. -/
def reassigned (name : String) (recorded : Ty) (value : Node) (span : Span) : Lower Node :=
  match value.ty.kind?, recorded.kind? with
  | some _, some _ => coerce value recorded span
  | _, _ =>
    if value.ty = recorded then return value
    else throw (.type (.typeChange name recorded value.ty) span)

/-- Assignment to a name; the first one gives a local variable its type. -/
def assignName (name : String) (value : Node) (span : Span) : Lower Node := do
  let f ← frame
  match f.slot? name, f.global? name with
  | some slot, _ =>
    let value ← reassigned name slot.ty value span
    return .localSet slot.index value
  | none, some ty =>
    let value ← reassigned name ty value span
    return .globalSet name value
  | none, none =>
    if value.ty.isVoid then
      throw (.type (.voidAssigned name) span)
    let slot ← declare name value.ty
    return .localSet slot.index value

/-- Assignment to an element of an array. -/
def assignElement (env : Env) (array index : Expr) (value : Node) (span : Span) :
    Lower Node := do
  requireArrays env span
  let a ← lowerExpr env none array
  match a.ty with
  | .array k =>
    let i ← lowerExpr env none index
    let i ← coerce i .i32 index.span
    let v ← coerce value (.num k) span
    return .arraySet k a i v
  | found => throw (.type (.indexed found) span)

def assignTo (env : Env) (value : Node) : Expr → Lower Node
  | .name span id => assignName id value span
  | .subscript span array index => assignElement env array index value span
  | .tuple span _ | .list span _ => throw (.unsupported .tupleUnpacking span)
  | target => throw (.unsupported (.assignmentTo target.describe) target.span)

/-- Copies of one slot to several targets, from left to right. -/
def assignCopies (env : Env) (scratch : Slot) : List Expr → Lower (List Node)
  | [] => return []
  | target :: rest => do
    let node ← assignTo env (slotGet scratch) target
    return node :: (← assignCopies env scratch rest)

/-- A value goes to one target directly, and to several through a scratch slot, so that it is
evaluated once. -/
def assignAll (env : Env) (targets : List Expr) (value : Node) (span : Span) : Lower Node := do
  match targets with
  | [target] => assignTo env value target
  | _ =>
    if value.ty.isVoid then
      throw (.type .voidValue span)
    let scratch ← temporary value.ty
    let copies ← assignCopies env scratch targets
    return .block none (.localSet scratch.index value :: copies) .void

def lowerAssign (env : Env) (targets : List Expr) (value : Expr) (span : Span) :
    Lower Node := do
  let hint := targets.head? >>= targetType? (← frame)
  let v ← lowerExpr env hint value
  assignAll env targets v span

/-- `x op= value` is `x = x op value`. -/
def lowerAugAssign (env : Env) (target : Expr) (op : BinOp) (value : Expr) (span : Span) :
    Lower Node := do
  if target.name?.isNone then
    throw (.unsupported (.augmentedTo target.describe) target.span)
  requireOperator op span
  let left ← lowerExpr env none target
  let right ← lowerExpr env none value
  let v ← binary env op left right span
  assignTo env v target

/-- Stores a value in a variable of a given type, making a local one if there is none. -/
def storeTyped (name : String) (ty : Ty) (value : Node) : Lower Node := do
  let f ← frame
  match f.slot? name, f.global? name with
  | some slot, _ => return .localSet slot.index value
  | none, some _ => return .globalSet name value
  | none, none =>
    let slot ← declare name ty
    return .localSet slot.index value

def lowerAnnAssign (env : Env) (target annot : Expr) (value : Option Expr) (span : Span) :
    Lower Node := do
  match target.name? with
  | none => throw (.unsupported (.annotatedTo target.describe) target.span)
  | some name =>
    let ty ← match Signature.resolve env.signatures.aliases annot with
      | .ok ty => pure ty
      | .error e => throw e
    if ty.isVoid then
      throw (.type (.voidVariable name) annot.span)
    requireType env ty annot.span
    let recorded := recordedType? (← frame) name
    if let some old := recorded then
      if old ≠ ty then
        throw (.type (.typeChange name old ty) span)
    match value with
    | none =>
      if recorded.isSome then
        throw (.type (.redeclared name) span)
      let _ ← declare name ty
      return .nop
    | some e =>
      let v ← lowerExpr env (some ty) e
      let v ← coerce v ty e.span
      storeTyped name ty v

/-- Makes a declared global part of the module unless it is already. -/
def promote (name : String) (d : Declared) : Lower Unit := do
  let b ← get
  let m := b.session.module
  if (m.global? name).isNone then
    let globals := m.globals ++ [⟨name, d.kind, true, d.init⟩]
    set { b with session := { b.session with module := { m with globals } } }
    note (.globalPromoted name b.frame.name)

/-- `global a, b` makes declared globals visible for the rest of the function. -/
def lowerGlobal (span : Span) : List String → Lower Node
  | [] => return .nop
  | name :: rest => do
    let b ← get
    if (b.frame.slot? name).isSome then
      throw (.scope (.assignedBeforeGlobal name) span)
    match b.session.declared.lookup name with
    | none => throw (.scope (.globalUnknown name) span)
    | some d =>
      promote name d
      setFrame (b.frame.openGlobal name (.num d.kind))
      lowerGlobal span rest

def lowerReturn (env : Env) (value : Option Expr) (span : Span) : Lower Node := do
  let f ← frame
  match f.returns, value with
  | .void, none => return .ret none
  | .void, some (.noneLit _) => return .ret none
  | .void, some e => throw (.type (.returnUnexpected f.name) e.span)
  | ty, none => throw (.type (.returnMissing f.name ty) span)
  | ty, some e =>
    let v ← lowerExpr env (some ty) e
    return .ret (some (← coerce v ty e.span))

def lowerAssert (env : Env) (test : Expr) (message : Option Expr) : Lower Node := do
  if let some m := message then
    throw (.unsupported .assertionMessage m.span)
  let condition ← lowerCondition env test
  return .ifElse condition .nop (some .unreachable)

/-- A value nobody uses; a string is a comment. -/
def lowerExprStmt (env : Env) : Expr → Lower Node
  | .string _ _ => return .nop
  | e => do
    let value ← lowerExpr env none e
    if value.ty.isVoid then return value else return .drop value

/-- `break` leaves the body of the innermost loop and skips its `else` part. -/
def lowerBreak (span : Span) : Lower Node := do
  match (← frame).currentLoop? with
  | some id => return .br (loopBodyLabel id)
  | none => throw (.scope .breakOutside span)

/-- `continue` tests the condition of the innermost loop again. -/
def lowerContinue (span : Span) : Lower Node := do
  match (← frame).currentLoop? with
  | some id => return .br (loopLabel id)
  | none => throw (.scope .continueOutside span)

/-- Lowers the body of a loop, whose `break` and `continue` belong to it. -/
def insideLoop (id : Nat) (body : Lower (List Node)) : Lower (List Node) := do
  setFrame ((← frame).enterLoop id)
  let nodes ← body
  setFrame (← frame).leaveLoop
  return nodes

/-- A loop tests its condition, runs its body and starts again, or runs its `else` part:

    loop $loop_N
      if condition
        block $loop_body_N  body  br $loop_N
      else
        block $loop_else_N  else part
-/
def whileNode (id : Nat) (condition : Node) (body orelse : List Node) : Node :=
  let bodyBlock := Node.block (some (loopBodyLabel id)) (body ++ [.br (loopLabel id)]) .void
  let elseBlock :=
    if orelse.isEmpty then none else some (.block (some (loopElseLabel id)) orelse .void)
  .loop (loopLabel id) (.ifElse condition bodyBlock elseBlock)

mutual

def lowerStmt (env : Env) : Stmt → Lower Node
  | .expr _ e => lowerExprStmt env e
  | .assign span targets value => lowerAssign env targets value span
  | .annAssign span target annot value => lowerAnnAssign env target annot value span
  | .augAssign span target op value => lowerAugAssign env target op value span
  | .ret span value => lowerReturn env value span
  | .pass _ => return .nop
  | .breakLoop span => lowerBreak span
  | .continueLoop span => lowerContinue span
  | .assert _ test message => lowerAssert env test message
  | .global span names => lowerGlobal span names
  | .importModule .. | .importNames .. => return .nop
  | .ifElse _ test body elifs orelse => do
    let condition ← lowerCondition env test
    let body ← lowerStmts env body
    let elseNode ← lowerElse env (lowerStmts env orelse) elifs
    return .ifElse condition (.block none body .void) (some elseNode)
  | .whileLoop _ test body orelse => do
    let id ← freshLabel
    let condition ← lowerCondition env test
    let body ← insideLoop id (lowerStmts env body)
    let orelse ← lowerStmts env orelse
    return whileNode id condition body orelse
  | .funcDef span _ _ => throw (.unsupported .nestedFunction span)
  | s => throw (.unsupported (.form s.describe) s.span)

def lowerStmts (env : Env) : List Stmt → Lower (List Node)
  | [] => return []
  | s :: rest => do
    let node ← lowerStmt env s
    return node :: (← lowerStmts env rest)

/-- The `else` arm of a conditional: the next `elif` clause as a conditional of its own, or the
`else` part. -/
def lowerElse (env : Env) (orelse : Lower (List Node)) : List Branch → Lower Node
  | [] => return .block none (← orelse) .void
  | .mk test body :: rest => do
    let condition ← lowerCondition env test
    let body ← lowerStmts env body
    let elseNode ← lowerElse env orelse rest
    return .block none [.ifElse condition (.block none body .void) (some elseNode)] .void

end

end AnnotatedWasm.Lowering
