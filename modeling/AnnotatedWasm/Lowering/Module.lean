import AnnotatedWasm.Lowering.Stmt

/-!
Lowering of whole sources: every marked function becomes a function of the module, and
annotated declarations can become globals. All other top-level statements are left alone.
-/

namespace AnnotatedWasm

open Ir (Node)
open Syntax (Expr Stmt Param FuncHeader)

namespace Lowering

abbrev LowerModule := ExceptT CompileError (StateM Session)

def noteModule (e : Event) : LowerModule Unit := modify fun s => { s with log := s.log ++ [e] }

/-- A global starts as a number, a negated number or a truth value. -/
def constantOf? (k : NumKind) : Expr → Option Literal
  | .number _ text => (Numeral.ofText? text).map (·.toLiteral k)
  | .bool _ value => some (.ofInt k (if value then 1 else 0))
  | .unary _ .neg (.number _ text) => (Numeral.ofText? text).map (·.neg.toLiteral k)
  | _ => none

/-- Records a declaration whose annotation names a type; any other annotation belongs to code
that is not compiled. -/
def declareGlobal (env : Env) (target annot : Expr) (value : Option Expr) (span : Span) :
    LowerModule Unit := do
  match Signature.resolve env.signatures.aliases annot with
  | .error _ => return ()
  | .ok ty =>
    match target.name? with
    | none => throw (.unsupported (.globalDeclaration target.describe) target.span)
    | some name =>
      if ((← get).declared.lookup name).isSome then
        throw (.scope (.globalDeclared name) span)
      match ty.kind? with
      | none => throw (.unsupported (.globalOfType ty) annot.span)
      | some k =>
        match value with
        | none => throw (.type (.globalWithoutValue name) span)
        | some e =>
          match constantOf? k e with
          | none => throw (.type (.globalNotConstant name) e.span)
          | some init =>
            noteModule (.globalDeclared name k)
            modify fun s => { s with declared := s.declared ++ [(name, ⟨k, init⟩)] }

/-- A global of the module changes only inside compiled functions. -/
def checkWrite (target : Expr) : LowerModule Unit := do
  match target.name? with
  | none => return ()
  | some name =>
    if ((← get).module.global? name).isSome then
      throw (.scope (.globalWritten name) target.span)

def requireTypes (env : Env) (span : Span) : List Ty → LowerModule Unit
  | [] => return ()
  | ty :: tys => do
    requireType env ty span
    requireTypes env span tys

/-- Lowers the body of a function in a frame of its own. -/
def lowerBody (env : Env) (start : Frame) (body : List Stmt) : LowerModule Ir.Function := do
  let session ← get
  match (lowerStmts env body).run ⟨session, start⟩ with
  | (.ok nodes, b) =>
    set b.session
    return b.frame.finish nodes
  | (.error e, b) =>
    set b.session
    throw e

def lowerFunction (env : Env) (header : FuncHeader) (body : List Stmt) (span : Span) :
    LowerModule Unit := do
  match env.signatures.get? header.name with
  | none => throw (.signature (.unrecorded header.name) span)
  | some sig =>
    requireTypes env span (sig.params ++ [sig.returns])
    let params := (header.params.map Param.name).zip sig.params
    let function ← lowerBody env (Frame.start header.name params sig.returns) body
    noteModule (.functionLowered function.name function.params.length function.locals.length)
    modify fun s =>
      { s with module := { s.module with functions := s.module.functions ++ [function] } }

def checkWrites : List Expr → LowerModule Unit
  | [] => return ()
  | target :: rest => do
    checkWrite target
    checkWrites rest

def lowerTopLevel (env : Env) : Stmt → LowerModule Unit
  | .funcDef span header body =>
    if env.signatures.aliases.isMarked header.decorators then
      lowerFunction env header body span
    else
      return ()
  | .annAssign span target annot value => declareGlobal env target annot value span
  | .assign _ targets _ => checkWrites targets
  | .augAssign _ target _ _ => checkWrite target
  | _ => return ()

def lowerAll (env : Env) : List Stmt → LowerModule Unit
  | [] => return ()
  | s :: rest => do
    lowerTopLevel env s
    lowerAll env rest

end Lowering

/-- The intermediate code of a source. -/
def lower (options : Options) (m : Syntax.Module) : Logged CompileError Ir.Module := do
  let signatures ← Signature.collect m
  let log ← get
  match (Lowering.lowerAll ⟨options, signatures⟩ m.body).run { log } with
  | (.ok _, session) =>
    set session.log
    return session.module
  | (.error e, session) =>
    set session.log
    throw e

end AnnotatedWasm
