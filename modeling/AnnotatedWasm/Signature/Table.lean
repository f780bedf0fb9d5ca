import AnnotatedWasm.Event
import AnnotatedWasm.Signature.TypeExpr

/-!
The signatures of the marked functions of a source.

They are collected in one pass over the top-level statements before anything is compiled, so
that a function can be called before its definition. A decorator counts if the names known at
that point make it the marker.
-/

namespace AnnotatedWasm

open Syntax

structure FuncSig where
  params : List Ty
  returns : Ty
deriving Repr, DecidableEq

structure Signatures where
  aliases : Signature.Aliases := {}
  /-- Function names with their signatures, in source order. -/
  functions : List (String × FuncSig) := []
deriving Repr, DecidableEq

namespace Signatures

def get? (s : Signatures) (name : String) : Option FuncSig := s.functions.lookup name

end Signatures

namespace Signature

/-- The type of a parameter, which needs an annotation and no default. -/
def paramType (a : Aliases) (p : Param) : Except CompileError Ty := do
  match p.annot with
  | none => throw (.type (.missingParam p.name) p.span)
  | some annot =>
    if let some default := p.default then
      throw (.unsupported .defaultValue default.span)
    let ty ← resolve a annot
    if ty.isVoid then
      throw (.type (.voidParam p.name) annot.span)
    return ty

def paramTypes (a : Aliases) : List Param → Except CompileError (List Ty)
  | [] => return []
  | p :: ps => do
    let ty ← paramType a p
    return ty :: (← paramTypes a ps)

/-- A function without a return annotation returns nothing. -/
def ofHeader (a : Aliases) (h : FuncHeader) : Except CompileError FuncSig := do
  let params ← paramTypes a h.params
  let returns ← match h.returns with
    | some annot => resolve a annot
    | none => pure .void
  return ⟨params, returns⟩

/-- What one top-level statement adds. -/
def collectStmt (s : Signatures) : Stmt → Logged CompileError Signatures
  | .funcDef span header _ => do
    if s.aliases.isMarked header.decorators then
      if (s.get? header.name).isSome then
        throw (.signature (.duplicate header.name) span)
      let sig ← liftExcept (ofHeader s.aliases header)
      report (.signature header.name sig.params sig.returns)
      return { s with functions := s.functions ++ [(header.name, sig)] }
    else
      return s
  | stmt => return { s with aliases := s.aliases.record stmt }
where
  liftExcept {α : Type} : Except CompileError α → Logged CompileError α
    | .ok a => return a
    | .error e => throw e

def collectFrom (s : Signatures) : List Stmt → Logged CompileError Signatures
  | [] => return s
  | stmt :: rest => do collectFrom (← collectStmt s stmt) rest

/-- The signatures of all marked functions, and the aliases known at the end. -/
def collect (m : Syntax.Module) : Logged CompileError Signatures := collectFrom {} m.body

end Signature

end AnnotatedWasm
