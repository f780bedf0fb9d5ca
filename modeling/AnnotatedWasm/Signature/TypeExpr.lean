import AnnotatedWasm.CompileError
import AnnotatedWasm.Signature.Alias

/-!
The types that annotations stand for.
-/

namespace AnnotatedWasm.Signature

open Syntax

def namedType? : String → Option Ty
  | "i32" => some .i32
  | "i64" => some .i64
  | "f32" => some .f32
  | "f64" => some .f64
  | "string" => some .str
  | _ => none

/-- The symbol that a bare name stands for; `string` needs no import. -/
def typeSymbol? (a : Aliases) (name : String) : Option String :=
  a.object? name <|> if name = "string" then some "string" else none

/-- The type of an annotation: a type name, an array of numbers, or `None` for no value. -/
def resolve (a : Aliases) : Expr → Except CompileError Ty
  | .noneLit _ => return .void
  | .name span id =>
    match typeSymbol? a id >>= namedType? with
    | some t => return t
    | none => throw (.type (.unknownType id) span)
  | .attr span (.name s m) field =>
    if a.isModule m then
      match namedType? field with
      | some t => return t
      | none => throw (.type (.unknownType s!"{m}.{field}") span)
    else
      throw (.type (.unknownTypeForm (Expr.attr span (.name s m) field).describe) span)
  | .subscript span value index => do
    if a.names "array" value then
      match ← resolve a index with
      | .num k => return .array k
      | other => throw (.type (.elementType other) index.span)
    else
      throw (.type (.unknownTypeForm (Expr.subscript span value index).describe) span)
  | e => throw (.type (.unknownTypeForm e.describe) e.span)

end AnnotatedWasm.Signature
