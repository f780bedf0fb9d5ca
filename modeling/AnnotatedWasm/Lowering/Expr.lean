import AnnotatedWasm.Lowering.Arithmetic
import AnnotatedWasm.Lowering.Range
import AnnotatedWasm.Number.Numeral

/-!
Lowering of expressions.

`hint` is the type that the place of an expression wants. Only list literals and
`list(range(...))` look at it, since they do not say the kind of their elements.
-/

namespace AnnotatedWasm.Lowering

open Ir (Node)
open Syntax (Expr)

def lowerNumber (text : String) (span : Span) : Lower Node :=
  match Numeral.ofText? text with
  | some n => return .const n.constant
  | none => throw (.type (.literalRange text) span)

/-- A local variable hides a global of the same name. -/
def lowerName (name : String) (span : Span) : Lower Node := do
  let f ← frame
  match f.slot? name, f.global? name with
  | some slot, _ => return slotGet slot
  | none, some ty => return .globalGet name ty
  | none, none => throw (.scope (.undeclared name) span)

/-- The element kind that a hint asks for. -/
def hintedElement (hint : Option Ty) (fault : TypeFault) (span : Span) : Lower NumKind :=
  match hint with
  | some (.array k) => return k
  | _ => throw (.type fault span)

def isStarred : Expr → Bool
  | .starred _ _ => true
  | _ => false

/-- The name that a call calls; keyword and starred arguments are not compiled. -/
def calleeName (func : Expr) (args : List Expr) (keywords : List (String × Expr)) :
    Lower String := do
  if let (_, value) :: _ := keywords then
    throw (.unsupported .keywordArguments value.span)
  if let some arg := args.find? isStarred then
    throw (.unsupported .starredArguments arg.span)
  match func.name? with
  | some name => return name
  | none => throw (.unsupported (.callThrough func.describe) func.span)

mutual

def lowerExpr (env : Env) : Option Ty → Expr → Lower Node
  | _, .name span id => lowerName id span
  | _, .number span text => lowerNumber text span
  | _, .bool _ value => return .i32 (if value then 1 else 0)
  | _, .string span value => do
    requireType env .str span
    return .string value
  | _, .unary span op operand => do
    let value ← lowerExpr env none operand
    unary op value span
  | _, .binary span op left right => do
    requireOperator op span
    let left ← lowerExpr env none left
    let right ← lowerExpr env none right
    binary env op left right span
  | _, .compare span left [(op, right)] => do
    match comparison? op with
    | none => throw (.unsupported (.comparison op.symbol) span)
    | some c =>
      let left ← lowerExpr env none left
      let right ← lowerExpr env none right
      let (left, right, k) ← unifyOperands left right span
      return .binary (.compare c k) left right
  | _, .compare span _ _ => throw (.unsupported .chainedComparison span)
  | _, .ifElse span test body orelse => do
    let value ← lowerExpr env none test
    let condition ← truth value test.span
    let ifTrue ← lowerExpr env none body
    let ifFalse ← lowerExpr env none orelse
    choose condition ifTrue ifFalse span
  | hint, .call span func args keywords => do
    let name ← calleeName func args keywords
    match env.signatures.get? name with
    | some sig =>
      if sig.params.length ≠ args.length then
        throw (.signature (.arity name sig.params.length args.length) span)
      return .call name (← lowerArgs env sig.params args) sig.returns
    | none =>
      match name with
      | "list" =>
        requireArrays env span
        match args with
        | [.call _ (.name _ "range") bounds []] =>
          let element ← hintedElement hint .rangeWithoutType span
          rangeOf element (← lowerEach env .i32 bounds) span
        | _ => throw (.unsupported .listOfOther span)
      | "len" =>
        requireArrays env span
        match args with
        | [arg] =>
          let array ← lowerExpr env none arg
          match array.ty with
          | .array _ => return .arrayLen array
          | found => throw (.type (.lengthOf found) arg.span)
        | _ => throw (.signature .lengthArity span)
      | _ => throw (.signature (.unknown name) span)
  | _, .subscript span value index => do
    requireArrays env span
    let array ← lowerExpr env none value
    match array.ty with
    | .array k =>
      let position ← lowerExpr env none index
      return .arrayGet k array (← coerce position .i32 index.span)
    | found => throw (.type (.indexed found) span)
  | hint, .list span elems => do
    let k ← hintedElement hint .listWithoutType span
    requireType env (.array k) span
    return .arrayNewFixed k (← lowerEach env (.num k) elems)
  | _, e => throw (.unsupported (.form e.describe) e.span)

/-- Arguments, each made to fit the parameter at its place. -/
def lowerArgs (env : Env) : List Ty → List Expr → Lower (List Node)
  | ty :: tys, arg :: args => do
    let value ← lowerExpr env (some ty) arg
    let value ← coerce value ty arg.span
    return value :: (← lowerArgs env tys args)
  | _, _ => return []

/-- Expressions that are all to have one type. -/
def lowerEach (env : Env) (ty : Ty) : List Expr → Lower (List Node)
  | [] => return []
  | e :: es => do
    let value ← lowerExpr env none e
    let value ← coerce value ty e.span
    return value :: (← lowerEach env ty es)

end

/-- The truth value of a test. -/
def lowerCondition (env : Env) (test : Expr) : Lower Node := do
  let value ← lowerExpr env none test
  truth value test.span

end AnnotatedWasm.Lowering
