import AnnotatedWasm.Lowering.Frame
import AnnotatedWasm.Signature.Table

/-!
The state of lowering, and the steps that all of it uses: slots, labels, features, and
conversions between numeric kinds.
-/

namespace AnnotatedWasm.Lowering

open Ir (Node)

/-- What stays fixed while a source is lowered. -/
structure Env where
  options : Options
  signatures : Signatures

/-- A module-level declaration such as `size: i32 = 6`. It becomes a global of the compiled
module once some function asks for it. -/
structure Declared where
  kind : NumKind
  init : Literal
deriving Repr, DecidableEq

/-- What lowering a module builds up. -/
structure Session where
  module : Ir.Module := {}
  declared : List (String × Declared) := []
  /-- Numbers the labels; all functions share it, so that no label comes twice. -/
  nextLabel : Nat := 0
  log : List Event := []

/-- The state inside a function. -/
structure Body where
  session : Session
  frame : Frame

/-- A step of lowering inside a function. A step that fails still has reported its events. -/
abbrev Lower := ExceptT CompileError (StateM Body)

def frame : Lower Frame := return (← get).frame

def setFrame (f : Frame) : Lower Unit := modify ({ · with frame := f })

def note (e : Event) : Lower Unit :=
  modify fun b => { b with session := { b.session with log := b.session.log ++ [e] } }

/-- A new slot without a name. -/
def temporary (ty : Ty) : Lower Slot := do
  let (slot, f) := (← frame).temporary ty
  setFrame f
  return slot

/-- A new slot for a name. -/
def declare (name : String) (ty : Ty) : Lower Slot := do
  let (slot, f) := (← frame).declare name ty
  setFrame f
  return slot

/-- The next unused label number. -/
def freshLabel : Lower Nat := do
  let b ← get
  set { b with session := { b.session with nextLabel := b.session.nextLabel + 1 } }
  return b.session.nextLabel

def slotGet (s : Slot) : Node := .localGet s.index s.ty

/-- Fails where values of a type need a feature that is off. -/
def requireType {m : Type → Type} [Monad m] [MonadExceptOf CompileError m] (env : Env) (ty : Ty)
    (span : Span) : m Unit :=
  match env.options.missing? ty with
  | some feature => throw (.scope (.disabled feature) span)
  | none => pure ()

def requireArrays (env : Env) (span : Span) : Lower Unit :=
  if env.options.gc then pure () else throw (.scope (.disabled .arrays) span)

/-- A numeric value as one of another kind. -/
def convert (value : Node) (target : NumKind) : Node :=
  match value.ty with
  | .num source =>
    match Ir.UnaryOp.conversion? source target with
    | some op => .unary op value
    | none => value
  | _ => value

def zero (k : NumKind) : Node := .const (.zero k)

/-- A value as one of the wanted type: numbers are converted, all else must fit as it is. -/
def coerce (value : Node) (target : Ty) (span : Span) : Lower Node := do
  if value.ty = target then
    return value
  match value.ty, target with
  | .num s, .num t =>
    if s.narrowsTo t then note (.narrowed s t span) else note (.widened s t)
    return convert value t
  | found, _ => throw (.type (.mismatch target found) span)

/-- Two operands brought to their common kind. -/
def unifyOperands (left right : Node) (span : Span) : Lower (Node × Node × NumKind) := do
  match left.ty, right.ty with
  | .num l, .num r =>
    let k := l.unify r
    if l ≠ r then
      note (.unified l r k)
    return (convert left k, convert right k, k)
  | l, r => throw (.type (.operands l r) span)

/-- A value as a truth value: an `i32` is one, other numbers are compared with zero. -/
def truth (value : Node) (span : Span) : Lower Node := do
  match value.ty with
  | .i32 => return value
  | .num k => return .binary (.compare .ne k) value (zero k)
  | found => throw (.type (.condition found) span)

end AnnotatedWasm.Lowering
