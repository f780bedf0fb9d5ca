import AnnotatedWasm.Lowering.Basic

/-!
Operators on lowered operands.
-/

namespace AnnotatedWasm.Lowering

open Ir (Node)
open Syntax (BinOp CmpOp UnaryOp)

/-- Only arithmetic operators are compiled. -/
def requireOperator (op : BinOp) (span : Span) : Lower Unit :=
  match op with
  | .add | .sub | .mul | .div | .floorDiv | .mod => pure ()
  | _ => throw (.unsupported (.operator op.symbol) span)

/-- The quotient of two integers rounded toward negative infinity: the truncated one, less one
where the remainder is not zero and its sign is not the divisor's. -/
def floorQuotient (w : Width) (dividend divisor remainder : Slot) (left right : Node) : Node :=
  let k : NumKind := .int w
  let negative (n : Node) : Node := .binary (.compare .lt k) n (zero k)
  let nonzero : Node := .binary (.compare .ne k) (slotGet remainder) (zero k)
  let signsDiffer : Node :=
    .binary (.compare .ne .i32) (negative (slotGet remainder)) (negative (slotGet divisor))
  -- both are 0 or 1, so the product is 1 where both hold
  let adjust : Node := .binary (.arith .mul .i32) nonzero signsDiffer
  let quotient : Node := .binary (.arith .div k) (slotGet dividend) (slotGet divisor)
  .block none
    [.localSet dividend.index left,
      .localSet divisor.index right,
      .localSet remainder.index
        (.binary (.rem w) (slotGet dividend) (slotGet divisor)),
      .binary (.arith .sub k) quotient (convert adjust k)]
    (.num k)

/-- `//` on operands of one kind. -/
def floorDivide (env : Env) (left right : Node) : NumKind → Lower Node
  | .float w => return .unary (.floor w) (.binary (.arith .div (.float w)) left right)
  | .int w => do
    match env.options.floorDivision with
    | .truncate => return .binary (.arith .div (.int w)) left right
    | .floor =>
      let dividend ← temporary (.num (.int w))
      let divisor ← temporary (.num (.int w))
      let remainder ← temporary (.num (.int w))
      return floorQuotient w dividend divisor remainder left right

/-- An arithmetic operator. True division is done in floats; floats have no remainder. -/
def binary (env : Env) (op : BinOp) (left right : Node) (span : Span) : Lower Node := do
  let (left, right, k) ← unifyOperands left right span
  match op with
  | .add => return .binary (.arith .add k) left right
  | .sub => return .binary (.arith .sub k) left right
  | .mul => return .binary (.arith .mul k) left right
  | .div => return .binary (.arith .div k.toFloat) (convert left k.toFloat) (convert right k.toFloat)
  | .floorDiv => floorDivide env left right k
  | .mod =>
    match k with
    | .int w => return .binary (.rem w) left right
    | .float _ => throw (.type (.modulo k) span)
  | _ => throw (.unsupported (.operator op.symbol) span)

/-- A sign or `not`. An integer is negated by a product, and `not x` is `0 - x`, which is a
truth value only where `x` is zero or the result is tested. -/
def unary (op : UnaryOp) (value : Node) (span : Span) : Lower Node := do
  match value.ty with
  | .num k =>
    match op with
    | .pos => return value
    | .neg =>
      match k with
      | .float w => return .unary (.neg w) value
      | .int _ => return .binary (.arith .mul k) (.const (.ofInt k (-1))) value
    | .not => return .binary (.arith .sub k) (zero k) value
    | .invert => throw (.unsupported (.operator "~") span)
  | found => throw (.type (.unaryOperand found) span)

/-- The comparison of numbers that an operator means, if it means one. -/
def comparison? : CmpOp → Option Ir.Comparison
  | .eq => some .eq
  | .notEq => some .ne
  | .lt => some .lt
  | .le => some .le
  | .gt => some .gt
  | .ge => some .ge
  | .is | .isNot | .isIn | .notIn => none

/-- A value by condition. Both arms have one type, if need be by conversion. -/
def choose (condition ifTrue ifFalse : Node) (span : Span) : Lower Node := do
  if ifTrue.ty = ifFalse.ty ∧ ifTrue.ty ≠ .void then
    return .select condition ifTrue ifFalse
  match ifTrue.ty, ifFalse.ty with
  | .num _, .num _ =>
    let (a, b, _) ← unifyOperands ifTrue ifFalse span
    return .select condition a b
  | l, r => throw (.type (.branches l r) span)

end AnnotatedWasm.Lowering
