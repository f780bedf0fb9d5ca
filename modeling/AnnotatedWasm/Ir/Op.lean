import AnnotatedWasm.Number.Kind

/-!
The operators of the intermediate code, each with the kind of its operands and of its result.
-/

namespace AnnotatedWasm.Ir

/-- Operators on one number. The conversions connect every two different kinds; those from a
float to an integer saturate. -/
inductive UnaryOp where
  /-- `i32` to `i64`, keeping the sign. -/
  | extend
  /-- `i64` to `i32`, keeping the low half. -/
  | wrap
  | convert (source target : Width)
  | truncate (source target : Width)
  /-- `f32` to `f64`. -/
  | promote
  /-- `f64` to `f32`. -/
  | demote
  | neg (w : Width)
  | floor (w : Width)
  /-- Of an `f64`. -/
  | ceil
deriving Repr, DecidableEq, Inhabited

namespace UnaryOp

def operandKind : UnaryOp → NumKind
  | extend => .i32
  | wrap => .i64
  | convert s _ => .int s
  | truncate s _ => .float s
  | promote => .f32
  | demote => .f64
  | neg w | floor w => .float w
  | ceil => .f64

def resultKind : UnaryOp → NumKind
  | extend => .i64
  | wrap => .i32
  | convert _ t => .float t
  | truncate _ t => .int t
  | promote => .f64
  | demote => .f32
  | neg w | floor w => .float w
  | ceil => .f64

def name : UnaryOp → String
  | extend => "ExtendI32ToI64"
  | wrap => "WrapI64ToI32"
  | convert s t => s!"ConvertI{s.digits}ToF{t.digits}"
  | truncate s t => s!"TruncF{s.digits}ToI{t.digits}"
  | promote => "PromoteF32"
  | demote => "DemoteF64"
  | neg w => s!"NegF{w.digits}"
  | floor w => s!"FloorF{w.digits}"
  | ceil => "CeilF64"

def all : List UnaryOp :=
  [extend, wrap,
    convert .w32 .w32, convert .w32 .w64, convert .w64 .w32, convert .w64 .w64,
    truncate .w32 .w32, truncate .w32 .w64, truncate .w64 .w32, truncate .w64 .w64,
    promote, demote, neg .w32, neg .w64, floor .w32, floor .w64, ceil]

def ofName? (s : String) : Option UnaryOp := all.find? (·.name = s)

/-- The operator that takes a number from one kind to another, if the two differ. -/
def conversion? : NumKind → NumKind → Option UnaryOp
  | .i32, .i64 => some extend
  | .i64, .i32 => some wrap
  | .f32, .f64 => some promote
  | .f64, .f32 => some demote
  | .int s, .float t => some (convert s t)
  | .float s, .int t => some (truncate s t)
  | _, _ => none

theorem conversion?_kinds {a b : NumKind} {op : UnaryOp} (h : conversion? a b = some op) :
    op.operandKind = a ∧ op.resultKind = b := by
  rcases a with ⟨_ | _⟩ | ⟨_ | _⟩ <;> rcases b with ⟨_ | _⟩ | ⟨_ | _⟩ <;>
    simp [conversion?] at h <;> subst h <;> exact ⟨rfl, rfl⟩

theorem conversion?_eq_none_iff (a b : NumKind) : conversion? a b = none ↔ a = b := by
  rcases a with ⟨_ | _⟩ | ⟨_ | _⟩ <;> rcases b with ⟨_ | _⟩ | ⟨_ | _⟩ <;> decide

end UnaryOp

inductive Arith where
  | add
  | sub
  | mul
  | div
deriving Repr, DecidableEq, Inhabited

inductive Comparison where
  | eq
  | ne
  | lt
  | le
  | gt
  | ge
deriving Repr, DecidableEq, Inhabited

/-- Operators on two numbers of one kind. Integers are signed, and only they have a remainder. -/
inductive BinaryOp where
  | arith (op : Arith) (kind : NumKind)
  | rem (w : Width)
  | compare (op : Comparison) (kind : NumKind)
deriving Repr, DecidableEq, Inhabited

namespace Arith

def all : List Arith := [add, sub, mul, div]

def name : Arith → NumKind → String
  | add, _ => "Add"
  | sub, _ => "Sub"
  | mul, _ => "Mul"
  | div, .int _ => "DivS"
  | div, .float _ => "Div"

end Arith

namespace Comparison

def all : List Comparison := [eq, ne, lt, le, gt, ge]

/-- An ordering of integers says in its name that it is signed. -/
def name (c : Comparison) (k : NumKind) : String :=
  match c with
  | eq => "Eq"
  | ne => "Ne"
  | lt => "Lt" ++ sign k
  | le => "Le" ++ sign k
  | gt => "Gt" ++ sign k
  | ge => "Ge" ++ sign k
where
  sign : NumKind → String
    | .int _ => "S"
    | .float _ => ""

end Comparison

namespace BinaryOp

def operandKind : BinaryOp → NumKind
  | arith _ k => k
  | rem w => .int w
  | compare _ k => k

def isComparison : BinaryOp → Bool
  | compare _ _ => true
  | _ => false

/-- A comparison gives an `i32` truth value, everything else a number of the operands' kind. -/
def resultKind : BinaryOp → NumKind
  | compare _ _ => .i32
  | arith _ k => k
  | rem w => .int w

def name : BinaryOp → String
  | arith op k => op.name k ++ k.capital
  | rem w => "RemSI" ++ w.digits
  | compare c k => c.name k ++ k.capital

def all : List BinaryOp :=
  Arith.all.flatMap (fun op => NumKind.all.map (arith op)) ++ [rem .w32, rem .w64] ++
    Comparison.all.flatMap (fun c => NumKind.all.map (compare c))

def ofName? (s : String) : Option BinaryOp := all.find? (·.name = s)

end BinaryOp

end AnnotatedWasm.Ir
