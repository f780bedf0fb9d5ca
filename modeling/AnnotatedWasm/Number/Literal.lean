import AnnotatedWasm.Number.Shortest

/-!
Numeric constants of compiled code.
-/

namespace AnnotatedWasm

/-- A number of one of the four kinds; a float is given by its bits. -/
inductive Literal where
  | int (w : Width) (value : BitVec w.bits)
  | float (w : Width) (bits : BitVec w.bits)
deriving Repr, DecidableEq

namespace Literal

def kind : Literal → NumKind
  | int w _ => .int w
  | float w _ => .float w

def i32 (value : Int) : Literal := int .w32 (BitVec.ofInt 32 value)

def i64 (value : Int) : Literal := int .w64 (BitVec.ofInt 64 value)

/-- An integer as a constant of any kind. -/
def ofInt (k : NumKind) (value : Int) : Literal :=
  match k with
  | .int w => int w (BitVec.ofInt _ value)
  | .float w => float w (Ieee.ofInt w value)

def zero (k : NumKind) : Literal := ofInt k 0

/-- The operation that makes the constant, as a listing shows it. -/
def text : Literal → String
  | int w v => s!"i{w.digits}.const {v.toInt}"
  | float w b => s!"f{w.digits}.const {Shortest.text w b}"

@[simp] theorem kind_ofInt (k : NumKind) (n : Int) : (ofInt k n).kind = k := by
  cases k <;> rfl

@[simp] theorem kind_zero (k : NumKind) : (zero k).kind = k := kind_ofInt k 0

end Literal

end AnnotatedWasm
