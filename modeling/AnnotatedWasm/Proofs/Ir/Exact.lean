import AnnotatedWasm.Proofs.Ir.Eval
import AnnotatedWasm.Proofs.Number.Word

/-!
A machine whose floating-point instructions are exact.

Its integer instructions are those on bits. Its floats are rational numbers, so nothing is rounded;
a conversion back to an integer goes toward zero and stops at the ends of the range.
-/

namespace AnnotatedWasm

/-- A number of the exact machine. -/
inductive Exact where
  | int (w : Width) (bits : BitVec w.bits)
  | rational (value : ℚ)

namespace Exact

/-- The bits of an integer, as many as a width has. -/
def bits (w : Width) : Exact → BitVec w.bits
  | int _ v => v.setWidth _
  | rational _ => 0

/-- The value of a float. -/
def value : Exact → ℚ
  | int _ _ => 0
  | rational q => q

/-- An integer, modulo the number of those that a width has. -/
def ofInt (w : Width) (v : Int) : Exact := int w (BitVec.ofInt w.bits v)

abbrev i32 (v : Int) : Exact := ofInt .w32 v

@[simp] lemma bits_int (w : Width) (v : BitVec w.bits) : (int w v).bits w = v :=
  BitVec.setWidth_eq v

@[simp] lemma bits_ofInt (w : Width) (v : Int) : (ofInt w v).bits w = BitVec.ofInt w.bits v :=
  bits_int w _

lemma int_eq_i32 (v : BitVec 32) : int .w32 v = i32 v.toInt :=
  congrArg (int .w32) (BitVec.ofInt_toInt).symm

end Exact

/-- A rational number without its fraction. -/
def towardZero (q : ℚ) : Int := if 0 ≤ q then ⌊q⌋ else ⌈q⌉

/-- The nearest number that a width has room for. -/
def saturate (w : Width) (v : Int) : Int :=
  max (-2 ^ (w.bits - 1)) (min (2 ^ (w.bits - 1) - 1) v)

/-- What a comparison says about two rational numbers. -/
def Ir.Comparison.holdsFor : Ir.Comparison → ℚ → ℚ → Bool
  | .eq, p, q => p = q
  | .ne, p, q => p ≠ q
  | .lt, p, q => p < q
  | .le, p, q => p ≤ q
  | .gt, p, q => q < p
  | .ge, p, q => q ≤ p

/-- Exact arithmetic; a quotient by zero is zero. -/
def Ir.Arith.exact : Ir.Arith → ℚ → ℚ → ℚ
  | .add, p, q => p + q
  | .sub, p, q => p - q
  | .mul, p, q => p * q
  | .div, p, q => p / q

/-- The exact machine, with these values for the constants that are floats and these callees. -/
def exactMachine {W : Type} (float : (w : Width) → BitVec w.bits → ℚ)
    (call : String → List (Value Exact) → Shared Exact W →
      Option (Option (Value Exact) × Shared Exact W)) : Machine Exact W where
  const
    | .int w v => .int w v
    | .float w v => .rational (float w v)
  unary
    | .extend, x => some (.int .w64 ((x.bits .w32).signExtend _))
    | .wrap, x => some (.int .w32 ((x.bits .w64).setWidth _))
    | .convert s _, x => some (.rational (x.bits s).toInt)
    | .truncate _ t, x => some (.int t (.ofInt _ (saturate t (towardZero x.value))))
    | .promote, x | .demote, x => some (.rational x.value)
    | .neg _, x => some (.rational (-x.value))
    | .floor _, x => some (.rational ⌊x.value⌋)
    | .ceil, x => some (.rational ⌈x.value⌉)
  binary
    | .arith a (.int w), x, y => (Bits.arith a (x.bits w) (y.bits w)).map (.int w)
    | .arith a (.float _), x, y => some (.rational (a.exact x.value y.value))
    | .rem w, x, y => (Bits.rem (x.bits w) (y.bits w)).map (.int w)
    | .compare c (.int w), x, y =>
      some (.i32 (if Bits.compare c (x.bits w) (y.bits w) then 1 else 0))
    | .compare c (.float _), x, y => some (.i32 (if c.holdsFor x.value y.value then 1 else 0))
  isZero
    | .int _ v => v = 0
    | .rational q => q = 0
  toNat x := (x.bits .w32).toNat
  ofNat n := .i32 n
  call

end AnnotatedWasm
