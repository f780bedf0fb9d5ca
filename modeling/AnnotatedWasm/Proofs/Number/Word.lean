import AnnotatedWasm.Ir.Op
import AnnotatedWasm.Number.Literal
import Mathlib

/-!
Integers of two widths: what the instructions of the machine do with their bits, and what that
means for the signed numbers they stand for.

The instructions are given on bits. Their meaning is stated for a `Word` by its mathematical
value, and a result is brought back into range by `Word.ofInt`.
-/

namespace AnnotatedWasm

/-! ### Machine instructions -/

namespace Bits

variable {n : Nat}

/-- Addition and the like wrap around. A division traps on a zero divisor, and where the quotient
is out of range. -/
def arith : Ir.Arith → BitVec n → BitVec n → Option (BitVec n)
  | .add, x, y => some (x + y)
  | .sub, x, y => some (x - y)
  | .mul, x, y => some (x * y)
  | .div, x, y => if y = 0#n ∨ (x = BitVec.intMin n ∧ y = -1#n) then none else some (x.sdiv y)

/-- The remainder of a division toward zero. -/
def rem (x y : BitVec n) : Option (BitVec n) := if y = 0#n then none else some (x.srem y)

/-- Comparisons take the sign into account. -/
def compare : Ir.Comparison → BitVec n → BitVec n → Bool
  | .eq, x, y => x == y
  | .ne, x, y => x != y
  | .lt, x, y => x.slt y
  | .le, x, y => x.sle y
  | .gt, x, y => y.slt x
  | .ge, x, y => y.sle x

end Bits

/-! ### Words -/

/-- An integer of one of the two widths. -/
structure Word where
  width : Width
  bits : BitVec width.bits

namespace Word

/-- The signed number. -/
def value (x : Word) : Int := x.bits.toInt

/-- The word of a width that stands for a number, modulo the number of such words. -/
def ofInt (w : Width) (v : Int) : Word := ⟨w, BitVec.ofInt _ v⟩

def literal (x : Word) : Literal := .int x.width x.bits

/-- The least signed number of a width. -/
def least (w : Width) : Int := -2 ^ (w.bits - 1)

@[simp] lemma width_ofInt (w : Width) (v : Int) : (ofInt w v).width = w := rfl

@[simp] lemma ofInt_value (x : Word) : ofInt x.width x.value = x := by
  simp [ofInt, value]

/-- A number in the range of a width is the value of its word. -/
lemma value_ofInt {w : Width} {v : Int} (h : least w ≤ v) (h' : v < -least w) :
    (ofInt w v).value = v :=
  BitVec.toInt_ofInt_eq_self w.bits_pos h (by simpa [least] using h')

/-- A word keeps its value in a width that is not smaller. -/
lemma value_ofInt_value {x : Word} {w : Width} (h : x.width.bits ≤ w.bits) :
    (ofInt w x.value).value = x.value := by
  obtain ⟨v, bits⟩ := x
  have h' : (BitVec.signExtend w.bits bits).toInt = bits.toInt := BitVec.toInt_signExtend_of_le h
  exact h'

lemma bits_le_max_left (a b : Width) : a.bits ≤ (a.max b).bits := by
  cases a <;> cases b <;> decide

lemma bits_le_max_right (a b : Width) : b.bits ≤ (a.max b).bits := by
  cases a <;> cases b <;> decide

end Word

/-! ### What the instructions mean -/

section

variable {n : Nat} (x y : BitVec n)

lemma arith_add : Bits.arith .add x y = some (BitVec.ofInt n (x.toInt + y.toInt)) := by
  rw [BitVec.ofInt_add, BitVec.ofInt_toInt, BitVec.ofInt_toInt, Bits.arith]

lemma arith_sub : Bits.arith .sub x y = some (BitVec.ofInt n (x.toInt - y.toInt)) := by
  rw [sub_eq_add_neg, BitVec.ofInt_add, BitVec.ofInt_neg, BitVec.ofInt_toInt, BitVec.ofInt_toInt,
    Bits.arith, BitVec.sub_eq_add_neg]

lemma arith_mul : Bits.arith .mul x y = some (BitVec.ofInt n (x.toInt * y.toInt)) := by
  rw [BitVec.ofInt_mul, BitVec.ofInt_toInt, BitVec.ofInt_toInt, Bits.arith]

/-- Division rounds toward zero. -/
lemma arith_div (hn : 0 < n) : Bits.arith .div x y =
    if y.toInt = 0 ∨ (x.toInt = -2 ^ (n - 1) ∧ y.toInt = -1) then none
    else some (BitVec.ofInt n (x.toInt.tdiv y.toInt)) := by
  have hzero : y = 0#n ↔ y.toInt = 0 := by rw [← BitVec.toInt_inj, BitVec.toInt_zero]
  have hone : y = -1#n ↔ y.toInt = -1 := by
    rw [← BitVec.toInt_inj, BitVec.neg_one_eq_allOnes, BitVec.toInt_allOnes, if_pos hn]
  have hleast : x = BitVec.intMin n ↔ x.toInt = -2 ^ (n - 1) := by
    rw [← BitVec.toInt_inj, BitVec.toInt_intMin_of_pos hn]
  rw [Bits.arith]
  simp only [hzero, hone, hleast]
  split
  · rfl
  · next h =>
    have hne : x ≠ BitVec.intMin n ∨ y ≠ -1#n := by rw [Ne, Ne, hleast, hone]; tauto
    rw [← BitVec.toInt_sdiv_of_ne_or_ne x y hne, BitVec.ofInt_toInt]

/-- The remainder has the sign of the dividend. -/
lemma rem_eq : Bits.rem x y =
    if y.toInt = 0 then none else some (BitVec.ofInt n (x.toInt.tmod y.toInt)) := by
  have hzero : y = 0#n ↔ y.toInt = 0 := by rw [← BitVec.toInt_inj, BitVec.toInt_zero]
  rw [Bits.rem, ← BitVec.toInt_srem, BitVec.ofInt_toInt]
  simp only [hzero]

/-- What a comparison says about two numbers. -/
def Ir.Comparison.holds : Ir.Comparison → Int → Int → Bool
  | .eq, a, b => a = b
  | .ne, a, b => a ≠ b
  | .lt, a, b => a < b
  | .le, a, b => a ≤ b
  | .gt, a, b => b < a
  | .ge, a, b => b ≤ a

lemma compare_eq (c : Ir.Comparison) : Bits.compare c x y = c.holds x.toInt y.toInt := by
  cases c
  case eq => simp [Bits.compare, Ir.Comparison.holds, BitVec.toInt_inj, beq_eq_decide]
  case ne => simp [Bits.compare, Ir.Comparison.holds, BitVec.toInt_inj, bne, beq_eq_decide]
  all_goals simp [Bits.compare, Ir.Comparison.holds, BitVec.slt_eq_decide, BitVec.sle_eq_decide]

end

end AnnotatedWasm
