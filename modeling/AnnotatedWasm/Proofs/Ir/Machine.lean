import AnnotatedWasm.Proofs.Ir.Eval
import AnnotatedWasm.Proofs.Number.Word

/-!
The machine that code is compiled for: its integer instructions are given on bits, while its
floating-point instructions and its callees are left open.

An integer instruction does to the `Word`s that it is given what arithmetic says of their values.
-/

namespace AnnotatedWasm

/-- What callees do with their arguments and with what is shared. -/
abbrev Callees (W : Type) :=
  String → List (Value Literal) → Shared Literal W →
    Option (Option (Value Literal) × Shared Literal W)

/-- How the floating-point instructions compute. None of them traps. -/
structure Floats where
  unary : Ir.UnaryOp → Literal → Literal
  binary : Ir.BinaryOp → Literal → Literal → Literal

/-- The bits of a number, as many as a width has. -/
def Literal.toBits (w : Width) : Literal → BitVec w.bits
  | .int _ v | .float _ v => v.setWidth _

/-- The machine with these floating-point instructions and these callees. -/
def machine {W : Type} (floats : Floats) (call : Callees W) : Machine Literal W where
  const := id
  unary
    | .extend, x => some (.int .w64 ((x.toBits .w32).signExtend _))
    | .wrap, x => some (.int .w32 ((x.toBits .w64).setWidth _))
    | op, x => some (floats.unary op x)
  binary
    | .arith a (.int w), x, y => (Bits.arith a (x.toBits w) (y.toBits w)).map (.int w)
    | .rem w, x, y => (Bits.rem (x.toBits w) (y.toBits w)).map (.int w)
    | .compare c (.int w), x, y =>
      some (.i32 (if Bits.compare c (x.toBits w) (y.toBits w) then 1 else 0))
    | op, x, y => some (floats.binary op x y)
  isZero x := x.toBits .w64 = 0
  toNat x := (x.toBits .w32).toNat
  ofNat n := .i32 n
  call

section

variable {W : Type} {floats : Floats} {call : Callees W}

@[simp] lemma toBits_int (w : Width) (v : BitVec w.bits) : (Literal.int w v).toBits w = v :=
  BitVec.setWidth_eq v

/-- Both ways between the two widths keep the value as far as there is room. -/
lemma unary_conversion {x : Word} {w : Width} {op : Ir.UnaryOp}
    (h : Ir.UnaryOp.conversion? (.int x.width) (.int w) = some op) :
    (machine floats call).unary op x.literal = some (Word.ofInt w x.value).literal := by
  obtain ⟨v, bits⟩ := x
  cases v <;> cases w <;> simp [Ir.UnaryOp.conversion?] at h <;> subst h
  · exact congrArg (fun b => some (Literal.int .w64 (BitVec.signExtend 64 b))) (toBits_int _ bits)
  · have hwrap : (bits.setWidth 32) = BitVec.ofInt 32 bits.toInt :=
      (BitVec.signExtend_eq_setWidth_of_le bits (by decide)).symm
    have hbits : (Literal.int .w64 bits).toBits .w64 = bits := toBits_int _ bits
    simp only [machine, Word.literal, Word.ofInt, Word.value, hbits]
    exact congrArg (fun b => some (Literal.int .w32 b)) hwrap

variable (w : Width) (a b : BitVec w.bits)

lemma binary_arith (op : Ir.Arith) :
    (machine floats call).binary (.arith op (.int w)) (.int w a) (.int w b) =
      (Bits.arith op a b).map (.int w) := by
  simp [machine]

lemma binary_rem :
    (machine floats call).binary (.rem w) (.int w a) (.int w b) = (Bits.rem a b).map (.int w) := by
  simp [machine]

lemma binary_compare (c : Ir.Comparison) :
    (machine floats call).binary (.compare c (.int w)) (.int w a) (.int w b) =
      some (.i32 (if c.holds a.toInt b.toInt then 1 else 0)) := by
  simp [machine, compare_eq]

end

end AnnotatedWasm
