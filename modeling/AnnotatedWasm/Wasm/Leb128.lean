/-!
Integers in base 128, the low digit first; every byte but the last has its high bit set.
-/

namespace AnnotatedWasm.Wasm

/-- An unsigned number. -/
def uleb (n : Nat) : List UInt8 :=
  if n < 128 then [UInt8.ofNat n] else UInt8.ofNat (n % 128 + 128) :: uleb (n / 128)
termination_by n
decreasing_by omega

/-- A signed number. The last byte's second highest bit is the sign. -/
def sleb (n : Int) : List UInt8 :=
  if -64 ≤ n ∧ n < 64 then [UInt8.ofNat (n % 128).toNat]
  else UInt8.ofNat ((n % 128).toNat + 128) :: sleb (n / 128)
termination_by n.natAbs
decreasing_by omega

end AnnotatedWasm.Wasm
