import AnnotatedWasm.Number.Kind

/-!
Binary floating-point numbers as bit patterns.

A finite number is `m * 2 ^ e` for a natural `m`. Rounding takes an exact quotient of naturals
to the nearest representable number, a tie to the even one, and so serves for decimal literals
and for every conversion into a float kind.
-/

namespace AnnotatedWasm

namespace Width

/-- How many bits of a float hold the fraction. -/
def fractionBits : Width → Nat
  | w32 => 23
  | w64 => 52

def exponentBits : Width → Nat
  | w32 => 8
  | w64 => 11

/-- The leading bit of a mantissa, which the pattern of a float leaves out. -/
def hidden (w : Width) : Nat := Nat.pow 2 w.fractionBits

/-- The bit of a pattern that holds the sign. -/
def signBit (w : Width) : Nat := Nat.pow 2 (w.bits - 1)

/-- The exponent of the smallest positive float. -/
def minExponent : Width → Int
  | w32 => -149
  | w64 => -1074

end Width

namespace Ieee

inductive Value where
  | nan
  | infinite (negative : Bool)
  /-- The number `m * 2 ^ e`; zero has a sign too. -/
  | finite (negative : Bool) (m : Nat) (e : Int)
deriving Repr, DecidableEq

/-- The pattern of infinity without its sign. -/
def infinity (w : Width) : Nat := (Nat.pow 2 w.exponentBits - 1) * w.hidden

/-- The pattern without its sign bit. -/
def magnitude (w : Width) (bits : BitVec w.bits) : Nat := bits.toNat % w.signBit

def withSign (w : Width) (negative : Bool) (magnitude : Nat) : BitVec w.bits :=
  BitVec.ofNat _ ((if negative then w.signBit else 0) + magnitude)

/-- The number that a pattern stands for. -/
def value (w : Width) (bits : BitVec w.bits) : Value :=
  let mag := magnitude w bits
  let fraction := mag % w.hidden
  let exponent := mag / w.hidden
  if mag > infinity w then .nan
  else if mag = infinity w then .infinite bits.msb
  else if exponent = 0 then .finite bits.msb fraction w.minExponent
  else .finite bits.msb (w.hidden + fraction) (w.minExponent + exponent - 1)

/-- The integer nearest to `num / den`, the even one of two that are equally near. -/
def divRound (num den : Nat) : Nat :=
  let q := num / den
  let r := num % den
  if den < 2 * r || (2 * r = den && q % 2 = 1) then q + 1 else q

/-- `2 ^ e` as a factor of a numerator and one of a denominator. -/
def powerOfTwo (e : Int) : Nat × Nat := (Nat.pow 2 e.toNat, Nat.pow 2 (-e).toNat)

/-- The greatest `t` with `2 ^ t ≤ num / den`, for a positive quotient. -/
def floorLog (num den : Nat) : Int :=
  let t : Int := (num.log2 : Int) - den.log2
  let (up, down) := powerOfTwo t
  if den * up ≤ num * down then t else t - 1

/-- The pattern, without sign, of the float nearest to `num / den`. In the pattern a mantissa
that fills up carries into the exponent, which is what rounding up needs. -/
def roundMagnitude (w : Width) (num den : Nat) : Nat :=
  if num = 0 then 0
  else
    let e := max w.minExponent (floorLog num den - w.fractionBits)
    let (up, down) := powerOfTwo e
    let m := divRound (num * down) (den * up)
    min (infinity w) ((e - w.minExponent).toNat * w.hidden + m)

/-- The float nearest to `num / den`, with the given sign. -/
def round (w : Width) (negative : Bool) (num den : Nat) : BitVec w.bits :=
  withSign w negative (roundMagnitude w num den)

/-- The float nearest to an integer. -/
def ofInt (w : Width) (n : Int) : BitVec w.bits := round w (n < 0) n.natAbs 1

/-- The float nearest to `m * 10 ^ e`. Exponents far outside the range of every format are
settled without computing the power. -/
def ofDecimal (w : Width) (m : Nat) (e : Int) : BitVec w.bits :=
  let reach : Int := (Nat.toDigits 10 m).length + e
  if m = 0 || reach < -400 then withSign w false 0
  else if 400 < reach then withSign w false (infinity w)
  else round w false (m * Nat.pow 10 e.toNat) (Nat.pow 10 (-e).toNat)

/-- The quiet pattern that stands for no number. -/
def nan (w : Width) : BitVec w.bits :=
  withSign w false (infinity w + w.hidden / 2)

/-- The float of another width nearest to a value. -/
def ofValue (w : Width) : Value → BitVec w.bits
  | .nan => nan w
  | .infinite negative => withSign w negative (infinity w)
  | .finite negative m e =>
    let (up, down) := powerOfTwo e
    round w negative (m * up) down

/-- The integer part of a value, held to the range of signed integers of the given width; what
is no number counts as zero. -/
def Value.toInt (w : Width) : Value → BitVec w.bits
  | .nan => 0
  | .infinite negative => if negative then BitVec.intMin _ else BitVec.intMax _
  | .finite negative m e =>
    let (up, down) := powerOfTwo e
    let n : Int := (m * up / down : Nat)
    let n := if negative then -n else n
    if n < -(w.signBit : Int) then BitVec.intMin _
    else if (w.signBit : Int) ≤ n then BitVec.intMax _
    else BitVec.ofInt _ n

/-- The float of opposite sign. -/
def neg (w : Width) (bits : BitVec w.bits) : BitVec w.bits :=
  withSign w (!bits.msb) (magnitude w bits)

end Ieee

end AnnotatedWasm
