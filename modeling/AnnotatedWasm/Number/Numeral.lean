import AnnotatedWasm.Number.Literal

/-!
Numbers as a source writes them, and their values.
-/

namespace AnnotatedWasm

/-- The value of a written number. Integers fit into 64 signed bits; a float is an `f64`. -/
inductive Numeral where
  | int (value : Int)
  | float (bits : BitVec 64)
deriving Repr, DecidableEq

namespace Numeral

/-- The value of a digit in any radix up to sixteen. -/
def digitValue (c : Char) : Nat :=
  if '0' ≤ c && c ≤ '9' then c.toNat - '0'.toNat
  else if 'a' ≤ c && c ≤ 'f' then c.toNat - 'a'.toNat + 10
  else c.toNat - 'A'.toNat + 10

/-- The value of a sequence of digits, the most significant first. -/
def ofDigits (radix : Nat) (ds : List Char) : Nat :=
  ds.foldl (fun n c => n * radix + digitValue c) 0

/-- An integer needs a digit, and must not exceed the greatest signed one of 64 bits. -/
def int? (radix : Nat) (ds : List Char) : Option Numeral :=
  if ds.isEmpty || Width.w64.signBit ≤ ofDigits radix ds then none else some (int (ofDigits radix ds))

def isExponentMark (c : Char) : Bool := c = 'e' || c = 'E'

/-- The value of an exponent part without its mark. -/
def exponent : List Char → Int
  | '-' :: ds => -(ofDigits 10 ds : Int)
  | '+' :: ds => ofDigits 10 ds
  | ds => ofDigits 10 ds

/-- The float nearest to a decimal with a point or an exponent. -/
def float64 (cs : List Char) : BitVec 64 :=
  let mantissa := cs.takeWhile (!isExponentMark ·)
  let power := exponent ((cs.dropWhile (!isExponentMark ·)).drop 1)
  let whole := mantissa.takeWhile (· ≠ '.')
  let fraction := (mantissa.dropWhile (· ≠ '.')).drop 1
  Ieee.ofDecimal .w64 (ofDigits 10 (whole ++ fraction)) (power - fraction.length)

/-- The value of a number without its underscores. -/
def ofChars? : List Char → Option Numeral
  | '0' :: 'x' :: ds | '0' :: 'X' :: ds => int? 16 ds
  | '0' :: 'o' :: ds | '0' :: 'O' :: ds => int? 8 ds
  | '0' :: 'b' :: ds | '0' :: 'B' :: ds => int? 2 ds
  | cs =>
    if cs.any fun c => c = '.' || isExponentMark c then some (float (float64 cs))
    else int? 10 cs

/-- The value of a number token, if it is in range. -/
def ofText? (text : String) : Option Numeral := ofChars? (text.toList.filter (· ≠ '_'))

def neg : Numeral → Numeral
  | int v => int (-v)
  | float b => float (Ieee.neg .w64 b)

/-- The number as a constant of a given kind: integers wrap around, floats lose their fraction
and stop at the ends of the range, and what becomes a float is rounded. -/
def toLiteral (k : NumKind) : Numeral → Literal
  | int v => .ofInt k v
  | float b =>
    match k with
    | .int w => .int w ((Ieee.value .w64 b).toInt w)
    | .f32 => .float .w32 (Ieee.ofValue .w32 (Ieee.value .w64 b))
    | .f64 => .float .w64 b

/-- The constant that an expression has for a written number: the narrower integer kind that
holds it, or an `f64`. -/
def constant : Numeral → Literal
  | int v => if v < Width.w32.signBit then .i32 v else .i64 v
  | float b => .float .w64 b

@[simp] theorem kind_toLiteral (k : NumKind) (n : Numeral) : (n.toLiteral k).kind = k := by
  rcases k with w | ⟨_ | _⟩ <;> cases n <;> rfl

end Numeral

end AnnotatedWasm
