import AnnotatedWasm.Number.Ieee

/-!
The decimal text of a float: the fewest digits that read back as the same float.

The candidates on the grid of multiples of `10 ^ k` are the two neighbours of the number. The
coarsest grid with a candidate that rounds to the number gives the digits; of two such
candidates the nearer one is taken, and the upper one if they are equally near.
-/

namespace AnnotatedWasm.Shortest

/-- A positive number `m * 2 ^ e` among the floats: what lies less than `below / 4` or `2 / 4`
units of `2 ^ e` away rounds to it, and so do the ends of that interval if `m` is even. -/
structure Spot where
  m : Nat
  e : Int
  below : Nat

/-- The least mantissa of a power of two has a neighbour below it at half the distance. -/
def spot (w : Width) (m : Nat) (e : Int) : Spot :=
  ⟨m, e, if m = w.hidden then 1 else 2⟩

/-- A factor that takes quarters of `2 ^ e` to multiples of `10 ^ k`, as a fraction. -/
def gridScale (s : Spot) (k : Int) : Nat × Nat :=
  (Nat.pow 2 (s.e - 2).toNat * Nat.pow 10 (-k).toNat,
    Nat.pow 2 (2 - s.e).toNat * Nat.pow 10 k.toNat)

/-- The multiple of `10 ^ k` that stands for the number, if that grid has one. -/
def onGrid? (s : Spot) (k : Int) : Option Nat :=
  let (num, den) := gridScale s k
  let value := 4 * s.m * num
  let low := (4 * s.m - s.below) * num
  let high := (4 * s.m + 2) * num
  let d := value / den
  let even := s.m % 2 = 0
  let down := low < d * den || (even && low = d * den)
  let up := (d + 1) * den < high || (even && (d + 1) * den = high)
  match down, up with
  | true, true => some (if den ≤ 2 * (value - d * den) then d + 1 else d)
  | true, false => some d
  | false, true => some (d + 1)
  | false, false => none

/-- The least `k` with the number below `10 ^ k`. The estimate from the binary exponent is at
most one too small. -/
def decimalExponent (s : Spot) : Int :=
  let log2 : Int := s.m.log2 + s.e
  let estimate := log2 * 30103 / 100000
  let candidates := [estimate - 1, estimate, estimate + 1, estimate + 2]
  (candidates.find? fun k =>
    let (num, den) := gridScale s k
    4 * s.m * num < den).getD (estimate + 3)

/-- The digits, as a natural number, and the power of ten they are multiples of. Seventeen
digits are always enough. -/
def digits (s : Spot) : Nat × Int :=
  let top := decimalExponent s
  let found := (List.range 17).findSome? fun (n : Nat) =>
    let k : Int := top - n - 1
    (onGrid? s k).map fun d => (d, k)
  found.getD (0, 0)

/-- Digits without the zeros at their end. -/
def trim (ds : List Char) : List Char := (ds.reverse.dropWhile (· = '0')).reverse

/-- Digits with a point: `point` of them stand before it, and at least one on each side. -/
def positional (ds : List Char) (point : Int) : List Char :=
  let n : Int := ds.length
  if point ≤ 0 then ['0', '.'] ++ List.replicate (-point).toNat '0' ++ ds
  else if n ≤ point then ds ++ List.replicate (point - n).toNat '0' ++ ['.', '0']
  else ds.take point.toNat ++ ['.'] ++ ds.drop point.toNat

/-- Digits in scientific form, without a point where there is one digit only. -/
def scientific (ds : List Char) (point : Int) : List Char :=
  let power := (toString (point - 1)).toList
  match ds with
  | [d] => [d, 'e'] ++ power
  | d :: rest => [d, '.'] ++ rest ++ ['e'] ++ power
  | [] => []

/-- Whether the float with this magnitude is written in scientific form: it is below `10 ^ -4` or
not below `10 ^ 16`, the bounds being rounded to the format. -/
def isExtreme (w : Width) (magnitude : Nat) : Bool :=
  magnitude < Ieee.roundMagnitude w 1 10000 ||
    Ieee.roundMagnitude w 10000000000000000 1 ≤ magnitude

def finiteText (w : Width) (bits : BitVec w.bits) (m : Nat) (e : Int) : List Char :=
  if m = 0 then ['0', '.', '0']
  else
    let (d, k) := digits (spot w m e)
    let all := Nat.toDigits 10 d
    let point := all.length + k
    if isExtreme w (Ieee.magnitude w bits) then scientific (trim all) point
    else positional (trim all) point

/-- The text of a float. -/
def text (w : Width) (bits : BitVec w.bits) : String :=
  match Ieee.value w bits with
  | .nan => "NaN"
  | .infinite negative => if negative then "-inf" else "inf"
  | .finite negative m e =>
    String.ofList ((if negative then ['-'] else []) ++ finiteText w bits m e)

end AnnotatedWasm.Shortest
