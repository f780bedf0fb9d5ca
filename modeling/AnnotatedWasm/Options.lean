import AnnotatedWasm.Ty

/-!
The switches of a compilation.
-/

namespace AnnotatedWasm

/-- How integers are divided by `//`. -/
inductive FloorDivision where
  /-- Toward zero, as the machine does it. -/
  | truncate
  /-- Toward negative infinity, as the source language means it. -/
  | floor
deriving Repr, DecidableEq, Inhabited

structure Options where
  /-- Arrays are allowed. -/
  gc : Bool := false
  /-- String constants are allowed. -/
  strings : Bool := false
  floorDivision : FloorDivision := .truncate
deriving Repr, DecidableEq, Inhabited

/-- A part of the language that a switch turns on. -/
inductive Feature where
  | arrays
  | strings
deriving Repr, DecidableEq

/-- The feature that values of a type need and the options turn off. -/
def Options.missing? (o : Options) : Ty → Option Feature
  | .array _ => if o.gc then none else some .arrays
  | .str => if o.strings then none else some .strings
  | _ => none

end AnnotatedWasm
