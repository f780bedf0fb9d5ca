/-!
The four numeric kinds: integers and floating-point numbers of two widths each.
-/

namespace AnnotatedWasm

/-- The two sizes of a machine number. -/
inductive Width where
  | w32
  | w64
deriving Repr, DecidableEq, Inhabited

namespace Width

def bits : Width → Nat
  | w32 => 32
  | w64 => 64

def digits : Width → String
  | w32 => "32"
  | w64 => "64"

/-- The wider of two sizes. -/
def max : Width → Width → Width
  | w32, w => w
  | w64, _ => w64

theorem bits_pos (w : Width) : 0 < w.bits := by cases w <;> decide

end Width

/-- How a number is represented when the compiled code runs. -/
inductive NumKind where
  | int (w : Width)
  | float (w : Width)
deriving Repr, DecidableEq, Inhabited

namespace NumKind

@[match_pattern] abbrev i32 : NumKind := .int .w32
@[match_pattern] abbrev i64 : NumKind := .int .w64
@[match_pattern] abbrev f32 : NumKind := .float .w32
@[match_pattern] abbrev f64 : NumKind := .float .w64

def all : List NumKind := [i32, i64, f32, f64]

def width : NumKind → Width
  | int w | float w => w

def isFloat : NumKind → Bool
  | int _ => false
  | float _ => true

def isWide (k : NumKind) : Bool := k.width = .w64

/-- The common kind of two operands: a float wins over an integer and the wider size over the
narrower, so an `i64` and an `f32` meet in `f64`. -/
def unify : NumKind → NumKind → NumKind
  | int a, int b => int (a.max b)
  | a, b => float (a.width.max b.width)

/-- The float kind of the same width, in which true division is done. -/
def toFloat (k : NumKind) : NumKind := float k.width

/-- Whether a conversion to `target` drops a fraction or halves the width. -/
def narrowsTo (k target : NumKind) : Bool :=
  (k.isFloat && !target.isFloat) || (k.isWide && !target.isWide)

def name : NumKind → String
  | int w => "i" ++ w.digits
  | float w => "f" ++ w.digits

/-- The kind's name with a capital letter, as operator names carry it. -/
def capital : NumKind → String
  | int w => "I" ++ w.digits
  | float w => "F" ++ w.digits

def ofName? (s : String) : Option NumKind := all.find? (·.name = s)

end NumKind

end AnnotatedWasm
