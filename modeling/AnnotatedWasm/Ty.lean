import AnnotatedWasm.Number.Kind

/-!
The types of values in a compiled function.
-/

namespace AnnotatedWasm

inductive Ty where
  | num (kind : NumKind)
  /-- A garbage-collected array of numbers of one kind. -/
  | array (element : NumKind)
  /-- A string constant, which compiled code can only pass around. -/
  | str
  /-- No value at all. -/
  | void
deriving Repr, DecidableEq, Inhabited

namespace Ty

@[match_pattern] abbrev i32 : Ty := .num .i32
@[match_pattern] abbrev i64 : Ty := .num .i64
@[match_pattern] abbrev f32 : Ty := .num .f32
@[match_pattern] abbrev f64 : Ty := .num .f64

def kind? : Ty → Option NumKind
  | num k => some k
  | _ => none

def isVoid : Ty → Bool
  | void => true
  | _ => false

def isReference : Ty → Bool
  | array _ | str => true
  | _ => false

/-- The type as a source annotation or a listing names it. -/
def text : Ty → String
  | num k => k.name
  | array k => s!"array[{k.name}]"
  | str => "string"
  | void => "void"

/-- The type as log lines spell it. -/
def logText : Ty → String
  | num k => s!"Num({k.capital})"
  | array k => s!"Array({k.capital})"
  | str => "Str"
  | void => "Void"

end Ty

end AnnotatedWasm
