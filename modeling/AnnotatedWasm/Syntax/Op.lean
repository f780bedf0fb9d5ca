/-!
The operators of source expressions and the symbols they are written with.
-/

namespace AnnotatedWasm.Syntax

/-- Arithmetic, bitwise and boolean operators. -/
inductive BinOp where
  | add
  | sub
  | mul
  | div
  | floorDiv
  | mod
  | pow
  | shiftLeft
  | shiftRight
  | bitAnd
  | bitOr
  | bitXor
  | and
  | or
  | matMul
deriving Repr, DecidableEq, Inhabited

def BinOp.symbol : BinOp → String
  | add => "+"
  | sub => "-"
  | mul => "*"
  | div => "/"
  | floorDiv => "//"
  | mod => "%"
  | pow => "**"
  | shiftLeft => "<<"
  | shiftRight => ">>"
  | bitAnd => "&"
  | bitOr => "|"
  | bitXor => "^"
  | .and => "and"
  | .or => "or"
  | matMul => "@"

inductive UnaryOp where
  | neg
  | pos
  | not
  | invert
deriving Repr, DecidableEq, Inhabited

inductive CmpOp where
  | eq
  | notEq
  | lt
  | le
  | gt
  | ge
  | is
  | isNot
  | isIn
  | notIn
deriving Repr, DecidableEq, Inhabited

def CmpOp.symbol : CmpOp → String
  | eq => "=="
  | notEq => "!="
  | lt => "<"
  | le => "<="
  | gt => ">"
  | ge => ">="
  | is => "is"
  | isNot => "is not"
  | isIn => "in"
  | notIn => "not in"

end AnnotatedWasm.Syntax
