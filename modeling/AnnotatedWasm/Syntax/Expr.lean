import AnnotatedWasm.Source
import AnnotatedWasm.Syntax.Op

/-!
Source expressions. Every node starts with the span of the text it was read from.
-/

namespace AnnotatedWasm.Syntax

mutual

inductive Expr where
  | name (span : Span) (id : String)
  /-- A number as written; its value is decided when it is compiled. -/
  | number (span : Span) (text : String)
  /-- A string with its escapes resolved. -/
  | string (span : Span) (value : String)
  | bool (span : Span) (value : Bool)
  | noneLit (span : Span)
  | unary (span : Span) (op : UnaryOp) (operand : Expr)
  | binary (span : Span) (op : BinOp) (left right : Expr)
  /-- A comparison chain: `1 < x < 10` keeps both of its comparisons. -/
  | compare (span : Span) (left : Expr) (rest : List (CmpOp × Expr))
  | ifElse (span : Span) (test body orelse : Expr)
  | lambda (span : Span) (params : List Param) (body : Expr)
  | call (span : Span) (func : Expr) (args : List Expr) (keywords : List (String × Expr))
  | attr (span : Span) (value : Expr) (field : String)
  | subscript (span : Span) (value index : Expr)
  | tuple (span : Span) (elems : List Expr)
  | list (span : Span) (elems : List Expr)
  | dict (span : Span) (entries : List (Expr × Expr))
  | set (span : Span) (elems : List Expr)
  | starred (span : Span) (value : Expr)
  | await (span : Span) (value : Expr)
  | yield (span : Span) (value : Option Expr)
  | yieldFrom (span : Span) (value : Expr)
  /-- `target := value`. -/
  | named (span : Span) (target value : Expr)

/-- A parameter of a function or a lambda. -/
inductive Param where
  | mk (name : String) (span : Span) (annot default : Option Expr)

end

instance : Inhabited Expr := ⟨.noneLit ⟨0, 0⟩⟩

namespace Param

def name : Param → String
  | mk n _ _ _ => n

def span : Param → Span
  | mk _ s _ _ => s

def annot : Param → Option Expr
  | mk _ _ a _ => a

def default : Param → Option Expr
  | mk _ _ _ d => d

end Param

namespace Expr

def span : Expr → Span
  | name s _ | number s _ | string s _ | bool s _ | noneLit s | unary s _ _ | binary s _ _ _
  | compare s _ _ | ifElse s _ _ _ | lambda s _ _ | call s _ _ _ | attr s _ _
  | subscript s _ _ | tuple s _ | list s _ | dict s _ | set s _ | starred s _ | await s _
  | yield s _ | yieldFrom s _ | named s _ _ => s

/-- The words for an expression of this form in an error message. -/
def describe : Expr → String
  | name .. => "name"
  | number .. => "number"
  | string .. => "string literal"
  | bool .. => "boolean literal"
  | noneLit .. => "None"
  | unary .. => "unary operation"
  | binary .. => "binary operation"
  | compare .. => "comparison"
  | ifElse .. => "conditional expression"
  | lambda .. => "lambda"
  | call .. => "call"
  | attr .. => "attribute access"
  | subscript .. => "subscript"
  | tuple .. => "tuple"
  | list .. => "list literal"
  | dict .. => "dict literal"
  | set .. => "set literal"
  | starred .. => "starred expression"
  | await .. => "await expression"
  | yield .. => "yield expression"
  | yieldFrom .. => "yield from expression"
  | named .. => "assignment expression"

def name? : Expr → Option String
  | name _ id => some id
  | _ => none

end Expr

end AnnotatedWasm.Syntax
