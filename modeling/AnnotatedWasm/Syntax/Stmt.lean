import AnnotatedWasm.Syntax.Expr

/-!
Source statements. A clause that is left out, such as the `else` of a loop, is an empty list:
a clause that is written always holds at least one statement.
-/

namespace AnnotatedWasm.Syntax

/-- What stands before the body of a function definition. -/
structure FuncHeader where
  name : String
  params : List Param
  returns : Option Expr
  decorators : List Expr

/-- What stands before the body of a class definition. -/
structure ClassHeader where
  name : String
  bases : List Expr
  decorators : List Expr

mutual

inductive Stmt where
  | expr (span : Span) (value : Expr)
  /-- `a = b = value` has two targets. -/
  | assign (span : Span) (targets : List Expr) (value : Expr)
  | annAssign (span : Span) (target annot : Expr) (value : Option Expr)
  | augAssign (span : Span) (target : Expr) (op : BinOp) (value : Expr)
  | ret (span : Span) (value : Option Expr)
  | pass (span : Span)
  | breakLoop (span : Span)
  | continueLoop (span : Span)
  | del (span : Span) (target : Expr)
  | assert (span : Span) (test : Expr) (message : Option Expr)
  | raise (span : Span) (exception cause : Option Expr)
  | global (span : Span) (names : List String)
  | nonlocal (span : Span) (names : List String)
  | importModule (span : Span) (path : List String) (asName : Option String)
  | importNames (span : Span) (path : List String) (names : List (String × Option String))
  | ifElse (span : Span) (test : Expr) (body : List Stmt) (elifs : List Branch)
      (orelse : List Stmt)
  /-- The `orelse` part runs when the loop ends without `break`. -/
  | whileLoop (span : Span) (test : Expr) (body orelse : List Stmt)
  | forLoop (span : Span) (target iter : Expr) (body orelse : List Stmt)
  | funcDef (span : Span) (header : FuncHeader) (body : List Stmt)
  | classDef (span : Span) (header : ClassHeader) (body : List Stmt)
  | tryExcept (span : Span) (body : List Stmt) (handlers : List Handler)
      (orelse finale : List Stmt)
  | withItems (span : Span) (items : List (Expr × Option Expr)) (body : List Stmt)

/-- An `elif` clause. -/
inductive Branch where
  | mk (test : Expr) (body : List Stmt)

/-- An `except` clause. -/
inductive Handler where
  | mk (exception : Option Expr) (name : Option String) (body : List Stmt)

end

instance : Inhabited Stmt := ⟨.pass ⟨0, 0⟩⟩

namespace Stmt

def span : Stmt → Span
  | expr s _ | assign s _ _ | annAssign s _ _ _ | augAssign s _ _ _ | ret s _ | pass s
  | breakLoop s | continueLoop s | del s _ | assert s _ _ | raise s _ _ | global s _
  | nonlocal s _ | importModule s _ _ | importNames s _ _ | ifElse s _ _ _ _
  | whileLoop s _ _ _ | forLoop s _ _ _ _ | funcDef s _ _ | classDef s _ _
  | tryExcept s _ _ _ _ | withItems s _ _ => s

/-- The words for a statement of this form in an error message. -/
def describe : Stmt → String
  | expr .. => "expression statement"
  | assign .. => "assignment"
  | annAssign .. => "annotated assignment"
  | augAssign .. => "augmented assignment"
  | ret .. => "return statement"
  | pass .. => "pass statement"
  | breakLoop .. => "break statement"
  | continueLoop .. => "continue statement"
  | del .. => "del statement"
  | assert .. => "assert statement"
  | raise .. => "raise statement"
  | global .. => "global statement"
  | nonlocal .. => "nonlocal statement"
  | importModule .. => "import statement"
  | importNames .. => "from-import statement"
  | ifElse .. => "if statement"
  | whileLoop .. => "while loop"
  | forLoop .. => "for loop"
  | funcDef .. => "function definition"
  | classDef .. => "class definition"
  | tryExcept .. => "try statement"
  | withItems .. => "with statement"

end Stmt

/-- A source file. -/
structure Module where
  body : List Stmt

end AnnotatedWasm.Syntax
