import AnnotatedWasm.Grammar.Parser
import AnnotatedWasm.Syntax.Expr
import AnnotatedWasm.Text.Unquote

/-!
The grammar of expressions.

The levels of the grammar are written as parsers over `Inner`, the parsers for the parts that
can only start after a token of the whole has been taken: what stands in brackets, or behind
an operator. `inner n` closes the circle for streams of fewer than `n` tokens.
-/

namespace AnnotatedWasm.Grammar

open Syntax

structure Inner where
  expr : Parser Expr
  orTest : Parser Expr
  notTest : Parser Expr
  factor : Parser Expr

/-- A left-associative chain of operands with operators between them. -/
def chain (op? : Token → Option BinOp) (operand : Parser Expr) : Parser Expr := do
  let start ← peekSpan
  let first ← operand
  loop (fun left => do
    match op? (← peek) with
    | none => return .done left
    | some op =>
      advance
      let right ← operand
      return .again (.binary (← spanFrom start) op left right)) first

/-- Items with commas between them make a tuple, one item without a comma is itself. After a
comma, `stop` says whether the tuple ends there. -/
def tupleOf (item : Parser Expr) (stop : Parser Bool) : Parser Expr := do
  let start ← peekSpan
  let first ← item
  if (← peek) ≠ .punct .comma then
    return first
  let elems ← loop (fun elems => do
    if ← eat (.punct .comma) then
      if ← stop then
        return .done elems
      return .again (elems ++ [← item])
    else
      return .done elems) [first]
  return .tuple (← spanFrom start) elems

/-- The operator that an augmented assignment applies. -/
def augmented? : Token → Option BinOp
  | .punct .plusAssign => some .add
  | .punct .minusAssign => some .sub
  | .punct .starAssign => some .mul
  | .punct .slashAssign => some .div
  | .punct .floorDivAssign => some .floorDiv
  | .punct .percentAssign => some .mod
  | .punct .powAssign => some .pow
  | .punct .atAssign => some .matMul
  | .punct .ampAssign => some .bitAnd
  | .punct .pipeAssign => some .bitOr
  | .punct .caretAssign => some .bitXor
  | .punct .shiftLeftAssign => some .shiftLeft
  | .punct .shiftRightAssign => some .shiftRight
  | _ => none

def endsList : Token → Bool
  | .newline | .eof | .dedent | .punct .assign | .punct .colon | .punct .rParen => true
  | t => (augmented? t).isSome

/-- An expression, or a tuple without parentheses. -/
def exprList (r : Inner) : Parser Expr :=
  tupleOf r.expr (return endsList (← peek))

/-- One parameter; only those of a `def` have annotations. -/
def param (r : Inner) (annotated : Bool) : Parser Param := do
  let start ← peekSpan
  let name ← identifier
  let annot ← if annotated then after? (.punct .colon) r.expr else pure none
  let default ← after? (.punct .assign) r.expr
  return .mk name (← spanFrom start) annot default

def lambda (r : Inner) : Parser Expr := do
  let start ← peekSpan
  advance
  let params ← listUntil (.punct .colon) (param r false)
  expect (.punct .colon)
  let body ← r.expr
  return .lambda (← spanFrom start) params body

def yieldExpr (r : Inner) : Parser Expr := do
  let start ← peekSpan
  advance
  if ← eat (.keyword .kFrom) then
    let value ← r.expr
    return .yieldFrom (← spanFrom start) value
  match ← peek with
  | .newline | .eof | .dedent | .punct .rParen => return .yield (← spanFrom start) none
  | _ =>
    let value ← r.expr
    return .yield (← spanFrom start) (some value)

/-- What stands between braces: a dictionary if a colon follows its first part, else a set. -/
def braced (r : Inner) : Parser (Span → Expr) := do
  if (← peek) = .punct .rBrace then
    return fun span => .dict span []
  let first ← r.expr
  if ← eat (.punct .colon) then
    let value ← r.expr
    let entries ← loop (fun entries => do
      if ← eat (.punct .comma) then
        if (← peek) = .punct .rBrace then
          return .done entries
        let key ← r.expr
        expect (.punct .colon)
        let value ← r.expr
        return .again (entries ++ [(key, value)])
      else
        return .done entries) [(first, value)]
    return fun span => .dict span entries
  else if ← eat (.punct .comma) then
    let more ← listUntil (.punct .rBrace) r.expr
    return fun span => .set span (first :: more)
  else
    return fun span => .set span [first]

/-- Adjacent string literals are one string. -/
def strings : Parser String :=
  loop (fun value => do
    match ← peek with
    | .string text =>
      advance
      return .again (value ++ Text.unquote text)
    | _ => return .done value) ""

/-- A name, a literal, or a bracketed expression. Parentheses leave no trace. -/
def primary (r : Inner) : Parser Expr := do
  let start ← peekSpan
  match ← peek with
  | .name id =>
    advance
    return .name (← spanFrom start) id
  | .number text =>
    advance
    return .number (← spanFrom start) text
  | .string _ =>
    let value ← strings
    return .string (← spanFrom start) value
  | .keyword .kTrue =>
    advance
    return .bool (← spanFrom start) true
  | .keyword .kFalse =>
    advance
    return .bool (← spanFrom start) false
  | .keyword .kNone =>
    advance
    return .noneLit (← spanFrom start)
  | .punct .lParen =>
    advance
    if ← eat (.punct .rParen) then
      return .tuple (← spanFrom start) []
    let e ← exprList r
    expect (.punct .rParen)
    return e
  | .punct .lBracket =>
    advance
    let elems ← listUntil (.punct .rBracket) r.expr
    expect (.punct .rBracket)
    return .list (← spanFrom start) elems
  | .punct .lBrace =>
    advance
    let node ← braced r
    expect (.punct .rBrace)
    return node (← spanFrom start)
  | .punct .star =>
    advance
    let value ← r.orTest
    return .starred (← spanFrom start) value
  | _ => unexpected .expression

/-- Call arguments: positional ones, then those of the form `name = value`. -/
def callArgs (r : Inner) : Parser (List Expr × List (String × Expr)) :=
  loop (fun (args, keywords) => do
    if (← peek) = .punct .rParen then
      return .done (args, keywords)
    let arg ← r.expr
    let keyword? ← match arg.name? with
      | some name => do pure ((← after? (.punct .assign) r.expr).map fun value => (name, value))
      | none => pure none
    let next ← match keyword? with
      | some keyword => pure (args, keywords ++ [keyword])
      | none =>
        if keywords.isEmpty then pure (args ++ [arg], keywords)
        else throw ⟨.positionalAfterKeyword, arg.span⟩
    if ← eat (.punct .comma) then
      return .again next
    else
      return .done next) ([], [])

/-- A primary with any number of calls, attributes and subscripts behind it. -/
def trailed (r : Inner) : Parser Expr := do
  let start ← peekSpan
  let first ← primary r
  loop (fun e => do
    match ← peek with
    | .punct .lParen =>
      advance
      let (args, keywords) ← callArgs r
      expect (.punct .rParen)
      return .again (.call (← spanFrom start) e args keywords)
    | .punct .dot =>
      advance
      let field ← identifier
      return .again (.attr (← spanFrom start) e field)
    | .punct .lBracket =>
      advance
      let index ← exprList r
      expect (.punct .rBracket)
      return .again (.subscript (← spanFrom start) e index)
    | _ => return .done e) first

def awaited (r : Inner) : Parser Expr := do
  if (← peek) = .keyword .kAwait then
    let start ← peekSpan
    advance
    let value ← trailed r
    return .await (← spanFrom start) value
  else
    trailed r

/-- A power binds tighter than a sign on its left and looser than one on its right. -/
def power (r : Inner) : Parser Expr := do
  let start ← peekSpan
  let base ← awaited r
  if ← eat (.punct .pow) then
    let exponent ← r.factor
    return .binary (← spanFrom start) .pow base exponent
  else
    return base

def sign? : Token → Option UnaryOp
  | .punct .plus => some .pos
  | .punct .minus => some .neg
  | .punct .tilde => some .invert
  | _ => none

def factor (r : Inner) : Parser Expr := do
  let start ← peekSpan
  match sign? (← peek) with
  | some op =>
    advance
    let operand ← r.factor
    return .unary (← spanFrom start) op operand
  | none => power r

def product? : Token → Option BinOp
  | .punct .star => some .mul
  | .punct .slash => some .div
  | .punct .floorDiv => some .floorDiv
  | .punct .percent => some .mod
  | .punct .«at» => some .matMul
  | _ => none

def sum? : Token → Option BinOp
  | .punct .plus => some .add
  | .punct .minus => some .sub
  | _ => none

def shift? : Token → Option BinOp
  | .punct .shiftLeft => some .shiftLeft
  | .punct .shiftRight => some .shiftRight
  | _ => none

def bitAnd? : Token → Option BinOp
  | .punct .amp => some .bitAnd
  | _ => none

def bitXor? : Token → Option BinOp
  | .punct .caret => some .bitXor
  | _ => none

def bitOr? : Token → Option BinOp
  | .punct .pipe => some .bitOr
  | _ => none

/-- The arithmetic and bitwise operators by level, the tightest level first. -/
def levels : List (Token → Option BinOp) := [product?, sum?, shift?, bitAnd?, bitXor?, bitOr?]

/-- Arithmetic and bitwise operators between factors. -/
def arithmetic (r : Inner) : Parser Expr :=
  levels.foldl (fun operand op? => chain op? operand) (factor r)

def comparison? : Parser (Option CmpOp) := do
  match ← peek with
  | .punct .eq => take .eq
  | .punct .notEq => take .notEq
  | .punct .lt => take .lt
  | .punct .gt => take .gt
  | .punct .le => take .le
  | .punct .ge => take .ge
  | .name "in" => take .isIn
  | .name "is" =>
    advance
    if ← eat (.name "not") then return some .isNot else return some .is
  | .name "not" =>
    advance
    if ← eat (.name "in") then return some .notIn else unexpected .membershipAfterNot
  | _ => return none
where
  take (op : CmpOp) : Parser (Option CmpOp) := do
    advance
    return some op

def comparison (r : Inner) : Parser Expr := do
  let start ← peekSpan
  let left ← arithmetic r
  let rest ← loop (fun rest => do
    match ← comparison? with
    | some op => return .again (rest ++ [(op, ← arithmetic r)])
    | none => return .done rest) []
  if rest.isEmpty then
    return left
  else
    return .compare (← spanFrom start) left rest

def notTest (r : Inner) : Parser Expr := do
  let start ← peekSpan
  if ← eat (.name "not") then
    let operand ← r.notTest
    return .unary (← spanFrom start) .not operand
  else
    comparison r

def and? (t : Token) : Option BinOp := if t = .name "and" then some .and else none

def or? (t : Token) : Option BinOp := if t = .name "or" then some .or else none

def orTest (r : Inner) : Parser Expr := chain or? (chain and? (notTest r))

/-- A whole expression: a lambda, a `yield`, or a test that may go on as a conditional or a
named expression. -/
def expr (r : Inner) : Parser Expr := do
  let start ← peekSpan
  match ← peek with
  | .keyword .kLambda => lambda r
  | .keyword .kYield => yieldExpr r
  | _ =>
    let e ← orTest r
    if ← eat (.keyword .kIf) then
      let test ← r.orTest
      expect (.keyword .kElse)
      let orelse ← r.expr
      return .ifElse (← spanFrom start) test e orelse
    else if ← eat (.punct .walrus) then
      let value ← r.expr
      return .named (← spanFrom start) e value
    else
      return e

/-- The grammar unrolled `n` times. Each turn takes a token, so a stream of fewer than `n`
tokens never reaches the end. -/
def inner : Nat → Inner
  | 0 =>
    let stop : Parser Expr := do throw ⟨.stalled, ← peekSpan⟩
    ⟨stop, stop, stop, stop⟩
  | n + 1 =>
    let r := inner n
    ⟨expr r, orTest r, notTest r, factor r⟩

end AnnotatedWasm.Grammar
