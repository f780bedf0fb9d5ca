import AnnotatedWasm.Grammar.Expr
import AnnotatedWasm.Syntax.Stmt
import AnnotatedWasm.Token.Layout

/-!
The grammar of statements and whole sources.

Expressions are read by a closed grammar `r`. A statement is written over `stmt`, the parser for
the statements inside it, and `statement n` closes the circle as for expressions.
-/

namespace AnnotatedWasm.Grammar

open Syntax

/-- A block is one simple statement on the same line, or indented lines. -/
def block (stmt : Parser Stmt) : Parser (List Stmt) := do
  if (← peek) ≠ .newline then
    return [← stmt]
  advance
  if (← peek) ≠ .indent then
    unexpected .indentedBlock
  advance
  skipNewlines
  let body ← loop (fun body => do
    match ← peek with
    | .dedent | .eof => return .done body
    | _ =>
      let s ← stmt
      skipNewlines
      return .again (body ++ [s])) []
  let _ ← eat .dedent
  return body

/-- The block after a colon. -/
def suite (stmt : Parser Stmt) : Parser (List Stmt) := do
  expect (.punct .colon)
  block stmt

/-- The clause that `word` opens, or nothing. -/
def clause (word : Keyword) (stmt : Parser Stmt) : Parser (List Stmt) := do
  if ← eat (.keyword word) then suite stmt else return []

def atLineEnd : Parser Bool := do
  match ← peek with
  | .newline | .eof | .dedent => return true
  | _ => return false

/-- The end of a simple statement: of its line, or of the block it stands in. -/
def endOfStatement : Parser Unit := do
  match ← peek with
  | .newline => advance
  | .eof | .dedent => return ()
  | _ => unexpected .endOfLine

def raising (r : Inner) : Parser (Span → Stmt) := do
  advance
  if ← atLineEnd then
    return fun span => .raise span none none
  let exception ← r.expr
  let cause ← after? (.keyword .kFrom) r.expr
  return fun span => .raise span (some exception) cause

def dottedName : Parser (List String) := separated (.punct .dot) identifier

def nameList : Parser (List String) := separated (.punct .comma) identifier

def importing : Parser (Span → Stmt) := do
  advance
  let path ← dottedName
  let asName ← after? (.keyword .kAs) identifier
  return fun span => .importModule span path asName

/-- Names to import, each with an optional new name; in parentheses a comma may end them. -/
def importedNames (parenthesized : Bool) : Parser (List (String × Option String)) :=
  loop (fun names => do
    let name ← identifier
    let asName ← after? (.keyword .kAs) identifier
    let names := names ++ [(name, asName)]
    if ← eat (.punct .comma) then
      if parenthesized && (← peek) = .punct .rParen then
        return .done names
      return .again names
    else
      return .done names) []

def importingFrom : Parser (Span → Stmt) := do
  advance
  let path ← dottedName
  expect (.keyword .kImport)
  let parenthesized ← eat (.punct .lParen)
  let names ← importedNames parenthesized
  if parenthesized then
    expect (.punct .rParen)
  return fun span => .importNames span path names

/-- An expression statement, or one of the three forms of assignment. -/
def exprOrAssign (r : Inner) : Parser (Span → Stmt) := do
  let target ← exprList r
  match augmented? (← peek) with
  | some op =>
    advance
    let value ← exprList r
    return fun span => .augAssign span target op value
  | none =>
    if ← eat (.punct .colon) then
      let annot ← r.expr
      let value ← after? (.punct .assign) (exprList r)
      return fun span => .annAssign span target annot value
    if ← eat (.punct .assign) then
      let value ← exprList r
      let (targets, value) ← loop (fun (targets, value) => do
        if ← eat (.punct .assign) then
          let next ← exprList r
          return .again (targets ++ [value], next)
        else
          return .done (targets, value)) ([target], value)
      return fun span => .assign span targets value
    return fun span => .expr span target

/-- A statement that fits on one line, without what ends the line. -/
def simple (r : Inner) : Parser (Span → Stmt) := do
  match ← peek with
  | .keyword .kPass =>
    advance
    return .pass
  | .keyword .kBreak =>
    advance
    return .breakLoop
  | .keyword .kContinue =>
    advance
    return .continueLoop
  | .keyword .kReturn =>
    advance
    if ← atLineEnd then
      return fun span => .ret span none
    let value ← exprList r
    return fun span => .ret span (some value)
  | .keyword .kDel =>
    advance
    let target ← exprList r
    return fun span => .del span target
  | .keyword .kAssert =>
    advance
    let test ← r.expr
    let message ← after? (.punct .comma) r.expr
    return fun span => .assert span test message
  | .keyword .kRaise => raising r
  | .keyword .kGlobal =>
    advance
    let names ← nameList
    return fun span => .global span names
  | .keyword .kNonlocal =>
    advance
    let names ← nameList
    return fun span => .nonlocal span names
  | .keyword .kImport => importing
  | .keyword .kFrom => importingFrom
  | _ => exprOrAssign r

def ifStmt (r : Inner) (stmt : Parser Stmt) : Parser (Span → Stmt) := do
  advance
  let test ← r.expr
  let body ← suite stmt
  let elifs ← loop (fun elifs => do
    if ← eat (.keyword .kElif) then
      let test ← r.expr
      let body ← suite stmt
      return .again (elifs ++ [.mk test body])
    else
      return .done elifs) []
  let orelse ← clause .kElse stmt
  return fun span => .ifElse span test body elifs orelse

def whileStmt (r : Inner) (stmt : Parser Stmt) : Parser (Span → Stmt) := do
  advance
  let test ← r.expr
  let body ← suite stmt
  let orelse ← clause .kElse stmt
  return fun span => .whileLoop span test body orelse

/-- The targets of a loop stop before `in`, which elsewhere is an operator. -/
def forStmt (r : Inner) (stmt : Parser Stmt) : Parser (Span → Stmt) := do
  advance
  let target ← tupleOf (trailed r) (atWord "in")
  if !(← eat (.name "in")) then
    unexpected .membership
  let iter ← exprList r
  let body ← suite stmt
  let orelse ← clause .kElse stmt
  return fun span => .forLoop span target iter body orelse

def funcDef (r : Inner) (stmt : Parser Stmt) (decorators : List Expr) :
    Parser (Span → Stmt) := do
  advance
  let name ← identifier
  expect (.punct .lParen)
  let params ← listUntil (.punct .rParen) (param r true)
  expect (.punct .rParen)
  let returns ← after? (.punct .arrow) r.expr
  let body ← suite stmt
  return fun span => .funcDef span { name, params, returns, decorators } body

def classDef (r : Inner) (stmt : Parser Stmt) (decorators : List Expr) :
    Parser (Span → Stmt) := do
  advance
  let name ← identifier
  let bases ←
    if ← eat (.punct .lParen) then do
      let bases ← listUntil (.punct .rParen) r.expr
      expect (.punct .rParen)
      pure bases
    else
      pure []
  let body ← suite stmt
  return fun span => .classDef span { name, bases, decorators } body

def handler (r : Inner) (stmt : Parser Stmt) : Parser Handler := do
  if (← peek) = .punct .colon then
    return .mk none none (← suite stmt)
  let exception ← r.expr
  let name ← after? (.keyword .kAs) identifier
  return .mk (some exception) name (← suite stmt)

def tryStmt (r : Inner) (stmt : Parser Stmt) : Parser (Span → Stmt) := do
  advance
  let body ← suite stmt
  let handlers ← loop (fun handlers => do
    if ← eat (.keyword .kExcept) then
      return .again (handlers ++ [← handler r stmt])
    else
      return .done handlers) []
  let orelse ← clause .kElse stmt
  let finale ← clause .kFinally stmt
  if handlers.isEmpty && finale.isEmpty then
    unexpected .handler
  return fun span => .tryExcept span body handlers orelse finale

def withItem (r : Inner) : Parser (Expr × Option Expr) := do
  let context ← r.expr
  let target ← after? (.keyword .kAs) (trailed r)
  return (context, target)

def withStmt (r : Inner) (stmt : Parser Stmt) : Parser (Span → Stmt) := do
  advance
  let items ← separated (.punct .comma) (withItem r)
  let body ← suite stmt
  return fun span => .withItems span items body

def decorated (r : Inner) (stmt : Parser Stmt) : Parser (Span → Stmt) := do
  let decorators ← loop (fun decorators => do
    if ← eat (.punct .«at») then
      let decorator ← r.expr
      expect .newline
      skipNewlines
      return .again (decorators ++ [decorator])
    else
      return .done decorators) []
  match ← peek with
  | .keyword .kDef => funcDef r stmt decorators
  | .keyword .kClass => classDef r stmt decorators
  | _ => unexpected .definition

/-- The statement that starts with a given token, if it is a compound one. -/
def compound? (r : Inner) (stmt : Parser Stmt) : Token → Option (Parser (Span → Stmt))
  | .keyword .kIf => some (ifStmt r stmt)
  | .keyword .kWhile => some (whileStmt r stmt)
  | .keyword .kFor => some (forStmt r stmt)
  | .keyword .kDef => some (funcDef r stmt [])
  | .keyword .kClass => some (classDef r stmt [])
  | .keyword .kTry => some (tryStmt r stmt)
  | .keyword .kWith => some (withStmt r stmt)
  | .punct .«at» => some (decorated r stmt)
  | _ => none

def statementOver (r : Inner) (stmt : Parser Stmt) : Parser Stmt := do
  let start ← peekSpan
  match compound? r stmt (← peek) with
  | some p =>
    let node ← p
    return node (← spanFrom start)
  | none =>
    let node ← simple r
    let span ← spanFrom start
    endOfStatement
    return node span

/-- Statements nested fewer than `n` deep. -/
def statement (r : Inner) : Nat → Parser Stmt
  | 0 => do throw ⟨.stalled, ← peekSpan⟩
  | n + 1 => statementOver r (statement r n)

/-- Statements up to the end of the stream. -/
def sourceFile (r : Inner) (depth : Nat) : Parser Module := do
  skipNewlines
  let body ← loop (fun body => do
    if (← peek) = .eof then
      return .done body
    let s ← statement r depth
    skipNewlines
    return .again (body ++ [s])) []
  return ⟨body⟩

/-- Parses a stream of lexemes that ends with `eof`. -/
def parseLexemes (ls : List Lexeme) : Except ParseError Module :=
  let n := ls.length + 1
  (sourceFile (inner n) n).run' ⟨ls, ⟨0, 0⟩⟩

/-- The syntax tree of a source text. -/
def parse (source : String) : Except ParseError Module :=
  parseLexemes (Layout.lexemes source)

end AnnotatedWasm.Grammar
