import AnnotatedWasm.Token

/-!
Parsers over a stream of lexemes.

A parser reads lexemes from the front of the stream and remembers the span of the last one it
took, which ends the span of the node being built. The stream ends with `eof`, which no parser
takes.
-/

namespace AnnotatedWasm.Grammar

/-- What a parser needed where it failed. -/
inductive Wanted where
  | token (t : Token)
  | identifier
  | expression
  | endOfLine
  | indentedBlock
  | membership
  | membershipAfterNot
  | handler
  | definition
deriving Repr, DecidableEq

def Wanted.text : Wanted → String
  | token t => t.label
  | identifier => "identifier"
  | expression => "expression"
  | endOfLine => "end of line"
  | indentedBlock => "an indented block"
  | membership => "`in`"
  | membershipAfterNot => "`in` after `not`"
  | handler => "`except` or `finally`"
  | definition => "`def` or `class` after decorator"

/-- Why a source is not well formed. -/
inductive Fault where
  | unexpected (wanted : Wanted) (found : Token)
  | positionalAfterKeyword
  /-- A parser ran on without taking tokens. -/
  | stalled
deriving Repr, DecidableEq

/-- Names and literals are quoted as written, all other tokens go by their labels. -/
def foundText : Token → String
  | .name s | .number s | .string s => s!"`{s}`"
  | t => t.label

def Fault.message : Fault → String
  | unexpected wanted found => s!"expected {wanted.text}, found {foundText found}"
  | positionalAfterKeyword => "positional argument follows keyword argument"
  | stalled => "no progress"

structure ParseError where
  fault : Fault
  span : Span
deriving Repr, DecidableEq

def ParseError.message (e : ParseError) : String := e.fault.message

structure State where
  rest : List Lexeme
  /-- The span of the lexeme taken last. -/
  last : Span := ⟨0, 0⟩

abbrev Parser := StateT State (Except ParseError)

/-- The next token, which stays in the stream. -/
def peek : Parser Token := do
  match (← get).rest with
  | l :: _ => return l.token
  | [] => return .eof

def peekSpan : Parser Span := do
  let s ← get
  match s.rest with
  | l :: _ => return l.span
  | [] => return s.last

/-- Takes the next lexeme. -/
def advance : Parser Unit :=
  modify fun s =>
    match s.rest with
    | l :: rest => ⟨rest, l.span⟩
    | [] => s

/-- From the start of `start` to the end of the lexeme taken last. -/
def spanFrom (start : Span) : Parser Span := return start.extendTo (← get).last

/-- Fails at the next token. -/
def unexpected {α : Type} (wanted : Wanted) : Parser α := do
  throw ⟨.unexpected wanted (← peek), ← peekSpan⟩

/-- Takes the next token if it is `t`. -/
def eat (t : Token) : Parser Bool := do
  if (← peek) = t then
    advance
    return true
  else
    return false

def expect (t : Token) : Parser Unit := do
  if (← peek) = t then advance else unexpected (.token t)

def identifier : Parser String := do
  match ← peek with
  | .name s =>
    advance
    return s
  | _ => unexpected .identifier

/-- Whether the next token is the given word; `and`, `or`, `not`, `in` and `is` are names. -/
def atWord (word : String) : Parser Bool := return (← peek) = .name word

/-- Parses what follows `t` if `t` comes next. -/
def after? {α : Type} (t : Token) (p : Parser α) : Parser (Option α) := do
  if ← eat t then return some (← p) else return none

/-- Whether a loop goes round again. -/
inductive Step (α : Type) where
  | again (a : α)
  | done (a : α)

def loopN {α : Type} (body : α → Parser (Step α)) : Nat → α → Parser α
  | 0, _ => do throw ⟨.stalled, ← peekSpan⟩
  | n + 1, a => do
    match ← body a with
    | .done b => return b
    | .again b => loopN body n b

/-- Runs `body` until it is done. Each round that asks for another takes a token, so there are
no more rounds than tokens. -/
def loop {α : Type} (body : α → Parser (Step α)) (a : α) : Parser α := do
  loopN body ((← get).rest.length + 1) a

/-- Items divided by commas up to `close`, which stays in the stream; a comma may end them. -/
def listUntil {α : Type} (close : Token) (item : Parser α) : Parser (List α) :=
  loop (fun items => do
    if (← peek) = close then
      return .done items
    let a ← item
    if ← eat (.punct .comma) then
      return .again (items ++ [a])
    else
      return .done (items ++ [a])) []

/-- One or more items with `mark` between each two. -/
def separated {α : Type} (mark : Token) (item : Parser α) : Parser (List α) := do
  let first ← item
  loop (fun items => do
    if ← eat mark then
      return .again (items ++ [← item])
    else
      return .done items) [first]

def skipNewlines : Parser Unit :=
  loop (fun _ => do
    if ← eat .newline then return .again () else return .done ()) ()

end AnnotatedWasm.Grammar
