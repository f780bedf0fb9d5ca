import AnnotatedWasm.Token

/-!
Cutting a source text into lexemes by longest match.

`measure c cs` looks at a text `c :: cs` and says what stands there and how many characters
of `cs` belong to it besides `c`. The scan takes that many and goes on with the rest, so the
pieces tile the text. Blanks and line continuations are dropped here; comments and newlines
are kept for the layout of the lines.
-/

namespace AnnotatedWasm.Scan

def isDigit (c : Char) : Bool := '0' ≤ c && c ≤ '9'

/-- A digit, or the underscore that may separate digits. -/
def isDigitOrBar (c : Char) : Bool := isDigit c || c = '_'

def isWordStart (c : Char) : Bool :=
  ('a' ≤ c && c ≤ 'z') || ('A' ≤ c && c ≤ 'Z') || c = '_'

def isWordPart (c : Char) : Bool := isWordStart c || isDigit c

def isBlank (c : Char) : Bool := c = ' ' || c = '\t' || c = '\x0c'

/-- The length of the longest run at the start of `cs` whose characters all satisfy `p`. -/
def runLength (p : Char → Bool) (cs : List Char) : Nat := (cs.takeWhile p).length

/-- The digits of the radix that follows a leading zero, or an underscore. -/
def radixDigit? : Char → Option (Char → Bool)
  | 'x' | 'X' => some fun c =>
    isDigitOrBar c || ('a' ≤ c && c ≤ 'f') || ('A' ≤ c && c ≤ 'F')
  | 'o' | 'O' => some fun c => ('0' ≤ c && c ≤ '7') || c = '_'
  | 'b' | 'B' => some fun c => c = '0' || c = '1' || c = '_'
  | _ => none

/-- The length of an exponent part, or zero where its digits are missing. -/
def exponentLength : List Char → Nat
  | e :: cs =>
    if e = 'e' || e = 'E' then
      match cs with
      | s :: ds =>
        if s = '+' || s = '-' then
          if runLength isDigit ds = 0 then 0 else 2 + runLength isDigit ds
        else if runLength isDigit cs = 0 then 0 else 1 + runLength isDigit cs
      | [] => 0
    else 0
  | [] => 0

/-- The length of a fraction part, which may be a point alone. -/
def fractionLength : List Char → Nat
  | '.' :: cs => 1 + runLength isDigitOrBar cs
  | _ => 0

/-- What follows the first digit of a decimal number. -/
def decimalLength (cs : List Char) : Nat :=
  let whole := runLength isDigitOrBar cs
  let fraction := fractionLength (cs.drop whole)
  whole + fraction + exponentLength (cs.drop (whole + fraction))

/-- What follows the first digit `c` of a number. A radix letter without digits after it is not
part of the number. -/
def numberLength (c : Char) (cs : List Char) : Nat :=
  match cs with
  | r :: ds =>
    if c = '0' then
      match radixDigit? r with
      | some p => if runLength p ds = 0 then decimalLength cs else 1 + runLength p ds
      | none => decimalLength cs
    else decimalLength cs
  | [] => 0

/-- What follows the point of a number that starts with one. -/
def pointLength (cs : List Char) : Nat :=
  let digits := runLength isDigitOrBar cs
  digits + exponentLength (cs.drop digits)

/-- How a string literal goes on after its opening quotes: the length up to and including the
closing ones, or the length of what could be read before the text broke off. -/
inductive Ending where
  | closed (length : Nat)
  | broken (length : Nat)
deriving Repr, DecidableEq

namespace Ending

def add (n : Nat) : Ending → Ending
  | closed k => closed (n + k)
  | broken k => broken (n + k)

end Ending

/-- A one-line literal: plain characters and escaped pairs, up to the quote. -/
def lineString (q : Char) : List Char → Ending
  | [] => .broken 0
  | '\\' :: [] => .broken 0
  | '\\' :: c :: cs => if c = '\n' then .broken 0 else (lineString q cs).add 2
  | c :: cs =>
    if c = q then .closed 1
    else if c = '\n' then .broken 0
    else (lineString q cs).add 1

/-- A literal in triple quotes. Quotes inside it are read together with the character after
them, so one or two quotes at the very end of the text are left over. -/
def blockString (q : Char) : List Char → Ending
  | [] => .broken 0
  | c :: cs =>
    if c ≠ q then (blockString q cs).add 1
    else match cs with
      | [] => .broken 0
      | d :: ds =>
        if d ≠ q then (blockString q ds).add 2
        else match ds with
          | [] => .broken 0
          | e :: es => if e ≠ q then (blockString q es).add 3 else .closed 3

/-- A literal whose opening quote is `q`. Three quotes always open a block. -/
def stringEnding (q : Char) : List Char → Ending
  | c :: d :: cs =>
    if c = q && d = q then (blockString q cs).add 2 else lineString q (c :: d :: cs)
  | cs => lineString q cs

/-- What stands at a place of the text. -/
inductive Piece where
  | blank
  | newline
  | comment
  | word
  | number
  | string
  | punct (p : Punct)
  | unknown
deriving Repr, DecidableEq

/-- The first mark whose spelling starts the text. -/
def punctAt? (cs : List Char) : Option Punct :=
  Punct.all.find? fun p => p.spelling.toList.isPrefixOf cs

def marked (c : Char) (cs : List Char) : Piece × Nat :=
  match punctAt? (c :: cs) with
  | some p => (.punct p, p.spelling.toList.length - 1)
  | none => (.unknown, 0)

/-- What stands at the start of `c :: cs`, and how many characters of `cs` belong to it. -/
def measure (c : Char) (cs : List Char) : Piece × Nat :=
  if isBlank c then (.blank, runLength isBlank cs)
  else if isWordStart c then (.word, runLength isWordPart cs)
  else if isDigit c then (.number, numberLength c cs)
  else match c, cs with
    | '\n', _ => (.newline, 0)
    | '\r', '\n' :: _ => (.newline, 1)
    | '\\', '\n' :: _ => (.blank, 1)
    | '\\', '\r' :: '\n' :: _ => (.blank, 2)
    | '#', _ => (.comment, runLength (· ≠ '\n') cs)
    | '.', d :: _ => if isDigit d then (.number, pointLength cs) else marked c cs
    | '\x27', _ | '\x22', _ =>
      match stringEnding c cs with
      | .closed n => (.string, n)
      | .broken n => (.unknown, n)
    | _, _ => marked c cs

/-- The token of a piece with the given text; blanks have none. -/
def Piece.token? (text : String) : Piece → Option Token
  | blank => none
  | newline => some .newline
  | comment => some .comment
  | word =>
    match Keyword.ofSpelling? text with
    | some k => some (.keyword k)
    | none => some (.name text)
  | number => some (.number text)
  | string => some (.string text)
  | punct p => some (.punct p)
  | unknown => some .error

/-- The column that leading spaces and tabs reach from column `col`; tab stops are eight apart. -/
def columnFrom (col : Nat) : List Char → Nat
  | ' ' :: cs => columnFrom (col + 1) cs
  | '\t' :: cs => columnFrom ((col / 8 + 1) * 8) cs
  | _ => col

/-- A lexeme, together with how far the line on which it starts is indented. -/
structure Placed extends Lexeme where
  indent : Nat
deriving Repr, DecidableEq

/-- The indentation of the line that holds the place after `text`, when the line before it is
indented by `indent` and `rest` follows. -/
def indentAfter (indent : Nat) (text rest : List Char) : Nat :=
  if '\n' ∈ text then
    columnFrom 0 ((text.reverse.takeWhile (· ≠ '\n')).reverse ++ rest)
  else indent

/-- The lexemes of `cs`, which stands at byte `offset` in a line indented by `indent`. -/
def scanFrom (offset indent : Nat) : List Char → List Placed
  | [] => []
  | c :: cs =>
    let found := measure c cs
    let text := c :: cs.take found.2
    let rest := cs.drop found.2
    let stop := offset + byteLength text
    let later := scanFrom stop (indentAfter indent text rest) rest
    match found.1.token? (String.ofList text) with
    | some token => ⟨⟨token, ⟨offset, stop⟩⟩, indent⟩ :: later
    | none => later
termination_by cs => cs.length
decreasing_by simp only [List.length_drop, List.length_cons]; omega

/-- The lexemes of a whole source. -/
def scan (source : String) : List Placed :=
  scanFrom 0 (columnFrom 0 source.toList) source.toList

end AnnotatedWasm.Scan
