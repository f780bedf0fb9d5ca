import AnnotatedWasm.Source

/-!
The words and marks of a source text.

A token is what the scanner finds, or one of the marks that the layout of the lines adds.
`Token.label` is the name under which error messages know a token.
-/

namespace AnnotatedWasm

inductive Keyword where
  | kDef | kClass | kIf | kElse | kElif | kFor | kWhile | kBreak | kContinue | kReturn
  | kImport | kFrom | kAs | kPass | kRaise | kTry | kExcept | kFinally | kWith | kLambda
  | kYield | kGlobal | kNonlocal | kAssert | kDel | kAsync | kAwait
  | kTrue | kFalse | kNone
deriving Repr, DecidableEq, Inhabited

namespace Keyword

def spelling : Keyword → String
  | kDef => "def"
  | kClass => "class"
  | kIf => "if"
  | kElse => "else"
  | kElif => "elif"
  | kFor => "for"
  | kWhile => "while"
  | kBreak => "break"
  | kContinue => "continue"
  | kReturn => "return"
  | kImport => "import"
  | kFrom => "from"
  | kAs => "as"
  | kPass => "pass"
  | kRaise => "raise"
  | kTry => "try"
  | kExcept => "except"
  | kFinally => "finally"
  | kWith => "with"
  | kLambda => "lambda"
  | kYield => "yield"
  | kGlobal => "global"
  | kNonlocal => "nonlocal"
  | kAssert => "assert"
  | kDel => "del"
  | kAsync => "async"
  | kAwait => "await"
  | kTrue => "True"
  | kFalse => "False"
  | kNone => "None"

def label : Keyword → String
  | kDef => "Def"
  | kClass => "Class"
  | kIf => "If"
  | kElse => "Else"
  | kElif => "Elif"
  | kFor => "For"
  | kWhile => "While"
  | kBreak => "Break"
  | kContinue => "Continue"
  | kReturn => "Return"
  | kImport => "Import"
  | kFrom => "From"
  | kAs => "As"
  | kPass => "Pass"
  | kRaise => "Raise"
  | kTry => "Try"
  | kExcept => "Except"
  | kFinally => "Finally"
  | kWith => "With"
  | kLambda => "Lambda"
  | kYield => "Yield"
  | kGlobal => "Global"
  | kNonlocal => "Nonlocal"
  | kAssert => "Assert"
  | kDel => "Del"
  | kAsync => "Async"
  | kAwait => "Await"
  | kTrue => "True"
  | kFalse => "False"
  | kNone => "None_"

def all : List Keyword :=
  [kDef, kClass, kIf, kElse, kElif, kFor, kWhile, kBreak, kContinue, kReturn, kImport, kFrom,
    kAs, kPass, kRaise, kTry, kExcept, kFinally, kWith, kLambda, kYield, kGlobal, kNonlocal,
    kAssert, kDel, kAsync, kAwait, kTrue, kFalse, kNone]

def ofSpelling? (s : String) : Option Keyword := all.find? (·.spelling = s)

end Keyword

/-- Operators and delimiters. -/
inductive Punct where
  | plusAssign | minusAssign | starAssign | slashAssign | floorDivAssign | percentAssign
  | powAssign | atAssign | ampAssign | pipeAssign | caretAssign | shiftLeftAssign
  | shiftRightAssign
  | pow | floorDiv | shiftLeft | shiftRight | eq | notEq | le | ge | walrus | arrow
  | plus | minus | star | slash | percent | «at» | amp | pipe | caret | tilde | lt | gt
  | assign | colon | dot | comma | semicolon
  | lParen | rParen | lBracket | rBracket | lBrace | rBrace
deriving Repr, DecidableEq, Inhabited

namespace Punct

def spelling : Punct → String
  | plusAssign => "+="
  | minusAssign => "-="
  | starAssign => "*="
  | slashAssign => "/="
  | floorDivAssign => "//="
  | percentAssign => "%="
  | powAssign => "**="
  | atAssign => "@="
  | ampAssign => "&="
  | pipeAssign => "|="
  | caretAssign => "^="
  | shiftLeftAssign => "<<="
  | shiftRightAssign => ">>="
  | pow => "**"
  | floorDiv => "//"
  | shiftLeft => "<<"
  | shiftRight => ">>"
  | eq => "=="
  | notEq => "!="
  | le => "<="
  | ge => ">="
  | walrus => ":="
  | arrow => "->"
  | plus => "+"
  | minus => "-"
  | star => "*"
  | slash => "/"
  | percent => "%"
  | «at» => "@"
  | amp => "&"
  | pipe => "|"
  | caret => "^"
  | tilde => "~"
  | lt => "<"
  | gt => ">"
  | assign => "="
  | colon => ":"
  | dot => "."
  | comma => ","
  | semicolon => ";"
  | lParen => "("
  | rParen => ")"
  | lBracket => "["
  | rBracket => "]"
  | lBrace => "\x7b"
  | rBrace => "\x7d"

def label : Punct → String
  | plusAssign => "PlusAssign"
  | minusAssign => "MinusAssign"
  | starAssign => "StarAssign"
  | slashAssign => "SlashAssign"
  | floorDivAssign => "FloorDivAssign"
  | percentAssign => "PercentAssign"
  | powAssign => "PowAssign"
  | atAssign => "AtAssign"
  | ampAssign => "AmpAssign"
  | pipeAssign => "PipeAssign"
  | caretAssign => "CaretAssign"
  | shiftLeftAssign => "ShiftLeftAssign"
  | shiftRightAssign => "ShiftRightAssign"
  | pow => "Pow"
  | floorDiv => "FloorDiv"
  | shiftLeft => "ShiftLeft"
  | shiftRight => "ShiftRight"
  | eq => "Eq"
  | notEq => "NotEq"
  | le => "Le"
  | ge => "Ge"
  | walrus => "Walrus"
  | arrow => "Arrow"
  | plus => "Plus"
  | minus => "Minus"
  | star => "Star"
  | slash => "Slash"
  | percent => "Percent"
  | «at» => "At"
  | amp => "Amp"
  | pipe => "Pipe"
  | caret => "Caret"
  | tilde => "Tilde"
  | lt => "Lt"
  | gt => "Gt"
  | assign => "Assign"
  | colon => "Colon"
  | dot => "Dot"
  | comma => "Comma"
  | semicolon => "Semicolon"
  | lParen => "LParen"
  | rParen => "RParen"
  | lBracket => "LBracket"
  | rBracket => "RBracket"
  | lBrace => "LBrace"
  | rBrace => "RBrace"

/-- Every mark, the longer spellings first, so that the first one that fits is the longest. -/
def all : List Punct :=
  [floorDivAssign, powAssign, shiftLeftAssign, shiftRightAssign,
    plusAssign, minusAssign, starAssign, slashAssign, percentAssign, atAssign, ampAssign,
    pipeAssign, caretAssign, pow, floorDiv, shiftLeft, shiftRight, eq, notEq, le, ge, walrus,
    arrow,
    plus, minus, star, slash, percent, «at», amp, pipe, caret, tilde, lt, gt, assign, colon,
    dot, comma, semicolon, lParen, rParen, lBracket, rBracket, lBrace, rBrace]

def isOpening : Punct → Bool
  | lParen | lBracket | lBrace => true
  | _ => false

def isClosing : Punct → Bool
  | rParen | rBracket | rBrace => true
  | _ => false

end Punct

inductive Token where
  | keyword (k : Keyword)
  | punct (p : Punct)
  | name (text : String)
  | number (text : String)
  /-- A string literal as written, quotes included. -/
  | string (text : String)
  | comment
  | newline
  | indent
  | dedent
  | eof
  | error
deriving Repr, DecidableEq, Inhabited

namespace Token

def label : Token → String
  | keyword k => k.label
  | punct p => p.label
  | name _ => "Name"
  | number _ => "Number"
  | string _ => "String"
  | comment => "Comment"
  | newline => "Newline"
  | indent => "Indent"
  | dedent => "Dedent"
  | eof => "Eof"
  | error => "Error"

end Token

/-- A token and the bytes of the source it stands for. -/
structure Lexeme where
  token : Token
  span : Span
deriving Repr, DecidableEq, Inhabited

end AnnotatedWasm
