/-!
The value of a string literal: the quotes go and the escapes are resolved.
-/

namespace AnnotatedWasm.Text

/-- Resolves backslash escapes. A backslash before a line end joins the lines, and before any
other character that starts no escape it stands for itself. -/
def unescape : List Char → List Char
  | [] => []
  | '\\' :: [] => ['\\']
  | '\\' :: c :: cs =>
    match c with
    | 'n' => '\n' :: unescape cs
    | 't' => '\t' :: unescape cs
    | 'r' => '\r' :: unescape cs
    | '0' => '\x00' :: unescape cs
    | '\\' => '\\' :: unescape cs
    | '\x27' => '\x27' :: unescape cs
    | '\x22' => '\x22' :: unescape cs
    | '\n' => unescape cs
    | _ => '\\' :: c :: unescape cs
  | c :: cs => c :: unescape cs

/-- How many quotes open a literal: three if it starts with three of the same, else one. -/
def quoteLength : List Char → Nat
  | '\x22' :: '\x22' :: '\x22' :: _ => 3
  | '\x27' :: '\x27' :: '\x27' :: _ => 3
  | _ => 1

/-- What stands between the quotes of a literal. -/
def inner (literal : List Char) : List Char :=
  let q := quoteLength literal
  (literal.drop q).take (literal.length - 2 * q)

/-- The value of a literal as written, quotes included. -/
def unquote (literal : String) : String := String.ofList (unescape (inner literal.toList))

end AnnotatedWasm.Text
