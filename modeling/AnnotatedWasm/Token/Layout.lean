import AnnotatedWasm.Token.Scan

/-!
Making the layout of the lines visible in the token stream.

The pass reads the scanned lexemes once. It forgets comments and newlines inside brackets,
merges blank lines, and after each newline that ends a logical line says by `indent` and
`dedent` marks how the indentation changes. A newline is held back until the lexeme that
starts the next logical line is known, because that lexeme's line gives the new indentation.
-/

namespace AnnotatedWasm.Layout

open Scan (Placed)

structure State where
  /-- The indentation of the open blocks, innermost first; the outermost, zero, is not stored. -/
  levels : List Nat := []
  /-- How many brackets are open. -/
  depth : Nat := 0
  /-- The newline that still waits for the next logical line. -/
  pending : Option Span := none
deriving Repr, DecidableEq

namespace State

/-- The indentation of the innermost block. -/
def current (s : State) : Nat := s.levels.headD 0

end State

/-- The marks for a line indented by `width`, placed at `span`, and the blocks open after them.
A line that closes blocks but fits none of the open ones is marked as an error. -/
def reindent (levels : List Nat) (width : Nat) (span : Span) : List Lexeme × List Nat :=
  if levels.headD 0 < width then ([⟨.indent, span⟩], width :: levels)
  else
    let closed := levels.takeWhile (width < ·)
    let kept := levels.dropWhile (width < ·)
    let misfit := if kept.headD 0 = width then [] else [⟨.error, span⟩]
    (closed.map (fun _ => ⟨.dedent, span⟩) ++ misfit, kept)

/-- Lets go of a waiting newline, now that the next line is known to be indented by `width`. -/
def settle (s : State) (width : Nat) : List Lexeme × State :=
  match s.pending with
  | none => ([], s)
  | some span =>
    let (marks, levels) := reindent s.levels width span
    (⟨.newline, span⟩ :: marks, { s with levels, pending := none })

/-- Takes in a lexeme that is neither a comment nor a newline. -/
def place (s : State) (l : Placed) : List Lexeme × State :=
  let (before, s) := settle s l.indent
  let depth := match l.token with
    | .punct p =>
      if p.isOpening then s.depth + 1 else if p.isClosing then s.depth - 1 else s.depth
    | _ => s.depth
  (before ++ [l.toLexeme], { s with depth })

def step (s : State) (l : Placed) : List Lexeme × State :=
  match l.token with
  | .comment => ([], s)
  | .newline =>
    if s.pending.isSome || 0 < s.depth then ([], s) else ([], { s with pending := some l.span })
  | _ => place s l

/-- Closes the open blocks at the end of the text. -/
def finish (s : State) (stop : Nat) : List Lexeme :=
  let (before, s) := settle s 0
  before ++ s.levels.map (fun _ => ⟨.dedent, ⟨stop, stop⟩⟩) ++ [⟨.eof, ⟨stop, stop⟩⟩]

def run (stop : Nat) (s : State) : List Placed → List Lexeme
  | [] => finish s stop
  | l :: ls => (step s l).1 ++ run stop (step s l).2 ls

/-- The token stream of a source, layout marks included; it ends with `eof`. -/
def lexemes (source : String) : List Lexeme :=
  run source.utf8ByteSize {} (Scan.scan source)

end AnnotatedWasm.Layout
