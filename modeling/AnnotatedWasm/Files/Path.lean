/-!
Names of files as they are written, and what is read off them: the directory, the stem, the
extension.

A path keeps its text. Steps that lead nowhere are passed over only where the last step is
asked for.
-/

namespace AnnotatedWasm

/-- Where a path starts. -/
inductive PathStart where
  /-- With its first step. -/
  | bare
  /-- With a dot for the working directory. -/
  | here
  /-- At the root. -/
  | root
deriving Repr, DecidableEq

def PathStart.text : PathStart → String
  | bare => ""
  | here => "."
  | root => "/"

/-- The steps stand between slashes, so some may be empty. -/
structure Path where
  start : PathStart
  steps : List String
deriving Repr, DecidableEq

namespace Path

/-- The parts of a text between its slashes. -/
def split : List Char → List (List Char)
  | [] => [[]]
  | c :: cs =>
    if c = '/' then [] :: split cs
    else
      match split cs with
      | [] => [[c]]
      | p :: ps => (c :: p) :: ps

def stepsOf (cs : List Char) : List String := (split cs).map String.ofList

def ofText (s : String) : Path :=
  match s.toList with
  | '/' :: cs => ⟨.root, stepsOf cs⟩
  | ['.'] => ⟨.here, []⟩
  | '.' :: '/' :: cs => ⟨.here, "" :: stepsOf cs⟩
  | cs => ⟨.bare, stepsOf cs⟩

def text (p : Path) : String := p.start.text ++ String.intercalate "/" p.steps

def isEmpty (p : Path) : Bool := p.text.isEmpty

/-- A step that stays where it is. -/
def staysPut (step : String) : Bool := step = "" || step = "."

/-- Steps without the last ones that stay where they are. -/
def trim (steps : List String) : List String := (steps.reverse.dropWhile staysPut).reverse

/-- The path without its last step; the empty path if there is no step. -/
def parent (p : Path) : Path :=
  match trim p.steps with
  | [] => ⟨.bare, []⟩
  | s :: ss => ⟨p.start, trim (s :: ss).dropLast⟩

/-- The last step, unless it leads up. -/
def fileName? (p : Path) : Option String := (trim p.steps).getLast?.filter (· ≠ "..")

/-- A name without its extension, which is what follows the last dot. A dot in front of the whole
name starts no extension. -/
def stemOf (name : String) : String :=
  let front := (name.toList.reverse.dropWhile (· ≠ '.')).drop 1
  if front.isEmpty then name else String.ofList front.reverse

def stem? (p : Path) : Option String := p.fileName?.map stemOf

/-- What follows the last dot of the file name. -/
def extension? (p : Path) : Option String := do
  let name ← p.fileName?
  let stem := stemOf name
  if stem = name then none else some (String.ofList (name.toList.drop (stem.length + 1)))

/-- A name inside a directory. -/
def join (directory : Path) (name : String) : Path :=
  let d := directory.text
  ofText (if d.isEmpty || d.toList.getLast? = some '/' then d ++ name else d ++ "/" ++ name)

/-- The path with another extension. One that the file name has already is replaced. -/
def withExtension (p : Path) (extension : String) : Path :=
  match p.stem? with
  | none => p
  | some stem => ⟨p.start, (trim p.steps).dropLast ++ [stem ++ "." ++ extension]⟩

end Path

end AnnotatedWasm
