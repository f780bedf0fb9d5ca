import AnnotatedWasm.Options

/-!
The arguments of the command.

Values are judged when the argument after them is understood or the arguments end. So a word
that is no option is reported even where the value before it is wrong, while an option that is
known comes second to it.
-/

namespace AnnotatedWasm.Command

/-- What the arguments say. -/
structure Arguments where
  files : List String
  options : Options
  outDir : Option String
  emitIr : Bool
  verbosity : Nat
deriving Repr, DecidableEq

inductive ArgsError where
  | noFile
  | unknown (word : String)
  | badValue
  | repeated
  | needlessValue
  | help
  | version
deriving Repr, DecidableEq

/-- A request for help or the version is no failure. -/
def ArgsError.exitCode : ArgsError → Nat
  | help | version => 0
  | _ => 2

inductive Flag where
  | gc
  | strings
  | emitIr
  | verbose
  | help
  | version
deriving Repr, DecidableEq

/-- An option that takes a value. -/
inductive Setting where
  | floorDivision
  | outDir
deriving Repr, DecidableEq

inductive Switch where
  | flag (f : Flag)
  | setting (s : Setting)
deriving Repr, DecidableEq

def Switch.ofLong? : String → Option Switch
  | "enable-gc" => some (.flag .gc)
  | "enable-strings" => some (.flag .strings)
  | "emit-ir" => some (.flag .emitIr)
  | "verbose" => some (.flag .verbose)
  | "help" => some (.flag .help)
  | "version" => some (.flag .version)
  | "floor-division" => some (.setting .floorDivision)
  | "out-dir" => some (.setting .outDir)
  | _ => none

def Switch.ofShort? : Char → Option Switch
  | 'g' => some (.flag .gc)
  | 's' => some (.flag .strings)
  | 'v' => some (.flag .verbose)
  | 'h' => some (.flag .help)
  | 'V' => some (.flag .version)
  | 'o' => some (.setting .outDir)
  | _ => none

/-- An argument by its form. -/
inductive Word where
  | plain
  /-- Two hyphens alone: only file names follow. -/
  | stop
  | long (name : String) (value : Option String)
  /-- One hyphen and at least one letter. -/
  | short (letters : List Char)
deriving Repr, DecidableEq

def Word.ofText (s : String) : Word :=
  match s.toList with
  | ['-', '-'] => .stop
  | '-' :: '-' :: cs =>
    let name := String.ofList (cs.takeWhile (· ≠ '='))
    match cs.dropWhile (· ≠ '=') with
    | [] => .long name none
    | _ :: value => .long name (some (String.ofList value))
  | '-' :: c :: cs => .short (c :: cs)
  | _ => .plain

/-- What has been read and not judged yet. -/
inductive Pending where
  | nothing
  | value (setting : Setting) (given : Option String)
  | files (names : List String)
deriving Repr, DecidableEq

/-- What the arguments so far say. -/
structure Draft where
  gc : Bool := false
  strings : Bool := false
  emitIr : Bool := false
  verbosity : Nat := 0
  floorDivision : Option FloorDivision := none
  outDir : Option String := none
  files : List String := []
  pending : Pending := .nothing
  /-- Only file names follow. -/
  stopped : Bool := false
deriving Repr, DecidableEq

namespace Draft

def floorDivision? : String → Option FloorDivision
  | "truncate" => some .truncate
  | "floor" => some .floor
  | _ => none

/-- Gives a setting its value, which it can have only once. -/
def assign (d : Draft) (value : String) : Setting → Except ArgsError Draft
  | .floorDivision =>
    if d.floorDivision.isSome then throw .repeated
    else
      match floorDivision? value with
      | some f => return { d with floorDivision := some f }
      | none => throw .badValue
  | .outDir =>
    if d.outDir.isSome then throw .repeated
    else if value.isEmpty then throw .badValue
    else return { d with outDir := some value }

/-- Judges what is pending. -/
def settle (d : Draft) : Except ArgsError Draft :=
  let d' := { d with pending := .nothing }
  match d.pending with
  | .nothing => return d'
  | .value _ none => throw .badValue
  | .value s (some v) => d'.assign v s
  | .files names =>
    if "" ∈ names then throw .badValue else return { d' with files := d.files ++ names }

def raise (d : Draft) (f : Flag) : Except ArgsError Draft := do
  let d ← d.settle
  match f with
  | .gc => if d.gc then throw .repeated else return { d with gc := true }
  | .strings => if d.strings then throw .repeated else return { d with strings := true }
  | .emitIr => if d.emitIr then throw .repeated else return { d with emitIr := true }
  | .verbose => return { d with verbosity := min 255 (d.verbosity + 1) }
  | .help => throw .help
  | .version => throw .version

/-- A setting whose value is in the same argument or, if none is, in the next. -/
def takeSetting (d : Draft) (s : Setting) (value : Option String) : Except ArgsError Draft := do
  let d ← d.settle
  match value with
  | some v => d.assign v s
  | none => return { d with pending := .value s none }

/-- Letters after one hyphen: flags, and at most one setting, which takes the rest. -/
def letters (d : Draft) : List Char → Except ArgsError Draft
  | [] => return d
  | c :: cs =>
    match Switch.ofShort? c with
    | none => throw (.unknown (String.ofList ['-', c]))
    | some (.flag f) => do (← d.raise f).letters cs
    | some (.setting s) =>
      match cs with
      | [] => d.takeSetting s none
      | '=' :: value => d.takeSetting s (some (String.ofList value))
      | value => d.takeSetting s (some (String.ofList value))

def longOption (d : Draft) (name : String) (value : Option String) : Except ArgsError Draft :=
  match Switch.ofLong? name with
  | none => throw (.unknown ("--" ++ name))
  | some (.setting s) => d.takeSetting s value
  | some (.flag f) => if value.isSome then throw .needlessValue else d.raise f

def addFile (d : Draft) (name : String) : Except ArgsError Draft := do
  match d.pending with
  | .files names => return { d with pending := .files (names ++ [name]) }
  | _ => return { (← d.settle) with pending := .files [name] }

def read (d : Draft) (word : String) : Except ArgsError Draft :=
  if d.stopped then d.addFile word
  else
    match Word.ofText word with
    | .stop => return { d with stopped := true }
    | .long name value => d.longOption name value
    | .short cs => d.letters cs
    | .plain =>
      match d.pending with
      | .value s none => return { d with pending := .value s (some word) }
      | _ => d.addFile word

/-- Strings are arrays underneath, so they turn arrays on. -/
def finish (d : Draft) : Except ArgsError Arguments := do
  let d ← d.settle
  if d.files.isEmpty then
    throw .noFile
  return {
    files := d.files
    options := ⟨d.gc || d.strings, d.strings, d.floorDivision.getD .truncate⟩
    outDir := d.outDir
    emitIr := d.emitIr
    verbosity := d.verbosity }

end Draft

def Arguments.parse (words : List String) : Except ArgsError Arguments := do
  (← words.foldlM Draft.read {}).finish

end AnnotatedWasm.Command
