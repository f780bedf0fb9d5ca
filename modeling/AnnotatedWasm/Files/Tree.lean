import AnnotatedWasm.Files.Basic

/-!
A file system as a value: directories and files by their place under the root, and a working
directory from which paths are followed.

There are no links, so the step up from a directory undoes the step into it.
-/

namespace AnnotatedWasm

/-- The names on the way from the root. -/
abbrev Place := List String

inductive FileEntry where
  | file (contents : ByteArray)
  | directory

def FileEntry.isDirectory : FileEntry → Bool
  | directory => true
  | file _ => false

structure FileTree where
  /-- All but the root, which is always there. -/
  entries : List (Place × FileEntry)
  working : Place

namespace FileTree

/-- Nothing but an empty working directory below the root. -/
def empty : FileTree := ⟨[(["work"], .directory)], ["work"]⟩

def get? (t : FileTree) (p : Place) : Option FileEntry :=
  if p.isEmpty then some .directory else t.entries.lookup p

def put (t : FileTree) (p : Place) (e : FileEntry) : FileTree :=
  { t with entries := (p, e) :: t.entries.filter (·.1 ≠ p) }

/-- One step of a path; it can be taken only from a directory. -/
def step (t : FileTree) (p : Place) (name : String) : Except FileError Place :=
  match t.get? p with
  | none => throw .missing
  | some (.file _) => throw .notDirectory
  | some .directory =>
    if Path.staysPut name then return p
    else if name = ".." then return p.dropLast
    else return p ++ [name]

/-- The place that steps lead to. There need be nothing there. -/
def follow (t : FileTree) (start : PathStart) (steps : List String) : Except FileError Place :=
  steps.foldlM t.step (if start = .root then [] else t.working)

/-- The place that a path leads to; the empty path leads nowhere. -/
def place (t : FileTree) (p : Path) : Except FileError Place :=
  if p.isEmpty then throw .missing else t.follow p.start p.steps

def isDirectory (t : FileTree) (p : Path) : Bool :=
  match t.place p with
  | .ok q => (t.get? q).any FileEntry.isDirectory
  | .error _ => false

/-- Computations on a file tree. What was done before a failure stays done. -/
abbrev Access := ExceptT FileError (StateM FileTree)

def read (p : Path) : Access ByteArray := do
  let t ← get
  let q ← t.place p
  match t.get? q with
  | none => throw .missing
  | some .directory => throw .isDirectory
  | some (.file contents) => return contents

def write (p : Path) (contents : ByteArray) : Access Unit := do
  let t ← get
  let q ← t.place p
  if (t.get? q).any FileEntry.isDirectory then
    throw .isDirectory
  set (t.put q (.file contents))

/-- Makes one directory. A slash at the end of its path has no meaning. -/
def makeDirectory (p : Path) : Access Unit := do
  let t ← get
  if p.isEmpty then
    throw .missing
  let q ← t.follow p.start (p.steps.reverse.dropWhile (· = "")).reverse
  if (t.get? q).isSome then
    throw .alreadyThere
  set (t.put q .directory)

/-- Makes one directory unless the path leads to one. -/
def needDirectory (p : Path) : Access Unit :=
  tryCatch (makeDirectory p) fun e => do
    unless (← get).isDirectory p do throw e

/-- Makes a directory; where the way to it is missing, makes the one above it first. The number
bounds the steps up. -/
def makeDirectoriesWithin : Nat → Path → Access Unit
  | 0, p => needDirectory p
  | n + 1, p =>
    if p.isEmpty then return ()
    else tryCatch (needDirectory p) fun e => do
      if e ≠ .missing then
        throw e
      makeDirectoriesWithin n p.parent
      needDirectory p

/-- Each step up leaves a step fewer, and the empty path needs nothing. -/
def makeDirectories (p : Path) : Access Unit := makeDirectoriesWithin (p.steps.length + 1) p

instance : Files (StateM FileTree) where
  read := read
  makeDirectories := makeDirectories
  write := write

/-- Puts a file into the tree together with the directories above it. -/
def addFile (p : Path) (contents : ByteArray) : Access Unit := do
  makeDirectories p.parent
  write p contents

/-- The files below the working directory by their paths from there, in order. -/
def files (t : FileTree) : List (String × ByteArray) :=
  let found := t.entries.filterMap fun
    | (p, .file contents) =>
      if t.working.isPrefixOf p then
        some (String.intercalate "/" (p.drop t.working.length), contents)
      else none
    | _ => none
  found.mergeSort fun a b => a.1 ≤ b.1

end FileTree

end AnnotatedWasm
