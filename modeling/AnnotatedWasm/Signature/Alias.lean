import AnnotatedWasm.Syntax.Stmt

/-!
The names under which a source knows the marker module and what it imports from it.
-/

namespace AnnotatedWasm.Signature

open Syntax

/-- The module that defines the marker and the type names. -/
def markerModule : String := "wasmfunc"

/-- The decorator that marks a function to be compiled. -/
def marker : String := "wasmfunc"

structure Aliases where
  /-- Names of the module itself. -/
  modules : List String := []
  /-- Names of imported symbols with the symbols they stand for, the newest first. -/
  objects : List (String × String) := []
deriving Repr, DecidableEq

namespace Aliases

def bindNames (objects : List (String × String)) :
    List (String × Option String) → List (String × String)
  | [] => objects
  | (symbol, asName) :: rest => bindNames ((asName.getD symbol, symbol) :: objects) rest

/-- Takes in an import; other statements and imports of other modules change nothing. -/
def record (a : Aliases) : Stmt → Aliases
  | .importModule _ path asName =>
    if path = [markerModule] then { a with modules := asName.getD markerModule :: a.modules } else a
  | .importNames _ path names =>
    if path = [markerModule] then { a with objects := bindNames a.objects names } else a
  | _ => a

def isModule (a : Aliases) (name : String) : Bool := a.modules.contains name

/-- The symbol of the marker module that a name stands for. -/
def object? (a : Aliases) (name : String) : Option String := a.objects.lookup name

/-- Whether an expression names a given symbol of the marker module. -/
def names (a : Aliases) (symbol : String) : Expr → Bool
  | .name _ id => a.object? id = some symbol
  | .attr _ (.name _ m) field => field = symbol && a.isModule m
  | _ => false

/-- Whether a decorator is the marker, by itself or called. -/
def isMarker (a : Aliases) : Expr → Bool
  | .call _ f _ _ => a.names marker f
  | e => a.names marker e

def isMarked (a : Aliases) (decorators : List Expr) : Bool := decorators.any a.isMarker

end Aliases

end AnnotatedWasm.Signature
