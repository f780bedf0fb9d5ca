import AnnotatedWasm.Options
import AnnotatedWasm.Source
import AnnotatedWasm.Syntax.Op
import AnnotatedWasm.Wasm.OfIr

/-!
Why a well-formed source does not compile, and how that is said.
-/

namespace AnnotatedWasm

/-- A construct that has no compiled form. -/
inductive Construct where
  /-- A statement or an expression, described by its form. -/
  | form (words : String)
  | defaultValue
  | globalDeclaration (words : String)
  | globalOfType (ty : Ty)
  | nestedFunction
  | operator (symbol : String)
  | chainedComparison
  | comparison (symbol : String)
  | keywordArguments
  | starredArguments
  | callThrough (words : String)
  | listOfOther
  | tupleUnpacking
  | assignmentTo (words : String)
  | augmentedTo (words : String)
  | annotatedTo (words : String)
  | assertionMessage
deriving Repr, DecidableEq

def Construct.text : Construct → String
  | form words => words
  | defaultValue => "default parameter value"
  | globalDeclaration words => s!"global declaration of {words}"
  | globalOfType ty => s!"global of type {ty.text}"
  | nestedFunction => "nested function definition"
  | operator symbol => s!"operator '{symbol}'"
  | chainedComparison => "chained comparison"
  | comparison symbol => s!"'{symbol}' comparison"
  | keywordArguments => "keyword arguments"
  | starredArguments => "starred arguments"
  | callThrough words => s!"call through {words}"
  | listOfOther => "list() of anything but range(...)"
  | tupleUnpacking => "tuple unpacking"
  | assignmentTo words => s!"assignment to {words}"
  | augmentedTo words => s!"augmented assignment to {words}"
  | annotatedTo words => s!"annotated assignment to {words}"
  | assertionMessage => "assertion message"

/-- A value, a name or an annotation whose type does not fit. -/
inductive TypeFault where
  | missingParam (name : String)
  | voidParam (name : String)
  | unknownType (name : String)
  | unknownTypeForm (words : String)
  | elementType (found : Ty)
  | literalRange (text : String)
  | globalWithoutValue (name : String)
  | globalNotConstant (name : String)
  | mismatch (expected found : Ty)
  | operands (left right : Ty)
  | modulo (kind : NumKind)
  | unaryOperand (found : Ty)
  | condition (found : Ty)
  | branches (left right : Ty)
  | listWithoutType
  | rangeWithoutType
  | lengthOf (found : Ty)
  | indexed (found : Ty)
  | voidValue
  | voidAssigned (name : String)
  | voidVariable (name : String)
  | typeChange (name : String) (old new : Ty)
  | redeclared (name : String)
  | returnMissing (function : String) (expected : Ty)
  | returnUnexpected (function : String)
deriving Repr, DecidableEq

def TypeFault.text : TypeFault → String
  | missingParam name => s!"parameter '{name}' has no type annotation"
  | voidParam name => s!"parameter '{name}' cannot have type None"
  | unknownType name => s!"unknown type '{name}'"
  | unknownTypeForm words => s!"unknown type annotation ({words})"
  | elementType found => s!"array elements must be numeric, found {found.text}"
  | literalRange text => s!"numeric literal '{text}' is out of range"
  | globalWithoutValue name => s!"global '{name}' must be initialised with a value"
  | globalNotConstant name => s!"global '{name}' must be initialised with a numeric constant"
  | mismatch expected found =>
    s!"expected a value of type {expected.text}, found {found.text}"
  | operands left right => s!"unsupported operand types {left.text} and {right.text}"
  | modulo kind => s!"modulo is not supported for {kind.name} operands"
  | unaryOperand found => s!"unary operator on non-numeric value of type {found.text}"
  | condition found => s!"condition must be numeric, found {found.text}"
  | branches left right =>
    "branches of conditional expression have incompatible types " ++
      s!"{left.text} and {right.text}"
  | listWithoutType => "list literal must initialise a variable annotated with an array type"
  | rangeWithoutType =>
    "list(range(...)) must initialise a variable annotated with an array type"
  | lengthOf found => s!"len() of a value of type {found.text}"
  | indexed found => s!"cannot index a value of type {found.text}"
  | voidValue => "cannot assign a value of type void"
  | voidAssigned name => s!"cannot assign a value of type void to '{name}'"
  | voidVariable name => s!"variable '{name}' cannot have type None"
  | typeChange name old new =>
    s!"cannot change the type of '{name}' from {old.text} to {new.text}"
  | redeclared name => s!"cannot redeclare '{name}' without a value"
  | returnMissing function expected =>
    s!"function '{function}' must return a value of type {expected.text}"
  | returnUnexpected function =>
    s!"function '{function}' has no return annotation but returns a value"

/-- A name or a feature that is not available where it is used. -/
inductive ScopeFault where
  | disabled (feature : Feature)
  | undeclared (name : String)
  | globalDeclared (name : String)
  | globalWritten (name : String)
  | globalUnknown (name : String)
  | assignedBeforeGlobal (name : String)
  | breakOutside
  | continueOutside
deriving Repr, DecidableEq

def ScopeFault.text : ScopeFault → String
  | disabled .arrays => "array support is disabled (enable gc)"
  | disabled .strings => "string support is disabled (enable strings)"
  | undeclared name => s!"undeclared variable '{name}'"
  | globalDeclared name => s!"global '{name}' is already declared"
  | globalWritten name => s!"cannot modify global '{name}' outside of a compiled function"
  | globalUnknown name =>
    s!"global '{name}' must be declared at module level with a wasm type"
  | assignedBeforeGlobal name =>
    s!"name '{name}' is assigned to before its global declaration"
  | breakOutside => "'break' outside of a loop"
  | continueOutside => "'continue' outside of a loop"

/-- A function definition or a call that fits no signature. -/
inductive SignatureFault where
  | duplicate (name : String)
  | unrecorded (name : String)
  | unknown (name : String)
  | arity (name : String) (expected given : Nat)
  | lengthArity
  | rangeArity
deriving Repr, DecidableEq

def SignatureFault.text : SignatureFault → String
  | duplicate name => s!"function '{name}' is defined more than once"
  | unrecorded name => s!"no signature recorded for '{name}'"
  | unknown name => s!"unknown function '{name}'"
  | arity name expected given =>
    s!"function '{name}' takes {expected} arguments but {given} were given"
  | lengthArity => "len() takes exactly one argument"
  | rangeArity => "range() takes 1 to 3 arguments"

inductive CompileError where
  | unsupported (construct : Construct) (span : Span)
  | type (fault : TypeFault) (span : Span)
  | scope (fault : ScopeFault) (span : Span)
  | signature (fault : SignatureFault) (span : Span)
  | encoding (cause : Wasm.EmitError)
  /-- Two exports share a name; the second stands at `offset` in the binary. -/
  | duplicateExport (name : String) (offset : Nat)
deriving Repr, DecidableEq

namespace CompileError

def message : CompileError → String
  | unsupported construct _ => s!"{construct.text} is not supported"
  | type fault _ => fault.text
  | scope fault _ => fault.text
  | signature fault _ => fault.text
  | encoding cause => s!"failed to encode module: {cause.message}"
  | duplicateExport name offset =>
    s!"generated module failed validation: duplicate export name `{name}` already defined" ++
      s!" (at offset 0x{String.ofList (Nat.toDigits 16 offset)})"

/-- The place in the source, if the error has one. -/
def span? : CompileError → Option Span
  | unsupported _ s | type _ s | scope _ s | signature _ s => some s
  | encoding _ | duplicateExport _ _ => none

end CompileError

end AnnotatedWasm
