import AnnotatedWasm.Ty

/-!
WebAssembly types, and the table in which a module lists the ones it uses.

A type enters the table when it is first needed, and the same type always has the same index.
Function types refer to array types, which are entered before them.
-/

namespace AnnotatedWasm.Wasm

/-- What an array holds; the bytes of a string are not numbers of any kind. -/
inductive Storage where
  | num (kind : NumKind)
  | byte
deriving Repr, DecidableEq

inductive ValType where
  | num (kind : NumKind)
  /-- A reference, which may be null, to the array type with an index. -/
  | ref (typeIndex : Nat)
deriving Repr, DecidableEq

inductive TypeDef where
  /-- Every array is mutable. -/
  | array (storage : Storage)
  | func (params results : List ValType)
deriving Repr, DecidableEq

structure TypeTable where
  entries : List TypeDef := []
deriving Repr, DecidableEq

namespace TypeTable

def size (t : TypeTable) : Nat := t.entries.length

/-- The index of a type, which is added at the end if it is new. -/
def intern (t : TypeTable) (d : TypeDef) : Nat × TypeTable :=
  match t.entries.idxOf? d with
  | some i => (i, t)
  | none => (t.size, ⟨t.entries ++ [d]⟩)

def array (t : TypeTable) (s : Storage) : Nat × TypeTable := t.intern (.array s)

/-- The value type of a type; none if it has no values. -/
def valType (t : TypeTable) : Ty → Option ValType × TypeTable
  | .num k => (some (.num k), t)
  | .void => (none, t)
  | .array k => let (i, t) := t.array (.num k); (some (.ref i), t)
  | .str => let (i, t) := t.array .byte; (some (.ref i), t)

/-- The value types of a list of types; types without values are left out. -/
def valTypes (t : TypeTable) : List Ty → List ValType × TypeTable
  | [] => ([], t)
  | ty :: rest =>
    let (v, t) := t.valType ty
    let (vs, t) := t.valTypes rest
    (v.toList ++ vs, t)

/-- The index of a function type. -/
def func (t : TypeTable) (params : List Ty) (result : Ty) : Nat × TypeTable :=
  let (ps, t) := t.valTypes params
  let (r, t) := t.valType result
  t.intern (.func ps r.toList)

end TypeTable

end AnnotatedWasm.Wasm
