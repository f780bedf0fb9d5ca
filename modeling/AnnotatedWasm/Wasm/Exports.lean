import AnnotatedWasm.Wasm.Binary

/-!
The one rule of validity that emission alone does not ensure: no two exports share a name.
-/

namespace AnnotatedWasm.Wasm

/-- The first export whose name is among `seen` or on an earlier export, and how many bytes stand
before it in the list. -/
def repeated? (seen : List String) (offset : Nat) : List Export → Option (String × Nat)
  | [] => none
  | e :: rest =>
    if e.name ∈ seen then some (e.name, offset)
    else repeated? (e.name :: seen) (offset + e.bytes.length) rest

/-- The first export with the name of an earlier one, and where its entry starts in the binary. -/
def Module.duplicateExport? (m : Module) : Option (String × Nat) :=
  let payload := vector Export.bytes m.exports
  let start :=
    m.headBytes.length + 1 + (uleb payload.length).length + (uleb m.exports.length).length
  repeated? [] start m.exports

end AnnotatedWasm.Wasm
