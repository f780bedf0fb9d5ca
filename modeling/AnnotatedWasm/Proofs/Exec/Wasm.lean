import AnnotatedWasm.Proofs.Exec.Memory
import AnnotatedWasm.Proofs.Wasm.Typing

/-!
Running WebAssembly code.

Instructions work on a stack of operands, the top first. A branch names its target by the number
of constructs between the two: each construct that it leaves counts one down, and the one that it
reaches keeps as many operands as it has results. A loop that is reached starts again.
-/

namespace AnnotatedWasm.Wasm

open Exec

abbrev Stack := List Datum

/-- A branch on its way to its target, with the operands at the place it comes from. -/
structure Jump where
  depth : Nat
  stack : Stack

/-- Code whose operands are on a stack. A return takes the operands along. -/
abbrev StackCode := Routine Jump Stack Nat

def pop : Stack → StackCode (Datum × Stack)
  | v :: st => return (v, st)
  | [] => throw .trapped

/-- Takes a number of operands, which come in the order in which they were pushed. -/
def popMany (n : Nat) (st : Stack) : StackCode (List Datum × Stack) :=
  if n ≤ st.length then return ((st.take n).reverse, st.drop n) else throw .trapped

/-- Takes a condition. -/
def popTest (st : Stack) : StackCode (Bool × Stack) := do
  let (v, st) ← pop st
  return ((← Run.orTrap v.num?).unsigned ≠ 0, st)

/-- The body of a construct that a branch leaves. -/
def leave (results : Nat) (body : StackCode Stack) : StackCode Stack :=
  tryCatch body fun
    | .jump ⟨0, st⟩ => return st.take results
    | .jump ⟨d + 1, st⟩ => throw (.jump ⟨d, st⟩)
    | stop => throw stop

/-- One round of a loop: the operands at its end, or none where a branch starts it again. -/
def round (body : StackCode Stack) : StackCode (Option Stack) :=
  tryCatch (some <$> body) fun
    | .jump ⟨0, _⟩ => return none
    | .jump ⟨d + 1, st⟩ => throw (.jump ⟨d, st⟩)
    | stop => throw stop

def repeated (body : StackCode Stack) : Nat → StackCode Stack
  | 0 => throw .outOfFuel
  | fuel + 1 => do
    match ← round body with
    | some st => return st
    | none => repeated body fuel

/-- The type of a function, its parameters and its results. -/
def Module.funcType? (w : Module) (i : Nat) : Option (List ValType × List ValType) :=
  match w.functions[i]? >>= fun j => w.types[j]? with
  | some (.func ps rs) => some (ps, rs)
  | _ => none

/-- The kind of the numbers in arrays of a type. -/
def Module.elementKind? (w : Module) (t : Nat) : Option NumKind :=
  match w.types[t]? with
  | some (.array (.num k)) => some k
  | _ => none

section

variable (w : Module) (A : Arithmetic) (calls : Calls Nat) (fuel : Nat)

mutual

def Instr.exec : Instr → Stack → StackCode Stack
  | .nop, st => return st
  | .unreachable, _ => throw .trapped
  | .const v, st => return .num v :: st
  | .localGet i, st => return (← getLocal i) :: st
  | .localSet i, st => do
    let (v, st) ← pop st
    setLocal i v
    return st
  | .globalGet i, st => return (← getGlobal i) :: st
  | .globalSet i, st => do
    let (v, st) ← pop st
    setGlobal i v
    return st
  | .unary op, st => do
    let (x, st) ← pop st
    return (← Run.orTrap (A.unary? op x)) :: st
  | .binary op, st => do
    let (y, st) ← pop st
    let (x, st) ← pop st
    return (← Run.orTrap (A.binary? op x y)) :: st
  | .select, st | .selectTyped _, st => do
    let (c, st) ← popTest st
    let (y, st) ← pop st
    let (x, st) ← pop st
    return (if c then x else y) :: st
  | .block result body, st => do
    let values ← leave result.toList.length (execAll body [])
    return values ++ st
  | .loop body, st => do
    let values ← repeated (execAll body []) fuel
    return values ++ st
  | .ifThen body, st => do
    let (c, st) ← popTest st
    let values ← if c then leave 0 (execAll body []) else pure []
    return values ++ st
  | .ifElse a b, st => do
    let (c, st) ← popTest st
    let values ← if c then leave 0 (execAll a []) else leave 0 (execAll b [])
    return values ++ st
  | .br d, st => throw (.jump ⟨d, st⟩)
  | .brIf d, st => do
    let (c, st) ← popTest st
    if c then throw (.jump ⟨d, st⟩) else return st
  | .call i, st => do
    let (params, _) ← Run.orTrap (w.funcType? i)
    let (args, st) ← popMany params.length st
    let values ← invoke calls i args
    return values.reverse ++ st
  | .ret, st => throw (.returned (some st))
  | .drop, st => do
    let (_, st) ← pop st
    return st
  | .arrayNew t, st => do
    let k ← Run.orTrap (w.elementKind? t)
    let (size, st) ← pop st
    let (init, st) ← pop st
    return (← onHeap (Heap.addFilled? k init size)) :: st
  | .arrayNewFixed t n, st => do
    let k ← Run.orTrap (w.elementKind? t)
    let (values, st) ← popMany n st
    return (← onHeap (Heap.addFixed? k values)) :: st
  | .arrayNewData _ s, st => do
    let segment ← Run.orTrap w.data[s]?
    let (size, st) ← pop st
    let (offset, st) ← pop st
    return (← onHeap (Heap.addCopied? segment offset size)) :: st
  | .arrayGet t, st => do
    let k ← Run.orTrap (w.elementKind? t)
    let (index, st) ← pop st
    let (array, st) ← pop st
    return (← onHeap (Heap.read? k array index)) :: st
  | .arraySet t, st => do
    let k ← Run.orTrap (w.elementKind? t)
    let (value, st) ← pop st
    let (index, st) ← pop st
    let (array, st) ← pop st
    onHeap (Heap.write? k array index value)
    return st
  | .arrayLen, st => do
    let (array, st) ← pop st
    return (← onHeap (Heap.length? array)) :: st

def execAll : List Instr → Stack → StackCode Stack
  | [], st => return st
  | i :: is, st => do execAll is (← i.exec st)

end

/-- How a function ends whose body has ended so. The body is a construct like others, so a branch
that leaves it is a return. -/
def outcome (results : Nat) : Except (Stop Jump Stack) Stack → Outcome
  | .ok st | .error (.returned (some st)) | .error (.jump ⟨0, st⟩) =>
    .returned (st.take results).reverse
  | .error .outOfFuel => .outOfFuel
  | .error _ => .trapped

/-- Runs the body of the function with an index. -/
def Module.run (i : Nat) (s : Memory Nat) : Outcome × Memory Nat :=
  match w.funcType? i, w.codes[i]? with
  | some (_, results), some code =>
    let (ending, s) := (execAll w A calls fuel code.body []).run.run s
    (outcome results.length ending, s)
  | _, _ => (.trapped, s)

end

/-- The value of a local that has not been set. -/
def initial : ValType → Datum
  | .num k => .num (.zero k)
  | .ref _ => .ref none

/-- The functions of a module as callees, for calls nested less deep than a number. -/
def Module.calls (w : Module) (A : Arithmetic) : Nat → Calls Nat
  | 0 => fun _ _ shared => (.outOfFuel, shared)
  | fuel + 1 => fun i args shared =>
    match w.codes[i]? with
    | none => (.trapped, shared)
    | some code =>
      let (outcome, s) := w.run A (w.calls A fuel) fuel i
        ⟨shared, args ++ (expand code.locals).map initial⟩
      (outcome, s.toCommons)

end AnnotatedWasm.Wasm
