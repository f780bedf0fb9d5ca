import AnnotatedWasm.Proofs.Exec.Memory

/-!
Running intermediate code.

A node gives a value or none. Operands are evaluated in the order in which instructions are
emitted for them, a branch goes to the innermost construct around it that has its label, and a
call runs the function of that name. One number bounds the rounds of each loop and the depth of
calls.
-/

namespace AnnotatedWasm.Ir

open Exec

namespace Node

variable (A : Arithmetic) (calls : Calls String) (fuel : Nat)

/-- The value that code leaves, which must leave one. -/
def operand {J V G : Type} (x : Routine J V G (Option Datum)) : Routine J V G Datum := do
  Run.orTrap (← x)

/-- Whether a condition holds. -/
def holds {J V G : Type} (v : Datum) : Routine J V G Bool := do
  return (← Run.orTrap v.num?).unsigned ≠ 0

mutual

def exec : Node → Routine Label Datum String (Option Datum)
  | nop => return none
  | unreachable => throw .trapped
  | const v => return some (.num v)
  | string s => return some (← onHeap fun h => some (h.add (.ofText s)))
  | localGet i _ => return some (← getLocal i)
  | localSet i v => do
    setLocal i (← operand (exec v))
    return none
  | globalGet g _ => return some (← getGlobal g)
  | globalSet g v => do
    setGlobal g (← operand (exec v))
    return none
  | unary op v => do
    let x ← operand (exec v)
    return some (← Run.orTrap (A.unary? op x))
  | binary op a b => do
    let x ← operand (exec a)
    let y ← operand (exec b)
    return some (← Run.orTrap (A.binary? op x y))
  | select c a b => do
    let x ← operand (exec a)
    let y ← operand (exec b)
    let t ← operand (exec c)
    return some (if ← holds t then x else y)
  | block none ns _ => execAll ns
  | block (some l) ns _ => (execAll ns).leftBy l
  | loop l body => do
    Run.rounds ((do let _ ← exec body).jumpsTo l) fuel
    return none
  | ifElse c t e => do
    if ← holds (← operand (exec c)) then
      let _ ← exec t
      return none
    else
      let _ ← execElse e
      return none
  | br l => throw (.jump l)
  | brIf l c => do
    if ← holds (← operand (exec c)) then throw (.jump l) else return none
  | call f args _ => do
    let vs ← execArgs args
    return (← invoke calls f vs).head?
  | ret none => throw (.returned none)
  | ret (some v) => do
    let x ← operand (exec v)
    throw (.returned (some x))
  | drop v => do
    let _ ← operand (exec v)
    return none
  | arrayNew k init size => do
    let x ← operand (exec init)
    let n ← operand (exec size)
    return some (← onHeap (Heap.addFilled? k x n))
  | arrayNewFixed k values => do
    let xs ← execArgs values
    return some (← onHeap (Heap.addFixed? k xs))
  | arrayGet k a i => do
    let x ← operand (exec a)
    let n ← operand (exec i)
    return some (← onHeap (Heap.read? k x n))
  | arraySet k a i v => do
    let x ← operand (exec a)
    let n ← operand (exec i)
    let y ← operand (exec v)
    onHeap (Heap.write? k x n y)
    return none
  | arrayLen a => do
    let x ← operand (exec a)
    return some (← onHeap (Heap.length? x))

/-- Nodes in order; the last one gives the value. -/
def execAll : List Node → Routine Label Datum String (Option Datum)
  | [] => return none
  | [n] => exec n
  | n :: m :: ns => do
    let _ ← exec n
    execAll (m :: ns)

/-- The values of operands, in order. -/
def execArgs : List Node → Routine Label Datum String (List Datum)
  | [] => return []
  | n :: ns => do
    let v ← operand (exec n)
    return v :: (← execArgs ns)

def execElse : Option Node → Routine Label Datum String (Option Datum)
  | none => return none
  | some n => exec n

end

end Node

/-- How a function ends whose body has ended so. A function that has a result leaves it by a
return, and there is nothing to return at the end of its body. -/
def Function.outcome (f : Function) : Except (Stop Label Datum) (Option Datum) → Outcome
  | .ok _ => if f.result.isVoid then .returned [] else .trapped
  | .error (.returned v) => .returned v.toList
  | .error (.jump _) | .error .trapped => .trapped
  | .error .outOfFuel => .outOfFuel

/-- Runs the body of a function. -/
def Function.run (f : Function) (A : Arithmetic) (calls : Calls String) (fuel : Nat)
    (s : Memory String) : Outcome × Memory String :=
  let (ending, s) := (Node.execAll A calls fuel f.body).run.run s
  (f.outcome ending, s)

/-- The value of a local that has not been set. -/
def initial : Ty → Datum
  | .num k => .num (.zero k)
  | .array _ | .str | .void => .ref none

/-- The functions of a module as callees, for calls nested less deep than a number. -/
def Module.calls (m : Module) (A : Arithmetic) : Nat → Calls String
  | 0 => fun _ _ shared => (.outOfFuel, shared)
  | fuel + 1 => fun name args shared =>
    match m.function? name with
    | none => (.trapped, shared)
    | some f =>
      let (outcome, s) := f.run A (m.calls A fuel) fuel ⟨shared, args ++ f.locals.map initial⟩
      (outcome, s.toCommons)

end AnnotatedWasm.Ir
