import AnnotatedWasm.Proofs.Control.Run

/-!
The meaning of intermediate code.

A node runs on a store of locals, globals and arrays, and gives a value or none. How numbers are
computed and what callees do is left to a `Machine`; a callee sees and changes what all functions
share, but not the locals of its caller. Operands are evaluated in the order in which instructions
are emitted for them.
-/

namespace AnnotatedWasm

/-- A value of running code. An array is known by its place among all arrays. -/
inductive Value (N : Type) where
  | num (value : N)
  | array (ref : Nat)
  | text (value : String)

namespace Value

variable {N : Type}

def num? : Value N → Option N
  | num x => some x
  | _ => none

def array? : Value N → Option Nat
  | array r => some r
  | _ => none

end Value

/-- What the functions of a module share; `world` is whatever else callees may change. -/
structure Shared (N W : Type) where
  globals : String → Value N
  arrays : List (List N)
  world : W

/-- What a function sees while it runs. -/
structure Store (N W : Type) extends Shared N W where
  locals : Nat → Value N

namespace Store

variable {N W : Type}

def setLocal (s : Store N W) (i : Nat) (v : Value N) : Store N W :=
  { s with locals := Function.update s.locals i v }

def setGlobal (s : Store N W) (g : String) (v : Value N) : Store N W :=
  { s with globals := Function.update s.globals g v }

/-- The store after a callee has run. -/
def withShared (s : Store N W) (sh : Shared N W) : Store N W := { s with toShared := sh }

/-- Adds an array and gives its place. -/
def addArray (s : Store N W) (elems : List N) : Nat × Store N W :=
  (s.arrays.length, { s with arrays := s.arrays ++ [elems] })

def element? (s : Store N W) (ref i : Nat) : Option N := s.arrays[ref]? >>= (·[i]?)

/-- Sets an element that is there. -/
def setElement? (s : Store N W) (ref i : Nat) (x : N) : Option (Store N W) := do
  let elems ← s.arrays[ref]?
  let _ ← elems[i]?
  return { s with arrays := s.arrays.set ref (elems.set i x) }

end Store

/-- How numbers are computed and what callees do. No result means a trap. -/
structure Machine (N W : Type) where
  const : Literal → N
  unary : Ir.UnaryOp → N → Option N
  binary : Ir.BinaryOp → N → N → Option N
  isZero : N → Bool
  /-- A number as an index. -/
  toNat : N → Nat
  /-- A length as a number. -/
  ofNat : Nat → N
  call : String → List (Value N) → Shared N W → Option (Option (Value N) × Shared N W)

/-- Code that runs on a store. -/
abbrev Eval (N W : Type) := Run Ir.Label (Value N) (Store N W)

/-- What is missing stops the program. -/
def Run.orTrap {J V σ α : Type} : Option α → Run J V σ α
  | some a => return a
  | none => throw .trapped

/-- A jump to a place ends the run there, without a value. -/
def Run.leftBy {J V σ α : Type} [DecidableEq J] (target : J) (x : Run J V σ (Option α)) :
    Run J V σ (Option α) :=
  tryCatch x fun
    | .jump j => if j = target then return none else throw (.jump j)
    | stop => throw stop

namespace Ir.Node

variable {N W : Type} (M : Machine N W) (fuel : Nat)

/-- The number that code leaves. -/
def number (x : Eval N W (Option (Value N))) : Eval N W N := do
  Run.orTrap ((← x) >>= Value.num?)

/-- The array that code leaves. -/
def arrayRef (x : Eval N W (Option (Value N))) : Eval N W Nat := do
  Run.orTrap ((← x) >>= Value.array?)

mutual

/-- Runs a node; a loop runs for a number of rounds at most. -/
def eval : Node → Eval N W (Option (Value N))
  | nop => return none
  | unreachable => throw .trapped
  | const v => return some (.num (M.const v))
  | string s => return some (.text s)
  | localGet i _ => return some ((← get).locals i)
  | localSet i v => do
    let x ← Run.orTrap (← eval v)
    modify (·.setLocal i x)
    return none
  | globalGet g _ => return some ((← get).globals g)
  | globalSet g v => do
    let x ← Run.orTrap (← eval v)
    modify (·.setGlobal g x)
    return none
  | unary op v => do
    let x ← number (eval v)
    return some (.num (← Run.orTrap (M.unary op x)))
  | binary op a b => do
    let x ← number (eval a)
    let y ← number (eval b)
    return some (.num (← Run.orTrap (M.binary op x y)))
  | select c a b => do
    let x ← Run.orTrap (← eval a)
    let y ← Run.orTrap (← eval b)
    let t ← number (eval c)
    return some (if M.isZero t then y else x)
  | block none ns _ => evalAll ns
  | block (some l) ns _ => (evalAll ns).leftBy l
  | loop l body => do
    Run.rounds ((do let _ ← eval body).jumpsTo l) fuel
    return none
  | ifElse c t e => do
    if M.isZero (← number (eval c)) then evalElse e else
      let _ ← eval t
      return none
  | br l => throw (.jump l)
  | brIf l c => do
    if M.isZero (← number (eval c)) then return none else throw (.jump l)
  | call f args _ => do
    let vs ← evalArgs args
    let s ← get
    let (r, sh) ← Run.orTrap (M.call f vs s.toShared)
    set (s.withShared sh)
    return r
  | ret none => throw (.returned none)
  | ret (some v) => do
    let x ← Run.orTrap (← eval v)
    throw (.returned (some x))
  | drop v => do
    let _ ← eval v
    return none
  | arrayNew _ init size => do
    let x ← number (eval init)
    let n ← number (eval size)
    let (ref, s) := (← get).addArray (List.replicate (M.toNat n) x)
    set s
    return some (.array ref)
  | arrayNewFixed _ values => do
    let vs ← evalArgs values
    let xs ← Run.orTrap (vs.mapM Value.num?)
    let (ref, s) := (← get).addArray xs
    set s
    return some (.array ref)
  | arrayGet _ a i => do
    let ref ← arrayRef (eval a)
    let n ← number (eval i)
    return some (.num (← Run.orTrap ((← get).element? ref (M.toNat n))))
  | arraySet _ a i v => do
    let ref ← arrayRef (eval a)
    let n ← number (eval i)
    let x ← number (eval v)
    set (← Run.orTrap ((← get).setElement? ref (M.toNat n) x))
    return none
  | arrayLen a => do
    let ref ← arrayRef (eval a)
    let elems ← Run.orTrap ((← get).arrays[ref]?)
    return some (.num (M.ofNat elems.length))

/-- Nodes in order; the last one gives the value. -/
def evalAll : List Node → Eval N W (Option (Value N))
  | [] => return none
  | [n] => eval n
  | n :: m :: ns => do
    let _ ← eval n
    evalAll (m :: ns)

/-- The values of operands, in order. -/
def evalArgs : List Node → Eval N W (List (Value N))
  | [] => return []
  | n :: ns => do
    let v ← Run.orTrap (← eval n)
    return v :: (← evalArgs ns)

def evalElse : Option Node → Eval N W (Option (Value N))
  | none => return none
  | some n => do
    let _ ← eval n
    return none

end

end Ir.Node

end AnnotatedWasm
