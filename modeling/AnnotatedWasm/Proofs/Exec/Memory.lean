import AnnotatedWasm.Proofs.Ir.Eval

/-!
What running code works on: numbers and references, arrays, globals and locals.

Intermediate code and WebAssembly run on the same kind of memory. They differ in what they call
their globals and functions, by names or by indices, so a memory is over the type of these.
Numbers are bits; what the numeric instructions do with them is left open.
-/

namespace AnnotatedWasm

/-- The bits of a number as an unsigned number, which is how conditions, indices and sizes are
read. -/
def Literal.unsigned : Literal → Nat
  | .int _ v | .float _ v => v.toNat

namespace Exec

inductive Datum where
  | num (value : Literal)
  /-- An array, known by its place among all arrays, or null. -/
  | ref (place : Option Nat)

def Datum.num? : Datum → Option Literal
  | num x => some x
  | ref _ => none

/-- What the numeric instructions compute. No result means a trap. -/
structure Arithmetic where
  unary : Ir.UnaryOp → Literal → Option Literal
  binary : Ir.BinaryOp → Literal → Literal → Option Literal

namespace Arithmetic

variable (A : Arithmetic)

def unary? (op : Ir.UnaryOp) (v : Datum) : Option Datum := do
  return .num (← A.unary op (← v.num?))

def binary? (op : Ir.BinaryOp) (v w : Datum) : Option Datum := do
  return .num (← A.binary op (← v.num?) (← w.num?))

end Arithmetic

/-! ### Arrays -/

/-- The contents of an array. -/
inductive Cells where
  | numbers (kind : NumKind) (values : List Literal)
  | bytes (values : List UInt8)

namespace Cells

def length : Cells → Nat
  | numbers _ xs => xs.length
  | bytes bs => bs.length

/-- The bytes of a text. Lengths are 32-bit numbers, so a text that is longer is cut. -/
def ofText (s : String) : Cells :=
  .bytes (s.toUTF8.toList.take (s.toUTF8.toList.length % 4294967296))

end Cells

abbrev Heap := List Cells

namespace Heap

def add (c : Cells) (h : Heap) : Datum × Heap := (.ref (some h.length), h ++ [c])

def addFilled? (k : NumKind) (init size : Datum) (h : Heap) : Option (Datum × Heap) := do
  let x ← init.num?
  let n ← size.num?
  return h.add (.numbers k (List.replicate n.unsigned x))

def addFixed? (k : NumKind) (values : List Datum) (h : Heap) : Option (Datum × Heap) := do
  return h.add (.numbers k (← values.mapM Datum.num?))

/-- Adds a copy of a part of a segment, which must lie inside it. -/
def addCopied? (segment : List UInt8) (offset size : Datum) (h : Heap) :
    Option (Datum × Heap) := do
  let o ← offset.num?
  let n ← size.num?
  if o.unsigned + n.unsigned ≤ segment.length then
    return h.add (.bytes ((segment.drop o.unsigned).take n.unsigned))
  else none

/-- The place of an array of numbers and what it holds. -/
def numbers? (k : NumKind) (array : Datum) (h : Heap) : Option (Nat × List Literal) :=
  match array with
  | .ref (some place) =>
    match h[place]? with
    | some (.numbers k' xs) => if k' = k then some (place, xs) else none
    | _ => none
  | _ => none

def read? (k : NumKind) (array index : Datum) (h : Heap) : Option (Datum × Heap) := do
  let (_, xs) ← h.numbers? k array
  let i ← index.num?
  return (.num (← xs[i.unsigned]?), h)

def write? (k : NumKind) (array index value : Datum) (h : Heap) : Option (Unit × Heap) := do
  let (place, xs) ← h.numbers? k array
  let i ← index.num?
  let x ← value.num?
  if i.unsigned < xs.length then
    return ((), h.set place (.numbers k (xs.set i.unsigned x)))
  else none

def length? (array : Datum) (h : Heap) : Option (Datum × Heap) :=
  match array with
  | .ref (some place) => do return (.num (.i32 (← h[place]?).length), h)
  | _ => none

end Heap

/-! ### Memory -/

/-- What the functions of a module share. -/
structure Commons (G : Type) where
  globals : G → Datum
  heap : Heap

/-- What a function sees while it runs. -/
structure Memory (G : Type) extends Commons G where
  locals : List Datum

/-- How a function ends. -/
inductive Outcome where
  | returned (values : List Datum)
  | trapped
  | outOfFuel

/-- What callees do with their arguments and with what is shared. -/
abbrev Calls (G : Type) := G → List Datum → Commons G → Outcome × Commons G

/-- Code that runs on a memory. -/
abbrev Routine (J V G : Type) := Run J V (Memory G)

section

variable {J V G α : Type}

def getLocal (i : Nat) : Routine J V G Datum := do Run.orTrap (← get).locals[i]?

def setLocal (i : Nat) (v : Datum) : Routine J V G Unit :=
  modify fun s => { s with locals := s.locals.set i v }

def getGlobal (g : G) : Routine J V G Datum := return (← get).globals g

def setGlobal [DecidableEq G] (g : G) (v : Datum) : Routine J V G Unit :=
  modify fun s => { s with globals := Function.update s.globals g v }

/-- A step on the arrays alone. -/
def onHeap (f : Heap → Option (α × Heap)) : Routine J V G α := do
  let s ← get
  let (a, heap) ← Run.orTrap (f s.heap)
  set { s with heap }
  return a

/-- Calls a function, which does not see the locals of its caller. -/
def invoke (calls : Calls G) (f : G) (args : List Datum) : Routine J V G (List Datum) := do
  let s ← get
  let (outcome, shared) := calls f args s.toCommons
  set { s with toCommons := shared }
  match outcome with
  | .returned values => return values
  | .trapped => throw .trapped
  | .outOfFuel => throw .outOfFuel

lemma run_onHeap (f : Heap → Option (α × Heap)) (s : Memory G) :
    (onHeap f : Routine J V G α).run.run s =
      match f s.heap with
      | some (a, heap) => (.ok a, { s with heap })
      | none => (.error .trapped, s) := by
  rw [onHeap, Run.run_bind]
  change (Run.orTrap (f s.heap) >>= _ : Routine J V G α).run.run s = _
  rcases f s.heap with _ | ⟨a, heap⟩ <;> rfl

lemma run_invoke (calls : Calls G) (f : G) (args : List Datum) (s : Memory G) :
    (invoke calls f args : Routine J V G (List Datum)).run.run s =
      match calls f args s.toCommons with
      | (.returned values, shared) => (.ok values, { s with toCommons := shared })
      | (.trapped, shared) => (.error .trapped, { s with toCommons := shared })
      | (.outOfFuel, shared) => (.error .outOfFuel, { s with toCommons := shared }) := by
  rw [invoke, Run.run_bind]
  change (match calls f args s.toCommons with
    | (outcome, shared) => do
      set { s with toCommons := shared }
      match outcome with
      | .returned values => pure values
      | .trapped => throw .trapped
      | .outOfFuel => throw .outOfFuel : Routine J V G (List Datum)).run.run s = _
  rcases calls f args s.toCommons with ⟨_ | _ | _, shared⟩ <;> rfl

end

end Exec

end AnnotatedWasm
