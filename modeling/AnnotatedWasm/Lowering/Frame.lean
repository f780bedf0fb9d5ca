import AnnotatedWasm.Ir.Node

/-!
The local state of a function while it is compiled: its slots, the names bound to them, the
globals it has opened, and the loops around the current statement.

Slots are only ever added. A name may be bound anew, which hides its older slot.
-/

namespace AnnotatedWasm

/-- A local slot: parameters come first, then the others in the order of their making. -/
structure Slot where
  index : Nat
  ty : Ty
deriving Repr, DecidableEq

/-- The bindings of a list of names; of two equal names the later one counts. -/
def lookupLast? {α : Type} (name : String) : List (String × α) → Option α
  | [] => none
  | (n, a) :: rest =>
    match lookupLast? name rest with
    | some b => some b
    | none => if n = name then some a else none

structure Frame where
  name : String
  returns : Ty
  params : List Ty
  /-- The types of the slots after the parameters. -/
  extra : List Ty
  /-- Names with their slots, the oldest first. -/
  bindings : List (String × Slot)
  /-- Globals that a `global` statement has made visible, the oldest first. -/
  globals : List (String × Ty)
  /-- Numbers of the enclosing loops, the innermost first. -/
  loops : List Nat
deriving Repr, DecidableEq

namespace Frame

/-- Parameters with their slots, from slot `first` on. -/
def paramSlots (first : Nat) : List (String × Ty) → List (String × Slot)
  | [] => []
  | (name, ty) :: rest => (name, ⟨first, ty⟩) :: paramSlots (first + 1) rest

/-- The state at the start of a function. -/
def start (name : String) (params : List (String × Ty)) (returns : Ty) : Frame where
  name
  returns
  params := params.map (·.2)
  extra := []
  bindings := paramSlots 0 params
  globals := []
  loops := []

/-- The types of all slots. -/
def slotTypes (f : Frame) : List Ty := f.params ++ f.extra

def nextIndex (f : Frame) : Nat := f.params.length + f.extra.length

/-- Makes a slot and binds a name to it. -/
def declare (f : Frame) (name : String) (ty : Ty) : Slot × Frame :=
  let slot := ⟨f.nextIndex, ty⟩
  (slot, { f with extra := f.extra ++ [ty], bindings := f.bindings ++ [(name, slot)] })

/-- Makes a slot without a name. -/
def temporary (f : Frame) (ty : Ty) : Slot × Frame :=
  (⟨f.nextIndex, ty⟩, { f with extra := f.extra ++ [ty] })

def slot? (f : Frame) (name : String) : Option Slot := lookupLast? name f.bindings

def openGlobal (f : Frame) (name : String) (ty : Ty) : Frame :=
  { f with globals := f.globals ++ [(name, ty)] }

def global? (f : Frame) (name : String) : Option Ty := lookupLast? name f.globals

def enterLoop (f : Frame) (id : Nat) : Frame := { f with loops := id :: f.loops }

def leaveLoop (f : Frame) : Frame := { f with loops := f.loops.tail }

def currentLoop? (f : Frame) : Option Nat := f.loops.head?

/-- Slots that have names, in order. -/
def localNames (f : Frame) : List (Nat × String) := f.bindings.map fun (n, s) => (s.index, n)

/-- The function with a given body. -/
def finish (f : Frame) (body : List Ir.Node) : Ir.Function where
  name := f.name
  params := f.params
  result := f.returns
  locals := f.extra
  localNames := f.localNames
  body

end Frame

/-- A branch to this label tests the loop's condition again. -/
def loopLabel (id : Nat) : Ir.Label := s!"loop_{id}"

/-- A branch to this label leaves the loop and skips its `else` part. -/
def loopBodyLabel (id : Nat) : Ir.Label := s!"loop_body_{id}"

/-- The label of the `else` part, to which nothing branches. -/
def loopElseLabel (id : Nat) : Ir.Label := s!"loop_else_{id}"

end AnnotatedWasm
