import AnnotatedWasm.Lowering.Basic

/-!
Arrays of evenly spaced numbers.
-/

namespace AnnotatedWasm.Lowering

open Ir (Node)

/-- The scratch slots of a range. -/
structure RangeSlots where
  first : Slot
  stride : Slot
  length : Slot
  array : Slot
  /-- How many elements are filled in. -/
  count : Slot
  /-- The next element. -/
  next : Slot

/-- `ceil((stop - first) / stride)`, computed in `f64` and cut to an `i32`. -/
def rangeLength (s : RangeSlots) (stop : Node) : Node :=
  let distance : Node :=
    .binary (.arith .sub .f64) (convert stop .f64) (convert (slotGet s.first) .f64)
  let quotient : Node := .binary (.arith .div .f64) distance (convert (slotGet s.stride) .f64)
  .unary (.truncate .w64 .w32) (.unary .ceil quotient)

/-- The loop that fills the array. -/
def rangeLoop (s : RangeSlots) (label : Ir.Label) (element : NumKind) : Node :=
  let increment (slot : Slot) (amount : Node) : Node :=
    .localSet slot.index (.binary (.arith .add .i32) (slotGet slot) amount)
  let fill : Node := .block none
    [.arraySet element (slotGet s.array) (slotGet s.count) (convert (slotGet s.next) element),
      increment s.next (slotGet s.stride),
      increment s.count (.i32 1),
      .br label]
    .void
  .loop label
    (.ifElse (.binary (.compare .lt .i32) (slotGet s.count) (slotGet s.length)) fill none)

/-- The array of `start`, `start + step`, ... up to but without `stop`. A step of zero stops the
program, and a length below zero counts as zero. -/
def rangeBlock (s : RangeSlots) (label : Ir.Label) (element : NumKind)
    (start stop step : Node) : Node :=
  let clamped : Node :=
    .select (.binary (.compare .gt .i32) (slotGet s.length) (.i32 0)) (slotGet s.length) (.i32 0)
  .block none
    [.localSet s.first.index start,
      .localSet s.stride.index step,
      .ifElse (.binary (.compare .eq .i32) (slotGet s.stride) (.i32 0)) .unreachable none,
      .localSet s.length.index (rangeLength s stop),
      .localSet s.length.index clamped,
      .localSet s.array.index (.arrayNew element (zero element) (slotGet s.length)),
      .localSet s.count.index (.i32 0),
      .localSet s.next.index (slotGet s.first),
      rangeLoop s label element,
      slotGet s.array]
    (.array element)

def rangeLabel (id : Nat) : Ir.Label := s!"range_{id}"

/-- Makes the slots and the label of a range, then its code. -/
def range (element : NumKind) (start stop step : Node) : Lower Node := do
  let id ← freshLabel
  let first ← temporary .i32
  let stride ← temporary .i32
  let length ← temporary .i32
  let array ← temporary (.array element)
  let count ← temporary .i32
  let next ← temporary .i32
  let slots : RangeSlots := { first, stride, length, array, count, next }
  return rangeBlock slots (rangeLabel id) element start stop step

/-- A range by one, two or three bounds. -/
def rangeOf (element : NumKind) (bounds : List Node) (span : Span) : Lower Node :=
  match bounds with
  | [stop] => range element (.i32 0) stop (.i32 1)
  | [start, stop] => range element start stop (.i32 1)
  | [start, stop, step] => range element start stop step
  | _ => throw (.signature .rangeArity span)

end AnnotatedWasm.Lowering
