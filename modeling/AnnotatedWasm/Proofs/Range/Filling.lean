import AnnotatedWasm.Proofs.Ir.Exact
import AnnotatedWasm.Proofs.Lowering.Footprint

/-!
Filling the array of a range.

The loop counts elements: a round stores the next element at the count, moves both on and starts
the loop again. The store at the start of each round is given outright (`Filling.state`), with as
many elements filled in as rounds have passed; one round leads from each such store to the next, and
by induction the loop leads from the first to the last.
-/

namespace AnnotatedWasm

/-! ### How many elements there are -/

/-- How many numbers a range has. An array has room for no more than the bound. -/
def rangeCount (start stop step : Int) : Nat :=
  (min (2 ^ 31 - 1) (max 0 ⌈((stop - start : Int) : ℚ) / step⌉)).toNat

variable {start stop step : Int}

lemma cast_rangeCount (start stop step : Int) :
    (rangeCount start stop step : Int) =
      min (2 ^ 31 - 1) (max 0 ⌈((stop - start : Int) : ℚ) / step⌉) := by
  rw [rangeCount, Int.toNat_of_nonneg]
  exact le_min (by norm_num) (le_max_left _ _)

lemma rangeCount_le (start stop step : Int) : (rangeCount start stop step : Int) ≤ 2 ^ 31 - 1 := by
  rw [cast_rangeCount]
  exact min_le_left _ _

/-- As long as there is room, the range goes on while the stop is ahead. -/
lemma lt_rangeCount_iff (hstep : step ≠ 0) (k : Nat) :
    k < rangeCount start stop step ↔
      (k : Int) < 2 ^ 31 - 1 ∧
        if 0 < step then start + k * step < stop else stop < start + k * step := by
  have hcount : k < rangeCount start stop step ↔ (k : Int) < rangeCount start stop step :=
    Int.ofNat_lt.symm
  have hmax : (k : Int) < max 0 ⌈((stop - start : Int) : ℚ) / step⌉ ↔
      (k : ℚ) < ((stop - start : Int) : ℚ) / step := by
    rw [lt_max_iff, or_iff_right (by omega), Int.lt_ceil, Int.cast_natCast]
  rw [hcount, cast_rangeCount, lt_min_iff, hmax]
  refine and_congr_right fun _ => ?_
  rcases lt_or_gt_of_ne hstep with h | h
  · have hneg : (step : ℚ) < 0 := by exact_mod_cast h
    have hiff : ((stop - start : Int) : ℚ) < k * step ↔ stop - start < k * step := by
      rw [← Int.cast_lt (R := ℚ)]
      push_cast
      rfl
    rw [lt_div_iff_of_neg hneg, hiff, if_neg (by omega)]
    omega
  · have hpos : (0 : ℚ) < step := by exact_mod_cast h
    have hiff : k * step < ((stop - start : Int) : ℚ) ↔ k * step < stop - start := by
      rw [← Int.cast_lt (R := ℚ)]
      push_cast
      rfl
    rw [lt_div_iff₀ hpos, hiff, if_pos h]
    omega

/-- The elements lie between the start and the stop. -/
lemma range_element_between {k : Nat} (hstep : step ≠ 0) (hk : k < rangeCount start stop step) :
    min start stop ≤ start + k * step ∧ start + k * step ≤ max start stop := by
  obtain ⟨-, hk⟩ := (lt_rangeCount_iff hstep k).mp hk
  split at hk
  · next h =>
    have hle : 0 ≤ k * step := mul_nonneg (by omega) h.le
    omega
  · next h =>
    have hle : k * step ≤ 0 := mul_nonpos_of_nonneg_of_nonpos (by omega) (by omega)
    omega

/-- The saturated quotient, without those below zero, is the number of elements. -/
lemma max_saturate (start stop step : Int) :
    max 0 (saturate .w32 ⌈((stop - start : Int) : ℚ) / step⌉) = rangeCount start stop step := by
  have hbits : (2 ^ (Width.w32.bits - 1) : Int) = 2 ^ 31 := rfl
  rw [cast_rangeCount, saturate, hbits]
  omega

/-! ### Instructions on small numbers -/

/-- The number is one of an `i32`. -/
def InI32 (v : Int) : Prop := -2 ^ 31 ≤ v ∧ v < 2 ^ 31

/-- Such a number is kept in every width. -/
lemma InI32.toInt_ofInt {v : Int} (h : InI32 v) (w : Width) :
    (BitVec.ofInt w.bits v).toInt = v := by
  obtain ⟨hlo, hhi⟩ := h
  have hbits : w.bits = 32 ∨ w.bits = 64 := by cases w <;> simp [Width.bits]
  rw [BitVec.toInt_ofInt]
  rcases hbits with hbits | hbits <;> rw [hbits] <;>
    apply Int.bmod_eq_of_le_mul_two <;> push_cast <;> omega

lemma inI32_toInt (v : BitVec 32) : InI32 v.toInt := ⟨BitVec.le_toInt v, BitVec.toInt_lt⟩

lemma inI32_of_le_rangeCount {k : Nat} (h : k ≤ rangeCount start stop step) : InI32 k := by
  have hle := rangeCount_le start stop step
  constructor <;> omega

section

variable {W : Type} (float : (w : Width) → BitVec w.bits → ℚ)
  (call : String → List (Value Exact) → Shared Exact W →
    Option (Option (Value Exact) × Shared Exact W))

lemma returns_exact_i32 (fuel : Nat) (st : Store Exact W) (v : Int) :
    Returns ((Ir.Node.i32 v).eval (exactMachine float call) fuel) st (some (.num (.i32 v))) st :=
  rfl

lemma exact_compare {a b : Int} (ha : InI32 a) (hb : InI32 b) (o : Ir.Comparison) :
    (exactMachine float call).binary (.compare o .i32) (.i32 a) (.i32 b) =
      some (.i32 (if o.holds a b then 1 else 0)) := by
  simp only [exactMachine, Exact.bits_ofInt, compare_eq, ha.toInt_ofInt, hb.toInt_ofInt]

lemma exact_add (a b : Int) :
    (exactMachine float call).binary (.arith .add .i32) (.i32 a) (.i32 b) =
      some (.i32 (a + b)) := by
  simp only [exactMachine, Exact.bits_ofInt, Bits.arith, Option.map_some, ← BitVec.ofInt_add]
  rfl

lemma exact_toNat {k : Nat} (h : InI32 k) : (exactMachine float call).toNat (.i32 k) = k := by
  have hk : k < 2 ^ Width.w32.bits := by
    have hlt := h.2
    have hbits : Width.w32.bits = 32 := rfl
    rw [hbits]
    omega
  simp only [exactMachine, Exact.bits_ofInt, BitVec.ofInt_natCast, BitVec.toNat_ofNat]
  exact Nat.mod_eq_of_lt hk

end

namespace Store

variable {N W : Type} {s : Store N W}

lemma setLocal_setLocal (i : Nat) (x y : Value N) :
    (s.setLocal i x).setLocal i y = s.setLocal i y := by
  simp only [setLocal, Function.update_idem]

lemma setLocal_comm {i j : Nat} (h : i ≠ j) (x y : Value N) :
    (s.setLocal i x).setLocal j y = (s.setLocal j y).setLocal i x := by
  simp only [setLocal, Function.update_comm h]

end Store

namespace Lowering

open Ir (Node)

/-! ### The scratch slots -/

section

variable {N W : Type} {s : RangeSlots} {st : Store N W}
  {first stride length array count next : Value N}

/-- The store with these values in the scratch slots of a range. -/
def RangeSlots.hold (s : RangeSlots) (st : Store N W)
    (first stride length array count next : Value N) : Store N W :=
  (((((st.setLocal s.first.index first).setLocal s.stride.index stride).setLocal
    s.length.index length).setLocal s.array.index array).setLocal s.count.index count).setLocal
    s.next.index next

lemma hold_setNext (x : Value N) :
    (s.hold st first stride length array count next).setLocal s.next.index x =
      s.hold st first stride length array count x :=
  Store.setLocal_setLocal _ _ _

lemma hold_setCount (h : s.next.index ≠ s.count.index) (x : Value N) :
    (s.hold st first stride length array count next).setLocal s.count.index x =
      s.hold st first stride length array x next := by
  rw [RangeSlots.hold, Store.setLocal_comm h, Store.setLocal_setLocal, RangeSlots.hold]

/-- What the scratch slots hold. -/
structure RangeSlots.Holds (s : RangeSlots) (st : Store N W)
    (first stride length array count next : Value N) : Prop where
  first : st.locals s.first.index = first
  stride : st.locals s.stride.index = stride
  length : st.locals s.length.index = length
  array : st.locals s.array.index = array
  count : st.locals s.count.index = count
  next : st.locals s.next.index = next

lemma holds_hold (slot : Nat) (element : NumKind) :
    (RangeSlots.from slot element).Holds
      ((RangeSlots.from slot element).hold st first stride length array count next)
      first stride length array count next := by
  constructor <;> simp [RangeSlots.hold, RangeSlots.from, Store.setLocal]

lemma sameBelow_hold {slot k : Nat} (element : NumKind) (hk : k ≤ slot) :
    st.SameBelow k
      ((RangeSlots.from slot element).hold st first stride length array count next) := by
  unfold RangeSlots.hold RangeSlots.from
  refine ((((((Store.SameBelow.refl k st).setLocal ?_ _).setLocal ?_ _).setLocal ?_ _).setLocal
    ?_ _).setLocal ?_ _).setLocal ?_ _ <;> dsimp only <;> omega

end

/-! ### One round -/

/-- What the loop does in each round. -/
def rangeRound (s : RangeSlots) (label : Ir.Label) (element : NumKind) : Node :=
  .ifElse (.binary (.compare .lt .i32) (slotGet s.count) (slotGet s.length))
    (.block none
      [.arraySet element (slotGet s.array) (slotGet s.count) (convert (slotGet s.next) element),
        .localSet s.next.index (.binary (.arith .add .i32) (slotGet s.next) (slotGet s.stride)),
        .localSet s.count.index (.binary (.arith .add .i32) (slotGet s.count) (.i32 1)),
        .br label]
      .void)
    none

/-- An array that is being filled. -/
structure Filling (W : Type) where
  /-- The store when the bounds have been evaluated. -/
  base : Store Exact W
  /-- The first scratch slot. -/
  slot : Nat
  /-- The width of the elements. -/
  width : Width
  start : BitVec 32
  stop : BitVec 32
  step : BitVec 32

namespace Filling

variable {W : Type} (f : Filling W)

def slots : RangeSlots := .from f.slot (.int f.width)

/-- The number of elements. -/
def count : Nat := rangeCount f.start.toInt f.stop.toInt f.step.toInt

/-- The number at a place. -/
def number (k : Nat) : Int := f.start.toInt + k * f.step.toInt

/-- The elements after some rounds; those that are not filled in are zero. -/
def elements (j : Nat) : List Exact :=
  (List.range f.count).map fun k => .ofInt f.width (if k < j then f.number k else 0)

/-- The store with these elements in the array and these numbers in the two counters. -/
def during (elements : List Exact) (count next : Int) : Store Exact W :=
  f.slots.hold { f.base with arrays := f.base.arrays ++ [elements] }
    (.num (.int .w32 f.start)) (.num (.int .w32 f.step)) (.num (.i32 f.count))
    (.array f.base.arrays.length) (.num (.i32 count)) (.num (.i32 next))

/-- The store after some rounds. -/
def state (j : Nat) : Store Exact W := f.during (f.elements j) j (f.number j)

lemma elements_zero : f.elements 0 = List.replicate f.count (.ofInt f.width 0) := by
  simp [elements]

lemma elements_succ (j : Nat) :
    (f.elements j).set j (.ofInt f.width (f.number j)) = f.elements (j + 1) := by
  refine List.ext_getElem (by simp [elements]) fun k hk _ => ?_
  rw [List.getElem_set]
  simp only [elements, List.getElem_map, List.getElem_range]
  split
  · next h =>
    subst h
    rw [if_pos (Nat.lt_succ_self _)]
  · next h =>
    have hiff : k < j + 1 ↔ k < j := by omega
    simp only [hiff]

lemma number_succ (j : Nat) : f.number (j + 1) = f.number j + f.step.toInt := by
  simp only [number]
  push_cast
  ring

variable {f}

/-- No element is out of the range of an `i32`. -/
lemma number_inI32 (hstep : f.step.toInt ≠ 0) {k : Nat} (hk : k < f.count) :
    InI32 (f.number k) := by
  obtain ⟨hlo, hhi⟩ := range_element_between hstep hk
  have hstart := inI32_toInt f.start
  have hstop := inI32_toInt f.stop
  unfold InI32 at *
  unfold number
  omega

section

variable {elements : List Exact} {count next : Int}

lemma holds_during :
    f.slots.Holds (f.during elements count next) (.num (.int .w32 f.start))
      (.num (.int .w32 f.step)) (.num (.i32 f.count)) (.array f.base.arrays.length)
      (.num (.i32 count)) (.num (.i32 next)) :=
  holds_hold _ _

lemma during_setNext (v : Int) :
    (f.during elements count next).setLocal f.slots.next.index (.num (.i32 v)) =
      f.during elements count v :=
  hold_setNext _

lemma during_setCount (v : Int) :
    (f.during elements count next).setLocal f.slots.count.index (.num (.i32 v)) =
      f.during elements v next :=
  hold_setCount (by simp [slots, RangeSlots.from]) _

/-- Setting an element that the array has. -/
lemma setElement?_during {k : Nat} (hk : k < elements.length) (x : Exact) :
    (f.during elements count next).setElement? f.base.arrays.length k x =
      some (f.during (elements.set k x) count next) := by
  have harrays : (f.during elements count next).arrays = f.base.arrays ++ [elements] := rfl
  simp [Store.setElement?, harrays, hk]
  rfl

end

variable (float : (w : Width) → BitVec w.bits → ℚ)
  (call : String → List (Value Exact) → Shared Exact W →
    Option (Option (Value Exact) × Shared Exact W)) (fuel : Nat)

/-- The test of a round says whether there are elements left. -/
lemma returns_test {j : Nat} (hj : j ≤ f.count) :
    Returns ((Node.binary (.compare .lt .i32) (slotGet f.slots.count) (slotGet f.slots.length)).eval
      (exactMachine float call) fuel) (f.state j)
      (some (.num (.i32 (if j < f.count then 1 else 0)))) (f.state j) := by
  have hholds : f.slots.Holds (f.state j) _ _ _ _ _ _ := holds_during
  have hcompare := exact_compare float call (inI32_of_le_rangeCount hj)
    (inI32_of_le_rangeCount (le_refl f.count)) .lt
  refine returns_evalBinary (returns_localGet hholds.count) (returns_localGet hholds.length) ?_
  rw [hcompare]
  simp [Ir.Comparison.holds]

/-- The next element in the width of the array. -/
lemma returns_element (hstep : f.step.toInt ≠ 0) {j : Nat} (hj : j < f.count) :
    Returns ((convert (slotGet f.slots.next) (.int f.width)).eval (exactMachine float call) fuel)
      (f.state j) (some (.num (.ofInt f.width (f.number j)))) (f.state j) := by
  have hnext : Returns ((slotGet f.slots.next).eval (exactMachine float call) fuel) (f.state j)
      (some (.num (.i32 (f.number j)))) (f.state j) :=
    returns_localGet holds_during.next
  have hty : (slotGet f.slots.next).ty = .num .i32 := rfl
  cases hw : f.width with
  | w32 => rwa [convert_self hty]
  | w64 =>
    rw [convert_unary hty (rfl : Ir.UnaryOp.conversion? .i32 .i64 = some .extend)]
    refine returns_evalUnary hnext ?_
    have hextend : ((Exact.i32 (f.number j)).bits .w32).signExtend 64 =
        BitVec.ofInt 64 (f.number j) := by
      rw [Exact.bits_ofInt]
      exact congrArg (BitVec.ofInt 64) ((number_inI32 hstep hj).toInt_ofInt .w32)
    exact congrArg (fun v => some (Exact.int .w64 v)) hextend

lemma returns_moveNext (elements : List Exact) (count next : Int) :
    Returns ((Node.localSet f.slots.next.index
      (.binary (.arith .add .i32) (slotGet f.slots.next) (slotGet f.slots.stride))).eval
      (exactMachine float call) fuel) (f.during elements count next) none
      (f.during elements count (next + f.step.toInt)) := by
  have hnext : Returns ((slotGet f.slots.next).eval (exactMachine float call) fuel)
      (f.during elements count next) (some (.num (.i32 next))) (f.during elements count next) :=
    returns_localGet holds_during.next
  have hstride : Returns ((slotGet f.slots.stride).eval (exactMachine float call) fuel)
      (f.during elements count next) (some (.num (.i32 f.step.toInt)))
      (f.during elements count next) := by
    rw [← Exact.int_eq_i32]
    exact returns_localGet holds_during.stride
  have hset := returns_localSet (i := f.slots.next.index)
    (returns_evalBinary hnext hstride (exact_add float call next f.step.toInt))
  rwa [during_setNext] at hset

lemma returns_moveCount (elements : List Exact) (count next : Int) :
    Returns ((Node.localSet f.slots.count.index
      (.binary (.arith .add .i32) (slotGet f.slots.count) (.i32 1))).eval
      (exactMachine float call) fuel) (f.during elements count next) none
      (f.during elements (count + 1) next) := by
  have hcount : Returns ((slotGet f.slots.count).eval (exactMachine float call) fuel)
      (f.during elements count next) (some (.num (.i32 count))) (f.during elements count next) :=
    returns_localGet holds_during.count
  have hone := returns_exact_i32 float call fuel (f.during elements count next) 1
  have hset := returns_localSet (i := f.slots.count.index)
    (returns_evalBinary hcount hone (exact_add float call count 1))
  rwa [during_setCount] at hset

/-- **A round** stores one element, in bounds, and starts the loop again. -/
lemma stops_round (hstep : f.step.toInt ≠ 0) {j : Nat} (hj : j < f.count) (label : Ir.Label) :
    Stops ((rangeRound f.slots label (.int f.width)).eval (exactMachine float call) fuel)
      (f.state j) (.jump label) (f.state (j + 1)) := by
  have htest := f.returns_test float call fuel hj.le
  rw [if_pos hj] at htest
  refine stops_ifElse_then htest rfl ?_
  have hset : Returns ((Node.arraySet (.int f.width) (slotGet f.slots.array) (slotGet f.slots.count)
      (convert (slotGet f.slots.next) (.int f.width))).eval (exactMachine float call) fuel)
      (f.state j) none (f.during (f.elements (j + 1)) j (f.number j)) := by
    refine returns_arraySet (returns_localGet holds_during.array)
      (returns_localGet holds_during.count) (f.returns_element float call fuel hstep hj) ?_
    rw [exact_toNat float call (inI32_of_le_rangeCount hj.le), ← elements_succ]
    exact setElement?_during (by simpa [elements] using hj) _
  have hnext := f.returns_moveNext float call fuel (f.elements (j + 1)) j (f.number j)
  rw [← number_succ] at hnext
  have hcount := f.returns_moveCount float call fuel (f.elements (j + 1)) j (f.number (j + 1))
  rw [← Nat.cast_add_one] at hcount
  exact Stops.bind_right hset (Stops.bind_right hnext (Stops.bind_right hcount rfl))

/-- The round after the last element ends the loop. -/
lemma returns_lastRound (label : Ir.Label) :
    Returns ((rangeRound f.slots label (.int f.width)).eval (exactMachine float call) fuel)
      (f.state f.count) none (f.state f.count) := by
  have htest := f.returns_test float call fuel le_rfl
  rw [if_neg (lt_irrefl _)] at htest
  exact returns_ifElse_none htest rfl

/-- **The loop** fills in every element, if there are more rounds than elements. -/
lemma returns_rangeLoop (hstep : f.step.toInt ≠ 0) (label : Ir.Label) (hfuel : f.count < fuel) :
    Returns ((rangeLoop f.slots label (.int f.width)).eval (exactMachine float call) fuel)
      (f.state 0) none (f.state f.count) :=
  returns_loop (fun _ hj => stops_round float call fuel hstep hj label)
    (returns_lastRound float call fuel label) hfuel

end Filling

end Lowering

end AnnotatedWasm
