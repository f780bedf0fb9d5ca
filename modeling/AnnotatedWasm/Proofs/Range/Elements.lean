import AnnotatedWasm.Proofs.Lowering.Soundness
import AnnotatedWasm.Proofs.Range.Filling

/-!
The elements of `list(range(...))`.

The code evaluates its bounds, computes how many elements there are, makes an array of zeros and
fills it. Where floating-point numbers are exact, the array has the numbers of the range, each of
them one of an `i32`, and only a step of zero traps.
-/

namespace AnnotatedWasm.Lowering

open Ir (Node)
open Syntax (Expr)

/-- What the code of a range does before it fills the array. -/
def rangeSetup (s : RangeSlots) (element : NumKind) (start stop step : Node) : List Node :=
  [.localSet s.first.index start,
    .localSet s.stride.index step,
    .ifElse (.binary (.compare .eq .i32) (slotGet s.stride) (.i32 0)) .unreachable none,
    .localSet s.length.index (rangeLength s stop),
    .localSet s.length.index (.select
      (.binary (.compare .gt .i32) (slotGet s.length) (.i32 0)) (slotGet s.length) (.i32 0)),
    .localSet s.array.index (.arrayNew element (zero element) (slotGet s.length)),
    .localSet s.count.index (.i32 0),
    .localSet s.next.index (slotGet s.first)]

lemma rangeBlock_eq (s : RangeSlots) (label : Ir.Label) (element : NumKind)
    (start stop step : Node) :
    rangeBlock s label element start stop step =
      .block none (rangeSetup s element start stop step ++
        [.loop label (rangeRound s label element), slotGet s.array]) (.array element) := rfl

section

variable {W : Type} (float : (w : Width) → BitVec w.bits → ℚ)
  (call : String → List (Value Exact) → Shared Exact W →
    Option (Option (Value Exact) × Shared Exact W)) (fuel : Nat)
  {s : RangeSlots} {st st₁ st₂ st₃ : Store Exact W} {x y z : BitVec 32}

/-! ### The length -/

lemma towardZero_intCast (v : Int) : towardZero v = v := by
  unfold towardZero
  split
  · exact Int.floor_intCast v
  · exact Int.ceil_intCast v

/-- A whole number as a float. -/
lemma returns_convert_f64 {n : Node} (hty : n.ty = .num .i32)
    (h : Returns (n.eval (exactMachine float call) fuel) st (some (.num (.int .w32 x))) st₁) :
    Returns ((convert n .f64).eval (exactMachine float call) fuel) st
      (some (.num (.rational x.toInt))) st₁ := by
  rw [convert_unary hty (rfl : Ir.UnaryOp.conversion? .i32 .f64 = some (.convert .w32 .w64))]
  exact returns_evalUnary h
    (congrArg (fun v : BitVec 32 => some (Exact.rational v.toInt)) (Exact.bits_int .w32 x))

/-- The quotient is exact, and it saturates where it is made an integer. -/
lemma returns_rangeLength {stop : Node} (hty : stop.ty = .num .i32) (hs : s.first.ty = .i32)
    (hs' : s.stride.ty = .i32)
    (hstop : Returns (stop.eval (exactMachine float call) fuel) st (some (.num (.int .w32 y))) st₁)
    (hfirst : st₁.locals s.first.index = .num (.int .w32 x))
    (hstride : st₁.locals s.stride.index = .num (.int .w32 z)) :
    Returns ((rangeLength s stop).eval (exactMachine float call) fuel) st
      (some (.num (.i32 (saturate .w32 ⌈((y.toInt - x.toInt : Int) : ℚ) / z.toInt⌉)))) st₁ := by
  have hdistance := returns_evalBinary (o := .arith .sub .f64)
    (returns_convert_f64 float call fuel hty hstop)
    (returns_convert_f64 float call fuel (n := slotGet s.first) hs (returns_localGet hfirst)) rfl
  have hquotient := returns_evalBinary (o := .arith .div .f64) hdistance
    (returns_convert_f64 float call fuel (n := slotGet s.stride) hs' (returns_localGet hstride)) rfl
  refine returns_evalUnary (returns_evalUnary hquotient rfl) ?_
  have hvalue : towardZero (⌈((y.toInt : ℚ) - x.toInt) / z.toInt⌉ : Int) =
      ⌈((y.toInt - x.toInt : Int) : ℚ) / z.toInt⌉ := by
    rw [towardZero_intCast, Int.cast_sub]
  rw [← hvalue]
  rfl

lemma inI32_zero : InI32 0 := by
  unfold InI32
  omega

/-- A length below zero becomes zero. -/
lemma returns_clamp {v : Int} (hv : InI32 v) :
    Returns ((Node.localSet s.length.index
        (.select (.binary (.compare .gt .i32) (slotGet s.length) (.i32 0)) (slotGet s.length)
          (.i32 0))).eval (exactMachine float call) fuel)
      (st.setLocal s.length.index (.num (.i32 v))) none
      (st.setLocal s.length.index (.num (.i32 (max 0 v)))) := by
  let st' := st.setLocal s.length.index (.num (.i32 v))
  have hget : Returns ((slotGet s.length).eval (exactMachine float call) fuel) st'
      (some (.num (.i32 v))) st' := returns_localGet (Function.update_self _ _ _)
  have hzero := returns_exact_i32 float call fuel st' 0
  have htest := returns_evalBinary hget hzero
    (exact_compare float call hv inI32_zero .gt)
  have h := returns_localSet (i := s.length.index) (returns_select hget hzero htest)
  rw [Store.setLocal_setLocal] at h
  rcases lt_or_ge 0 v with hpos | hneg
  · have hholds : Ir.Comparison.holds .gt v 0 = true := decide_eq_true hpos
    rw [hholds] at h
    rwa [max_eq_right hpos.le]
  · have hholds : Ir.Comparison.holds .gt v 0 = false := decide_eq_false (by omega)
    rw [hholds] at h
    rwa [max_eq_left hneg]

lemma saturate_inI32 (v : Int) : InI32 (saturate .w32 v) := by
  have hbits : (2 ^ (Width.w32.bits - 1) : Int) = 2 ^ 31 := rfl
  unfold InI32 saturate
  rw [hbits]
  omega

/-! ### The whole code -/

/-- The store with the start and the step in their slots. -/
def RangeSlots.holdBounds (s : RangeSlots) (st : Store Exact W) (x z : BitVec 32) : Store Exact W :=
  (st.setLocal s.first.index (.num (.int .w32 x))).setLocal s.stride.index (.num (.int .w32 z))

/-- The store when the length is known. -/
def Filling.sized (f : Filling W) : Store Exact W :=
  (f.slots.holdBounds f.base f.start f.step).setLocal f.slots.length.index (.num (.i32 f.count))

/-- An array of zeros is made, and the counters are set. -/
lemma Filling.returns_begin (f : Filling W) :
    Returns (Node.evalAll (exactMachine float call) fuel
      [.localSet f.slots.array.index
          (.arrayNew (.int f.width) (zero (.int f.width)) (slotGet f.slots.length)),
        .localSet f.slots.count.index (.i32 0),
        .localSet f.slots.next.index (slotGet f.slots.first)]) f.sized none (f.state 0) := by
  have hzero : Returns ((zero (.int f.width)).eval (exactMachine float call) fuel) f.sized
      (some (.num (.ofInt f.width 0))) f.sized := rfl
  have hlength : Returns ((slotGet f.slots.length).eval (exactMachine float call) fuel) f.sized
      (some (.num (.i32 f.count))) f.sized := returns_localGet (Function.update_self _ _ _)
  have hnew := returns_localSet (i := f.slots.array.index)
    (returns_arrayNew (k := .int f.width) hzero hlength)
  have hcount : (exactMachine float call).toNat (.i32 f.count) = f.count :=
    exact_toNat float call (inI32_of_le_rangeCount le_rfl)
  rw [hcount, ← f.elements_zero] at hnew
  refine hnew.bind ((returns_localSet (returns_exact_i32 float call fuel _ 0)).bind ?_)
  have hnumber : f.number 0 = f.start.toInt := by simp [number]
  rw [state, hnumber, during, ← Exact.int_eq_i32]
  exact returns_localSet (returns_localGet (by
    simp [Store.setLocal, Store.addArray, sized, RangeSlots.holdBounds, slots, RangeSlots.from]))

section

variable {slot : Nat} {w : Width} {start stop step : Node}
  (hstart : Returns (start.eval (exactMachine float call) fuel) st (some (.num (.int .w32 x))) st₁)
  (hstep : Returns (step.eval (exactMachine float call) fuel) st₁ (some (.num (.int .w32 z))) st₂)
  (hstepNames : step.NamesBelow slot)

include hstep hstepNames in
/-- The step is evaluated with the start in a slot that it does not name. -/
lemma returns_setStride (k : NumKind) :
    Returns ((Node.localSet (RangeSlots.from slot k).stride.index step).eval
      (exactMachine float call) fuel)
      (st₁.setLocal (RangeSlots.from slot k).first.index (.num (.int .w32 x))) none
      ((RangeSlots.from slot k).holdBounds st₂ x z) := by
  have hcommutes : Run.Commutes _ (step.eval (exactMachine float call) fuel) :=
    hstepNames.commutes_setLocal (i := slot) le_rfl (.num (.int .w32 x))
  exact returns_localSet (hcommutes.returns hstep)

/-- The test whether the step is zero. -/
lemma returns_testStride (s : RangeSlots) (st : Store Exact W) (x z : BitVec 32) :
    Returns ((Node.binary (.compare .eq .i32) (slotGet s.stride) (.i32 0)).eval
      (exactMachine float call) fuel) (s.holdBounds st x z)
      (some (.num (.i32 (if z.toInt = 0 then 1 else 0)))) (s.holdBounds st x z) := by
  have hget : Returns ((slotGet s.stride).eval (exactMachine float call) fuel)
      (s.holdBounds st x z) (some (.num (.i32 z.toInt))) (s.holdBounds st x z) := by
    rw [← Exact.int_eq_i32]
    exact returns_localGet (Function.update_self _ _ _)
  refine returns_evalBinary hget (returns_exact_i32 float call fuel _ 0) ?_
  rw [exact_compare float call (inI32_toInt z) inI32_zero]
  simp [Ir.Comparison.holds]

include hstart hstep hstepNames in
/-- A step of zero traps. -/
lemma stops_rangeBlock (hzero : z.toInt = 0) (label : Ir.Label) :
    Stops ((rangeBlock (.from slot (.int w)) label (.int w) start stop step).eval
      (exactMachine float call) fuel) st .trapped
      ((RangeSlots.from slot (.int w)).holdBounds st₂ x z) := by
  have htest := returns_testStride float call fuel (.from slot (.int w)) st₂ x z
  rw [if_pos hzero] at htest
  have htrap := stops_ifElse_then (o := none) htest rfl (t := .unreachable) rfl
  exact Stops.bind_right (returns_localSet hstart)
    (Stops.bind_right (returns_setStride float call fuel hstep hstepNames _) htrap.bind_left)

variable (hstop : Returns (stop.eval (exactMachine float call) fuel) st₂
    (some (.num (.int .w32 y))) st₃)
  (hstopNames : stop.NamesBelow slot) (hty : stop.ty = .i32)

include hstop hstopNames hty in
/-- The length is computed with the start and the step in slots that the stop does not name. -/
lemma returns_setLength (k : NumKind) :
    Returns ((Node.localSet (RangeSlots.from slot k).length.index
        (rangeLength (.from slot k) stop)).eval (exactMachine float call) fuel)
      ((RangeSlots.from slot k).holdBounds st₂ x z) none
      (((RangeSlots.from slot k).holdBounds st₃ x z).setLocal (RangeSlots.from slot k).length.index
        (.num (.i32 (saturate .w32 ⌈((y.toInt - x.toInt : Int) : ℚ) / z.toInt⌉)))) := by
  have hfirst : Run.Commutes _ (stop.eval (exactMachine float call) fuel) :=
    hstopNames.commutes_setLocal (i := slot) le_rfl (.num (.int .w32 x))
  have hstride : Run.Commutes _ (stop.eval (exactMachine float call) fuel) :=
    hstopNames.commutes_setLocal (i := slot + 1) (Nat.le_succ slot) (.num (.int .w32 z))
  refine returns_localSet (returns_rangeLength float call fuel hty rfl rfl
    (hstride.returns (hfirst.returns hstop)) ?_ ?_)
  · simp [RangeSlots.holdBounds, Store.setLocal, RangeSlots.from]
  · simp [RangeSlots.holdBounds, Store.setLocal, RangeSlots.from]

include hstart hstep hstepNames hstop hstopNames hty in
/-- Before the first round the array has zeros only. -/
lemma returns_rangeSetup (hz : z.toInt ≠ 0) :
    Returns (Node.evalAll (exactMachine float call) fuel
      (rangeSetup (.from slot (.int w)) (.int w) start stop step)) st none
      ((⟨st₃, slot, w, x, y, z⟩ : Filling W).state 0) := by
  have htest := returns_testStride float call fuel (.from slot (.int w)) st₂ x z
  rw [if_neg hz] at htest
  refine (returns_localSet hstart).bind ?_
  refine (returns_setStride float call fuel hstep hstepNames (.int w)).bind ?_
  refine (returns_ifElse_none htest rfl).bind ?_
  refine (returns_setLength float call fuel hstop hstopNames hty (.int w)).bind ?_
  refine (returns_clamp float call fuel (saturate_inI32 _)).bind ?_
  rw [max_saturate]
  exact Filling.returns_begin float call fuel ⟨st₃, slot, w, x, y, z⟩

include hstart hstep hstepNames hstop hstopNames hty in
/-- The code leaves the filled array, and its number is the value. -/
lemma returns_rangeBlock (hz : z.toInt ≠ 0) (label : Ir.Label)
    (hfuel : rangeCount x.toInt y.toInt z.toInt < fuel) :
    Returns ((rangeBlock (.from slot (.int w)) label (.int w) start stop step).eval
      (exactMachine float call) fuel) st (some (.array st₃.arrays.length))
      ((⟨st₃, slot, w, x, y, z⟩ : Filling W).state (rangeCount x.toInt y.toInt z.toInt)) := by
  have hsetup := returns_rangeSetup (w := w) float call fuel hstart hstep hstepNames hstop
    hstopNames hty hz
  have hloop := Filling.returns_rangeLoop (f := ⟨st₃, slot, w, x, y, z⟩) float call fuel hz label
    hfuel
  exact returns_evalAll_append hsetup (hloop.bind (returns_localGet Filling.holds_during.array))

end

end

/-! ### Ranges of a program -/

/-- The loop of a range leads through these stores. Each round but the last puts one number at its
place in the array, which has room for it, and starts the loop again; the counters hold the numbers
that they stand for. -/
structure FillsInOrder {W : Type} (M : Machine Exact W) (fuel : Nat) (s : RangeSlots)
    (label : Ir.Label) (w : Width) (ref : Nat) (start step : Int) (length : Nat)
    (T : Nat → Store Exact W) : Prop where
  count : ∀ j ≤ length, ∃ v : BitVec 32,
    (T j).locals s.count.index = .num (.int .w32 v) ∧ v.toInt = j
  next : ∀ j < length, ∃ v : BitVec 32,
    (T j).locals s.next.index = .num (.int .w32 v) ∧ v.toInt = start + j * step
  store : ∀ j < length, ∃ v : BitVec w.bits, v.toInt = start + j * step ∧
    ((T j).setElement? ref j (.int w v)).map (·.arrays) = some (T (j + 1)).arrays
  round : ∀ j < length,
    Stops ((rangeRound s label (.int w)).eval M fuel) (T j) (.jump label) (T (j + 1))
  last : Returns ((rangeRound s label (.int w)).eval M fuel) (T length) none (T length)

namespace Filling

variable {W : Type} {f : Filling W}

lemma toInt_number (hstep : f.step.toInt ≠ 0) {k : Nat} (hk : k < f.count) (w : Width) :
    (BitVec.ofInt w.bits (f.number k)).toInt = f.start.toInt + k * f.step.toInt :=
  (number_inI32 hstep hk).toInt_ofInt w

lemma fillsInOrder (hstep : f.step.toInt ≠ 0) (float : (w : Width) → BitVec w.bits → ℚ)
    (call : String → List (Value Exact) → Shared Exact W →
      Option (Option (Value Exact) × Shared Exact W)) (fuel : Nat) (label : Ir.Label) :
    FillsInOrder (exactMachine float call) fuel f.slots label f.width f.base.arrays.length
      f.start.toInt f.step.toInt f.count f.state where
  count j hj := ⟨_, holds_during.count, (inI32_of_le_rangeCount hj).toInt_ofInt .w32⟩
  next j hj := ⟨_, holds_during.next, toInt_number hstep hj .w32⟩
  store j hj := by
    refine ⟨_, toInt_number hstep hj f.width, ?_⟩
    have hlen : j < (f.elements j).length := by simpa [elements] using hj
    rw [state, ← Exact.ofInt, setElement?_during hlen, elements_succ]
    rfl
  round j hj := stops_round float call fuel hstep hj label
  last := returns_lastRound float call fuel label

lemma length_elements (j : Nat) : (f.elements j).length = f.count := by simp [elements]

/-- The array in the end. -/
lemma getElem?_elements (hstep : f.step.toInt ≠ 0) {k : Nat} (hk : k < f.count) :
    ∃ v : BitVec f.width.bits, (f.elements f.count)[k]? = some (.int f.width v) ∧
      v.toInt = f.start.toInt + k * f.step.toInt := by
  refine ⟨_, ?_, toInt_number hstep hk f.width⟩
  simp [elements, hk, Exact.ofInt]

end Filling

lemma returns_lowerExpr_range {env : Env} (hlist : env.signatures.get? "list" = none)
    {hint : Option Ty} {span s s₁ s₂ : Span} {bounds : List Expr} {b b' : Body} {n : Node}
    (h : Returns (lowerExpr env hint
      (.call span (.name s "list") [.call s₁ (.name s₂ "range") bounds []] [])) b n b') :
    ∃ k ns b₁, hint = some (.array k) ∧ Returns (lowerEach env .i32 bounds) b ns b₁ ∧
      Returns (rangeOf k ns span) b₁ n b' := by
  rw [lowerExpr.eq_def] at h
  simp only [Returns.bind_iff] at h
  obtain ⟨name, b₁, hname, h⟩ := h
  obtain ⟨-, ⟨_, hfunc⟩, rfl⟩ := returns_calleeName hname
  cases hfunc
  rw [hlist] at h
  simp only [Returns.bind_iff, returns_requireArrays] at h
  obtain ⟨_, _, ⟨-, rfl⟩, k, b₂, hk, ns, b₃, hns, h⟩ := h
  obtain ⟨rfl, rfl⟩ := returns_hintedElement hk
  exact ⟨k, ns, b₃, rfl, hns, h⟩

/-- **A range has the numbers that it should.** The code of `list(range(...))` with integer elements
evaluates the start, the step and the stop. It traps if the step is zero. Otherwise it makes an
array as long as the range has numbers, puts the number `start + k * step` at place `k` in round `k`
of its loop, with no store out of bounds and no counter out of range where it is used, and gives the
array; besides the array and the slots made for the code, the store is as the bounds leave it.
Floats are exact here, and a run has more rounds than the range has numbers. -/
theorem lower_range_elements (env : Env) (hlist : env.signatures.get? "list" = none) (b : Body)
    (hb : b.Sound env) (w : Width) (span s s₁ s₂ : Span) (bounds : List Expr) (n : Node) (b' : Body)
    (h : Returns (lowerExpr env (some (.array (.int w)))
      (.call span (.name s "list") [.call s₁ (.name s₂ "range") bounds []] [])) b n b') :
    ∃ ns b₁ start stop step setup, Returns (lowerEach env .i32 bounds) b ns b₁ ∧
      RangeBounds ns start stop step ∧
      let slots := RangeSlots.from b₁.frame.nextIndex (.int w)
      let label := rangeLabel b₁.session.nextLabel
      n = .block none
        (setup ++ [.loop label (rangeRound slots label (.int w)), slotGet slots.array])
        (.array (.int w)) ∧
      ∀ (W : Type) (float : (w : Width) → BitVec w.bits → ℚ)
        (call : String → List (Value Exact) → Shared Exact W →
          Option (Option (Value Exact) × Shared Exact W))
        (fuel : Nat) (st st₁ st₂ : Store Exact W) (x z : BitVec 32),
        let M := exactMachine float call
        Returns (start.eval M fuel) st (some (.num (.int .w32 x))) st₁ →
        Returns (step.eval M fuel) st₁ (some (.num (.int .w32 z))) st₂ →
        (z.toInt = 0 → Fails (n.eval M fuel) st .trapped) ∧
        ∀ (st₃ : Store Exact W) (y : BitVec 32), z.toInt ≠ 0 →
          Returns (stop.eval M fuel) st₂ (some (.num (.int .w32 y))) st₃ →
          let length := rangeCount x.toInt y.toInt z.toInt
          (∀ k : Nat, k < length ↔ (k : Int) < 2 ^ 31 - 1 ∧
            if 0 < z.toInt then x.toInt + k * z.toInt < y.toInt
            else y.toInt < x.toInt + k * z.toInt) ∧
          (∃ T, Returns (Node.evalAll M fuel setup) st none (T 0) ∧
            FillsInOrder M fuel slots label w st₃.arrays.length x.toInt z.toInt length T) ∧
          (length < fuel → ∃ elems st',
            Returns (n.eval M fuel) st (some (.array st₃.arrays.length)) st' ∧
            elems.length = length ∧
            (∀ k < length, ∃ v : BitVec w.bits, elems[k]? = some (.int w v) ∧
              v.toInt = x.toInt + k * z.toInt) ∧
            Store.SameBelow b₁.frame.nextIndex
              { st₃ with arrays := st₃.arrays ++ [elems] } st') := by
  obtain ⟨_, ns, b₁, hk, hns, hrange⟩ := returns_lowerExpr_range hlist h
  cases hk
  obtain ⟨start, stop, step, hbounds, rfl, -⟩ := returns_rangeOf hrange
  have heach := (lowers_of_returns env).2.1 _ _ _ _ _ hns
  have hfits : ∀ v ∈ [start, stop, step], v.NamesBelow b₁.frame.nextIndex ∧ v.ty = .i32 := by
    intro v hv
    rcases hbounds.mem hv with hv | ⟨i, rfl⟩
    · exact ⟨namesBelow_of_typed (heach.typed hb v hv), heach.types v hv⟩
    · have htyped : (Node.i32 i).Typed (b₁.scope env) := typed_i32 i
      exact ⟨namesBelow_of_typed htyped, ty_i32 i⟩
  have hstepNames := (hfits step (by simp)).1
  obtain ⟨hstopNames, hstopTy⟩ := hfits stop (by simp)
  refine ⟨ns, b₁, start, stop, step, _, hns, hbounds, rangeBlock_eq _ _ _ _ _ _, ?_⟩
  intro W float call fuel st st₁ st₂ x z M hstart hstep
  refine ⟨fun hzero => ⟨_, stops_rangeBlock float call fuel hstart hstep hstepNames hzero _⟩, ?_⟩
  intro st₃ y hz hstop
  let f : Filling W := ⟨st₃, b₁.frame.nextIndex, w, x, y, z⟩
  refine ⟨lt_rangeCount_iff hz, ⟨f.state, ?_, f.fillsInOrder hz float call fuel _⟩, fun hfuel => ?_⟩
  · exact returns_rangeSetup float call fuel hstart hstep hstepNames hstop hstopNames hstopTy hz
  · refine ⟨f.elements f.count, _, returns_rangeBlock float call fuel hstart hstep hstepNames hstop
      hstopNames hstopTy hz _ hfuel, f.length_elements _, fun k hk => f.getElem?_elements hz hk, ?_⟩
    exact sameBelow_hold (.int w) le_rfl

/-! `list(range(x, y, z))` as an array of `i64`. -/

def countdownEnv : Env where
  options := { gc := true }
  signatures := {}

def countdownState : Body :=
  ⟨{}, .start "f" [("x", .i32), ("y", .i32), ("z", .i32)] (.array .i64)⟩

def countdownBounds : List Expr := ["x", "y", "z"].map (.name ⟨0, 0⟩)

def countdown : Expr :=
  .call ⟨0, 0⟩ (.name ⟨0, 0⟩ "list") [.call ⟨0, 0⟩ (.name ⟨0, 0⟩ "range") countdownBounds []] []

def countdownMachine : Machine Exact Unit := exactMachine (fun _ _ => 0) fun _ _ _ => none

/-- From five to minus eight. -/
def countdownStore (step : Int) : Store Exact Unit where
  globals _ := .num (.i32 0)
  arrays := []
  world := ()
  locals i := .num (.i32 (if i = 0 then 5 else if i = 1 then -8 else step))

theorem lower_range_elements_countdown : ∃ n b',
    Returns (lowerExpr countdownEnv (some (.array .i64)) countdown) countdownState n b' ∧
    countdownState.Sound countdownEnv ∧ countdownEnv.signatures.get? "list" = none ∧
    Fails (n.eval countdownMachine 5) (countdownStore 0) .trapped ∧
    ∃ elems st', Returns (n.eval countdownMachine 5) (countdownStore (-4)) (some (.array 0)) st' ∧
      elems.length = 4 ∧ st'.arrays = [elems] ∧
      ∀ k : Nat, k < 4 →
        ∃ v : BitVec 64, elems[k]? = some (.int .w64 v) ∧ v.toInt = 5 + k * (-4) := by
  have hsome : ((lowerExpr countdownEnv (some (.array .i64)) countdown).run.run
      countdownState).1.toOption.isSome := by decide +kernel
  obtain ⟨n, hn⟩ := Option.isSome_iff_exists.mp hsome
  have h := Returns.of_toOption hn
  have hsound : countdownState.Sound countdownEnv :=
    sound_start ⟨by simp, fun name g h => by cases h⟩ _ _ _
  have hlist : countdownEnv.signatures.get? "list" = none := rfl
  obtain ⟨ns, b₁, start, stop, step, setup, hns, hbounds, -, hruns⟩ :=
    lower_range_elements countdownEnv hlist countdownState hsound .w64 _ _ _ _ _ n _ h
  have hns' : Returns (lowerEach countdownEnv .i32 countdownBounds) countdownState
      [.localGet 0 .i32, .localGet 1 .i32, .localGet 2 .i32] countdownState := rfl
  cases hns.symm.trans hns'
  cases hbounds
  have hcount : rangeCount 5 (-8) (-4) = 4 := by decide +kernel
  obtain ⟨htrap, -⟩ := hruns Unit (fun _ _ => 0) (fun _ _ _ => none) 5 (countdownStore 0) _ _ 5 0
    rfl rfl
  obtain ⟨-, hmakes⟩ := hruns Unit (fun _ _ => 0) (fun _ _ _ => none) 5 (countdownStore (-4)) _ _ 5
    (-4) rfl rfl
  obtain ⟨-, -, hmakes⟩ := hmakes _ (-8) (by decide) rfl
  obtain ⟨elems, st', hret, hlen, helems, hsame⟩ := hmakes (by decide +kernel)
  refine ⟨n, _, h, hsound, hlist, htrap rfl, elems, st', hret, hlen.trans hcount, ?_, ?_⟩
  · exact congrArg Shared.arrays hsame.shared
  · intro k hk
    exact helems k (hk.trans_eq hcount.symm)

end AnnotatedWasm.Lowering
