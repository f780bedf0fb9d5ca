import AnnotatedWasm.Proofs.Ir.Machine
import AnnotatedWasm.Proofs.Ir.Running
import AnnotatedWasm.Proofs.Lowering.Steps
import AnnotatedWasm.Proofs.Number.Rounding

/-!
Which conversions between the numeric kinds keep a number, and which of them are reported.

A value of another kind than the wanted one is converted, and it is reported whether this narrows.
What is not said to narrow gives the same number, with one exception: an integer made a float of its
own width is rounded if it has more bits than the mantissa (`coerce_keeps_number`).
-/

namespace AnnotatedWasm

open Ir (Node)
open Ieee (Denoted FitsMantissa IsNearest representable)

/-! ### Numbers of literals -/

/-- What a literal stands for. -/
def Literal.denoted : Literal → Denoted
  | .int _ v => .number v.toInt
  | .float w bits => (Ieee.value w bits).denoted

/-- The floating-point instructions of which the conversions are those of the bit patterns: an
integer goes to the nearest float, a float to the nearest one of the other width, and its integer
part to an integer. -/
def Floats.converting (rest : Floats) : Floats where
  unary
    | .convert s t, x => .float t (Ieee.ofInt t (x.toBits s).toInt)
    | .promote, x => .float .w64 (Ieee.ofValue .w64 (Ieee.value .w32 (x.toBits .w32)))
    | .demote, x => .float .w32 (Ieee.ofValue .w32 (Ieee.value .w64 (x.toBits .w64)))
    | .truncate s t, x => .int t ((Ieee.value s (x.toBits s)).toInt t)
    | op, x => rest.unary op x
  binary := rest.binary

@[simp] lemma toBits_float (w : Width) (v : BitVec w.bits) : (Literal.float w v).toBits w = v :=
  BitVec.setWidth_eq v

lemma natAbs_toInt_lt {w : Width} (v : BitVec w.bits) : v.toInt.natAbs < 2 ^ w.bits := by
  have hlow := BitVec.two_mul_toInt_lt (x := v)
  have hhigh := BitVec.le_two_mul_toInt (x := v)
  have hpow : ((2 ^ w.bits : Nat) : Int) = 2 ^ w.bits := by push_cast; rfl
  have hpos := Nat.two_pow_pos w.bits
  omega

/-- A literal of one kind as one of another: it stands for the same, unless it is an integer made a
float of its own width that the mantissa has no room for. An integer goes to the nearest float. -/
structure Converted (t : NumKind) (x y : Literal) : Prop where
  kind : y.kind = t
  same_iff : y.denoted = x.denoted ↔
    ∀ w v, x = .int w v → t = .float w → FitsMantissa w v.toInt
  nearest : ∀ v z w, x = .int v z → t = .float w → ∃ bits q, y = .float w bits ∧
    y.denoted = .number q ∧ IsNearest (representable w) (Ieee.magnitude w bits % 2 = 0) z.toInt q

namespace Converted

lemma self (x : Literal) : Converted x.kind x x where
  kind := rfl
  same_iff := iff_of_true rfl fun w v hx ht => by simp [hx, Literal.kind] at ht
  nearest v z w hx ht := by simp [hx, Literal.kind] at ht

lemma extend {v w : Width} (z : BitVec v.bits) (h : v.bits ≤ w.bits) :
    Converted (.int w) (.int v z) (.int w (.ofInt _ z.toInt)) where
  kind := rfl
  same_iff := by
    have hvalue : (BitVec.ofInt w.bits z.toInt).toInt = z.toInt :=
      Word.value_ofInt_value (x := ⟨v, z⟩) h
    exact iff_of_true (by rw [Literal.denoted, hvalue, Literal.denoted])
      fun _ _ _ ht => NumKind.noConfusion ht
  nearest _ _ _ _ ht := NumKind.noConfusion ht

/-- The mantissa of the wide format has room for the narrow integers. -/
lemma convert {v w : Width} (z : BitVec v.bits) (h : v.bits ≤ w.bits) :
    Converted (.float w) (.int v z) (.float w (Ieee.ofInt w z.toInt)) where
  kind := rfl
  same_iff := by
    have hlt := natAbs_toInt_lt z
    have hexact := (Ieee.ofInt_exact_iff (w := w) (n := z.toInt)
      (hlt.trans_le (Nat.pow_le_pow_right two_pos (by cases v <;> decide)))).trans
      (Ieee.intCast_mem_representable _)
    refine hexact.trans ⟨fun hfits w' v' hx ht => ?_, fun hfits => ?_⟩
    · cases hx
      cases ht
      exact hfits
    · by_cases hvw : v = w
      · subst hvw
        exact hfits v z rfl rfl
      · refine ⟨z.toInt.natAbs, 0, hlt.trans_le (Nat.pow_le_pow_right two_pos ?_), by simp⟩
        cases v <;> cases w <;> first | decide | exact absurd rfl hvw | exact absurd h (by decide)
  nearest v' z' w' hx ht := by
    cases hx
    cases ht
    obtain ⟨q, hq, hnear⟩ := Ieee.ofInt_nearest (w := w) (n := z.toInt)
      ((natAbs_toInt_lt z).trans_le (Nat.pow_le_pow_right two_pos (by cases v <;> decide)))
    exact ⟨_, q, rfl, hq, hnear⟩

lemma promote (bits : BitVec Width.w32.bits) :
    Converted .f64 (.float .w32 bits) (.float .w64 (Ieee.ofValue .w64 (Ieee.value .w32 bits))) where
  kind := rfl
  same_iff := iff_of_true (Ieee.ofValue_exact bits) fun _ _ hx => Literal.noConfusion hx
  nearest _ _ _ hx := Literal.noConfusion hx

end Converted

lemma NumKind.narrowsTo_eq_false_iff {s t : NumKind} :
    s.narrowsTo t = false ↔ (s.isFloat → t.isFloat) ∧ s.width.bits ≤ t.width.bits := by
  rcases s with ⟨_ | _⟩ | ⟨_ | _⟩ <;> rcases t with ⟨_ | _⟩ | ⟨_ | _⟩ <;> decide

/-- The instructions for conversions that do not narrow. -/
lemma unary_converting {W : Type} (rest : Floats) (call : Callees W) {t : NumKind} {op : Ir.UnaryOp}
    {x : Literal} (hflag : x.kind.narrowsTo t = false)
    (hop : Ir.UnaryOp.conversion? x.kind t = some op) :
    ∃ y, (machine rest.converting call).unary op x = some y ∧ Converted t x y := by
  obtain ⟨hfloat, hbits⟩ := NumKind.narrowsTo_eq_false_iff.1 hflag
  cases x with
  | int v z =>
    cases t with
    | int w => exact ⟨_, unary_conversion (x := ⟨v, z⟩) hop, .extend z hbits⟩
    | float w =>
      obtain rfl : .convert v w = op := by cases v <;> cases w <;> exact Option.some.inj hop
      refine ⟨_, ?_, .convert z hbits⟩
      simp [machine, Floats.converting]
  | float v bits =>
    cases t with
    | int w => exact absurd (hfloat rfl) Bool.false_ne_true
    | float w =>
      cases v <;> cases w
      · cases hop
      · cases hop
        refine ⟨_, ?_, .promote bits⟩
        have hbits : (Literal.float .w32 bits).toBits .w32 = bits := toBits_float _ bits
        simp only [machine, Floats.converting, hbits]
      · exact absurd hbits (show ¬ 64 ≤ 32 by decide)
      · cases hop

/-! ### What is reported -/

namespace Lowering

/-- What is reported when a number is brought to a kind. -/
def conversionEvents (s t : NumKind) (span : Span) : List Event :=
  if s = t then [] else if s.narrowsTo t then [.narrowed s t span] else [.widened s t]

lemma narrowed_mem_conversionEvents {s t : NumKind} {span : Span} :
    Event.narrowed s t span ∈ conversionEvents s t span ↔ s.narrowsTo t = true := by
  rcases s with ⟨_ | _⟩ | ⟨_ | _⟩ <;> rcases t with ⟨_ | _⟩ | ⟨_ | _⟩ <;>
    simp [conversionEvents, NumKind.narrowsTo, NumKind.isFloat, NumKind.isWide, NumKind.width]

/-- A number is brought to any kind. -/
lemma returns_coerce_num {n : Node} {s : NumKind} (h : n.ty = .num s) (t : NumKind) (span : Span)
    (b : Body) : Returns (coerce n (.num t) span) b (convert n t)
      (b.grow [] 0 (conversionEvents s t span)) := by
  by_cases hst : s = t
  · subst hst
    simp [coerce, h, convert_self h, conversionEvents, Body.grow]
  · have hne : Ty.num s ≠ .num t := fun heq => hst (Ty.num.inj heq)
    simp only [coerce, h, if_neg hne, conversionEvents, if_neg hst]
    split <;> simp

/-- **Conversions**: a number is brought to the wanted kind, and it is reported whether this
narrows. If it does not, the number is the same, unless an integer becomes a float of its own width
and has more bits than the mantissa; then it is rounded to the nearest float. -/
theorem coerce_keeps_number (s t : NumKind) (n : Node) (hn : n.ty = .num s) (span : Span)
    (b : Body) :
    Returns (coerce n (.num t) span) b (convert n t) (b.grow [] 0 (conversionEvents s t span)) ∧
    (.narrowed s t span ∈ conversionEvents s t span ↔ s.narrowsTo t = true) ∧
    (s.narrowsTo t = false → ∀ (W : Type) (rest : Floats) (call : Callees W) (fuel : Nat)
      (st st' : Store Literal W) (x : Literal), x.kind = s →
      Returns (n.eval (machine rest.converting call) fuel) st (some (.num x)) st' →
      ∃ y, Returns ((convert n t).eval (machine rest.converting call) fuel) st
          (some (.num y)) st' ∧ Converted t x y) := by
  refine ⟨returns_coerce_num hn t span b, narrowed_mem_conversionEvents, ?_⟩
  rintro hflag W rest call fuel st st' x rfl hx
  rcases hop : Ir.UnaryOp.conversion? x.kind t with _ | op
  · obtain rfl := (Ir.UnaryOp.conversion?_eq_none_iff _ _).1 hop
    exact ⟨x, by rwa [convert_self hn], .self x⟩
  · obtain ⟨y, hy, hconverted⟩ := unary_converting rest call hflag hop
    refine ⟨y, ?_, hconverted⟩
    rw [convert_unary hn hop]
    exact returns_evalUnary hx hy

/-- An integer beyond `2 ^ 53` that ends in a zero bit is the same number as a float. -/
theorem coerce_keeps_number_even :
    Returns (coerce (.const (.i64 (-9007199254740994))) (.num .f64) ⟨0, 0⟩)
      ⟨{}, .start "f" [] .void⟩ (.unary (.convert .w64 .w64) (.const (.i64 (-9007199254740994))))
      ⟨{ log := [.widened .i64 .f64] }, .start "f" [] .void⟩ ∧
    ∀ (W : Type) (rest : Floats) (call : Callees W) (fuel : Nat) (st : Store Literal W),
      ∃ y, Returns ((Node.unary (.convert .w64 .w64) (.const (.i64 (-9007199254740994)))).eval
          (machine rest.converting call) fuel) st (some (.num y)) st ∧
        y.kind = .f64 ∧ y.denoted = .number (-9007199254740994) := by
  obtain ⟨hreturns, -, hkeeps⟩ := coerce_keeps_number .i64 .f64 (.const (.i64 (-9007199254740994)))
    rfl ⟨0, 0⟩ ⟨{}, .start "f" [] .void⟩
  refine ⟨hreturns, fun W rest call fuel st => ?_⟩
  obtain ⟨y, hy, hconverted⟩ := hkeeps rfl W rest call fuel st st _ rfl rfl
  refine ⟨y, hy, hconverted.kind, (hconverted.same_iff.2 ?_).trans rfl⟩
  rintro w v hx ht
  cases hx
  exact ⟨4503599627370497, 1, by decide, by decide⟩

/-- The integer `2 ^ 24 + 1` becomes another number as a float, and this is not said to narrow. -/
theorem widened_loses_number :
    NumKind.narrowsTo .i32 .f32 = false ∧
    Returns (coerce (.const (.i32 16777217)) (.num .f32) ⟨0, 0⟩) ⟨{}, .start "f" [] .void⟩
      (.unary (.convert .w32 .w32) (.const (.i32 16777217)))
      ⟨{ log := [.widened .i32 .f32] }, .start "f" [] .void⟩ ∧
    (Literal.i32 16777217).denoted = .number 16777217 ∧
    ∀ (W : Type) (rest : Floats) (call : Callees W) (fuel : Nat) (st : Store Literal W),
      ∃ y, Returns ((Node.unary (.convert .w32 .w32) (.const (.i32 16777217))).eval
          (machine rest.converting call) fuel) st (some (.num y)) st ∧
        y.denoted = .number 16777216 := by
  refine ⟨rfl, rfl, rfl, fun W rest call fuel st => ⟨_, rfl, ?_⟩⟩
  have hvalue : Ieee.value .w32 (Ieee.ofInt .w32 16777217) = .finite false 8388608 1 := by
    decide +kernel
  refine (congrArg Ieee.Value.denoted hvalue).trans ?_
  norm_num [Ieee.Value.denoted, Ieee.signed]

end Lowering

end AnnotatedWasm
