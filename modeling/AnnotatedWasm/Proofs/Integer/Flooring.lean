import AnnotatedWasm.Proofs.Integer.Assignment
import AnnotatedWasm.Proofs.Lowering.Footprint

/-!
Floored division of integers.

The code divides toward zero and takes one off where the remainder is not zero and has not the
sign of the divisor. That is the floor of the quotient, which is in range again. The operands are
kept in slots of their own, which no operand names, so each of them runs as if it stood alone,
once and the left one first, however deep such divisions are nested.
-/

namespace AnnotatedWasm

/-! ### The floor of a quotient -/

/-- One where the quotient toward zero is above the floor: the remainder is not zero and has not
the sign of the divisor. -/
def floorExcess (a c : Int) : Int :=
  if a.tmod c ≠ 0 ∧ (a.tmod c < 0 ↔ ¬ c < 0) then 1 else 0

/-- What is left of the dividend lies between zero and the divisor. -/
lemma floorExcess_bounds (a c : Int) :
    let rest := a - (a.tdiv c - floorExcess a c) * c
    (0 < c → 0 ≤ rest ∧ rest < c) ∧ (c < 0 → c < rest ∧ rest ≤ 0) := by
  intro rest
  have hrest : rest = a.tmod c + floorExcess a c * c := by
    have h := Int.mul_tdiv_add_tmod a c
    have hmul : (a.tdiv c - floorExcess a c) * c = c * a.tdiv c - floorExcess a c * c := by ring
    simp only [rest, hmul]
    omega
  have hpos (h : 0 < c) : -c < a.tmod c ∧ a.tmod c < c :=
    ⟨Int.lt_tmod_of_pos a h, Int.tmod_lt_of_pos a h⟩
  have hneg (h : c < 0) : c < a.tmod c ∧ a.tmod c < -c := by
    have hlt := Int.lt_tmod_of_pos a (Int.neg_pos_of_neg h)
    have hgt := Int.tmod_lt_of_pos a (Int.neg_pos_of_neg h)
    rw [Int.tmod_neg] at hlt hgt
    omega
  rw [hrest]
  unfold floorExcess
  split <;> omega

/-- The floor of a quotient from the quotient toward zero. -/
lemma floor_div_eq {a c : Int} (hc : c ≠ 0) :
    ⌊(a : ℚ) / c⌋ = a.tdiv c - floorExcess a c := by
  obtain ⟨hpos, hneg⟩ := floorExcess_bounds a c
  generalize a.tdiv c - floorExcess a c = z at hpos hneg
  rw [Int.floor_eq_iff]
  rcases lt_or_gt_of_ne hc with h | h
  · obtain ⟨h₁, h₂⟩ := hneg h
    have hc' : (c : ℚ) < 0 := by exact_mod_cast h
    have h₁' : ((z : ℚ) + 1) * c < a := by exact_mod_cast (by linarith : (z + 1) * c < a)
    have h₂' : (a : ℚ) ≤ z * c := by exact_mod_cast (by linarith : a ≤ z * c)
    exact ⟨(le_div_iff_of_neg hc').mpr h₂', (div_lt_iff_of_neg hc').mpr h₁'⟩
  · obtain ⟨h₁, h₂⟩ := hpos h
    have hc' : (0 : ℚ) < c := by exact_mod_cast h
    have h₁' : (z : ℚ) * c ≤ a := by exact_mod_cast (by linarith : z * c ≤ a)
    have h₂' : (a : ℚ) < (z + 1) * c := by exact_mod_cast (by linarith : a < (z + 1) * c)
    exact ⟨(le_div_iff₀ hc').mpr h₁', (div_lt_iff₀ hc').mpr h₂'⟩

/-- The floor of a quotient is in range again, but for one pair of numbers. -/
lemma floor_div_range {P a c : Int} (hc : c ≠ 0) (ha : -P ≤ a ∧ a < P)
    (hne : ¬ (a = -P ∧ c = -1)) : -P ≤ ⌊(a : ℚ) / c⌋ ∧ ⌊(a : ℚ) / c⌋ < P := by
  obtain ⟨hpos, hneg⟩ := floorExcess_bounds a c
  rw [floor_div_eq hc]
  generalize a.tdiv c - floorExcess a c = z at hpos hneg ⊢
  rcases lt_or_gt_of_ne hc with h | h
  · obtain ⟨h₁, h₂⟩ := hneg h
    constructor
    · by_contra hz
      nlinarith
    · by_contra hz
      have hc1 : c = -1 := by nlinarith
      subst hc1
      exact hne ⟨by omega, rfl⟩
  · obtain ⟨h₁, h₂⟩ := hpos h
    constructor <;> by_contra hz <;> nlinarith

namespace Bits

variable {n : Nat}

/-- The floor of the quotient of two signed numbers. There is none on a zero divisor, and where
it is out of range. -/
def floorDiv? (x y : BitVec n) : Option (BitVec n) :=
  if y.toInt = 0 ∨ (x.toInt = -2 ^ (n - 1) ∧ y.toInt = -1) then none
  else some (.ofInt n ⌊(x.toInt : ℚ) / y.toInt⌋)

lemma floorDiv?_eq_none {x y : BitVec n} :
    floorDiv? x y = none ↔ y.toInt = 0 ∨ (x.toInt = -2 ^ (n - 1) ∧ y.toInt = -1) := by
  unfold floorDiv?
  split
  · next h => exact iff_of_true rfl h
  · next h => exact iff_of_false (by simp) h

/-- The floor is representable. -/
lemma toInt_floorDiv? (hn : 0 < n) {x y q : BitVec n} (h : floorDiv? x y = some q) :
    q.toInt = ⌊(x.toInt : ℚ) / y.toInt⌋ := by
  unfold floorDiv? at h
  split at h
  · cases h
  · next hxy =>
    cases h
    obtain ⟨hy, hne⟩ := not_or.mp hxy
    obtain ⟨hlo, hhi⟩ := floor_div_range hy ⟨BitVec.le_toInt x, BitVec.toInt_lt⟩ hne
    have hpow : (2 ^ n : Int) = 2 * 2 ^ (n - 1) := by
      rw [← pow_succ', Nat.sub_add_cancel hn]
    rw [BitVec.toInt_ofInt, Int.bmod_eq_of_le_mul_two] <;> push_cast <;> omega

end Bits

namespace Lowering

open Ir (Node)
open Syntax (Expr)

/-- The runs end alike, in stores that differ in slots from `k` on at most. -/
def Alike {N W α : Type} (k : Nat) (x y : Eval N W α) : Prop :=
  ∀ s, ∃ o t t', x.run.run s = (o, t) ∧ y.run.run s = (o, t') ∧ t.SameBelow k t'

/-- Runs two operands, the left one first, and gives the floor of their quotient. -/
def floorQuotientOf {W : Type} (w : Width)
    (left right : Eval Literal W (Option (Value Literal))) :
    Eval Literal W (Option (Value Literal)) := do
  let u ← Run.orTrap (← left)
  let v ← Run.orTrap (← right)
  let a ← Run.orTrap u.num?
  let c ← Run.orTrap v.num?
  let q ← Run.orTrap (Bits.floorDiv? (a.toBits w) (c.toBits w))
  return some (.num (.int w q))

/-- What is taken off the quotient toward zero. -/
def floorAdjustment (w : Width) (divisor remainder : Slot) : Node :=
  let negative (n : Node) : Node := .binary (.compare .lt (.int w)) n (zero (.int w))
  .binary (.arith .mul .i32)
    (.binary (.compare .ne (.int w)) (slotGet remainder) (zero (.int w)))
    (.binary (.compare .ne .i32) (negative (slotGet remainder)) (negative (slotGet divisor)))

variable {W : Type} {x y r : Slot} {st : Store Literal W} {a c : Literal}

section

variable (floats : Floats) (call : Callees W) (fuel : Nat) {w : Width}

lemma binary_compare_bits (o : Ir.Comparison) (p q : Literal) :
    (machine floats call).binary (.compare o (.int w)) p q =
      some (.i32 (if o.holds (p.toBits w).toInt (q.toBits w).toInt then 1 else 0)) := by
  simp [machine, compare_eq]

/-- A comparison of a slot with zero. -/
lemma returns_compare_zero (w : Width) {s : Slot} {p : Literal} (h : st.locals s.index = .num p)
    (o : Ir.Comparison) :
    Returns ((Node.binary (.compare o (.int w)) (slotGet s) (zero (.int w))).eval
      (machine floats call) fuel) st
      (some (.num (.i32 (if o.holds (p.toBits w).toInt 0 then 1 else 0)))) st := by
  have hzero : ((Literal.zero (.int w)).toBits w).toInt = 0 := by
    rw [Literal.zero, Literal.ofInt, toBits_int]
    exact BitVec.toInt_zero
  have hconst : Returns ((zero (.int w)).eval (machine floats call) fuel) st
      (some (.num (.zero (.int w)))) st := rfl
  refine returns_evalBinary (returns_localGet h) hconst ?_
  rw [binary_compare_bits, hzero]

/-- Truth values differ, and both hold, as numbers. -/
lemma binary_truth (p q : Bool) :
    (machine floats call).binary (.compare .ne .i32) (.i32 (if p then 1 else 0))
        (.i32 (if q then 1 else 0)) = some (.i32 (if p != q then 1 else 0)) ∧
      (machine floats call).binary (.arith .mul .i32) (.i32 (if p then 1 else 0))
        (.i32 (if q then 1 else 0)) = some (.i32 (if p && q then 1 else 0)) := by
  cases p <;> cases q <;> exact ⟨rfl, rfl⟩

lemma returns_floorAdjustment {rem : BitVec w.bits} {t : Int}
    (hr : st.locals r.index = .num (.int w rem)) (hy : st.locals y.index = .num c)
    (hrem : rem.toInt = t.tmod (c.toBits w).toInt) :
    Returns ((floorAdjustment w y r).eval (machine floats call) fuel) st
      (some (.num (.i32 (floorExcess t (c.toBits w).toInt)))) st := by
  have hnonzero := returns_compare_zero floats call fuel w hr .ne
  have hnegative := returns_compare_zero floats call fuel w hr .lt
  have hdivisor := returns_compare_zero floats call fuel w hy .lt
  rw [toBits_int, hrem] at hnonzero hnegative
  have hdiffer := returns_evalBinary hnegative hdivisor (binary_truth floats call _ _).1
  have h := returns_evalBinary hnonzero hdiffer (binary_truth floats call _ _).2
  have hexcess : floorExcess t (c.toBits w).toInt =
      if (Ir.Comparison.holds .ne (t.tmod (c.toBits w).toInt) 0 &&
        (Ir.Comparison.holds .lt (t.tmod (c.toBits w).toInt) 0 !=
          Ir.Comparison.holds .lt (c.toBits w).toInt 0)) then 1 else 0 := by
    generalize (c.toBits w).toInt = d
    simp only [floorExcess, Ir.Comparison.holds]
    by_cases h₁ : t.tmod d < 0 <;> by_cases h₂ : d < 0 <;> simp [h₁, h₂]
  rw [hexcess]
  exact h

lemma value_floorExcess (t d : Int) :
    (Word.ofInt .w32 (floorExcess t d)).value = floorExcess t d := by
  unfold floorExcess
  split <;> rfl

/-- The remainder, and the quotient less the adjustment. -/
def floorSteps (w : Width) (dividend divisor remainder : Slot) : List Node :=
  [.localSet remainder.index (.binary (.rem w) (slotGet dividend) (slotGet divisor)),
    .binary (.arith .sub (.int w))
      (.binary (.arith .div (.int w)) (slotGet dividend) (slotGet divisor))
      (convert (floorAdjustment w divisor remainder) (.int w))]

lemma run_floorSteps (hx : st.locals x.index = .num a) (hy : st.locals y.index = .num c)
    (hxr : x.index ≠ r.index) (hyr : y.index ≠ r.index) {k : Nat} (hk : k ≤ r.index) :
    ∃ st', st.SameBelow k st' ∧
      (Node.evalAll (machine floats call) fuel (floorSteps w x y r)).run.run st =
        match Bits.floorDiv? (a.toBits w) (c.toBits w) with
        | some q => (.ok (some (.num (.int w q))), st')
        | none => (.error .trapped, st') := by
  have hbits := w.bits_pos
  generalize hA : a.toBits w = A
  generalize hC : c.toBits w = C
  have hrem : (machine floats call).binary (.rem w) a c = (Bits.rem A C).map (.int w) := by
    rw [← hA, ← hC]
    rfl
  have hdiv : (machine floats call).binary (.arith .div (.int w)) a c =
      (Bits.arith .div A C).map (.int w) := by
    rw [← hA, ← hC]
    rfl
  by_cases hzero : C.toInt = 0
  · -- the remainder traps
    rw [rem_eq, if_pos hzero] at hrem
    refine ⟨st, .refl k st, ?_⟩
    rw [Bits.floorDiv?, if_pos (.inl hzero)]
    exact (stops_evalBinary (returns_localGet hx) (returns_localGet hy) hrem).bind_left.bind_left
  rw [rem_eq, if_neg hzero, ← BitVec.toInt_srem, BitVec.ofInt_toInt] at hrem
  rw [arith_div _ _ hbits] at hdiv
  let st₁ := st.setLocal r.index (.num (.int w (A.srem C)))
  have hset : Returns ((Node.localSet r.index (.binary (.rem w) (slotGet x) (slotGet y))).eval
      (machine floats call) fuel) st none st₁ :=
    returns_localSet (returns_evalBinary (returns_localGet hx) (returns_localGet hy) hrem)
  have hx₁ : st₁.locals x.index = .num a := (Function.update_of_ne hxr _ _).trans hx
  have hy₁ : st₁.locals y.index = .num c := (Function.update_of_ne hyr _ _).trans hy
  have hr₁ : st₁.locals r.index = .num (.int w (A.srem C)) := Function.update_self _ _ _
  refine ⟨st₁, (Store.SameBelow.refl k st).setLocal hk _, ?_⟩
  refine (hset.run_bind _).trans ?_
  by_cases hleast : A.toInt = -2 ^ (w.bits - 1) ∧ C.toInt = -1
  · -- the quotient traps
    rw [if_pos (.inr hleast)] at hdiv
    rw [Bits.floorDiv?, if_pos (.inr hleast)]
    exact stops_evalBinary_left
      (stops_evalBinary (returns_localGet hx₁) (returns_localGet hy₁) hdiv)
  · have hok : ¬ (C.toInt = 0 ∨ (A.toInt = -2 ^ (w.bits - 1) ∧ C.toInt = -1)) :=
      not_or.mpr ⟨hzero, hleast⟩
    rw [if_neg hok] at hdiv
    rw [Bits.floorDiv?, if_neg hok]
    have hadjust := returns_floorAdjustment floats call fuel hr₁ hy₁
      (t := A.toInt) (by rw [hC, BitVec.toInt_srem])
    rw [hC] at hadjust
    have hconvert := returns_convert_word (x := .ofInt .w32 (floorExcess A.toInt C.toInt))
      hadjust rfl w
    rw [value_floorExcess] at hconvert
    refine returns_evalBinary
      (returns_evalBinary (returns_localGet hx₁) (returns_localGet hy₁) hdiv) hconvert ?_
    have hsub (p q : Int) : BitVec.ofInt w.bits (p - q) = .ofInt _ p - .ofInt _ q := by
      rw [sub_eq_add_neg, BitVec.ofInt_add, BitVec.ofInt_neg, BitVec.sub_eq_add_neg]
    rw [floor_div_eq hzero, hsub]
    exact binary_arith w _ _ .sub

lemma eq_num {N : Type} {v : Value N} {a : N} (h : v.num? = some a) : v = .num a := by
  cases v <;> simp [Value.num?] at h
  rw [h]

/-- Operands that are not numbers trap. -/
lemma stops_floorSteps
    (h : (st.locals x.index).num? = none ∨ (st.locals y.index).num? = none) :
    Stops (Node.evalAll (machine floats call) fuel (floorSteps w x y r)) st .trapped st := by
  have hnumber {s : Slot} (hs : (st.locals s.index).num? = none) :
      Stops (Node.number ((slotGet s).eval (machine floats call) fuel)) st .trapped st :=
    Stops.bind_right (returns_localGet rfl) (by
      change Stops (Run.orTrap (st.locals s.index).num?) _ _ _
      rw [hs]
      exact Stops.orTrap st)
  refine Stops.bind_left (Stops.bind_left ?_)
  rcases hx : (st.locals x.index).num? with _ | a
  · exact (hnumber hx).bind_left
  · have hy := h.resolve_left (by rw [hx]; simp)
    exact Stops.bind_right (returns_numberOf (returns_localGet (eq_num hx))) (hnumber hy).bind_left

variable {left right : Node} {k : Nat}

/-- The code runs as its two operands one after the other and then the division, in slots that
the right operand does not name. -/
lemma floorQuotient_alike (hright : right.NamesBelow k) (hx : k ≤ x.index) (hy : k ≤ y.index)
    (hr : k ≤ r.index) (hxy : x.index ≠ y.index) (hxr : x.index ≠ r.index)
    (hyr : y.index ≠ r.index) :
    Alike k
      (floorQuotientOf w (left.eval (machine floats call) fuel)
        (right.eval (machine floats call) fuel))
      ((floorQuotient w x y r left right).eval (machine floats call) fuel) := by
  intro st
  unfold floorQuotientOf
  change ∃ o t t', _ ∧ (Node.evalAll (machine floats call) fuel (.localSet x.index left ::
    .localSet y.index right :: floorSteps w x y r)).run.run st = _ ∧ _
  rcases returns_or_stops (left.eval (machine floats call) fuel) st with ⟨u, t, hu⟩ | ⟨e, t, hu⟩
  swap
  · exact ⟨_, t, t, hu.bind_left, hu.bind_left.bind_left, .refl k t⟩
  rcases u with _ | u
  · exact ⟨_, t, t, Stops.bind_right hu (Stops.orTrap t).bind_left,
      Stops.bind_left (Stops.bind_right hu (Stops.orTrap t).bind_left), .refl k t⟩
  have hcommutes : Run.Commutes _ (right.eval (machine floats call) fuel) :=
    hright.commutes_setLocal hx u
  have hset := (Store.SameBelow.refl k t).setLocal hx u
  rcases returns_or_stops (right.eval (machine floats call) fuel) t with ⟨v, t₂, hv⟩ | ⟨e, t₂, hv⟩
  swap
  · exact ⟨_, t₂, t₂.setLocal x.index u,
      Stops.bind_right hu (Stops.bind_right (returns_orTrap u t) hv.bind_left),
      Stops.bind_right (returns_localSet hu) (hcommutes.stops hv).bind_left.bind_left,
      (Store.SameBelow.refl k t₂).setLocal hx u⟩
  rcases v with _ | v
  · exact ⟨_, t₂, t₂.setLocal x.index u,
      Stops.bind_right hu (Stops.bind_right (returns_orTrap u t)
        (Stops.bind_right hv (Stops.orTrap t₂).bind_left)),
      Stops.bind_right (returns_localSet hu) (Stops.bind_left
        (Stops.bind_right (hcommutes.returns hv) (Stops.orTrap _).bind_left)),
      (Store.SameBelow.refl k t₂).setLocal hx u⟩
  -- both operands have values, which are now in their slots
  let s := (t₂.setLocal x.index u).setLocal y.index v
  have hsx : s.locals x.index = u :=
    (Function.update_of_ne hxy _ _).trans (Function.update_self _ _ _)
  have hsy : s.locals y.index = v := Function.update_self _ _ _
  have hs : t₂.SameBelow k s := ((Store.SameBelow.refl k t₂).setLocal hx u).setLocal hy v
  rw [hu.run_bind, (returns_orTrap u t).run_bind, hv.run_bind, (returns_orTrap v t₂).run_bind,
    Node.evalAll, (returns_localSet hu).run_bind, floorSteps, Node.evalAll,
    (returns_localSet (hcommutes.returns hv)).run_bind, ← floorSteps]
  rcases hun : u.num? with _ | a
  · exact ⟨_, t₂, s, (Stops.orTrap t₂).bind_left,
      stops_floorSteps floats call fuel (.inl (by rw [hsx, hun])), hs⟩
  rcases hvn : v.num? with _ | c
  · exact ⟨_, t₂, s, Stops.bind_right (returns_orTrap a t₂) (Stops.orTrap t₂).bind_left,
      stops_floorSteps floats call fuel (.inr (by rw [hsy, hvn])), hs⟩
  rw [(returns_orTrap a t₂).run_bind, (returns_orTrap c t₂).run_bind]
  obtain ⟨s', hs', hrun⟩ := run_floorSteps floats call fuel (hsx.trans (eq_num hun))
    (hsy.trans (eq_num hvn)) hxr hyr hr
  rw [hrun]
  rcases Bits.floorDiv? (a.toBits w) (c.toBits w) with _ | q
  · exact ⟨_, t₂, s', (Stops.orTrap t₂).bind_left, rfl, hs.trans hs'⟩
  · exact ⟨_, t₂, s', rfl, rfl, hs.trans hs'⟩

end

/-- However the run ends, the variables of a frame are as they were: its slots always, and a global
if no callee changes it. -/
def LeavesVariables {N W α : Type} (M : Machine N W) (f : Frame) (x : Eval N W α) : Prop :=
  ∀ st, (∀ name s, f.slot? name = some s → (x.run.run st).2.locals s.index = st.locals s.index) ∧
    ∀ g, M.CallsKeep (· = g) → (x.run.run st).2.globals g = st.globals g

/-- Running an expression leaves all variables as they were. -/
lemma LowersExpr.leavesVariables {N : Type} {env : Env} {b b' : Body} {hint : Option Ty} {e : Expr}
    {n : Node} (h : LowersExpr env hint e b n b') (hb : b.Sound env) (M : Machine N W)
    (fuel : Nat) : LeavesVariables M b.frame (n.eval M fuel) := by
  intro st
  constructor
  · intro name s hs
    exact h.setsFrom.locals_kept M fuel st (hb.index_lt hs)
  · intro g hg
    have hkept : Run.Keeps (Store.Kept b.frame.nextIndex (· = g)) (n.eval M fuel) :=
      h.setsFrom.keeps hg
    exact (hkept st).globals g rfl

/-- **Floored division is exact.** The code of `left // right` on integers runs the code of both
operands, each once and the left one first, and then gives the floor of the quotient, which is
representable; it traps on a zero divisor and on the least number divided by minus one, and nowhere
else. Apart from slots that were made for it, it leaves the store as the operands leave it, and all
variables as they were. The operands are any expressions, with divisions of their own or not. -/
theorem lower_floorDiv_exact (env : Env) (hfloor : env.options.floorDivision = .floor) (b : Body)
    (hb : b.Sound env) (hint : Option Ty) (span : Span) (left right : Expr) (n : Node) (b' : Body)
    (h : Returns (lowerExpr env hint (.binary span .floorDiv left right)) b n b') (w : Width)
    (hty : n.ty = .num (.int w)) :
    (∀ x y : BitVec w.bits,
      (Bits.floorDiv? x y = none ↔
        y.toInt = 0 ∨ (x.toInt = -2 ^ (w.bits - 1) ∧ y.toInt = -1)) ∧
      ∀ q ∈ Bits.floorDiv? x y, q.toInt = ⌊(x.toInt : ℚ) / y.toInt⌋) ∧
    ∃ l b₁ r b₂, Returns (lowerExpr env none left) b l b₁ ∧
      Returns (lowerExpr env none right) b₁ r b₂ ∧
      ∀ (W : Type) (floats : Floats) (call : Callees W) (fuel : Nat),
        let M := machine floats call
        Alike b₂.frame.nextIndex
          (floorQuotientOf w ((convert l (.int w)).eval M fuel) ((convert r (.int w)).eval M fuel))
          (n.eval M fuel) ∧
        LeavesVariables M b.frame (n.eval M fuel) := by
  refine ⟨fun x y => ⟨Bits.floorDiv?_eq_none, fun q => Bits.toInt_floorDiv? w.bits_pos⟩, ?_⟩
  have hlowers := lowersExpr_of_returns h
  simp only [lowerExpr, Returns.bind_iff] at h
  obtain ⟨_, b₀, hop, l, b₁, hl, r, b₂, hr, h⟩ := h
  cases returns_requireOperator hop
  refine ⟨l, b₁, r, b₂, hl, hr, fun W floats call fuel => ⟨?_, hlowers.leavesVariables hb _ _⟩⟩
  obtain ⟨i, j, b₃, hi, hj, hnotes, hc⟩ := returns_binary h
  have hright := (lowersExpr_of_returns hr).typed ((lowersExpr_of_returns hl).grows.sound hb)
  have hnames := namesBelow_of_typed (typed_convert (k := i.unify j) hright hj)
  generalize hk : i.unify j = k at hc hnames
  cases hc with
  | floorFloat => cases hty
  | truncated ht => rw [hfloor] at ht; cases ht
  | floored _ =>
    cases hty
    rw [hnotes.frame]
    exact floorQuotient_alike floats call fuel hnames le_rfl (by simp) (by simp) (by simp)
      (by simp) (by simp)

/-! `(x // y) // (y // x)`, where `x` is wider than `y`. -/

def nestedEnv : Env where
  options := { floorDivision := .floor }
  signatures := {}

def nestedState : Body := ⟨{}, .start "f" [("x", .num .i64), ("y", .i32)] (.num .i64)⟩

def nestedQuotient : Expr :=
  let p : Span := ⟨0, 0⟩
  .binary p .floorDiv (.binary p .floorDiv (.name p "x") (.name p "y"))
    (.binary p .floorDiv (.name p "y") (.name p "x"))

def nestedMachine : Machine Literal Unit := machine ⟨fun _ x => x, fun _ x _ => x⟩ fun _ _ _ => none

/-- The value of the code where `x` is minus seven and `y` is two. -/
def nestedValue (n : Node) : Option Literal :=
  let store : Store Literal Unit :=
    { globals := fun _ => .num (.i32 0), arrays := [], world := (),
      locals := fun i => if i = 0 then .num (.i64 (-7)) else .num (.i32 2) }
  ((n.eval nestedMachine 0).run.run store).1.toOption.join >>= Value.num?

theorem lower_floorDiv_exact_nested : ∃ n b',
    Returns (lowerExpr nestedEnv none nestedQuotient) nestedState n b' ∧
    nestedState.Sound nestedEnv ∧ n.ty = .num .i64 ∧ nestedValue n = some (.i64 4) ∧
    ∃ l b₁ r b₂, Returns (lowerExpr nestedEnv none
        (.binary ⟨0, 0⟩ .floorDiv (.name ⟨0, 0⟩ "x") (.name ⟨0, 0⟩ "y"))) nestedState l b₁ ∧
      Returns (lowerExpr nestedEnv none
        (.binary ⟨0, 0⟩ .floorDiv (.name ⟨0, 0⟩ "y") (.name ⟨0, 0⟩ "x"))) b₁ r b₂ ∧
      Alike b₂.frame.nextIndex
        (floorQuotientOf .w64 ((convert l .i64).eval nestedMachine 0)
          ((convert r .i64).eval nestedMachine 0))
        (n.eval nestedMachine 0) ∧
      LeavesVariables nestedMachine nestedState.frame (n.eval nestedMachine 0) := by
  have hrun : ((lowerExpr nestedEnv none nestedQuotient).run.run nestedState).1.toOption.map
      (fun n => (n.ty, nestedValue n)) = some (.num .i64, some (.i64 4)) := by decide +kernel
  obtain ⟨n, hn, hvalue⟩ := Option.map_eq_some_iff.mp hrun
  obtain ⟨hty, hvalue⟩ := Prod.mk.inj hvalue
  have h := Returns.of_toOption hn
  have hsound : nestedState.Sound nestedEnv :=
    sound_start ⟨by simp, fun name g h => by cases h⟩ _ _ _
  obtain ⟨-, l, b₁, r, b₂, hl, hr, hmeaning⟩ :=
    lower_floorDiv_exact nestedEnv rfl nestedState hsound none _ _ _ n _ h .w64 hty
  exact ⟨n, _, h, hsound, hty, hvalue, l, b₁, r, b₂, hl, hr, hmeaning Unit _ _ 0⟩

end Lowering

end AnnotatedWasm
