import AnnotatedWasm.Number.Ieee
import Mathlib

/-!
Which number a float stands for, and what rounding does to a number.

A finite float is a natural mantissa below `2 * hidden` times a power of two. The rounded quotient
is the float nearest to it, and of two that are equally near the one with the even pattern
(`round_nearest`); a quotient of that form is not changed at all (`round_exact`).
-/

namespace AnnotatedWasm.Ieee

/-! ### Formats -/

section

variable (w : Width)

lemma hidden_pos : 0 < w.hidden := by cases w <;> decide

lemma two_mul_hidden : 2 * w.hidden = 2 ^ (w.fractionBits + 1) := (Nat.pow_succ' ..).symm

lemma two_dvd_hidden : 2 ∣ w.hidden := by cases w <;> decide

lemma infinity_lt_signBit : infinity w < w.signBit := by cases w <;> decide

lemma signBit_add_signBit : w.signBit + w.signBit = 2 ^ w.bits := by cases w <;> rfl

lemma two_mul_hidden_lt_infinity : 2 * w.hidden < infinity w := by cases w <;> decide

/-- Every number below `2 ^ reach` has a float next to it that is not infinite. -/
def reach : Int := w.minExponent + w.fractionBits + (2 ^ w.exponentBits : Nat) - 3

end

variable {w : Width}

/-! ### Numbers of floats -/

/-- The number that a sign and a magnitude make. -/
def signed (negative : Bool) (q : ℚ) : ℚ := if negative then -q else q

/-- What a machine number stands for; the two zeros of a float stand for the same. -/
inductive Denoted where
  | number (q : ℚ)
  | infinite (negative : Bool)
  | nan
deriving DecidableEq

def Value.denoted : Value → Denoted
  | .finite negative m e => .number (signed negative (m * 2 ^ e))
  | .infinite negative => .infinite negative
  | .nan => .nan

lemma abs_signed_sub (s : Bool) (p q : ℚ) : |signed s p - signed s q| = |p - q| := by
  cases s
  · rfl
  · simp only [signed, if_true]
    rw [neg_sub_neg, abs_sub_comm]

@[simp] lemma signed_signed (s : Bool) (q : ℚ) : signed s (signed s q) = q := by
  cases s <;> simp [signed]

@[simp] lemma signed_zero (s : Bool) : signed s 0 = 0 := by
  cases s <;> simp [signed]

@[simp] lemma abs_signed (s : Bool) (q : ℚ) : |signed s q| = |q| := by
  cases s <;> simp [signed]

lemma magnitude_withSign (s : Bool) {k : Nat} (h : k < w.signBit) :
    magnitude w (withSign w s k) = k := by
  have hbits := signBit_add_signBit w
  cases s <;> simp [magnitude, withSign, BitVec.toNat_ofNat]
  · rw [Nat.mod_eq_of_lt (show k < 2 ^ w.bits by omega), Nat.mod_eq_of_lt h]
  · rw [Nat.mod_eq_of_lt (show w.signBit + k < 2 ^ w.bits by omega), Nat.add_mod_left,
      Nat.mod_eq_of_lt h]

lemma msb_withSign (s : Bool) {k : Nat} (h : k < w.signBit) : (withSign w s k).msb = s := by
  have hbits := signBit_add_signBit w
  have hsign : 2 ^ (w.bits - 1) = w.signBit := rfl
  rw [BitVec.msb_eq_decide, hsign, withSign, BitVec.toNat_ofNat]
  cases s
  · rw [if_neg (by decide), Nat.zero_add, Nat.mod_eq_of_lt (by omega)]
    simp [h]
  · rw [if_pos rfl, Nat.mod_eq_of_lt (by omega)]
    simp

/-- The mantissa of a finite float is below `2 * hidden`, and its exponent between two bounds. -/
lemma value_finite {bits : BitVec w.bits} {s : Bool} {m : Nat} {e : Int}
    (h : value w bits = .finite s m e) :
    m < 2 * w.hidden ∧ w.minExponent ≤ e ∧ e + w.fractionBits ≤ reach w := by
  have hfraction := Nat.mod_lt (magnitude w bits) (hidden_pos w)
  have hleast : w.minExponent + w.fractionBits ≤ reach w := by cases w <;> decide
  simp only [value] at h
  split_ifs at h with hnan hinf hexp <;> cases h
  · exact ⟨by omega, le_rfl, hleast⟩
  · have hone : (1 : Int) ≤ (magnitude w bits / w.hidden : Nat) := by
      exact_mod_cast Nat.pos_of_ne_zero hexp
    have htop : magnitude w bits / w.hidden < 2 ^ w.exponentBits - 1 :=
      Nat.div_lt_of_lt_mul (by rw [Nat.mul_comm]; exact lt_of_le_of_ne (not_lt.1 hnan) hinf)
    have htop' : ((magnitude w bits / w.hidden : Nat) : Int) + 2 ≤ (2 ^ w.exponentBits : Nat) := by
      exact_mod_cast (by omega)
    refine ⟨by omega, by linarith, ?_⟩
    rw [reach]
    linarith

lemma value_infinity (s : Bool) : value w (withSign w s (infinity w)) = .infinite s := by
  have hlt := infinity_lt_signBit w
  simp only [value, magnitude_withSign s hlt, msb_withSign s hlt, lt_irrefl, if_false, if_true]

lemma value_nan : value w (nan w) = .nan := by
  have hlt : infinity w + w.hidden / 2 < w.signBit := by cases w <;> decide
  have hgt : infinity w < infinity w + w.hidden / 2 := by cases w <;> decide
  simp only [value, nan, magnitude_withSign false hlt, gt_iff_lt, if_pos hgt]

/-- A pattern below infinity, counted in steps of the mantissa from an exponent on. A mantissa that
fills up carries into the exponent. -/
lemma value_withSign (s : Bool) {d m : Nat} (hm : m ≤ 2 * w.hidden) (hd : d ≠ 0 → w.hidden ≤ m)
    (hk : d * w.hidden + m < infinity w) :
    ∃ m' e, value w (withSign w s (d * w.hidden + m)) = .finite s m' e ∧
      (m' * 2 ^ e : ℚ) = m * 2 ^ (w.minExponent + d) := by
  have hpos := hidden_pos w
  have hlt := hk.trans (infinity_lt_signBit w)
  have hmag := magnitude_withSign s hlt
  have hmsb := msb_withSign s hlt
  simp only [value, hmag, hmsb, if_neg (not_lt.2 hk.le), if_neg hk.ne]
  have hdiv : (d * w.hidden + m) / w.hidden = d + m / w.hidden := by
    rw [Nat.add_comm, Nat.add_mul_div_right _ _ hpos, Nat.add_comm]
  have hmod : (d * w.hidden + m) % w.hidden = m % w.hidden := by
    rw [Nat.add_comm, Nat.add_mul_mod_self_right]
  rw [hdiv, hmod]
  rcases lt_or_ge m w.hidden with hlow | hhigh
  · -- below the leading bit the exponent is the least one
    have hd : d = 0 := by_contra fun hne => absurd (hd hne) (not_le.2 hlow)
    subst hd
    rw [Nat.div_eq_of_lt hlow, Nat.mod_eq_of_lt hlow, if_pos rfl]
    exact ⟨_, _, rfl, by simp⟩
  · rw [if_neg (by have := Nat.div_pos hhigh hpos; omega)]
    refine ⟨_, _, rfl, ?_⟩
    rcases lt_or_eq_of_le hm with hm | hm
    · have hone : m / w.hidden = 1 := Nat.div_eq_of_lt_le (by omega) (by omega)
      have hrest : w.hidden + m % w.hidden = m := by
        have := Nat.div_add_mod m w.hidden
        rw [hone] at this
        omega
      rw [hone, hrest]
      congr 2
      push_cast
      ring
    · -- the full mantissa is the leading bit of the next exponent
      rw [hm, Nat.mul_div_cancel _ hpos, Nat.mul_mod_left, Nat.add_zero]
      have hexp : w.minExponent + (d + 2 : Nat) - 1 = w.minExponent + d + 1 := by
        push_cast
        ring
      rw [hexp, zpow_add₀ two_ne_zero (w.minExponent + d) 1]
      push_cast
      ring

/-! ### Nearest numbers -/

/-- Nothing in `S` is nearer to `x` than `y`, and `even` holds if another one is as near. -/
def IsNearest (S : Set ℚ) (even : Prop) (x y : ℚ) : Prop :=
  ∀ z ∈ S, |y - x| ≤ |z - x| ∧ (|y - x| = |z - x| → z ≠ y → even)

section

variable {S : Set ℚ} {even : Prop} {x y : ℚ}

variable (S even x) in
lemma IsNearest.self : IsNearest S even x x := by
  refine fun z _ => ⟨by simp, fun h hne => absurd ?_ hne⟩
  rw [sub_self, abs_zero, eq_comm, abs_eq_zero, sub_eq_zero] at h
  exact h

/-- Nearness is the same on both sides of zero. -/
lemma IsNearest.signed (h : IsNearest S even x y) (s : Bool) (hS : ∀ z ∈ S, Ieee.signed s z ∈ S) :
    IsNearest S even (Ieee.signed s x) (Ieee.signed s y) := by
  intro z hz
  have hnear := h (Ieee.signed s z) (hS z hz)
  rw [← abs_signed_sub s y, ← abs_signed_sub s (Ieee.signed s z), signed_signed] at hnear
  refine ⟨hnear.1, fun heq hne => hnear.2 heq fun hzy => hne ?_⟩
  rw [← hzy, signed_signed]

lemma IsNearest.eq_of_mem (h : IsNearest S even x y) (hx : x ∈ S) : y = x := by
  have hzero := (h x hx).1
  rw [sub_self, abs_zero, abs_nonpos_iff, sub_eq_zero] at hzero
  exact hzero

/-- The nearest integer is not above an integer that bounds the number from above. -/
lemma IsNearest.le {m b : Int} (h : IsNearest (Set.range Int.cast) even x m) (hx : x ≤ b) :
    m ≤ b := by
  by_contra hlt
  have habs := (h b ⟨b, rfl⟩).1
  have hb : (b : ℚ) < m := by exact_mod_cast not_le.1 hlt
  rw [abs_of_nonneg (by linarith), abs_of_nonneg (by linarith)] at habs
  linarith

lemma IsNearest.ge {m b : Int} (h : IsNearest (Set.range Int.cast) even x m) (hx : b ≤ x) :
    b ≤ m := by
  by_contra hlt
  have habs := (h b ⟨b, rfl⟩).1
  have hb : (m : ℚ) < b := by exact_mod_cast not_le.1 hlt
  rw [abs_of_nonpos (by linarith), abs_of_nonpos (by linarith)] at habs
  linarith

end

/-! ### Exact quotients -/

section

variable {num den : Nat}

lemma powerOfTwo_pos (e : Int) : 0 < (powerOfTwo e).1 ∧ 0 < (powerOfTwo e).2 :=
  ⟨Nat.two_pow_pos _, Nat.two_pow_pos _⟩

lemma powerOfTwo_div (e : Int) : ((powerOfTwo e).1 / (powerOfTwo e).2 : ℚ) = 2 ^ e := by
  simp only [powerOfTwo, Nat.pow_eq, Nat.cast_pow, Nat.cast_ofNat]
  rcases le_total 0 e with he | he
  · obtain ⟨n, rfl⟩ := Int.eq_ofNat_of_zero_le he
    simp
  · obtain ⟨n, hn⟩ := Int.eq_ofNat_of_zero_le (Int.neg_nonneg_of_nonpos he)
    obtain rfl : e = -n := by omega
    simp

/-- The logarithm of a quotient, rounded down. -/
lemma floorLog_spec (hnum : 0 < num) (hden : 0 < den) :
    (2 : ℚ) ^ floorLog num den ≤ num / den ∧ (num / den : ℚ) < 2 ^ (floorLog num den + 1) := by
  have hd : (0 : ℚ) < den := by exact_mod_cast hden
  have hnumLow : (2 : ℚ) ^ (num.log2 : Int) ≤ num := by
    exact_mod_cast Nat.log2_self_le hnum.ne'
  have hnumHigh : (num : ℚ) < 2 ^ (num.log2 + 1 : Int) := by
    exact_mod_cast Nat.lt_log2_self (n := num)
  have hdenLow : (2 : ℚ) ^ (den.log2 : Int) ≤ den := by
    exact_mod_cast Nat.log2_self_le hden.ne'
  have hdenHigh : (den : ℚ) < 2 ^ (den.log2 + 1 : Int) := by
    exact_mod_cast Nat.lt_log2_self (n := den)
  -- the difference of the two logarithms is at most one too great
  have hlow : (2 : ℚ) ^ ((num.log2 : Int) - den.log2 - 1) ≤ num / den := by
    rw [show (num.log2 : Int) - den.log2 - 1 = num.log2 - (den.log2 + 1) by ring,
      zpow_sub₀ two_ne_zero]
    exact div_le_div₀ (Nat.cast_nonneg _) hnumLow hd hdenHigh.le
  have hhigh : (num / den : ℚ) < 2 ^ ((num.log2 : Int) - den.log2 + 1) := by
    rw [show (num.log2 : Int) - den.log2 + 1 = num.log2 + 1 - den.log2 by ring,
      zpow_sub₀ two_ne_zero]
    exact div_lt_div₀ hnumHigh hdenLow (by positivity) (by positivity)
  have htest (t : Int) : den * (powerOfTwo t).1 ≤ num * (powerOfTwo t).2 ↔
      (2 : ℚ) ^ t ≤ num / den := by
    rw [← powerOfTwo_div, div_le_div_iff₀ (by exact_mod_cast (powerOfTwo_pos _).2) hd, mul_comm den]
    norm_cast
  simp only [floorLog, htest]
  split
  · next h => exact ⟨h, hhigh⟩
  · next h => exact ⟨hlow, by simpa using not_le.1 h⟩

lemma scaled_div (e : Int) :
    ((num * (powerOfTwo e).2 : Nat) / (den * (powerOfTwo e).1 : Nat) : ℚ) = num / den / 2 ^ e := by
  rw [← powerOfTwo_div]
  push_cast
  rw [div_div_eq_mul_div, mul_comm (num / den : ℚ), ← mul_div_assoc, div_div, mul_comm (num : ℚ)]

/-- The integer is at most half away from the quotient, and even if it is that far. -/
lemma divRound_spec (num : Nat) (hden : 0 < den) :
    2 * |(divRound num den * den - num : Int)| ≤ den ∧
      (2 * |(divRound num den * den - num : Int)| = den → divRound num den % 2 = 0) := by
  have hsplit : (num : Int) = (num / den : Nat) * den + (num % den : Nat) := by
    exact_mod_cast (Nat.div_add_mod' num den).symm
  have hlt := Nat.mod_lt num hden
  simp only [divRound]
  generalize num / den = q at *
  generalize num % den = r at *
  simp only [Bool.or_eq_true, Bool.and_eq_true, decide_eq_true_eq]
  split
  · next h =>
    have hup : ((q + 1 : Nat) * den - num : Int) = den - r := by
      rw [hsplit]
      push_cast
      ring
    rw [hup, abs_of_nonneg (by omega)]
    omega
  · next h =>
    have hdown : (q * den - num : Int) = -r := by
      rw [hsplit]
      ring
    rw [hdown, abs_neg, abs_of_nonneg (by omega)]
    omega

/-- The integer is nearest to the quotient, and even if another one is as near. -/
lemma divRound_nearest (hden : 0 < den) :
    IsNearest (Set.range Int.cast) (divRound num den % 2 = 0) (num / den) (divRound num den) := by
  rintro _ ⟨z, rfl⟩
  have hd : (0 : ℚ) < den := by exact_mod_cast hden
  have hscale (y : Int) : |(y - num / den : ℚ)| = (|y * den - num| : Int) / den := by
    rw [eq_div_iff hd.ne', ← abs_of_pos hd, ← abs_mul, abs_of_pos hd, sub_mul,
      div_mul_cancel₀ _ hd.ne']
    push_cast
    rfl
  have hM := hscale (divRound num den)
  rw [Int.cast_natCast] at hM
  obtain ⟨hhalf, heven⟩ := divRound_spec num hden
  rw [hM, hscale z, div_le_div_iff_of_pos_right hd, div_left_inj' hd.ne', Int.cast_le, Int.cast_inj]
  by_cases hz : z = divRound num den
  · subst hz
    exact ⟨le_rfl, fun _ h => absurd (Int.cast_natCast _) h⟩
  · -- another integer is a whole step away
    have hstep : (den : Int) ≤ |z * den - divRound num den * den| := by
      rw [← sub_mul, abs_mul, Nat.abs_cast]
      exact le_mul_of_one_le_left (by omega) (Int.one_le_abs (sub_ne_zero.2 hz))
    have htri := abs_sub_le (z * den) num (divRound num den * den : Int)
    rw [abs_sub_comm (num : Int)] at htri
    exact ⟨by omega, fun h _ => heven (by omega)⟩

/-- The exponent of the last bit of the mantissa to which a quotient is rounded. -/
def unitExponent (w : Width) (num den : Nat) : Int :=
  max w.minExponent (floorLog num den - w.fractionBits)

/-- The mantissa to which a quotient is rounded; it may have one bit too many. -/
def unitMantissa (w : Width) (num den : Nat) : Nat :=
  let (up, down) := powerOfTwo (unitExponent w num den)
  divRound (num * down) (den * up)

lemma cast_hidden : (w.hidden : ℚ) = 2 ^ (w.fractionBits : Int) := by
  simp [Width.hidden]

lemma unitMantissa_nearest (w : Width) (num : Nat) (hden : 0 < den) :
    IsNearest (Set.range Int.cast) (unitMantissa w num den % 2 = 0)
      (num / den / 2 ^ unitExponent w num den) (unitMantissa w num den) := by
  rw [← scaled_div]
  exact divRound_nearest (Nat.mul_pos hden (powerOfTwo_pos _).1)

section

variable (hnum : 0 < num) (hden : 0 < den)

include hnum hden

/-- There is room for the mantissa. -/
lemma div_unit_lt : (num / den / 2 ^ unitExponent w num den : ℚ) < 2 * w.hidden := by
  obtain ⟨-, hhigh⟩ := floorLog_spec hnum hden
  rw [cast_hidden, div_lt_iff₀ (by positivity), ← zpow_one_add₀ two_ne_zero,
    ← zpow_add₀ two_ne_zero]
  refine hhigh.trans_le (zpow_le_zpow_right₀ one_le_two ?_)
  rw [unitExponent]
  omega

/-- All the room is used, unless the exponent is the least one. -/
lemma hidden_le_div_unit (hne : unitExponent w num den ≠ w.minExponent) :
    (w.hidden : ℚ) ≤ num / den / 2 ^ unitExponent w num den := by
  obtain ⟨hlow, -⟩ := floorLog_spec hnum hden
  rw [cast_hidden, le_div_iff₀ (by positivity), ← zpow_add₀ two_ne_zero]
  refine le_trans (zpow_le_zpow_right₀ one_le_two ?_) hlow
  rw [unitExponent] at hne ⊢
  omega

lemma unitMantissa_le : unitMantissa w num den ≤ 2 * w.hidden := by
  have h := unitMantissa_nearest w num hden
  exact_mod_cast h.le (m := unitMantissa w num den) (b := (2 * w.hidden : Nat))
    (by push_cast; exact (div_unit_lt hnum hden).le)

lemma hidden_le_unitMantissa (hne : unitExponent w num den ≠ w.minExponent) :
    w.hidden ≤ unitMantissa w num den := by
  have h := unitMantissa_nearest w num hden
  exact_mod_cast h.ge (m := unitMantissa w num den) (b := w.hidden)
    (by exact_mod_cast hidden_le_div_unit hnum hden hne)

/-- A number within reach does not get the pattern of infinity. -/
lemma pattern_lt_infinity (hreach : (num / den : ℚ) < 2 ^ reach w) :
    (unitExponent w num den - w.minExponent).toNat * w.hidden + unitMantissa w num den <
      infinity w := by
  have hmantissa := unitMantissa_le (w := w) hnum hden
  by_cases hne : unitExponent w num den = w.minExponent
  · rw [hne, sub_self, Int.toNat_zero, Nat.zero_mul, Nat.zero_add]
    exact hmantissa.trans_lt (two_mul_hidden_lt_infinity w)
  · have hlog : floorLog num den < reach w :=
      (zpow_lt_zpow_iff_right₀ one_lt_two).1 ((floorLog_spec hnum hden).1.trans_lt hreach)
    have hexp : (unitExponent w num den - w.minExponent).toNat + 4 ≤ 2 ^ w.exponentBits := by
      rw [reach] at hlog
      rw [unitExponent] at hne ⊢
      omega
    calc _ ≤ ((unitExponent w num den - w.minExponent).toNat + 2) * w.hidden := by
          rw [Nat.add_mul]
          omega
      _ < (2 ^ w.exponentBits - 1) * w.hidden :=
          Nat.mul_lt_mul_of_pos_right (by omega) (hidden_pos w)

lemma roundMagnitude_eq (hreach : (num / den : ℚ) < 2 ^ reach w) :
    roundMagnitude w num den =
      (unitExponent w num den - w.minExponent).toNat * w.hidden + unitMantissa w num den := by
  rw [roundMagnitude, if_neg hnum.ne']
  exact min_eq_right (pattern_lt_infinity hnum hden hreach).le

/-- A rounded number is its mantissa times its unit. -/
lemma denoted_round (s : Bool) (hreach : (num / den : ℚ) < 2 ^ reach w) :
    (value w (round w s num den)).denoted =
      .number (signed s (unitMantissa w num den * 2 ^ unitExponent w num den)) := by
  have hexp : w.minExponent + (unitExponent w num den - w.minExponent).toNat =
      unitExponent w num den := by
    have hle : w.minExponent ≤ unitExponent w num den := le_max_left _ _
    omega
  obtain ⟨m, e, hvalue, hnumber⟩ := value_withSign s (unitMantissa_le (w := w) hnum hden)
    (fun hd => hidden_le_unitMantissa hnum hden (by omega)) (pattern_lt_infinity hnum hden hreach)
  rw [round, roundMagnitude_eq hnum hden hreach, hvalue, Value.denoted, hnumber, hexp]

end

end

/-! ### Rounding -/

section

variable {num den : Nat}

/-- The numbers whose mantissa has room in a float and whose exponent is not too small, however
great they are. -/
def representable (w : Width) : Set ℚ :=
  {q | ∃ (m : Nat) (e : Int), m < 2 * w.hidden ∧ w.minExponent ≤ e ∧ |q| = m * 2 ^ e}

lemma signed_mem_representable (s : Bool) (q : ℚ) :
    signed s q ∈ representable w ↔ q ∈ representable w := by
  simp only [representable, Set.mem_ofPred, abs_signed]

lemma representable_of_denoted {bits : BitVec w.bits} {q : ℚ}
    (h : (value w bits).denoted = .number q) : q ∈ representable w := by
  cases hv : value w bits with
  | nan => simp [hv, Value.denoted] at h
  | infinite s => simp [hv, Value.denoted] at h
  | finite s m e =>
    rw [hv, Value.denoted, Denoted.number.injEq] at h
    obtain ⟨hm, he, -⟩ := value_finite hv
    refine ⟨m, e, hm, he, ?_⟩
    rw [← h, abs_signed, abs_of_nonneg (by positivity)]

/-- Counted in units of the rounded number, a representable number is an integer or below the
mantissas in use. -/
lemma representable_div_unit (hnum : 0 < num) (hden : 0 < den) {q : ℚ} (hq : q ∈ representable w) :
    (∃ z : Int, q / 2 ^ unitExponent w num den = z) ∨
      q / 2 ^ unitExponent w num den < w.hidden ∧
        (w.hidden : ℚ) ≤ num / den / 2 ^ unitExponent w num den := by
  obtain ⟨m, e, hm, he, habs⟩ := hq
  rcases le_or_gt (unitExponent w num den) e with hle | hlt
  · obtain ⟨k, hk⟩ := Int.eq_ofNat_of_zero_le (sub_nonneg.2 hle)
    have hunits : |q| / 2 ^ unitExponent w num den = (m * 2 ^ k : Nat) := by
      rw [habs, mul_div_assoc, ← zpow_sub₀ two_ne_zero, hk, zpow_natCast]
      push_cast
      rfl
    left
    rcases abs_choice q with h | h <;> rw [h] at hunits
    · exact ⟨(m * 2 ^ k : Nat), hunits⟩
    · exact ⟨-(m * 2 ^ k : Nat), by rw [Int.cast_neg, Int.cast_natCast, ← hunits, neg_div, neg_neg]⟩
  · refine .inr ⟨?_, hidden_le_div_unit hnum hden (by omega)⟩
    rw [div_lt_iff₀ (by positivity)]
    have hm' : (m : ℚ) < 2 * w.hidden := by exact_mod_cast hm
    calc q ≤ m * 2 ^ e := (le_abs_self q).trans_eq habs
      _ < 2 * w.hidden * 2 ^ e := by gcongr
      _ = w.hidden * 2 ^ (e + 1) := by
        rw [zpow_add_one₀ two_ne_zero]
        ring
      _ ≤ w.hidden * 2 ^ unitExponent w num den := by
        gcongr
        · exact one_le_two
        · exact hlt

lemma magnitude_round_mod_two (s : Bool) (hnum : 0 < num) (hden : 0 < den)
    (hreach : (num / den : ℚ) < 2 ^ reach w) :
    magnitude w (round w s num den) % 2 = unitMantissa w num den % 2 := by
  have hlt := (pattern_lt_infinity hnum hden hreach).trans (infinity_lt_signBit w)
  rw [round, roundMagnitude_eq hnum hden hreach, magnitude_withSign s hlt, Nat.add_mod,
    Nat.mod_eq_zero_of_dvd ((two_dvd_hidden w).mul_left _), Nat.zero_add, Nat.mod_mod]

lemma denoted_round_zero (s : Bool) : (value w (round w s 0 den)).denoted = .number 0 := by
  obtain ⟨m, e, hvalue, hzero⟩ := value_withSign (w := w) s (d := 0) (m := 0) (Nat.zero_le _)
    (fun h => absurd rfl h) (by have := two_mul_hidden_lt_infinity w; omega)
  rw [Nat.zero_mul] at hvalue
  rw [round, roundMagnitude, if_pos rfl, hvalue, Value.denoted, hzero]
  simp

/-- The mantissa is the nearest one, not only of those that have the same unit. -/
lemma unit_nearest (hnum : 0 < num) (hden : 0 < den) :
    IsNearest (representable w) (unitMantissa w num den % 2 = 0) (num / den)
      (unitMantissa w num den * 2 ^ unitExponent w num den) := by
  intro z hz
  have hnear := unitMantissa_nearest w num hden
  have hunits := representable_div_unit hnum hden hz
  have hpos : (0 : ℚ) < 2 ^ unitExponent w num den := by positivity
  generalize (2 : ℚ) ^ unitExponent w num den = u at *
  have hscale (y : ℚ) : |y * u - num / den| = |y - num / den / u| * u := by
    rw [← abs_of_pos hpos, ← abs_mul, abs_of_pos hpos, sub_mul, div_mul_cancel₀ _ hpos.ne']
  obtain ⟨y, rfl⟩ : ∃ y, z = y * u := ⟨z / u, (div_mul_cancel₀ _ hpos.ne').symm⟩
  rw [mul_div_cancel_right₀ _ hpos.ne'] at hunits
  rw [hscale, hscale, mul_le_mul_iff_left₀ hpos, mul_left_inj' hpos.ne', ne_eq,
    mul_left_inj' hpos.ne']
  rcases hunits with ⟨z, rfl⟩ | ⟨hbelow, hhidden⟩
  · exact hnear z ⟨z, rfl⟩
  · -- the leading bit alone is nearer than what is below it
    have hle := (hnear w.hidden ⟨w.hidden, Int.cast_natCast _⟩).1
    have hlt : |(w.hidden : ℚ) - num / den / u| < |y - num / den / u| := by
      rw [abs_of_nonpos (by linarith), abs_of_nonpos (by linarith)]
      linarith
    exact ⟨(hle.trans_lt hlt).le, fun h _ => absurd h (hle.trans_lt hlt).ne⟩

/-- **Rounding**: the float of a number is the nearest one, and its pattern is even if another one
is as near. -/
theorem round_nearest (s : Bool) (hden : 0 < den) (hreach : (num / den : ℚ) < 2 ^ reach w) :
    ∃ q, (value w (round w s num den)).denoted = .number q ∧
      IsNearest (representable w) (magnitude w (round w s num den) % 2 = 0)
        (signed s (num / den)) q := by
  rcases Nat.eq_zero_or_pos num with rfl | hnum
  · refine ⟨0, denoted_round_zero s, ?_⟩
    rw [Nat.cast_zero, zero_div, signed_zero]
    exact .self _ _ _
  · refine ⟨_, denoted_round hnum hden s hreach, ?_⟩
    rw [magnitude_round_mod_two s hnum hden hreach]
    exact (unit_nearest hnum hden).signed s fun q => (signed_mem_representable s q).2

/-- A representable number within reach is not changed. -/
theorem round_exact (s : Bool) (hden : 0 < den) (hreach : (num / den : ℚ) < 2 ^ reach w)
    (h : (num / den : ℚ) ∈ representable w) :
    (value w (round w s num den)).denoted = .number (signed s (num / den)) := by
  obtain ⟨q, hvalue, hnear⟩ := round_nearest s hden hreach
  rw [hvalue, hnear.eq_of_mem ((signed_mem_representable s _).2 h)]

end

/-! ### Conversions -/

lemma signed_natAbs (n : Int) : signed (n < 0) n.natAbs = n := by
  rcases lt_or_ge n 0 with h | h
  · rw [signed, if_pos (decide_eq_true h), ← Int.cast_natCast, Int.ofNat_natAbs_of_nonpos h.le,
      Int.cast_neg, neg_neg]
  · rw [signed, if_neg (by simpa using h), ← Int.cast_natCast, Int.natAbs_of_nonneg h]

/-- An integer has no more bits than a mantissa, from the first to the last one that is set. -/
def FitsMantissa (w : Width) (n : Int) : Prop :=
  ∃ m k : Nat, m < 2 ^ (w.fractionBits + 1) ∧ n.natAbs = m * 2 ^ k

/-- The integers among the representable numbers. -/
lemma intCast_mem_representable (n : Int) :
    (n : ℚ) ∈ representable w ↔ FitsMantissa w n := by
  rw [FitsMantissa, ← two_mul_hidden]
  have habs : |(n : ℚ)| = n.natAbs := by rw [Nat.cast_natAbs, Int.cast_abs]
  constructor
  · rintro ⟨m, e, hm, -, hn⟩
    rw [habs] at hn
    rcases le_total 0 e with he | he
    · obtain ⟨k, rfl⟩ := Int.eq_ofNat_of_zero_le he
      exact ⟨m, k, hm, by exact_mod_cast hn⟩
    · -- with a negative exponent the integer itself is a mantissa
      have hle : (n.natAbs : ℚ) ≤ m := by
        rw [hn]
        exact mul_le_of_le_one_right (Nat.cast_nonneg m) (zpow_le_one_of_nonpos₀ one_le_two he)
      exact ⟨n.natAbs, 0, lt_of_le_of_lt (by exact_mod_cast hle) hm, by simp⟩
  · rintro ⟨m, k, hm, hn⟩
    have he : w.minExponent ≤ 0 := by cases w <;> decide
    refine ⟨m, k, hm, by omega, ?_⟩
    rw [habs, hn, zpow_natCast]
    push_cast
    rfl

/-- **Integers**: the float of an integer is the nearest one, and its pattern is even if another one
is as near. -/
theorem ofInt_nearest {n : Int} (h : n.natAbs < 2 ^ 127) :
    ∃ q, (value w (ofInt w n)).denoted = .number q ∧
      IsNearest (representable w) (magnitude w (ofInt w n) % 2 = 0) n q := by
  have hreach : ((n.natAbs : Nat) / (1 : Nat) : ℚ) < 2 ^ reach w := by
    have hle : (127 : Int) ≤ reach w := by cases w <;> decide
    rw [Nat.cast_one, div_one]
    refine lt_of_lt_of_le ?_ (zpow_le_zpow_right₀ one_le_two hle)
    exact_mod_cast h
  obtain ⟨q, hq, hnear⟩ := round_nearest (n < 0) one_pos hreach
  rw [Nat.cast_one, div_one, signed_natAbs] at hnear
  exact ⟨q, hq, hnear⟩

/-- An integer keeps its value as a float just where it is representable. -/
theorem ofInt_exact_iff {n : Int} (h : n.natAbs < 2 ^ 127) :
    (value w (ofInt w n)).denoted = .number n ↔ (n : ℚ) ∈ representable w := by
  obtain ⟨q, hq, hnear⟩ := ofInt_nearest (w := w) h
  refine ⟨representable_of_denoted, fun hn => ?_⟩
  rw [hq, hnear.eq_of_mem hn]

/-- A float keeps its meaning in the wider format. -/
theorem ofValue_exact (bits : BitVec Width.w32.bits) :
    (value .w64 (ofValue .w64 (value .w32 bits))).denoted = (value .w32 bits).denoted := by
  cases hv : value .w32 bits with
  | nan => rw [ofValue, value_nan]
  | infinite s => rw [ofValue, value_infinity]
  | finite s m e =>
    obtain ⟨hm, hlow, hhigh⟩ := value_finite hv
    have hquot : ((m * (powerOfTwo e).1 : Nat) / (powerOfTwo e).2 : ℚ) = m * 2 ^ e := by
      rw [Nat.cast_mul, mul_div_assoc, powerOfTwo_div]
    have hmem : (m * 2 ^ e : ℚ) ∈ representable .w64 :=
      ⟨m, e, hm.trans_le (by decide), le_trans (by decide) hlow, abs_of_nonneg (by positivity)⟩
    have hreach : (m * 2 ^ e : ℚ) < 2 ^ reach .w64 := by
      have hm' : (m : ℚ) < 2 ^ (24 : Int) := by exact_mod_cast hm
      have hexp : 24 + e ≤ reach .w64 := by
        have hnarrow : reach .w32 = 127 := rfl
        have hwide : reach .w64 = 1023 := rfl
        have hfraction : Width.w32.fractionBits = 23 := rfl
        omega
      calc (m * 2 ^ e : ℚ) < 2 ^ (24 : Int) * 2 ^ e := by gcongr
        _ = 2 ^ (24 + e) := (zpow_add₀ two_ne_zero _ _).symm
        _ ≤ 2 ^ reach .w64 := zpow_le_zpow_right₀ one_le_two hexp
    rw [← hquot] at hreach hmem
    rw [Value.denoted, ← hquot]
    exact round_exact s (powerOfTwo_pos e).2 hreach hmem

end AnnotatedWasm.Ieee
