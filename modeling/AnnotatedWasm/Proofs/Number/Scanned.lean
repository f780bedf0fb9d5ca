import AnnotatedWasm.Proofs.Layout.Tiling
import AnnotatedWasm.Proofs.Number.Written

/-!
The numbers of a source are written numbers.

The scanner takes the longest number that starts at a place. Each of its parts is a run of
characters, so what it takes is a written integer or a written float (`measure_written`), and so is
each number token (`lexemes_written`).
-/

namespace AnnotatedWasm

namespace Scan

open Numeral

/-! ### Classes of characters -/

/-- A range of characters is passed through one by one. -/
lemma exists_of_range {lo hi c : Char} (h : lo ≤ c ∧ c ≤ hi) :
    ∃ k < hi.toNat - lo.toNat + 1, c = Char.ofNat (lo.toNat + k) := by
  have hlo : lo.toNat ≤ c.toNat := h.1
  have hhi : c.toNat ≤ hi.toNat := h.2
  refine ⟨c.toNat - lo.toNat, by omega, ?_⟩
  rw [Nat.add_sub_cancel' hlo, Char.ofNat_toNat]

/-- The characters of a range are digits of a radix if all of them are. -/
lemma place_lt_of_range {lo hi c : Char} {base : Nat} (h : lo ≤ c ∧ c ≤ hi)
    (hall : (List.range (hi.toNat - lo.toNat + 1)).all
      (fun k => place (Char.ofNat (lo.toNat + k)) < base) = true) : place c < base := by
  obtain ⟨k, hk, rfl⟩ := exists_of_range h
  exact of_decide_eq_true (List.all_eq_true.mp hall k (List.mem_range.mpr hk))

lemma place_of_isDigit {c : Char} (h : isDigit c = true) : place c < 10 := by
  simp only [isDigit, Bool.and_eq_true, decide_eq_true_eq] at h
  exact place_lt_of_range h (by decide +kernel)

lemma isRun_takeWhile (cs : List Char) : IsRun 10 (cs.takeWhile isDigitOrBar) := by
  intro c hc
  have h := List.mem_takeWhile_imp hc
  simp only [isDigitOrBar, Bool.or_eq_true, decide_eq_true_eq] at h
  exact h.imp_left place_of_isDigit

/-- Behind the letter of a radix come its digits. -/
lemma exists_radix {r : Char} {p : Char → Bool} (h : radixDigit? r = some p) :
    ∃ (radix : Radix) (capital : Bool), radix.letter capital = r ∧
      ∀ c, p c = true → place c < radix.base ∨ c = '_' := by
  have hex (c : Char)
      (hc : (isDigitOrBar c || ('a' ≤ c && c ≤ 'f') || ('A' ≤ c && c ≤ 'F')) = true) :
      place c < 16 ∨ c = '_' := by
    simp only [isDigitOrBar, Bool.or_eq_true, Bool.and_eq_true, decide_eq_true_eq] at hc
    rcases hc with ((hc | hc) | hc) | hc
    · exact .inl ((place_of_isDigit hc).trans (by decide))
    · exact .inr hc
    · exact .inl (place_lt_of_range hc (by decide +kernel))
    · exact .inl (place_lt_of_range hc (by decide +kernel))
  have octal (c : Char) (hc : (('0' ≤ c && c ≤ '7') || c = '_') = true) :
      place c < 8 ∨ c = '_' := by
    simp only [Bool.or_eq_true, Bool.and_eq_true, decide_eq_true_eq] at hc
    exact hc.imp_left fun hc => place_lt_of_range hc (by decide +kernel)
  have binary (c : Char) (hc : (c = '0' || c = '1' || c = '_') = true) :
      place c < 2 ∨ c = '_' := by
    simp only [Bool.or_eq_true, decide_eq_true_eq] at hc
    rcases hc with (rfl | rfl) | hc
    · exact .inl (by decide +kernel)
    · exact .inl (by decide +kernel)
    · exact .inr hc
  unfold radixDigit? at h
  split at h <;> cases h
  · exact ⟨.hexadecimal, false, rfl, hex⟩
  · exact ⟨.hexadecimal, true, rfl, hex⟩
  · exact ⟨.octal, false, rfl, octal⟩
  · exact ⟨.octal, true, rfl, octal⟩
  · exact ⟨.binary, false, rfl, binary⟩
  · exact ⟨.binary, true, rfl, binary⟩

/-! ### Parts of a number -/

lemma exists_fraction (cs : List Char) : ∃ fraction : Option (List Char),
    cs.take (fractionLength cs) = fraction.elim [] ('.' :: ·) ∧ ∀ f ∈ fraction, IsRun 10 f := by
  unfold fractionLength
  split
  · next cs =>
    refine ⟨some (cs.takeWhile isDigitOrBar), ?_, fun f hf => ?_⟩
    · rw [Nat.add_comm, List.take_succ_cons, take_runLength]
      rfl
    · cases hf
      exact isRun_takeWhile cs
  · exact ⟨none, rfl, nofun⟩

lemma isExponent_takeWhile {e : Char} (he : (e = 'e' || e = 'E') = true) (sign : List Char)
    {ds : List Char} (hsign : sign ∈ [[], ['+'], ['-']]) (hds : runLength isDigit ds ≠ 0) :
    IsExponent (e :: (sign ++ ds.takeWhile isDigit)) := by
  refine .mk (by simpa using he) hsign (List.ne_nil_of_length_pos (Nat.pos_of_ne_zero hds)) ?_
  exact fun c hc => place_of_isDigit (List.mem_takeWhile_imp hc)

lemma exists_exponent (cs : List Char) : ∃ exponent : Option (List Char),
    cs.take (exponentLength cs) = exponent.getD [] ∧ ∀ e ∈ exponent, IsExponent e := by
  have hnone : ∃ exponent : Option (List Char),
      cs.take 0 = exponent.getD [] ∧ ∀ e ∈ exponent, IsExponent e := ⟨none, rfl, nofun⟩
  unfold exponentLength
  split
  · split
    · next he =>
      split
      · next s ds =>
        split
        · next hs =>
          split
          · exact hnone
          · next hds =>
            have hform := isExponent_takeWhile he [s] (by simpa using hs) hds
            refine ⟨some _, ?_, fun _ hx => Option.some.inj hx ▸ hform⟩
            rw [Nat.add_comm, List.take_succ_cons, List.take_succ_cons, take_runLength]
            rfl
        · split
          · exact hnone
          · next hds =>
            have hform := isExponent_takeWhile he [] (.head _) hds
            refine ⟨some _, ?_, fun _ hx => Option.some.inj hx ▸ hform⟩
            rw [Nat.add_comm, List.take_succ_cons, take_runLength]
            rfl
      · exact hnone
    · exact hnone
  · exact hnone

/-! ### Numbers -/

/-- The characters are those of a written number. -/
def IsWritten (cs : List Char) : Prop :=
  (∃ w : WrittenInteger, w.chars = cs) ∨ ∃ w : WrittenFloat, w.chars = cs

/-- Digits, and behind them perhaps a fraction and an exponent. -/
lemma isWritten_parts (whole : List Char) (fraction : Option (List Char))
    {exponent : Option (List Char)} (hwhole : IsRun 10 whole)
    (hfraction : ∀ f ∈ fraction, IsRun 10 f) (hexponent : ∀ e ∈ exponent, IsExponent e)
    (hstart : StartsWithDigit whole ∨ whole = [] ∧ ∃ f ∈ fraction, StartsWithDigit f) :
    IsWritten (whole ++ fraction.elim [] ('.' :: ·) ++ exponent.getD []) := by
  by_cases hparts : fraction ≠ none ∨ exponent ≠ none
  · exact .inr ⟨⟨whole, fraction, exponent, hparts, hwhole, hfraction, hexponent, hstart⟩, rfl⟩
  · push Not at hparts
    obtain ⟨rfl, rfl⟩ := hparts
    have hdigit : StartsWithDigit whole := by
      rcases hstart with h | ⟨-, _, h, -⟩
      · exact h
      · cases h
    exact .inl ⟨⟨none, whole, hwhole, hdigit⟩, by simp [WrittenInteger.chars]⟩

lemma isRun_cons_digit {c : Char} {cs : List Char} (hc : isDigit c = true) (hcs : IsRun 10 cs) :
    IsRun 10 (c :: cs) :=
  List.forall_mem_cons.mpr ⟨.inl (place_of_isDigit hc), hcs⟩

lemma isWritten_decimal {c : Char} (hc : isDigit c = true) (cs : List Char) :
    IsWritten (c :: cs.take (decimalLength cs)) := by
  obtain ⟨fraction, hfraction, hruns⟩ := exists_fraction (cs.drop (runLength isDigitOrBar cs))
  obtain ⟨exponent, hexponent, hforms⟩ := exists_exponent (cs.drop (runLength isDigitOrBar cs +
    fractionLength (cs.drop (runLength isDigitOrBar cs))))
  have h := isWritten_parts _ _ (isRun_cons_digit hc (isRun_takeWhile cs)) hruns hforms
    (.inl ⟨c, rfl, place_of_isDigit hc⟩)
  rw [← hfraction, ← hexponent, ← take_runLength] at h
  rwa [decimalLength, List.take_add, List.take_add, ← List.cons_append, ← List.cons_append]

lemma isWritten_number {c : Char} (hc : isDigit c = true) (cs : List Char) :
    IsWritten (c :: cs.take (numberLength c cs)) := by
  cases cs with
  | nil => exact isWritten_decimal hc []
  | cons r ds =>
    rw [numberLength]
    split
    · next hzero =>
      subst hzero
      cases hr : radixDigit? r with
      | none => exact isWritten_decimal hc (r :: ds)
      | some p =>
        simp only
        split
        · exact isWritten_decimal hc (r :: ds)
        · next hlength =>
          obtain ⟨radix, capital, rfl, hp⟩ := exists_radix hr
          rw [Nat.add_comm, List.take_succ_cons, take_runLength]
          exact .inl ⟨⟨some (radix, capital), ds.takeWhile p,
            fun c hc => hp c (List.mem_takeWhile_imp hc),
            List.ne_nil_of_length_pos (Nat.pos_of_ne_zero hlength)⟩, rfl⟩
    · exact isWritten_decimal hc (r :: ds)

lemma isWritten_point {d : Char} (hd : isDigit d = true) (ds : List Char) :
    IsWritten ('.' :: (d :: ds).take (pointLength (d :: ds))) := by
  obtain ⟨exponent, hexponent, hforms⟩ :=
    exists_exponent ((d :: ds).drop (runLength isDigitOrBar (d :: ds)))
  have hstart : StartsWithDigit ((d :: ds).takeWhile isDigitOrBar) :=
    ⟨d, by simp [isDigitOrBar, hd], place_of_isDigit hd⟩
  have h := isWritten_parts [] (some ((d :: ds).takeWhile isDigitOrBar))
    (fun _ hc => by cases hc) (fun f hf => Option.some.inj hf ▸ isRun_takeWhile _) hforms
    (.inr ⟨rfl, _, rfl, hstart⟩)
  rw [← hexponent, ← take_runLength] at h
  rw [pointLength, List.take_add]
  exact h

/-- **The scanner**: what is taken for a number is a written one. -/
lemma measure_written {c : Char} {cs : List Char} {n : Nat} (h : measure c cs = (.number, n)) :
    IsWritten (c :: cs.take n) := by
  obtain ⟨hc, rfl⟩ | ⟨rfl, d, ds, rfl, hd, rfl⟩ := measure_eq_number.mp h
  · exact isWritten_number hc cs
  · exact isWritten_point hd ds

lemma token?_eq_number {piece : Piece} {s text : String}
    (h : piece.token? s = some (.number text)) : piece = .number ∧ s = text := by
  cases piece
  case number => cases h; exact ⟨rfl, rfl⟩
  case word => rw [Piece.token?] at h; split at h <;> cases h
  all_goals cases h

lemma scanFrom_written (offset indent : Nat) (cs : List Char) :
    ∀ l ∈ scanFrom offset indent cs, ∀ text, l.token = .number text → IsWritten text.toList := by
  fun_induction scanFrom offset indent cs with
  | case1 => exact List.forall_mem_nil _
  | case2 offset indent c cs found text rest stop later token htoken ih =>
    refine List.forall_mem_cons.mpr ⟨?_, ih⟩
    rintro number rfl
    obtain ⟨hpiece, rfl⟩ := token?_eq_number htoken
    rw [String.toList_ofList]
    exact measure_written (Prod.ext hpiece rfl)
  | case3 offset indent c cs found text rest stop later htoken ih => exact ih

end Scan

/-- Every number token of a source is a written number. -/
lemma Layout.lexemes_written {source text : String} {l : Lexeme} (hl : l ∈ lexemes source)
    (htext : l.token = .number text) :
    (∃ w : Numeral.WrittenInteger, w.text = text) ∨ ∃ w : Numeral.WrittenFloat, w.text = text := by
  rcases mem_run hl with h | h | h
  · cases h
  · obtain ⟨placed, hplaced, rfl⟩ := List.mem_map.mp h
    have hwritten := Scan.scanFrom_written _ _ _ placed hplaced text htext
    refine hwritten.imp (fun ⟨w, hw⟩ => ⟨w, ?_⟩) fun ⟨w, hw⟩ => ⟨w, ?_⟩
    · rw [Numeral.WrittenInteger.text, hw, String.ofList_toList]
    · rw [Numeral.WrittenFloat.text, hw, String.ofList_toList]
  · simp [addedTokens, htext] at h

end AnnotatedWasm
