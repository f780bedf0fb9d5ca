import AnnotatedWasm.Number.Numeral
import Mathlib

/-!
Numbers as they are written, and the values they are read as.

An integer has the radix that its mark names, or ten, and its value is that of its digits in this
radix; underscores may stand among them. A number with a fraction or an exponent is a float. An
integer is read as its value if it has a digit and is in range (`ofText?_integer`), and no float
is read as an integer (`ofText?_float`).
-/

namespace AnnotatedWasm

namespace Numeral

/-! ### Digits -/

def lowerDigits : List Char :=
  ['0', '1', '2', '3', '4', '5', '6', '7', '8', '9', 'a', 'b', 'c', 'd', 'e', 'f']

def upperDigits : List Char :=
  ['0', '1', '2', '3', '4', '5', '6', '7', '8', '9', 'A', 'B', 'C', 'D', 'E', 'F']

/-- The place of a digit among the sixteen, in small letters or in capitals. What is no digit comes
behind all of them. -/
def place (c : Char) : Nat := min (lowerDigits.idxOf c) (upperDigits.idxOf c)

lemma mem_digits {c : Char} (h : place c < 16) : c ∈ lowerDigits ++ upperDigits := by
  rw [place, min_lt_iff] at h
  exact List.mem_append.mpr (h.imp List.idxOf_lt_length_iff.mp List.idxOf_lt_length_iff.mp)

lemma digitValue_eq_place {c : Char} (h : place c < 16) : digitValue c = place c := by
  have hall : (lowerDigits ++ upperDigits).all (fun d => digitValue d = place d) = true := by
    decide +kernel
  exact of_decide_eq_true (List.all_eq_true.mp hall c (mem_digits h))

/-- The value of digits, the most significant first. -/
lemma ofDigits_eq {radix : Nat} {ds : List Char} (h : ∀ c ∈ ds, place c < 16) :
    ofDigits radix ds = Nat.ofDigits radix (ds.map place).reverse := by
  have hplaces : ds.map place = ds.map digitValue :=
    List.map_congr_left fun c hc => (digitValue_eq_place (h c hc)).symm
  rw [Nat.ofDigits_eq_foldr, List.foldr_reverse, hplaces, List.foldl_map, ofDigits]
  congr 1
  funext n c
  rw [Nat.mul_comm, Nat.add_comm]
  rfl

/-- Digits of a radix, with underscores among them. -/
def IsRun (base : Nat) (cs : List Char) : Prop := ∀ c ∈ cs, place c < base ∨ c = '_'

/-- The first character is a decimal digit. -/
def StartsWithDigit (cs : List Char) : Prop := ∃ c ∈ cs.head?, place c < 10

/-! ### Written numbers -/

/-- The radixes that have a mark. -/
inductive Radix where
  | binary
  | octal
  | hexadecimal

namespace Radix

def base : Radix → Nat
  | binary => 2
  | octal => 8
  | hexadecimal => 16

/-- The letter behind the leading zero, which may be a capital. -/
def letter : Radix → Bool → Char
  | binary, false => 'b'
  | binary, true => 'B'
  | octal, false => 'o'
  | octal, true => 'O'
  | hexadecimal, false => 'x'
  | hexadecimal, true => 'X'

end Radix

/-- A number without fraction and exponent. Behind a mark underscores may come first. -/
structure WrittenInteger where
  mark : Option (Radix × Bool)
  digits : List Char
  run : IsRun (mark.elim 10 (·.1.base)) digits
  start : mark.elim (StartsWithDigit digits) fun _ => digits ≠ []

namespace WrittenInteger

def base (w : WrittenInteger) : Nat := w.mark.elim 10 (·.1.base)

def chars (w : WrittenInteger) : List Char :=
  (w.mark.elim [] fun (r, capital) => ['0', r.letter capital]) ++ w.digits

def text (w : WrittenInteger) : String := String.ofList w.chars

/-- The digits without the underscores. -/
def significant (w : WrittenInteger) : List Char := w.digits.filter (· ≠ '_')

/-- The number that the digits stand for in their radix. -/
def value (w : WrittenInteger) : Nat := Nat.ofDigits w.base (w.significant.map place).reverse

end WrittenInteger

/-- A letter, perhaps a sign, and decimal digits. -/
inductive IsExponent : List Char → Prop
  | mk {e : Char} {sign ds : List Char} : e ∈ ['e', 'E'] → sign ∈ [[], ['+'], ['-']] → ds ≠ [] →
      (∀ c ∈ ds, place c < 10) → IsExponent (e :: (sign ++ ds))

/-- A number with a fraction, an exponent or both. -/
structure WrittenFloat where
  whole : List Char
  fraction : Option (List Char)
  exponent : Option (List Char)
  parts : fraction ≠ none ∨ exponent ≠ none
  whole_run : IsRun 10 whole
  fraction_run : ∀ f ∈ fraction, IsRun 10 f
  exponent_form : ∀ e ∈ exponent, IsExponent e
  start : StartsWithDigit whole ∨ whole = [] ∧ ∃ f ∈ fraction, StartsWithDigit f

namespace WrittenFloat

def chars (w : WrittenFloat) : List Char :=
  w.whole ++ w.fraction.elim [] ('.' :: ·) ++ w.exponent.getD []

def text (w : WrittenFloat) : String := String.ofList w.chars

end WrittenFloat

/-! ### Reading -/

/-- An integer is read from digits if there is one and the value is in range. -/
lemma int?_eq {base : Nat} {ds : List Char} (h : ∀ c ∈ ds, place c < 16) :
    int? base ds = if ds = [] ∨ 2 ^ 63 ≤ Nat.ofDigits base (ds.map place).reverse then none
      else some (.int (Nat.ofDigits base (ds.map place).reverse : Nat)) := by
  have hrange : Width.w64.signBit = 2 ^ 63 := by decide
  simp only [int?, ofDigits_eq h, hrange, Bool.or_eq_true, List.isEmpty_iff, decide_eq_true_eq]

/-- What may stand in a number without a mark. -/
def InDecimal (c : Char) : Prop := place c < 10 ∨ c ∈ ['.', 'e', 'E', '+', '-']

/-- Where nothing but that stands, there is no mark to be found. -/
lemma ofChars?_decimal {cs : List Char} (h : ∀ c ∈ cs, InDecimal c) :
    ofChars? cs = if cs.any (fun c => c = '.' || isExponentMark c) then some (float (float64 cs))
      else int? 10 cs := by
  unfold ofChars?
  split
  case h_7 => rfl
  all_goals exact absurd (h _ (.tail _ (.head _))) (by unfold InDecimal; decide +kernel)

lemma mem_significant {base : Nat} {ds : List Char} (h : IsRun base ds) :
    ∀ c ∈ ds.filter (· ≠ '_'), place c < base := by
  intro c hc
  obtain ⟨hc, hne⟩ := List.mem_filter.mp hc
  exact (h c hc).resolve_right (of_decide_eq_true hne)

lemma WrittenInteger.base_le (w : WrittenInteger) : w.base ≤ 16 := by
  unfold WrittenInteger.base
  rcases w.mark with _ | ⟨_ | _ | _, _⟩ <;> simp [Radix.base]

/-- **Integers**: a written integer is read as its value if it has a digit and fits into 64 signed
bits, and as nothing else. -/
lemma ofText?_integer (w : WrittenInteger) :
    ofText? w.text = if w.significant = [] ∨ 2 ^ 63 ≤ w.value then none
      else some (.int w.value) := by
  have hplaces : ∀ c ∈ w.significant, place c < w.base := mem_significant w.run
  have hread : ofText? w.text = int? w.base w.significant := by
    obtain ⟨_ | ⟨r, capital⟩, digits, run, start⟩ := w
    · rw [ofText?, WrittenInteger.text, String.toList_ofList, WrittenInteger.chars]
      refine (ofChars?_decimal fun c hc => .inl (hplaces c hc)).trans (if_neg ?_)
      rw [Bool.not_eq_true, List.any_eq_false]
      intro c hc hmark
      have hlt : place c < 10 := hplaces c hc
      simp only [isExponentMark, Bool.or_eq_true, decide_eq_true_eq] at hmark
      rcases hmark with rfl | rfl | rfl <;> exact absurd hlt (by decide +kernel)
    · rw [ofText?, WrittenInteger.text, String.toList_ofList, WrittenInteger.chars]
      cases r <;> cases capital <;> rfl
  rw [hread, int?_eq fun c hc => (hplaces c hc).trans_le w.base_le]
  rfl

lemma IsExponent.inDecimal {e : List Char} (h : IsExponent e) : ∀ c ∈ e, InDecimal c := by
  obtain ⟨he, hsign, -, hds⟩ := h
  intro c hc
  simp only [List.mem_cons, List.mem_append] at hc
  rcases hc with rfl | hc | hc
  · exact .inr (by simp only [List.mem_cons, List.not_mem_nil, or_false] at he ⊢; tauto)
  · simp only [List.mem_cons, List.not_mem_nil, or_false] at hsign
    rcases hsign with rfl | rfl | rfl
    · cases hc
    all_goals exact .inr (by simp [List.mem_singleton.mp hc])
  · exact .inl (hds c hc)

lemma WrittenFloat.inDecimal (w : WrittenFloat) : ∀ c ∈ w.chars, InDecimal c ∨ c = '_' := by
  intro c hc
  rw [chars, List.mem_append, List.mem_append] at hc
  rcases hc with (hc | hc) | hc
  · exact (w.whole_run c hc).imp_left .inl
  · rcases hf : w.fraction with _ | f
    · rw [hf] at hc
      cases hc
    · rw [hf] at hc
      rcases List.mem_cons.mp hc with rfl | hc
      · exact .inl (.inr (by decide))
      · exact (w.fraction_run f hf c hc).imp_left .inl
  · rcases he : w.exponent with _ | e
    · rw [he] at hc
      cases hc
    · rw [he] at hc
      exact .inl ((w.exponent_form e he).inDecimal c hc)

/-- The point or the letter of a float. -/
lemma WrittenFloat.exists_mark (w : WrittenFloat) : ∃ c ∈ w.chars, c = '.' ∨ isExponentMark c := by
  rcases w.parts with h | h
  · obtain ⟨f, hf⟩ := Option.ne_none_iff_exists'.mp h
    exact ⟨'.', by simp [chars, hf], .inl rfl⟩
  · obtain ⟨e, he⟩ := Option.ne_none_iff_exists'.mp h
    obtain @⟨mark, _, _, hmark, -, -, -⟩ := w.exponent_form e he
    exact ⟨mark, by simp [chars, he], .inr (by simpa [isExponentMark] using hmark)⟩

/-- **Floats**: a written float is read as one. -/
lemma ofText?_float (w : WrittenFloat) : ∃ bits, ofText? w.text = some (.float bits) := by
  have hdecimal : ∀ c ∈ w.chars.filter (· ≠ '_'), InDecimal c := by
    intro c hc
    obtain ⟨hc, hne⟩ := List.mem_filter.mp hc
    exact (w.inDecimal c hc).resolve_right (of_decide_eq_true hne)
  have hany : (w.chars.filter (· ≠ '_')).any (fun c => c = '.' || isExponentMark c) = true := by
    obtain ⟨c, hc, hmark⟩ := w.exists_mark
    refine List.any_eq_true.mpr ⟨c, List.mem_filter.mpr ⟨hc, ?_⟩, by simpa using hmark⟩
    rcases hmark with rfl | hmark
    · rfl
    · rw [decide_eq_true_eq]
      rintro rfl
      cases hmark
  rw [ofText?, WrittenFloat.text, String.toList_ofList, ofChars?_decimal hdecimal, hany]
  exact ⟨_, rfl⟩

end Numeral

end AnnotatedWasm
