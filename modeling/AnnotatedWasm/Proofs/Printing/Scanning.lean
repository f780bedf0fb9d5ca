import Mathlib
import AnnotatedWasm.Proofs.Printing.Printer

/-!
Scanning a text that was written from tokens.

Each token is measured as a whole as long as what follows cannot be part of it. `Stops t rest`
says that for the token `t`, and the blanks of a written line see to it.
-/

namespace AnnotatedWasm.Scan

open Syntax

variable {c : Char} {cs rest : List Char}

/-! ### Runs of characters -/

/-- The first character of `rest`, if there is one, fails `p`. -/
def Ends (p : Char → Bool) (rest : List Char) : Prop := ∀ c ∈ rest.head?, p c = false

@[simp] theorem ends_nil (p : Char → Bool) : Ends p [] := by simp [Ends]

@[simp] theorem ends_cons {p : Char → Bool} :
    Ends p (c :: cs) ↔ p c = false := by simp [Ends]

theorem Ends.mono {p q : Char → Bool} (h : Ends p rest)
    (hpq : ∀ c, q c = true → p c = true) : Ends q rest := by
  intro c hc
  have hp := h c hc
  by_contra hq
  rw [hpq c (by simpa using hq)] at hp
  cases hp

theorem runLength_append {p : Char → Bool} (cs : List Char) (h : Ends p rest) :
    runLength p (cs ++ rest) = runLength p cs := by
  induction cs with
  | nil =>
    cases rest with
    | nil => rfl
    | cons c rest => simp [runLength, ends_cons.1 h]
  | cons c cs ih =>
    simp only [runLength, List.cons_append, List.takeWhile_cons] at ih ⊢
    split <;> simp [ih]

theorem runLength_all {p : Char → Bool} (h : ∀ c ∈ cs, p c = true) :
    runLength p cs = cs.length := by
  rw [runLength, List.takeWhile_eq_self_iff.2 h]

theorem runLength_le (p : Char → Bool) (cs : List Char) : runLength p cs ≤ cs.length :=
  (List.takeWhile_sublist p).length_le

/-! ### Words -/

theorem isBlank_of_isWordStart (h : isWordStart c = true) : isBlank c = false := by
  rw [Bool.eq_false_iff]
  intro hb
  simp only [isBlank, Bool.or_eq_true, decide_eq_true_eq] at hb
  rcases hb with (rfl | rfl) | rfl <;> exact absurd h (by decide)

theorem measure_word (hc : isWordStart c = true)
    (hcs : ∀ d ∈ cs, isWordPart d = true) (hrest : Ends isWordPart rest) :
    measure c (cs ++ rest) = (.word, cs.length) := by
  simp only [measure, isBlank_of_isWordStart hc, hc, if_true, Bool.false_eq_true, if_false]
  rw [runLength_append _ hrest, runLength_all hcs]

/-! ### Numbers -/

/-- A character that could go on a number. -/
def inNumber (c : Char) : Bool := isWordPart c || c = '.' || c = '+' || c = '-'

theorem Ends.of_inNumber {p : Char → Bool} (h : Ends inNumber rest)
    (hp : ∀ c, p c = true → isWordPart c = true) : Ends p rest :=
  h.mono fun c hc => by simp [inNumber, hp c hc]

theorem isWordPart_of_isDigitOrBar (h : isDigitOrBar c = true) :
    isWordPart c = true := by
  simp only [isDigitOrBar, Bool.or_eq_true, decide_eq_true_eq] at h
  simp only [isWordPart, isWordStart, Bool.or_eq_true, decide_eq_true_eq]
  exact h.elim .inr fun h => .inl (.inr h)

theorem isWordPart_of_isDigit (h : isDigit c = true) : isWordPart c = true := by
  simp [isWordPart, h]

theorem isWordPart_of_radixDigit {r : Char} {p : Char → Bool} (hr : radixDigit? r = some p)
    (h : p c = true) : isWordPart c = true := by
  have hlow (hi : Char) (hhi : hi ≤ 'z') (hc : 'a' ≤ c ∧ c ≤ hi) : isWordPart c = true := by
    simp [isWordPart, isWordStart, hc.1, Char.le_trans hc.2 hhi]
  have hup (hi : Char) (hhi : hi ≤ 'Z') (hc : 'A' ≤ c ∧ c ≤ hi) : isWordPart c = true := by
    simp [isWordPart, isWordStart, hc.1, Char.le_trans hc.2 hhi]
  have hdigit (hi : Char) (hhi : hi ≤ '9') (hc : '0' ≤ c ∧ c ≤ hi) : isWordPart c = true := by
    simp [isWordPart, isDigit, hc.1, Char.le_trans hc.2 hhi]
  have hbar (hc : c = '_') : isWordPart c = true := by
    subst hc
    decide
  unfold radixDigit? at hr
  split at hr <;> cases hr
  case h_1.refl | h_2.refl =>
    simp only [Bool.or_eq_true, Bool.and_eq_true, decide_eq_true_eq] at h
    rcases h with (h | h) | h
    · exact isWordPart_of_isDigitOrBar h
    · exact hlow 'f' (by decide) h
    · exact hup 'F' (by decide) h
  case h_3.refl | h_4.refl =>
    simp only [Bool.or_eq_true, Bool.and_eq_true, decide_eq_true_eq] at h
    exact h.elim (hdigit '7' (by decide)) hbar
  case h_5.refl | h_6.refl =>
    simp only [Bool.or_eq_true, decide_eq_true_eq] at h
    rcases h with (rfl | rfl) | h
    · decide
    · decide
    · exact hbar h

theorem isWordPart_of_radix {r : Char} {p : Char → Bool} (hr : radixDigit? r = some p) :
    isWordPart r = true := by
  unfold radixDigit? at hr
  split at hr <;> first | decide | cases hr

theorem fractionLength_cons (c : Char) (cs : List Char) :
    fractionLength (c :: cs) = if c = '.' then 1 + runLength isDigitOrBar cs else 0 := by
  unfold fractionLength
  split <;> simp_all

theorem fractionLength_le (cs : List Char) : fractionLength cs ≤ cs.length := by
  cases cs with
  | nil => simp [fractionLength]
  | cons c cs =>
    have := runLength_le isDigitOrBar cs
    rw [fractionLength_cons, List.length_cons]
    split <;> omega

theorem exponentLength_le (cs : List Char) : exponentLength cs ≤ cs.length := by
  match cs with
  | [] => simp [exponentLength]
  | [e] => simp [exponentLength]
  | e :: s :: ds =>
    have h₁ := runLength_le isDigit ds
    have h₂ := runLength_le isDigit (s :: ds)
    simp only [exponentLength, List.length_cons] at h₂ ⊢
    split <;> [split <;> split <;> omega; omega]

theorem decimalLength_le (cs : List Char) : decimalLength cs ≤ cs.length := by
  have hwhole := runLength_le isDigitOrBar cs
  have hfrac := fractionLength_le (cs.drop (runLength isDigitOrBar cs))
  have hexp := exponentLength_le (cs.drop (runLength isDigitOrBar cs
    + fractionLength (cs.drop (runLength isDigitOrBar cs))))
  rw [List.length_drop] at hfrac hexp
  rw [decimalLength]
  omega

theorem numberLength_le (c : Char) (cs : List Char) : numberLength c cs ≤ cs.length := by
  match cs with
  | [] => simp [numberLength]
  | r :: ds =>
    have hdec := decimalLength_le (r :: ds)
    rw [numberLength]
    split
    · split
      · rename_i p _
        have := runLength_le p ds
        rw [List.length_cons] at hdec ⊢
        split <;> omega
      · exact hdec
    · exact hdec

theorem pointLength_le (cs : List Char) : pointLength cs ≤ cs.length := by
  have hdigits := runLength_le isDigitOrBar cs
  have hexp := exponentLength_le (cs.drop (runLength isDigitOrBar cs))
  rw [List.length_drop] at hexp
  rw [pointLength]
  omega

theorem marked_ne_number (c : Char) (cs : List Char) {n : Nat} :
    marked c cs ≠ (.number, n) := by
  unfold marked
  split <;> simp

theorem isWordStart_of_isDigit (h : isDigit c = true) : isWordStart c = false := by
  simp only [isDigit, Bool.and_eq_true, decide_eq_true_eq] at h
  rw [Bool.eq_false_iff]
  intro hw
  simp only [isWordStart, Bool.or_eq_true, Bool.and_eq_true, decide_eq_true_eq] at hw
  rcases hw with (⟨ha, -⟩ | ⟨ha, -⟩) | rfl
  · exact absurd (Char.le_trans ha h.2) (by decide)
  · exact absurd (Char.le_trans ha h.2) (by decide)
  · exact absurd h.2 (by decide)

theorem isBlank_of_isDigit (h : isDigit c = true) : isBlank c = false := by
  rw [Bool.eq_false_iff]
  intro hb
  simp only [isBlank, Bool.or_eq_true, decide_eq_true_eq] at hb
  rcases hb with (rfl | rfl) | rfl <;> exact absurd h (by decide)

/-- A number starts with a digit, or with a point and a digit. -/
theorem measure_eq_number {n : Nat} :
    measure c cs = (.number, n) ↔
      isDigit c = true ∧ n = numberLength c cs ∨
      c = '.' ∧ ∃ d ds, cs = d :: ds ∧ isDigit d = true ∧ n = pointLength cs := by
  constructor
  · intro hm
    unfold measure at hm
    split at hm
    · cases hm
    split at hm
    · cases hm
    split at hm
    · rename_i hdigit
      cases hm
      exact .inl ⟨hdigit, rfl⟩
    split at hm
    case h_6 =>
      split at hm
      · rename_i hd
        cases hm
        exact .inr ⟨rfl, _, _, rfl, hd, rfl⟩
      · exact absurd hm (marked_ne_number _ _)
    all_goals first
      | cases hm
      | exact absurd hm (marked_ne_number _ _)
      | split at hm <;> cases hm
  · rintro (⟨hc, rfl⟩ | ⟨rfl, d, ds, rfl, hd, rfl⟩)
    · unfold measure
      rw [isBlank_of_isDigit hc, isWordStart_of_isDigit hc, hc]
      rfl
    · show (if isDigit d then _ else _) = _
      rw [if_pos hd]

section Number

variable (cs : List Char) {rest : List Char} (h : Ends inNumber rest)

include h

theorem exponentLength_append : exponentLength (cs ++ rest) = exponentLength cs := by
  have hdigit : Ends isDigit rest := h.of_inNumber fun _ => isWordPart_of_isDigit
  match cs with
  | [] =>
    cases rest with
    | nil => rfl
    | cons c rest =>
      rw [ends_cons] at h
      have he : (c = 'e' || c = 'E') = false := by
        by_contra hc
        simp only [Bool.not_eq_false, Bool.or_eq_true, decide_eq_true_eq] at hc
        rcases hc with rfl | rfl <;> exact absurd h (by decide)
      simp [exponentLength, he]
  | [e] =>
    cases rest with
    | nil => rfl
    | cons c rest =>
      rw [ends_cons] at h hdigit
      have hc : (c = '+' || c = '-') = false := by
        by_contra hc
        simp only [Bool.not_eq_false, Bool.or_eq_true, decide_eq_true_eq] at hc
        rcases hc with rfl | rfl <;> exact absurd h (by decide)
      simp [exponentLength, hc, runLength, hdigit]
  | e :: s :: ds =>
    have hs : runLength isDigit (s :: (ds ++ rest)) = runLength isDigit (s :: ds) :=
      runLength_append (s :: ds) hdigit
    simp only [exponentLength, List.cons_append, runLength_append _ hdigit, hs]

theorem fractionLength_append : fractionLength (cs ++ rest) = fractionLength cs := by
  have hbar : Ends isDigitOrBar rest := h.of_inNumber fun _ => isWordPart_of_isDigitOrBar
  cases cs with
  | nil =>
    cases rest with
    | nil => rfl
    | cons c rest =>
      have hc : c ≠ '.' := by
        rintro rfl
        exact absurd (ends_cons.1 h) (by decide)
      rw [List.nil_append, fractionLength_cons, if_neg hc]
      rfl
  | cons c cs =>
    rw [List.cons_append, fractionLength_cons, fractionLength_cons, runLength_append _ hbar]

theorem decimalLength_append : decimalLength (cs ++ rest) = decimalLength cs := by
  have hbar : Ends isDigitOrBar rest := h.of_inNumber fun _ => isWordPart_of_isDigitOrBar
  have hwhole := runLength_le isDigitOrBar cs
  have hfrac := fractionLength_le (cs.drop (runLength isDigitOrBar cs))
  rw [List.length_drop] at hfrac
  simp only [decimalLength]
  rw [runLength_append _ hbar, List.drop_append_of_le_length hwhole, fractionLength_append _ h,
    List.drop_append_of_le_length (by omega), exponentLength_append _ h]

theorem numberLength_append (c : Char) : numberLength c (cs ++ rest) = numberLength c cs := by
  cases cs with
  | nil =>
    cases rest with
    | nil => rfl
    | cons d rest =>
      have hdec : decimalLength (d :: rest) = 0 := decimalLength_append [] h
      have hr : radixDigit? d = none := by
        cases hr : radixDigit? d with
        | none => rfl
        | some p =>
          have hd := ends_cons.1 h
          rw [inNumber, isWordPart_of_radix hr] at hd
          simp at hd
      simp [numberLength, hdec, hr]
  | cons r ds =>
    have hdec : decimalLength (r :: (ds ++ rest)) = decimalLength (r :: ds) :=
      decimalLength_append (r :: ds) h
    simp only [numberLength, List.cons_append, hdec]
    cases hr : radixDigit? r with
    | none => rfl
    | some p =>
      have hp : Ends p rest := h.of_inNumber fun _ => isWordPart_of_radixDigit hr
      simp only [runLength_append _ hp]

theorem pointLength_append : pointLength (cs ++ rest) = pointLength cs := by
  have hbar : Ends isDigitOrBar rest := h.of_inNumber fun _ => isWordPart_of_isDigitOrBar
  rw [pointLength, pointLength, runLength_append _ hbar,
    List.drop_append_of_le_length (runLength_le _ _), exponentLength_append _ h]

theorem measure_number (hm : measure c cs = (.number, cs.length)) :
    measure c (cs ++ rest) = (.number, cs.length) := by
  rw [measure_eq_number] at hm ⊢
  obtain ⟨hc, hn⟩ | ⟨hc, d, ds, rfl, hd, hn⟩ := hm
  · exact .inl ⟨hc, by rw [numberLength_append _ h, ← hn]⟩
  · exact .inr ⟨hc, d, ds ++ rest, rfl, hd, by rw [pointLength_append _ h, ← hn]⟩

end Number

/-- A number ends before the end of its line. -/
theorem newline_not_mem_number (hm : measure c cs = (.number, cs.length)) : '\n' ∉ c :: cs := by
  intro hmem
  have hc : '\n' ≠ c := by
    rintro rfl
    exact absurd hm (by simp [measure, isBlank, isWordStart, isDigit])
  obtain ⟨before, after, rfl⟩ := List.append_of_mem ((List.mem_cons.1 hmem).resolve_left hc)
  have hend : Ends inNumber ('\n' :: after) := ends_cons.2 (by decide)
  rw [measure_eq_number] at hm
  obtain ⟨-, hn⟩ | ⟨-, -, -, -, -, hn⟩ := hm
  · have := numberLength_le c before
    rw [numberLength_append _ hend] at hn
    simp at hn
    omega
  · have := pointLength_le before
    rw [pointLength_append _ hend] at hn
    simp at hn
    omega

/-! ### Strings -/

/-- A character of a literal is a pair that stands for it, or itself. -/
theorem escaped_cases (c : Char) :
    (∃ e, escaped c = ['\\', e] ∧ e ≠ '\n' ∧
      ∀ cs, Text.unescape ('\\' :: e :: cs) = c :: Text.unescape cs) ∨
    (escaped c = [c] ∧ c ≠ '\\' ∧ c ≠ '\x22' ∧ c ≠ '\n') := by
  unfold escaped
  split
  · subst c
    exact .inl ⟨'\\', rfl, by decide, fun _ => rfl⟩
  split
  · subst c
    exact .inl ⟨'\x22', rfl, by decide, fun _ => rfl⟩
  split
  · subst c
    exact .inl ⟨'n', rfl, by decide, fun _ => rfl⟩
  · exact .inr ⟨rfl, ‹_›, ‹_›, ‹_›⟩

/-- No literal has a quote right behind its opening one, unless it is empty. -/
theorem head_flatMap_escaped {value : List Char}
    (h : value.flatMap escaped = c :: cs) : c ≠ '\x22' := by
  cases value with
  | nil => simp at h
  | cons d value =>
    rw [List.flatMap_cons] at h
    obtain ⟨e, he, -, -⟩ | ⟨he, -, hq, -⟩ := escaped_cases d
    · rw [he] at h
      cases h
      decide
    · rw [he] at h
      cases h
      exact hq

theorem lineString_plain {q : Char} (hq : c ≠ q) (hn : c ≠ '\n') (hb : c ≠ '\\')
    (cs : List Char) : lineString q (c :: cs) = (lineString q cs).add 1 := by
  simp [lineString, hq, hn, hb]

theorem lineString_escape {q : Char} (hn : c ≠ '\n') (cs : List Char) :
    lineString q ('\\' :: c :: cs) = (lineString q cs).add 2 := by
  rw [lineString, if_neg hn]

/-- A literal goes on up to its own closing quote. -/
theorem lineString_escaped (value rest : List Char) :
    lineString '\x22' (value.flatMap escaped ++ '\x22' :: rest)
      = .closed ((value.flatMap escaped).length + 1) := by
  induction value with
  | nil => rfl
  | cons c value ih =>
    rw [List.flatMap_cons, List.append_assoc]
    obtain ⟨e, he, hn, -⟩ | ⟨he, hb, hq, hn⟩ := escaped_cases c
    · rw [he, List.cons_append, List.cons_append, List.nil_append, lineString_escape hn, ih]
      simp +arith [Ending.add]
    · rw [he, List.cons_append, List.nil_append, lineString_plain hq hn hb, ih]
      simp +arith [Ending.add]

theorem stringEnding_escaped (value : List Char) (h : Ends (· = '\x22') rest) :
    stringEnding '\x22' (value.flatMap escaped ++ '\x22' :: rest)
      = .closed ((value.flatMap escaped).length + 1) := by
  rw [← lineString_escaped value rest]
  match hb : value.flatMap escaped with
  | [] =>
    cases rest with
    | nil => rfl
    | cons d rest => 
      have hd : d ≠ '\x22' := by simpa using h
      simp [stringEnding, hd]
  | [c] => 
    have hc := head_flatMap_escaped hb
    simp [stringEnding, hc]
  | c :: d :: cs => 
    have hc := head_flatMap_escaped hb
    simp [stringEnding, hc]

theorem measure_string (value : List Char) (h : Ends (· = '\x22') rest) :
    measure '\x22' (value.flatMap escaped ++ '\x22' :: rest)
      = (.string, (value.flatMap escaped).length + 1) := by
  rw [measure, if_neg (by decide), if_neg (by decide), if_neg (by decide)]
  simp only [stringEnding_escaped value h]

theorem unescape_plain (hb : c ≠ '\\') (cs : List Char) :
    Text.unescape (c :: cs) = c :: Text.unescape cs := by
  simp [Text.unescape, hb]

theorem unescape_escaped (value : List Char) :
    Text.unescape (value.flatMap escaped) = value := by
  induction value with
  | nil => rfl
  | cons c value ih =>
    rw [List.flatMap_cons]
    obtain ⟨e, he, -, hu⟩ | ⟨he, hb, -, -⟩ := escaped_cases c
    · rw [he, List.cons_append, List.cons_append, List.nil_append, hu, ih]
    · rw [he, List.cons_append, List.nil_append, unescape_plain hb, ih]

theorem quoteLength_literal (value : List Char) :
    Text.quoteLength ('\x22' :: value.flatMap escaped ++ ['\x22']) = 1 := by
  match hb : value.flatMap escaped with
  | [] => rfl
  | c :: cs => 
    have hc := head_flatMap_escaped hb
    unfold Text.quoteLength
    split <;> simp_all

/-- The value of a literal is the string it was written from. -/
theorem unquote_literal (value : String) : Text.unquote (literal value) = value := by
  have hinner : Text.inner ('\x22' :: value.toList.flatMap escaped ++ ['\x22'])
      = value.toList.flatMap escaped := by
    rw [Text.inner, quoteLength_literal]
    simp
  rw [Text.unquote, literal, String.toList_ofList, hinner, unescape_escaped,
    String.ofList_toList]

/-! ### Marks -/

/-- The characters that would make a longer mark of one. -/
def extensions (p : Punct) : List Char :=
  Punct.all.filterMap fun q =>
    if p.spelling.toList.isPrefixOf q.spelling.toList then
      (q.spelling.toList.drop p.spelling.toList.length).head?
    else none

theorem extensions_opening (p : Punct) (h : p.isOpening = true) : extensions p = [] := by
  cases p <;> first | rfl | cases h

/-- The characters at which some mark could go on. -/
def markEnds : List Char := ['=', '*', '/', '<', '>']

theorem extensions_subset (p : Punct) : extensions p ⊆ markEnds := by
  cases p <;> decide

theorem mem_extensions {p q : Punct}
    (h : q.spelling.toList = p.spelling.toList ++ c :: cs) : c ∈ extensions p := by
  have hq : q ∈ Punct.all := by cases q <;> decide
  refine List.mem_filterMap.2 ⟨q, hq, ?_⟩
  simp [h]

/-- The marks that are tried before a given one. -/
def earlier (p : Punct) : List Punct := Punct.all.takeWhile (· ≠ p)

theorem all_eq_earlier_append (p : Punct) : ∃ later, Punct.all = earlier p ++ p :: later := by
  refine ⟨(Punct.all.dropWhile (· ≠ p)).tail, ?_⟩
  cases p <;> rfl

/-- No mark starts with one that is tried before it. -/
theorem not_prefix_of_earlier (p : Punct) :
    ∀ q ∈ earlier p, ¬ q.spelling.toList <+: p.spelling.toList := by
  cases p <;> decide

theorem punctAt?_spelling (p : Punct) (h : ∀ c ∈ rest.head?, c ∉ extensions p) :
    punctAt? (p.spelling.toList ++ rest) = some p := by
  obtain ⟨later, hall⟩ := all_eq_earlier_append p
  rw [punctAt?, List.find?_eq_some_iff_append]
  refine ⟨by simp, earlier p, later, hall, fun q hq => ?_⟩
  rw [Bool.not_eq_true', Bool.eq_false_iff, ne_eq, List.isPrefixOf_iff_prefix]
  intro hpre
  -- both marks start the text, so one of them starts the other
  obtain hqp | hpq := List.prefix_or_prefix_of_prefix hpre (List.prefix_append _ rest)
  · exact not_prefix_of_earlier p q hq hqp
  · obtain ⟨ds, hds⟩ := hpq
    cases ds with
    | nil => exact not_prefix_of_earlier p q hq (by simp [← hds])
    | cons d ds =>
      rw [← hds, List.prefix_append_right_inj] at hpre
      obtain ⟨more, rfl⟩ := hpre
      exact h d rfl (mem_extensions hds.symm)

/-- A character that could go on a mark. A point before a digit starts a number. -/
def goesOn (p : Punct) (c : Char) : Bool := c ∈ extensions p || p = .dot && isDigit c

theorem marked_spelling (p : Punct) (h : Ends (goesOn p) rest)
    (hp : p.spelling.toList = c :: cs) : marked c (cs ++ rest) = (.punct p, cs.length) := by
  have hfind : punctAt? (c :: (cs ++ rest)) = some p := by
    rw [← List.cons_append, ← hp]
    refine punctAt?_spelling p fun d hd hext => ?_
    have := h d hd
    simp [goesOn, hext] at this
  rw [marked, hfind]
  simp [hp]

/-- What starts with the first character of a mark is a mark, a number behind a point apart. -/
theorem measure_eq_marked (p : Punct) (h : Ends (goesOn p) rest) :
    ∃ c cs, p.spelling.toList = c :: cs ∧ measure c (cs ++ rest) = marked c (cs ++ rest) := by
  by_cases hdot : p = .dot
  · subst hdot
    refine ⟨'.', [], rfl, ?_⟩
    cases rest with
    | nil => rfl
    | cons d rest =>
      have hd : isDigit d = false := by
        have := ends_cons.1 h
        simp only [goesOn, Bool.or_eq_false_iff] at this
        simpa using this.2
      show (if isDigit d then _ else _) = _
      rw [hd]
      rfl
  · cases p <;> first | exact absurd rfl hdot | exact ⟨_, _, rfl, rfl⟩

/-! ### Tokens -/

/-- A token that can be written so that it is read again. -/
def Writable : Token → Prop
  | .keyword _ | .punct _ => True
  | .name s => isWord s
  | .number s => isNumber s
  | .string s => ∃ value, s = literal value
  | _ => False

/-- A character that could go on a token. -/
def goesOnToken : Token → Char → Bool
  | .keyword _ | .name _ => isWordPart
  | .number _ => inNumber
  | .string _ => (· = '\x22')
  | .punct p => goesOn p
  | _ => fun _ => true

/-- The text of `t` is measured as `t` when `rest` follows. -/
structure Measured (t : Token) (rest : List Char) (c : Char) (cs : List Char) : Prop where
  spelling : spelling t = c :: cs
  found : ∃ piece, measure c (cs ++ rest) = (piece, cs.length) ∧
    piece.token? (String.ofList (c :: cs)) = some t
  newline : '\n' ∉ c :: cs
  blank : isBlank c = false

theorem measured_word {t : Token} {s : String}
    (ht : spelling t = s.toList) (hs : s.toList = c :: cs) (hc : isWordStart c = true)
    (hcs : ∀ d ∈ cs, isWordPart d = true) (htoken : Piece.word.token? s = some t)
    (hrest : Ends isWordPart rest) : Measured t rest c cs where
  spelling := ht.trans hs
  found := ⟨.word, measure_word hc hcs hrest, by rwa [← hs, String.ofList_toList]⟩
  newline := by
    rintro (_ | ⟨_, hn⟩)
    · exact absurd hc (by decide)
    · exact absurd (hcs _ hn) (by decide)
  blank := isBlank_of_isWordStart hc

theorem measured_keyword (k : Keyword) (h : Ends isWordPart rest) :
    ∃ c cs, Measured (.keyword k) rest c cs := by
  have hk : ∃ c cs, k.spelling.toList = c :: cs ∧ isWordStart c = true ∧
      cs.all isWordPart = true ∧ Keyword.ofSpelling? k.spelling = some k := by
    cases k <;> exact ⟨_, _, rfl, by decide⟩
  obtain ⟨c, cs, hs, hc, hcs, hk⟩ := hk
  have hpart := List.all_eq_true.mp hcs
  exact ⟨c, cs, measured_word rfl hs hc hpart (by rw [Piece.token?, hk]) h⟩

theorem measured_name {s : String} (hs : isWord s = true)
    (h : Ends isWordPart rest) : ∃ c cs, Measured (.name s) rest c cs := by
  unfold isWord at hs
  split at hs
  · cases hs
  · rename_i c cs hcs
    simp only [Bool.and_eq_true, List.all_eq_true, Option.isNone_iff_eq_none] at hs
    exact ⟨c, cs, measured_word rfl hcs hs.1.1 hs.1.2 (by rw [Piece.token?, hs.2]) h⟩

theorem isBlank_of_measure {n : Nat} {piece : Piece}
    (hm : measure c cs = (piece, n)) (hp : piece ≠ .blank) : isBlank c = false := by
  rw [Bool.eq_false_iff]
  intro hb
  unfold measure at hm
  rw [if_pos hb] at hm
  exact hp (Prod.mk.inj hm).1.symm

theorem measured_number {s : String} (hs : isNumber s = true)
    (h : Ends inNumber rest) : ∃ c cs, Measured (.number s) rest c cs := by
  unfold isNumber at hs
  split at hs
  · cases hs
  · rename_i c cs hcs
    have hm := of_decide_eq_true hs
    exact ⟨c, cs, hcs, ⟨.number, measure_number _ h hm, by rw [Piece.token?, ← hcs,
      String.ofList_toList]⟩, newline_not_mem_number hm, isBlank_of_measure hm (by decide)⟩

theorem measured_string (value : String) (h : Ends (· = '\x22') rest) :
    ∃ c cs, Measured (.string (literal value)) rest c cs := by
  refine ⟨'\x22', value.toList.flatMap escaped ++ ['\x22'], by simp [spelling, literal],
    ⟨.string, ?_, by rw [Piece.token?]; rfl⟩, ?_, by decide⟩
  · rw [List.append_assoc, List.singleton_append, measure_string _ h]
    simp
  · simp only [List.mem_cons, List.mem_append, List.mem_flatMap, List.not_mem_nil, or_false,
      not_or, not_exists, not_and]
    refine ⟨by decide, fun c _ hc => ?_, by decide⟩
    obtain ⟨e, he, hn, -⟩ | ⟨he, -, -, hn⟩ := escaped_cases c
    · rw [he] at hc
      simp only [List.mem_cons, List.not_mem_nil, or_false] at hc
      exact hc.elim (by decide) fun hc => hn hc.symm
    · rw [he, List.mem_singleton] at hc
      exact hn hc.symm

theorem measured_punct (p : Punct) (h : Ends (goesOn p) rest) :
    ∃ c cs, Measured (.punct p) rest c cs := by
  obtain ⟨c, cs, hp, hm⟩ := measure_eq_marked p h
  rw [marked_spelling p h hp] at hm
  have hn : '\n' ∉ p.spelling.toList := by cases p <;> decide
  exact ⟨c, cs, hp, ⟨.punct p, hm, rfl⟩, hp ▸ hn, isBlank_of_measure hm (by simp)⟩

/-- A writable token is measured as a whole. -/
theorem exists_measured {t : Token} (ht : Writable t)
    (h : Ends (goesOnToken t) rest) : ∃ c cs, Measured t rest c cs := by
  cases t with
  | keyword k => exact measured_keyword k h
  | name s => exact measured_name ht h
  | number s => exact measured_number ht h
  | string s =>
    obtain ⟨value, rfl⟩ := ht
    exact measured_string value h
  | punct p => exact measured_punct p h
  | _ => exact ht.elim

/-! ### Lines -/

/-- What the layout of the lines sees of a lexeme. -/
def Placed.view (l : Placed) : Token × Nat := (l.token, l.indent)

theorem map_view_scanFrom (offset offset' indent : Nat) (cs : List Char) :
    (scanFrom offset indent cs).map Placed.view = (scanFrom offset' indent cs).map Placed.view := by
  fun_induction scanFrom offset indent cs generalizing offset' with
  | case1 => rw [scanFrom]
  | case2 offset indent c cs found text rest stop later token htoken ih =>
    rw [scanFrom]
    simp only [found, text] at htoken
    simp only [htoken, List.map_cons, Placed.view]
    exact congrArg _ (ih _)
  | case3 offset indent c cs found text rest stop later htoken ih =>
    rw [scanFrom]
    simp only [found, text] at htoken
    simp only [htoken]
    exact ih _

/-- The tokens of a text, each with the indentation of its line. -/
def views (indent : Nat) (cs : List Char) : List (Token × Nat) :=
  (scanFrom 0 indent cs).map Placed.view

@[simp] theorem views_nil (indent : Nat) : views indent [] = [] := by
  rw [views, scanFrom]
  rfl

/-- The views of a text that starts with a measured piece. -/
theorem views_append {indent : Nat} {piece : Piece}
    (h : measure c (cs ++ rest) = (piece, cs.length)) :
    views indent (c :: (cs ++ rest))
      = ((piece.token? (String.ofList (c :: cs))).map fun t => (t, indent)).toList
        ++ views (indentAfter indent (c :: cs) rest) rest := by
  have htake : (cs ++ rest).take cs.length = cs := List.take_left
  have hdrop : (cs ++ rest).drop cs.length = rest := List.drop_left
  rw [views, scanFrom]
  simp only [h, htake, hdrop]
  split
  · rename_i t ht
    rw [ht, List.map_cons, map_view_scanFrom _ 0]
    rfl
  · rename_i ht
    rw [ht, map_view_scanFrom _ 0]
    rfl

theorem views_token {t : Token} (ht : Writable t) (indent : Nat)
    (h : Ends (goesOnToken t) rest) :
    views indent (spelling t ++ rest) = (t, indent) :: views indent rest := by
  obtain ⟨c, cs, hs, ⟨piece, hm, htoken⟩, hn, -⟩ := exists_measured ht h
  rw [hs, List.cons_append, views_append hm, htoken, indentAfter, if_neg hn]
  rfl

theorem views_blanks (indent n : Nat) (h : Ends isBlank rest) :
    views indent (List.replicate n ' ' ++ rest) = views indent rest := by
  cases n with
  | zero => rfl
  | succ n =>
    have hm : measure ' ' (List.replicate n ' ' ++ rest)
        = (.blank, (List.replicate n ' ').length) := by
      show (Piece.blank, runLength isBlank _) = _
      rw [runLength_append _ h, runLength_all (by simp +contextual [isBlank])]
    have hn : '\n' ∉ ' ' :: List.replicate n ' ' := by simp [List.mem_replicate]
    rw [List.replicate_succ, List.cons_append, views_append hm, indentAfter, if_neg hn]
    rfl

theorem views_newline (indent : Nat) (rest : List Char) :
    views indent ('\n' :: rest) = (.newline, indent) :: views (columnFrom 0 rest) rest := by
  have hm : measure '\n' ([] ++ rest) = (.newline, ([] : List Char).length) := rfl
  have h : views indent ('\n' :: ([] ++ rest)) = _ := views_append hm
  simpa [indentAfter, Piece.token?] using h

theorem columnFrom_of_ends (col : Nat) (h : Ends isBlank rest) :
    columnFrom col rest = col := by
  unfold columnFrom
  split
  · exact absurd (ends_cons.1 h) (by decide)
  · exact absurd (ends_cons.1 h) (by decide)
  · rfl

theorem columnFrom_blanks (n col : Nat) (h : Ends isBlank rest) :
    columnFrom col (List.replicate n ' ' ++ rest) = col + n := by
  induction n generalizing col with
  | zero => exact columnFrom_of_ends col h
  | succ n ih =>
    rw [List.replicate_succ, List.cons_append, columnFrom, ih]
    omega

/-! ### What stands behind a token -/

/-- The characters that end every token. -/
def separators : List Char := [' ', '\n', ')', ']', '\x7d', ',', ':']

/-- The other characters that stand right behind a name or a closing bracket. -/
def trailers : List Char := ['(', '[', '.']

theorem goesOn_eq_false {p : Punct} (hc : c ∉ markEnds)
    (hd : isDigit c = false) : goesOn p c = false := by
  have : c ∉ extensions p := fun h => hc (extensions_subset p h)
  simp [goesOn, this, hd]

theorem goesOn_opening {p : Punct} (hp : p.isOpening = true) (c : Char) :
    goesOn p c = false := by
  have hdot : p ≠ .dot := by
    rintro rfl
    cases hp
  simp [goesOn, extensions_opening p hp, hdot]

/-- A separator is no part of a word, a number or a string, and no mark goes on at one. -/
theorem separators_end : ∀ c ∈ separators,
    isWordPart c = false ∧ inNumber c = false ∧ isDigit c = false ∧ c ≠ '\x22' ∧ c ∉ markEnds := by
  simp only [separators, List.forall_mem_cons, List.not_mem_nil, false_implies,
    implies_true, and_true]
  decide

theorem goesOnToken_separator {t : Token} (ht : Writable t) (hc : c ∈ separators) :
    goesOnToken t c = false := by
  obtain ⟨hword, hnumber, hdigit, hquote, hmark⟩ := separators_end c hc
  cases t with
  | keyword k => exact hword
  | name s => exact hword
  | number s => exact hnumber
  | string s => simpa [goesOnToken] using hquote
  | punct p => exact goesOn_eq_false hmark hdigit
  | _ => exact ht.elim

theorem clings_spelling {q : Punct} (hq : clings q = true) :
    ∃ c ∈ separators, q.spelling.toList = [c] := by
  cases q <;> first | exact absurd hq (by decide) | exact ⟨_, by decide, rfl⟩

theorem trailers_end : ∀ c ∈ trailers,
    isWordPart c = false ∧ isDigit c = false ∧ c ∉ markEnds := by
  simp only [trailers, List.forall_mem_cons, List.not_mem_nil, false_implies,
    implies_true, and_true]
  decide

theorem isWordStart_of_mem_markEnds : ∀ c ∈ markEnds, isWordStart c = false := by
  simp only [markEnds, List.forall_mem_cons, List.not_mem_nil, false_implies,
    implies_true, and_true]
  decide

theorem isWordStart_of_isWord {s : String} (h : isWord s = true)
    (hs : s.toList = c :: cs) : isWordStart c = true := by
  simp only [isWord, hs, Bool.and_eq_true] at h
  exact h.1.1

theorem trailer_spelling {q : Punct} (hq : (q = .lParen || q = .lBracket || q = .dot) = true) :
    ∃ c ∈ trailers, q.spelling.toList = [c] := by
  cases q <;> first | exact absurd hq (by decide) | exact ⟨_, by decide, rfl⟩

/-- Tokens that stand next to each other can be told apart. -/
theorem goesOnToken_of_adjoins {t u : Token} (ht : Writable t) (hu : Writable u)
    (h : adjoins t u = true) (hs : spelling u = c :: cs) :
    goesOnToken t c = false := by
  have hcling {q : Punct} (hq : clings q = true) (hs : q.spelling.toList = c :: cs) :
      goesOnToken t c = false := by
    obtain ⟨d, hd, hspell⟩ := clings_spelling hq
    cases hs.symm.trans hspell
    exact goesOnToken_separator ht hd
  unfold adjoins at h
  split at h
  case h_1 s =>
    have hc := isWordStart_of_isWord hu hs
    refine goesOn_eq_false ?_ ?_
    · intro hmem
      rw [isWordStart_of_mem_markEnds c hmem] at hc
      cases hc
    · rw [Bool.eq_false_iff]
      intro hd
      rw [isWordStart_of_isDigit hd] at hc
      cases hc
  case h_2 p q _ =>
    simp only [Bool.or_eq_true, Bool.and_eq_true] at h
    obtain (hp | hq) | ⟨hp, hq⟩ := h
    · exact goesOn_opening hp c
    · exact hcling hq hs
    · obtain ⟨d, hd, hspell⟩ := trailer_spelling (by simpa using hq)
      cases hs.symm.trans hspell
      exact goesOn_eq_false (trailers_end c hd).2.2 (trailers_end c hd).2.1
  case h_3 p _ _ => exact goesOn_opening h c
  case h_4 s q =>
    simp only [Bool.or_eq_true, Bool.and_eq_true] at h
    obtain hq | ⟨-, hq⟩ := h
    · exact hcling hq hs
    · obtain ⟨d, hd, hspell⟩ := trailer_spelling (by simpa using hq)
      cases hs.symm.trans hspell
      exact (trailers_end c hd).1
  case h_5 q _ _ => exact hcling h hs
  case h_6 => cases h

theorem exists_spelling {t : Token} (ht : Writable t) :
    ∃ c cs, spelling t = c :: cs ∧ isBlank c = false := by
  obtain ⟨c, cs, hm⟩ := exists_measured ht (ends_nil _)
  exact ⟨c, cs, hm.spelling, hm.blank⟩

theorem exists_written (t : Token) (ts : List Token) :
    ∃ more, written (t :: ts) = spelling t ++ more := by
  cases ts with
  | nil => exact ⟨[], by rw [written, List.append_nil]⟩
  | cons u ts => exact ⟨_, by rw [written, List.append_assoc]⟩

/-- What follows a token on its line cannot be part of it. -/
theorem ends_written {t u : Token} (ht : Writable t) (hu : Writable u) (ts : List Token)
    (rest : List Char) :
    Ends (goesOnToken t) ((if adjoins t u then [] else [' ']) ++ (written (u :: ts) ++ rest)) := by
  obtain ⟨c, cs, hs, -⟩ := exists_spelling hu
  obtain ⟨more, hmore⟩ := exists_written u ts
  split
  · rename_i h
    rw [List.nil_append, hmore, hs]
    exact ends_cons.2 (goesOnToken_of_adjoins ht hu h hs)
  · exact ends_cons.2 (goesOnToken_separator ht (by decide))

theorem ends_isBlank_written {ts : List Token} (hts : ∀ t ∈ ts, Writable t) (rest : List Char) :
    Ends isBlank (written ts ++ '\n' :: rest) := by
  cases ts with
  | nil => exact ends_cons.2 (by decide)
  | cons t ts =>
    obtain ⟨c, cs, hs, hc⟩ := exists_spelling (hts t (by simp))
    obtain ⟨more, hmore⟩ := exists_written t ts
    rw [hmore, hs]
    exact ends_cons.2 hc

theorem views_written {ts : List Token} (hts : ∀ t ∈ ts, Writable t) (indent : Nat)
    (rest : List Char) :
    views indent (written ts ++ '\n' :: rest)
      = ts.map (fun t => (t, indent)) ++ views indent ('\n' :: rest) := by
  induction ts with
  | nil => rfl
  | cons t ts ih =>
    have ht := hts t (by simp)
    cases ts with
    | nil => exact views_token ht indent (ends_cons.2 (goesOnToken_separator ht (by decide)))
    | cons u ts =>
      have ih := ih fun t h => hts t (List.mem_cons_of_mem _ h)
      have hblank : views indent ((if adjoins t u then [] else [' '])
          ++ (written (u :: ts) ++ '\n' :: rest))
          = views indent (written (u :: ts) ++ '\n' :: rest) := by
        have h := ends_isBlank_written (fun t h => hts t (List.mem_cons_of_mem _ h)) rest
        split
        · rfl
        · exact views_blanks indent 1 h
      rw [written, List.append_assoc, List.append_assoc,
        views_token ht indent (ends_written ht (hts u (by simp)) ts _), hblank, ih]
      rfl

/-- The views of whole lines. -/
theorem views_lines {ls : List Line} (hls : ∀ l ∈ ls, ∀ t ∈ l.tokens, Writable t) :
    views (columnFrom 0 (ls.flatMap Line.chars)) (ls.flatMap Line.chars)
      = ls.flatMap fun l => (l.tokens ++ [.newline]).map fun t => (t, 4 * l.level) := by
  induction ls with
  | nil => simp
  | cons l ls ih =>
    have hl := hls l (by simp)
    have hb := ends_isBlank_written hl (ls.flatMap Line.chars)
    rw [List.flatMap_cons, List.flatMap_cons, Line.chars, List.append_assoc, List.append_assoc,
      List.singleton_append, columnFrom_blanks _ _ hb, views_blanks _ _ hb, Nat.zero_add,
      views_written hl, views_newline, ih fun l h => hls l (List.mem_cons_of_mem _ h)]
    simp

end AnnotatedWasm.Scan
