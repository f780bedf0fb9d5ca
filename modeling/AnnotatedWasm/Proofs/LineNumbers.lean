import AnnotatedWasm.Compile
import Mathlib

/-!
Line numbers.

A line starts at the start of the text and behind every newline, so the starts up to an offset are
one more than the newlines before it (`countP_startsFrom`). The search in the table ends at the last
of these starts (`narrow_spec`), whether a line starts right at the offset or not.
-/

namespace AnnotatedWasm

/-- The newlines among the bytes of a text before an offset. -/
def newlinesBefore (source : String) (offset : Nat) : Nat :=
  (source.toUTF8.data.toList.take offset).count 0x0a

/-- The lines of a text: one more than it has newlines. -/
def lineCount (source : String) : Nat := 1 + source.toUTF8.data.toList.count 0x0a

namespace LineTable

variable {bytes : List UInt8} {k offset base size i : Nat} {t : LineTable}

/-! ### The table -/

lemma lt_of_mem_startsFrom (h : i ∈ startsFrom k bytes) : k < i := by
  induction bytes generalizing k with
  | nil => cases h
  | cons b bytes ih =>
    rw [startsFrom] at h
    split at h
    · rcases List.mem_cons.mp h with rfl | h
      · omega
      · have := ih h
        omega
    · have := ih h
      omega

lemma pairwise_startsFrom (k : Nat) (bytes : List UInt8) :
    (startsFrom k bytes).Pairwise (· < ·) := by
  induction bytes generalizing k with
  | nil => exact .nil
  | cons b bytes ih =>
    rw [startsFrom]
    split
    · exact .cons (fun i hi => lt_of_mem_startsFrom hi) (ih (k + 1))
    · exact ih (k + 1)

/-- Lines that start by an offset have their newlines before it. -/
lemma countP_startsFrom (k offset : Nat) (bytes : List UInt8) :
    (startsFrom k bytes).countP (· ≤ k + offset) = (bytes.take offset).count 0x0a := by
  induction bytes generalizing k offset with
  | nil => simp [startsFrom]
  | cons b bytes ih =>
    cases offset with
    | zero =>
      rw [List.take_zero, List.count_nil, List.countP_eq_zero]
      intro i hi
      have := lt_of_mem_startsFrom hi
      simp
      omega
    | succ offset =>
      have hih := ih (k + 1) offset
      rw [show k + 1 + offset = k + (offset + 1) by omega] at hih
      rw [startsFrom, List.take_succ_cons, List.count_cons]
      split
      · next hb =>
        rw [List.countP_cons, hih, hb]
        simp
      · next hb => simp [hih, hb]

/-- The starts increase from the first one, which is zero. -/
structure Ordered (t : LineTable) : Prop where
  first : t.start 0 = 0
  size_pos : 0 < t.starts.size
  increasing : ∀ i j, i < j → j < t.starts.size → t.start i < t.start j

lemma start_eq (h : i < t.starts.toList.length) : t.start i = t.starts.toList[i] := by
  simp [start, Array.getD, show i < t.starts.size from h]

lemma ordered_ofSource (source : String) : (ofSource source).Ordered := by
  have hsorted : (0 :: startsFrom 0 source.toUTF8.data.toList).Pairwise (· < ·) :=
    .cons (fun i hi => lt_of_mem_startsFrom hi) (pairwise_startsFrom _ _)
  refine ⟨rfl, by simp [ofSource], fun i j hij hj => ?_⟩
  rw [start_eq (hij.trans hj), start_eq hj]
  exact List.pairwise_iff_getElem.mp hsorted i j _ _ hij

/-! ### The search -/

/-- The entry at `i` is the last one by `offset`. -/
structure Last (t : LineTable) (offset i : Nat) : Prop where
  lt : i < t.starts.size
  le : t.start i ≤ offset
  after : ∀ j, i < j → j < t.starts.size → offset < t.start j

/-- The window always holds the last entry by `offset`: it starts by the offset, and what comes
behind it does not. -/
lemma narrow_spec (ht : t.Ordered) (hpos : 0 < size) (hsize : base + size ≤ t.starts.size)
    (hbase : t.start base ≤ offset)
    (hbehind : ∀ j, base + size ≤ j → j < t.starts.size → offset < t.start j) :
    t.Last offset (t.narrow offset base size) := by
  fun_induction narrow t offset base size with
  | case1 base size hone => exact ⟨by omega, hbase, fun j hj => hbehind j (by omega)⟩
  | case2 base size hmany mid hlt ih =>
    have hmid : mid = base + size / 2 := rfl
    refine ih (by omega) (by omega) hbase fun j hj hjs => ?_
    rcases Nat.eq_or_lt_of_le (show mid ≤ j by omega) with heq | hmj
    · rwa [← heq]
    · exact hlt.trans (ht.increasing mid j hmj hjs)
  | case3 base size hmany mid hle ih =>
    have hmid : mid = base + size / 2 := rfl
    exact ih (by omega) (by omega) (by omega) fun j hj => hbehind j (by omega)

/-- A hit and a miss tell the same entry. -/
lemma line_eq_succ (h : t.Ordered) (offset : Nat) :
    ∃ i, t.Last offset i ∧ t.line offset = i + 1 := by
  have hlast : t.Last offset (t.narrow offset 0 t.starts.size) :=
    narrow_spec h h.size_pos (by omega) (by rw [h.first]; omega) (by omega)
  have hne : t.starts.isEmpty = false := by
    rw [Array.isEmpty_eq_false_iff, ← Array.size_pos_iff]
    exact h.size_pos
  refine ⟨_, hlast, ?_⟩
  have hle := hlast.le
  rw [line, search, if_neg (by simp [hne])]
  by_cases heq : t.start (t.narrow offset 0 t.starts.size) = offset
  · rw [if_pos heq]
  · rw [if_neg heq, if_pos (by omega)]

/-- The index of the last entry by `offset` counts the entries up to it. -/
lemma Last.countP_eq (h : t.Ordered) (hi : t.Last offset i) :
    t.starts.toList.countP (· ≤ offset) = i + 1 := by
  have hlt : i < t.starts.toList.length := hi.lt
  have hfront : ∀ a ∈ t.starts.toList.take (i + 1), a ≤ offset := by
    intro a ha
    obtain ⟨j, hj, rfl⟩ := List.mem_iff_getElem.mp ha
    rw [List.length_take] at hj
    rw [List.getElem_take, ← start_eq]
    rcases Nat.eq_or_lt_of_le (show j ≤ i by omega) with rfl | hji
    · exact hi.le
    · exact (h.increasing j i hji hi.lt).le.trans hi.le
  have hback : ∀ a ∈ t.starts.toList.drop (i + 1), ¬a ≤ offset := by
    intro a ha
    obtain ⟨j, hj, rfl⟩ := List.mem_iff_getElem.mp ha
    rw [List.length_drop] at hj
    rw [List.getElem_drop, ← start_eq, Nat.not_le]
    exact hi.after _ (by omega) (show i + 1 + j < t.starts.toList.length by omega)
  rw [← List.take_append_drop (i + 1) t.starts.toList, List.countP_append,
    List.countP_eq_length.mpr (by simpa using hfront),
    List.countP_eq_zero.mpr (by simpa using hback), List.length_take]
  omega

/-- The line of an offset is one more than the newlines before it. -/
lemma line_ofSource (source : String) (offset : Nat) :
    (ofSource source).line offset = 1 + newlinesBefore source offset := by
  obtain ⟨i, hi, hline⟩ := line_eq_succ (ordered_ofSource source) offset
  have hcount := countP_startsFrom 0 offset source.toUTF8.data.toList
  rw [Nat.zero_add] at hcount
  rw [hline, ← hi.countP_eq (ordered_ofSource source), newlinesBefore, ← hcount]
  simp [ofSource, Nat.add_comm]

end LineTable

lemma newlinesBefore_mono (source : String) : Monotone (newlinesBefore source) :=
  fun _ _ h => (List.take_prefix_take_left h).sublist.count_le _

lemma one_add_newlinesBefore_le (source : String) (offset : Nat) :
    1 + newlinesBefore source offset ≤ lineCount source :=
  Nat.add_le_add_left ((List.take_sublist _ _).count_le _) 1

/-- **Line numbers**: the line of an offset is one more than the newlines before it, and the last
one for an offset past the end. So it grows with the offset, and an error that has a span is
reported with a line that the source has. -/
theorem line_numbers (source : String) :
    (∀ offset, (LineTable.ofSource source).line offset = 1 + newlinesBefore source offset) ∧
    (∀ offset, source.utf8ByteSize ≤ offset →
      (LineTable.ofSource source).line offset = lineCount source) ∧
    Monotone (LineTable.ofSource source).line ∧
    ∀ (file : String) (e : SourceError) (span : Span), e.span? = some span →
      ∃ line, 1 ≤ line ∧ line ≤ lineCount source ∧ line = 1 + newlinesBefore source span.start ∧
        e.report file source = s!"\"{file}\"" ++ s!", line {line}" ++ ": " ++ e.message := by
  have hline := LineTable.line_ofSource source
  refine ⟨hline, fun offset hoffset => ?_, fun a b hab => ?_, fun file e span hspan => ?_⟩
  · have hlen : source.toUTF8.data.toList.length ≤ offset := by simpa using hoffset
    rw [hline, newlinesBefore, List.take_of_length_le hlen, lineCount]
  · rw [hline, hline]
    exact Nat.add_le_add_left (newlinesBefore_mono source hab) 1
  · refine ⟨_, Nat.le_add_right 1 _, one_add_newlinesBefore_le source span.start, rfl, ?_⟩
    simp only [SourceError.report, hspan, LineTable.lineOf, hline]
    rfl

/-- A bracket on the third line, behind a character of two bytes and an empty line. -/
def gapText : String := "# é\n\n)"

theorem line_numbers_gap : ∃ e span, Grammar.parse gapText = .error e ∧
    (SourceError.parse e).span? = some span ∧ gapText.utf8ByteSize ≤ 9 ∧
    (LineTable.ofSource gapText).line 9 = 3 ∧
    ∃ line, line = 3 ∧ (SourceError.parse e).report "f.py" gapText =
      "\"f.py\"" ++ s!", line {line}" ++ ": " ++ (SourceError.parse e).message := by
  have hparsed : ((Grammar.parse gapText).mapError (·.span)).map (fun _ => ()) = .error ⟨6, 7⟩ := by
    decide +kernel
  obtain ⟨-, hend, -, hreport⟩ := line_numbers gapText
  cases hparse : Grammar.parse gapText with
  | ok m =>
    rw [hparse] at hparsed
    cases hparsed
  | error e =>
    rw [hparse] at hparsed
    have hspan : (SourceError.parse e).span? = some ⟨6, 7⟩ := congrArg some (Except.error.inj hparsed)
    obtain ⟨line, -, -, hline, htext⟩ := hreport "f.py" (.parse e) ⟨6, 7⟩ hspan
    refine ⟨e, ⟨6, 7⟩, rfl, hspan, by decide +kernel, ?_, line, ?_, htext⟩
    · rw [hend 9 (by decide +kernel)]
      decide +kernel
    · rw [hline]
      decide +kernel

end AnnotatedWasm
