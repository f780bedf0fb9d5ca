import AnnotatedWasm.Proofs.Layout.Indentation

/-!
How far the scan looks ahead.

No piece but a literal in triple quotes goes on behind the end of its line, and what follows such a
literal does not change it. So the lexemes up to a newline do not depend on what comes behind it
(`scanFrom_line`).
-/

namespace AnnotatedWasm

namespace Scan

variable {c q : Char} {cs ds after : List Char}

/-! ### The text before a newline -/

lemma prefix_line_iff {w : List Char} (hw : '\n' ∉ w) :
    w <+: ds ++ '\n' :: after ↔ w <+: ds := by
  refine ⟨fun h => ?_, fun h => h.trans (List.prefix_append ..)⟩
  obtain hds | ⟨more, rfl⟩ := List.prefix_or_prefix_of_prefix h (List.prefix_append ..)
  · exact hds
  · cases more with
    | nil => rw [List.append_nil]
    | cons d more =>
      obtain ⟨rest, hrest⟩ := (List.prefix_append_right_inj ds).mp h
      obtain rfl := (List.cons.inj hrest).1
      exact absurd (by simp) hw

lemma newline_notMem_spelling (p : Punct) : '\n' ∉ p.spelling.toList := by
  cases p <;> decide

lemma marked_line (c : Char) (ds after : List Char) :
    marked c (ds ++ '\n' :: after) = marked c ds := by
  have hfind : punctAt? (c :: (ds ++ '\n' :: after)) = punctAt? (c :: ds) := by
    unfold punctAt?
    congr 1
    funext p
    rw [Bool.eq_iff_iff, List.isPrefixOf_iff_prefix, List.isPrefixOf_iff_prefix,
      ← List.cons_append, prefix_line_iff (newline_notMem_spelling p)]
  rw [marked, marked, hfind]

lemma lineString_cons (hc : c ≠ '\\') (q : Char) (cs : List Char) :
    lineString q (c :: cs) =
      if c = q then .closed 1 else if c = '\n' then .broken 0 else (lineString q cs).add 1 := by
  simp [lineString, hc]

lemma lineString_line (q : Char) (ds after later : List Char) :
    lineString q (ds ++ '\n' :: after) = lineString q (ds ++ '\n' :: later) := by
  match ds with
  | [] => simp [lineString]
  | [c] =>
    by_cases hc : c = '\\'
    · simp [lineString, hc]
    · simp [lineString_cons hc, lineString_cons (c := '\n') (by decide)]
  | c :: d :: ds =>
    by_cases hc : c = '\\'
    · simp only [hc, List.cons_append, lineString, lineString_line q ds after later]
    · have hrest := lineString_line q (d :: ds) after later
      simp only [List.cons_append] at hrest ⊢
      rw [lineString_cons hc, lineString_cons hc, hrest]

lemma add_eq_closed {k n : Nat} {e : Ending} (h : e.add k = .closed n) :
    ∃ m, e = .closed m ∧ n = m + k := by
  cases e with
  | closed m =>
    cases h
    exact ⟨m, rfl, Nat.add_comm ..⟩
  | broken m => cases h

lemma add_eq_broken {k n : Nat} {e : Ending} (h : e.add k = .broken n) :
    ∃ m, e = .broken m ∧ n = m + k := by
  cases e with
  | closed m => cases h
  | broken m =>
    cases h
    exact ⟨m, rfl, Nat.add_comm ..⟩

lemma blockString_one (h : c ≠ q) (cs : List Char) :
    blockString q (c :: cs) = (blockString q cs).add 1 := by
  rw [blockString.eq_def]
  exact if_pos h

lemma blockString_two (h : c ≠ q) (cs : List Char) :
    blockString q (q :: c :: cs) = (blockString q cs).add 2 := by
  rw [blockString.eq_def]
  simp [h]

lemma blockString_three (h : c ≠ q) (cs : List Char) :
    blockString q (q :: q :: c :: cs) = (blockString q cs).add 3 := by
  rw [blockString.eq_def]
  simp [h]

lemma blockString_close (q : Char) (cs : List Char) :
    blockString q (q :: q :: q :: cs) = .closed 3 := by
  rw [blockString.eq_def]
  simp

/-- What follows a literal in triple quotes is not looked at. -/
lemma blockString_take {n : Nat} (h : blockString q cs = .closed n)
    (later : List Char) : blockString q (cs.take n ++ later) = .closed n := by
  induction cs using blockString.induct q generalizing n with
  | case1 => cases h
  | case2 c cs hc ih =>
    rw [blockString_one hc] at h
    obtain ⟨m, hm, rfl⟩ := add_eq_closed h
    simp [blockString_one hc, ih hm, Ending.add, Nat.add_comm]
  | case3 c hc =>
    obtain rfl := not_not.mp hc
    simp [blockString] at h
  | case4 c hc d ds hd ih =>
    obtain rfl := not_not.mp hc
    rw [blockString_two hd] at h
    obtain ⟨m, hm, rfl⟩ := add_eq_closed h
    simp [blockString_two hd, ih hm, Ending.add, Nat.add_comm]
  | case5 c hc d hd =>
    obtain rfl := not_not.mp hc
    obtain rfl := not_not.mp hd
    simp [blockString] at h
  | case6 c hc d hd e es he ih =>
    obtain rfl := not_not.mp hc
    obtain rfl := not_not.mp hd
    rw [blockString_three he] at h
    obtain ⟨m, hm, rfl⟩ := add_eq_closed h
    simp [blockString_three he, ih hm, Ending.add, Nat.add_comm]
  | case7 c hc d hd e es he =>
    obtain rfl := not_not.mp hc
    obtain rfl := not_not.mp hd
    obtain rfl := not_not.mp he
    rw [blockString_close] at h
    cases h
    exact blockString_close ..

/-- A literal in triple quotes that breaks off leaves nothing but quotes. -/
lemma drop_of_broken {n : Nat} (h : blockString q cs = .broken n) :
    ∀ c ∈ cs.drop n, c = q := by
  induction cs using blockString.induct q generalizing n with
  | case1 => simp
  | case2 c cs hc ih =>
    rw [blockString_one hc] at h
    obtain ⟨m, hm, rfl⟩ := add_eq_broken h
    exact ih hm
  | case3 c hc =>
    obtain rfl := not_not.mp hc
    exact fun d hd => List.mem_singleton.mp (List.mem_of_mem_drop hd)
  | case4 c hc d ds hd ih =>
    obtain rfl := not_not.mp hc
    rw [blockString_two hd] at h
    obtain ⟨m, hm, rfl⟩ := add_eq_broken h
    exact ih hm
  | case5 c hc d hd =>
    obtain rfl := not_not.mp hc
    obtain rfl := not_not.mp hd
    exact fun e he => by simpa using List.mem_of_mem_drop he
  | case6 c hc d hd e es he ih =>
    obtain rfl := not_not.mp hc
    obtain rfl := not_not.mp hd
    rw [blockString_three he] at h
    obtain ⟨m, hm, rfl⟩ := add_eq_broken h
    exact ih hm
  | case7 c hc d hd e es he =>
    obtain rfl := not_not.mp hc
    obtain rfl := not_not.mp hd
    obtain rfl := not_not.mp he
    rw [blockString_close] at h
    cases h

def Ending.length : Ending → Nat
  | closed n | broken n => n

lemma Ending.length_add (n : Nat) (e : Ending) : (e.add n).length = n + e.length := by
  cases e <;> rfl

lemma blockString_line (hq : q ≠ '\n')
    (h : (blockString q (ds ++ '\n' :: after)).length ≤ ds.length) (later : List Char) :
    blockString q (ds ++ '\n' :: later) = blockString q (ds ++ '\n' :: after) := by
  cases hend : blockString q (ds ++ '\n' :: after) with
  | closed n =>
    simp only [hend, Ending.length] at h
    have htake := blockString_take hend (ds.drop n ++ '\n' :: later)
    rwa [List.take_append_of_le_length h, ← List.append_assoc, List.take_append_drop] at htake
  | broken n =>
    simp only [hend, Ending.length] at h
    have hmem : '\n' ∈ (ds ++ '\n' :: after).drop n := by
      rw [List.drop_append_of_le_length h]
      simp
    exact absurd (drop_of_broken hend _ hmem).symm hq

lemma stringEnding_line (hq : q ≠ '\n')
    (h : (stringEnding q (ds ++ '\n' :: after)).length ≤ ds.length) (later : List Char) :
    stringEnding q (ds ++ '\n' :: later) = stringEnding q (ds ++ '\n' :: after) := by
  match ds with
  | [] =>
    have hline (cs : List Char) : stringEnding q ('\n' :: cs) = lineString q ('\n' :: cs) := by
      cases cs <;> simp [stringEnding, hq.symm]
    rw [List.nil_append, List.nil_append, hline, hline]
    exact lineString_line q [] later after
  | [c] =>
    have hline (cs : List Char) :
        stringEnding q (c :: '\n' :: cs) = lineString q (c :: '\n' :: cs) := by
      simp [stringEnding, hq.symm]
    rw [List.singleton_append, List.singleton_append, hline, hline]
    exact lineString_line q [c] later after
  | c :: d :: ds =>
    simp only [List.cons_append, stringEnding] at h ⊢
    split
    · next hblock =>
      rw [if_pos hblock, Ending.length_add] at h
      have hle : (blockString q (ds ++ '\n' :: after)).length ≤ ds.length := by
        simp only [List.length_cons] at h
        omega
      rw [blockString_line hq hle]
    · exact lineString_line q (c :: d :: ds) later after

lemma measure_return (cs : List Char) : measure '\r' cs =
    if cs.head? = some '\n' then (.newline, 1) else marked '\r' cs := by
  rcases cs with _ | ⟨c, cs⟩
  · rfl
  · by_cases hc : c = '\n' <;> simp [measure, isBlank, isWordStart, isDigit, hc]

lemma measure_backslash (cs : List Char) : measure '\\' cs =
    if cs.head? = some '\n' then (.blank, 1)
    else if cs.take 2 = ['\r', '\n'] then (.blank, 2) else marked '\\' cs := by
  rcases cs with _ | ⟨c, cs⟩
  · rfl
  · by_cases hc : c = '\n'
    · simp [measure, isBlank, isWordStart, isDigit, hc]
    · by_cases hr : c = '\r'
      · rcases cs with _ | ⟨d, cs⟩
        · simp [measure, isBlank, isWordStart, isDigit, hr]
        · by_cases hd : d = '\n' <;> simp [measure, isBlank, isWordStart, isDigit, hr, hd]
      · simp [measure, isBlank, isWordStart, isDigit, hr, hc]

lemma measure_point (cs : List Char) : measure '.' cs =
    if cs.head?.any isDigit then (.number, pointLength cs) else marked '.' cs := by
  cases cs <;> simp [measure, isBlank, isWordStart, isDigit]

lemma measure_quote (hq : q = '\x27' ∨ q = '\x22') (cs : List Char) : measure q cs =
    match stringEnding q cs with
    | .closed n => (.string, n)
    | .broken n => (.unknown, n) := by
  rcases hq with rfl | rfl <;> rfl

/-- The characters at which a piece starts that is neither blank, word, number nor mark. -/
def specials : List Char := ['\n', '\r', '\\', '#', '.', '\x27', '\x22']

lemma measure_plain (hblank : isBlank c = false) (hword : isWordStart c = false)
    (hdigit : isDigit c = false) (hc : c ∉ specials) (cs : List Char) :
    measure c cs = marked c cs := by
  simp only [specials, List.mem_cons, List.not_mem_nil, or_false, not_or] at hc
  unfold measure
  rw [hblank, hword, hdigit]
  split <;> simp_all

/-- **A piece** that ends before a newline stays the same, whatever follows. -/
lemma measure_line
    (h : (measure c (ds ++ '\n' :: after)).2 ≤ ds.length) (later : List Char) :
    measure c (ds ++ '\n' :: later) = measure c (ds ++ '\n' :: after) := by
  have hnumber (cs : List Char) : Ends inNumber ('\n' :: cs) := ends_cons.mpr (by decide)
  cases hblank : isBlank c with
  | true =>
    have hrun (cs : List Char) : runLength isBlank (ds ++ '\n' :: cs) = runLength isBlank ds :=
      runLength_append ds (ends_cons.mpr (by decide))
    simp only [measure, hblank, if_true, hrun]
  | false =>
  cases hword : isWordStart c with
  | true =>
    have hrun (cs : List Char) :
        runLength isWordPart (ds ++ '\n' :: cs) = runLength isWordPart ds :=
      runLength_append ds (ends_cons.mpr (by decide))
    simp only [measure, hblank, hword, if_true, Bool.false_eq_true, if_false, hrun]
  | false =>
  cases hdigit : isDigit c with
  | true =>
    simp only [measure, hblank, hword, hdigit, if_true, Bool.false_eq_true, if_false,
      numberLength_append ds (hnumber _)]
  | false =>
  by_cases hc : c ∈ specials
  · simp only [specials, List.mem_cons, List.not_mem_nil, or_false] at hc
    rcases hc with rfl | rfl | rfl | rfl | rfl | hquote
    · rfl
    · simp only [measure_return, marked_line, List.head?_append, List.head?_cons]
    · have htake (cs : List Char) (hds : ds ≠ []) :
          (ds ++ '\n' :: cs).take 2 = (ds ++ ['\n']).take 2 := by
        rcases ds with _ | ⟨d, _ | ⟨e, ds⟩⟩ <;> simp_all
      by_cases hds : ds = []
      · simp [measure_backslash, hds]
      · simp only [measure_backslash, marked_line, List.head?_append, List.head?_cons, htake _ hds]
    · have hrun (cs : List Char) :
          runLength (· ≠ '\n') (ds ++ '\n' :: cs) = runLength (· ≠ '\n') ds :=
        runLength_append ds (ends_cons.mpr (by decide))
      exact congrArg (Prod.mk Piece.comment) ((hrun later).trans (hrun after).symm)
    · simp only [measure_point, marked_line, List.head?_append, List.head?_cons,
        pointLength_append ds (hnumber _)]
    · have hq : c ≠ '\n' := by rcases hquote with rfl | rfl <;> decide
      have hlength (cs : List Char) : (measure c cs).2 = (stringEnding c cs).length := by
        rw [measure_quote hquote]
        cases stringEnding c cs <;> rfl
      rw [hlength] at h
      rw [measure_quote hquote, measure_quote hquote, stringEnding_line hq h]
  · rw [measure_plain hblank hword hdigit hc, measure_plain hblank hword hdigit hc, marked_line,
      marked_line]

/-! ### The scan before a newline -/

lemma columnFrom_line (column : Nat) (ds after later : List Char) :
    columnFrom column (ds ++ '\n' :: later) = columnFrom column (ds ++ '\n' :: after) := by
  simp [columnFrom_eq_foldl, List.takeWhile_append]

lemma indentAfter_line (indent : Nat) (text ds after later : List Char) :
    indentAfter indent text (ds ++ '\n' :: later) =
      indentAfter indent text (ds ++ '\n' :: after) := by
  simp only [indentAfter, ← List.append_assoc]
  rw [columnFrom_line]

/-- The lexeme of a piece with the given text, if it has one. -/
def placed? (offset indent : Nat) (piece : Piece) (text : List Char) : List Placed :=
  ((piece.token? (String.ofList text)).map fun token =>
    ⟨⟨token, ⟨offset, offset + byteLength text⟩⟩, indent⟩).toList

lemma scanFrom_cons (offset indent : Nat) (c : Char) (cs : List Char) :
    scanFrom offset indent (c :: cs) =
      placed? offset indent (measure c cs).1 (c :: cs.take (measure c cs).2) ++
        scanFrom (offset + byteLength (c :: cs.take (measure c cs).2))
          (indentAfter indent (c :: cs.take (measure c cs).2) (cs.drop (measure c cs).2))
          (cs.drop (measure c cs).2) := by
  rw [scanFrom, placed?]
  split
  · next htoken => rw [htoken]; rfl
  · next htoken => rw [htoken]; rfl

lemma scanFrom_piece {rest : List Char} {piece : Piece}
    (h : measure c (cs ++ rest) = (piece, cs.length)) (offset indent : Nat) :
    scanFrom offset indent (c :: (cs ++ rest)) = placed? offset indent piece (c :: cs) ++
      scanFrom (offset + byteLength (c :: cs)) (indentAfter indent (c :: cs) rest) rest := by
  rw [scanFrom_cons, h, List.take_left, List.drop_left]

lemma lt_stop (offset indent : Nat) (cs : List Char) :
    ∀ l ∈ scanFrom offset indent cs, offset < l.span.stop := by
  fun_induction scanFrom offset indent cs with
  | case1 => exact List.forall_mem_nil _
  | case2 offset indent c cs found text rest stop later token htoken ih =>
    have hstop : offset < stop := Nat.lt_add_of_pos_right (byteLength_pos ..)
    exact List.forall_mem_cons.mpr ⟨hstop, fun l hl => hstop.trans (ih l hl)⟩
  | case3 offset indent c cs found text rest stop later htoken ih =>
    exact fun l hl => (Nat.le_add_right ..).trans_lt (ih l hl)

/-- A lexeme of the scan is that of the first piece, or one of those behind it. -/
lemma placed?_cases {offset indent : Nat} {piece : Piece} {text : List Char}
    {pre post later : List Placed} {l : Placed}
    (h : placed? offset indent piece text ++ later = pre ++ l :: post) :
    pre = [] ∧ piece.token? (String.ofList text) = some l.token ∧
        l = ⟨⟨l.token, ⟨offset, offset + byteLength text⟩⟩, indent⟩ ∨
      ∃ pre', pre = placed? offset indent piece text ++ pre' ∧ later = pre' ++ l :: post := by
  unfold placed? at h ⊢
  cases htoken : piece.token? (String.ofList text) with
  | none =>
    rw [htoken] at h
    exact .inr ⟨pre, rfl, h⟩
  | some token =>
    rw [htoken] at h
    cases pre with
    | nil =>
      obtain ⟨rfl, -⟩ := List.cons.inj h
      exact .inl ⟨rfl, rfl, rfl⟩
    | cons m pre =>
      obtain ⟨rfl, hlater⟩ := List.cons.inj h
      exact .inr ⟨pre, rfl, hlater⟩

lemma scanFrom_newline (h : String.ofList (ds ++ ['\n']) ∈ newlines)
    (offset indent : Nat) (later : List Char) :
    scanFrom offset indent (ds ++ '\n' :: later) =
      ⟨⟨.newline, ⟨offset, offset + byteLength (ds ++ ['\n'])⟩⟩, indent⟩ ::
        scanFrom (offset + byteLength (ds ++ ['\n'])) (columnFrom 0 later) later := by
  obtain rfl | rfl : ds = [] ∨ ds = ['\r'] := by
    simpa [List.append_eq_cons_iff] using eq_of_mem_newlines h
  · have hmeasure : measure '\n' ([] ++ later) = (.newline, ([] : List Char).length) := rfl
    exact scanFrom_piece hmeasure offset indent
  · have hmeasure : measure '\r' (['\n'] ++ later) = (.newline, ['\n'].length) := rfl
    exact scanFrom_piece hmeasure offset indent

lemma newline_of_token? {text : String} (h : (measure c cs).1.token? text = some .newline) :
    String.ofList (c :: cs.take (measure c cs).2) ∈ newlines := by
  obtain ⟨-, hblank⟩ | ⟨hblank, -⟩ | ⟨-, hnewlines⟩ | ⟨-, hcomment⟩ | hidle := measure_cases c cs
  · rw [hblank] at h
    cases h
  · rw [hblank] at h
    cases h
  · exact hnewlines
  · rw [hcomment] at h
    cases h
  · exact absurd rfl (token?_of_notMem hidle h).1

/-- The first piece is the newline `l` if it reaches as far as `l`. -/
lemma first_newline {text more : List Char} {offset indent : Nat}
    {pre post : List Placed} {l : Placed}
    (h : scanFrom offset indent (c :: cs) = pre ++ l :: post) (hl : l.token = .newline)
    (htext : c :: cs.take (measure c cs).2 = text ++ more)
    (hstop : l.span.stop = offset + byteLength text) :
    pre = [] ∧ String.ofList text ∈ newlines ∧
      l = ⟨⟨.newline, ⟨offset, offset + byteLength text⟩⟩, indent⟩ := by
  rw [scanFrom_cons] at h
  rcases placed?_cases h with ⟨rfl, htoken, hfirst⟩ | ⟨pre, -, hlater⟩
  · rw [hl] at htoken
    have hnewline := newline_of_token? htoken
    rw [htext] at hfirst hnewline
    obtain rfl : more = [] := by
      cases more with
      | nil => rfl
      | cons d more =>
        have hpos := byteLength_pos d more
        rw [hfirst, byteLength_append] at hstop
        simp only at hstop
        omega
    rw [List.append_nil] at hfirst hnewline
    exact ⟨rfl, hnewline, by rw [hfirst, hl]⟩
  · have hlt := lt_stop _ _ _ l (by rw [hlater]; simp)
    rw [htext, byteLength_append, hstop] at hlt
    omega

/-- **The scan before a newline** stays the same, whatever follows. -/
lemma scanFrom_line {after : List Char} (later : List Char) {ds : List Char} {offset indent : Nat}
    {pre post : List Placed} {l : Placed}
    (h : scanFrom offset indent (ds ++ '\n' :: after) = pre ++ l :: post)
    (hl : l.token = .newline) (hstop : l.span.stop = offset + byteLength (ds ++ ['\n'])) :
    scanFrom offset indent (ds ++ '\n' :: later) = pre ++ l ::
      scanFrom (offset + byteLength (ds ++ ['\n'])) (columnFrom 0 later) later := by
  match ds with
  | [] =>
    obtain ⟨rfl, hnewline, hfirst⟩ := first_newline h hl rfl hstop
    rw [hfirst]
    exact scanFrom_newline hnewline ..
  | c :: ds =>
    by_cases hn : (measure c (ds ++ '\n' :: after)).2 ≤ ds.length
    · -- the piece ends before the newline, and the scan goes on behind it
      rw [List.cons_append, scanFrom_cons] at h ⊢
      rw [measure_line hn later]
      generalize measure c (ds ++ '\n' :: after) = found at h hn ⊢
      have hsplit : byteLength (c :: ds ++ ['\n']) =
          byteLength (c :: ds.take found.2) + byteLength (ds.drop found.2 ++ ['\n']) := by
        rw [← byteLength_append, List.cons_append, List.cons_append, ← List.append_assoc,
          List.take_append_drop]
      rw [List.take_append_of_le_length hn, List.drop_append_of_le_length hn] at h ⊢
      rcases placed?_cases h with ⟨-, -, hfirst⟩ | ⟨pre, rfl, hlater⟩
      · rw [hfirst, hsplit, byteLength_append] at hstop
        have hpos := byteLength_pos '\n' []
        simp only at hstop
        omega
      · rw [hsplit, ← Nat.add_assoc] at hstop ⊢
        rw [indentAfter_line indent _ _ after later, scanFrom_line later hlater hl hstop,
          List.append_assoc]
    · -- the piece holds the newline, and so it is the newline
      obtain ⟨more, hmore⟩ : ∃ more, c :: (ds ++ '\n' :: after).take
          (measure c (ds ++ '\n' :: after)).2 = c :: ds ++ ['\n'] ++ more := by
        rw [List.append_cons, List.take_append, List.take_of_length_le (by simp; omega)]
        exact ⟨_, rfl⟩
      obtain ⟨rfl, hnewline, hfirst⟩ := first_newline h hl hmore hstop
      rw [hfirst]
      exact scanFrom_newline hnewline ..
termination_by ds.length

lemma exists_newline (offset indent : Nat) (cs : List Char) :
    ∀ l ∈ scanFrom offset indent cs, l.token = .newline → ∃ ds after, cs = ds ++ '\n' :: after ∧
      l.span.stop = offset + byteLength (ds ++ ['\n']) := by
  fun_induction scanFrom offset indent cs with
  | case1 => exact List.forall_mem_nil _
  | case2 offset indent c cs found text rest stop later token htoken ih =>
    have hcs : c :: cs = text ++ rest := by simp [text, rest]
    refine List.forall_mem_cons.mpr ⟨?_, fun l hl hnewline => ?_⟩
    · rintro rfl
      obtain ⟨ds, hds⟩ : ∃ ds, text = ds ++ ['\n'] := by
        have hnewline : String.ofList text ∈ newlines := newline_of_token? htoken
        obtain htext | htext := eq_of_mem_newlines hnewline
        · exact ⟨[], htext⟩
        · exact ⟨['\r'], htext⟩
      exact ⟨ds, rest, by rw [hcs, hds]; simp, by rw [← hds]⟩
    · obtain ⟨ds, after, hrest, hstop⟩ := ih l hl hnewline
      refine ⟨text ++ ds, after, by rw [hcs, hrest, List.append_assoc], ?_⟩
      rw [hstop, List.append_assoc, byteLength_append text, ← Nat.add_assoc]
  | case3 offset indent c cs found text rest stop later htoken ih =>
    intro l hl hnewline
    have hcs : c :: cs = text ++ rest := by simp [text, rest]
    obtain ⟨ds, after, hrest, hstop⟩ := ih l hl hnewline
    refine ⟨text ++ ds, after, by rw [hcs, hrest, List.append_assoc], ?_⟩
    rw [hstop, List.append_assoc, byteLength_append text, ← Nat.add_assoc]

lemma append_inj_byteLength {as bs : List Char} (h : as ++ cs = bs ++ ds)
    (hlength : byteLength as = byteLength bs) : as = bs := by
  rcases List.append_eq_append_iff.mp h with ⟨more, rfl, -⟩ | ⟨more, rfl, -⟩ <;>
  · cases more with
    | nil => simp
    | cons c more =>
      have hpos := byteLength_pos c more
      rw [byteLength_append] at hlength
      omega

end Scan

end AnnotatedWasm
