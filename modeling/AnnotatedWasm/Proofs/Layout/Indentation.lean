import AnnotatedWasm.Proofs.Layout.Tiling
import AnnotatedWasm.Proofs.Printing.Blocks

/-!
The rule of indentation.

The rule goes by lines. A line of the text ends with a newline outside brackets, and if anything but
a comment stands on it, its leading spaces and tabs are compared with a stack of indentations
(`relevel`, `ruled`). The layout goes by lexemes instead: it compares the line of the lexeme that
comes after a newline. For a text in which no line is continued by a backslash the two agree on
every line but the first, which has no newline before it and is not compared with anything.
-/

namespace AnnotatedWasm

/-! ### Lines of a text -/

namespace Layout

/-- A line of a text: the byte it starts with, and the lexemes on it but for comments and
newlines. -/
structure TextLine where
  start : Nat
  lexemes : List Lexeme
deriving Repr, DecidableEq

namespace TextLine

def tokens (line : TextLine) : List Token := line.lexemes.map Lexeme.token

/-- The line with one more lexeme in front. -/
def push (l : Lexeme) (line : TextLine) : TextLine := { line with lexemes := l :: line.lexemes }

end TextLine

/-- The lines that the lexemes of a scan stand on, the first of which starts at `start` and has
`depth` brackets open. Brackets join lines. -/
def textLines (start depth : Nat) : List Lexeme → List TextLine
  | [] => [⟨start, []⟩]
  | l :: ls =>
    match l.token with
    | .comment => textLines start depth ls
    | .newline =>
      if 0 < depth then textLines start depth ls
      else ⟨start, []⟩ :: textLines l.span.stop 0 ls
    | t => (textLines start (bracket depth t) ls).modifyHead (.push l)

/-- The column behind a space or a tab; tab stops are eight apart. -/
def columnAfter (column : Nat) (c : Char) : Nat :=
  if c = '\t' then (column / 8 + 1) * 8 else column + 1

/-- The column that the leading spaces and tabs of the text from a byte on lead to. -/
def indentation (source : String) (start : Nat) : Nat :=
  ((Span.textIn source ⟨start, source.utf8ByteSize⟩).toList.takeWhile
    fun c => c = ' ' || c = '\t').foldl columnAfter 0

/-! ### The rule -/

/-- A dedent for each level above `width`, and the levels that stay. -/
def popTo (width : Nat) : List Nat → List Token × List Nat
  | [] => ([], [])
  | level :: stack =>
    if width < level then (.dedent :: (popTo width stack).1, (popTo width stack).2)
    else ([], level :: stack)

/-- The marks before a line indented by `width`, and the stack after them, innermost level first.
An indentation that is smaller than the innermost one has to be one of the others. -/
def relevel (width : Nat) (stack : List Nat) : List Token × List Nat :=
  if stack.headD 0 < width then ([.indent], width :: stack)
  else ((popTo width stack).1 ++ (if width ∈ stack then [] else [.error]), (popTo width stack).2)

/-- The tokens of lines, newlines apart, with the marks that the rule gives. Lines with nothing on
them are passed over, and at the end all levels but the outermost are closed. -/
def ruled (source : String) (stack : List Nat) : List TextLine → List Token
  | [] => List.replicate (stack.length - 1) .dedent ++ [.eof]
  | line :: lines =>
    if line.lexemes = [] then ruled source stack lines
    else
      let (marks, stack) := relevel (indentation source line.start) stack
      marks ++ line.tokens ++ ruled source stack lines

/-- The tokens of a stream, newlines apart. -/
def quiet (ls : List Lexeme) : List Token := (ls.map Lexeme.token).filter (· ≠ .newline)

@[simp] lemma quiet_append (ls ms : List Lexeme) : quiet (ls ++ ms) = quiet ls ++ quiet ms := by
  simp [quiet]

lemma popTo_append_zero (width : Nat) (levels : List Nat) :
    popTo width (levels ++ [0]) = ((levels.takeWhile (width < ·)).map fun _ => .dedent,
      levels.dropWhile (width < ·) ++ [0]) := by
  induction levels with
  | nil => simp [popTo]
  | cons level levels ih =>
    rw [List.cons_append, popTo]
    by_cases h : width < level
    · simp [h, ih]
    · simp [h]

lemma Rising.pos {levels : List Nat} (h : Rising levels) : ∀ level ∈ levels, 0 < level :=
  fun _ hlevel => (List.pairwise_append.mp h).2.2 _ hlevel 0 (List.mem_singleton_self 0)

/-- A line that fits one of the levels fits the innermost of those that stay. -/
lemma Rising.mem_iff {levels : List Nat} (h : Rising levels) (width : Nat) :
    width ∈ levels ++ [0] ↔ (levels.dropWhile (width < ·)).headD 0 = width := by
  induction levels with
  | nil => simp [eq_comm]
  | cons level levels ih =>
    obtain ⟨hlevel, hlevels⟩ := List.pairwise_cons.mp h
    by_cases hlt : width < level
    · rw [List.dropWhile_cons_of_pos (by simpa using hlt), ← ih hlevels, List.cons_append,
        List.mem_cons, or_iff_right hlt.ne]
    · rw [List.dropWhile_cons_of_neg (by simpa using hlt), List.headD_cons, List.cons_append,
        List.mem_cons, eq_comm (a := width)]
      exact or_iff_left fun hmem => hlt (hlevel width hmem)

/-- The layout levels a line as the rule does. -/
lemma quiet_reindent {levels : List Nat} (h : Rising levels) (width : Nat) (span : Span) :
    quiet (reindent levels width span).1 = (relevel width (levels ++ [0])).1 ∧
      (reindent levels width span).2 ++ [0] = (relevel width (levels ++ [0])).2 := by
  have hhead : (levels ++ [0]).headD 0 = levels.headD 0 := by cases levels <;> rfl
  unfold reindent relevel
  rw [hhead, popTo_append_zero]
  split
  · exact ⟨rfl, rfl⟩
  · simp only [h.mem_iff width, and_true]
    split <;> simp [quiet]

/-! ### The lines of the scan -/

end Layout

namespace Scan

lemma columnFrom_eq_foldl (column : Nat) (cs : List Char) : columnFrom column cs =
    (cs.takeWhile fun c => c = ' ' || c = '\t').foldl Layout.columnAfter column := by
  fun_induction columnFrom column cs with
  | case1 column cs ih => exact ih
  | case2 column cs ih => exact ih
  | case3 cs column hspace htab =>
    cases cs with
    | nil => rfl
    | cons c cs =>
      have hc : ¬ (c = ' ' ∨ c = '\t') := by
        rintro (rfl | rfl)
        · exact hspace cs rfl
        · exact htab cs rfl
      rw [List.takeWhile_cons_of_neg (by simpa using hc), List.foldl_nil]

lemma indentation_eq {source : String} {before rest : List Char}
    (h : source.toList = before ++ rest) :
    Layout.indentation source (byteLength before) = columnFrom 0 rest := by
  have hwhole : source.toList = before ++ rest ++ [] := by rw [h, List.append_nil]
  have htext := textIn_of_append hwhole
  rw [← byteLength_append, ← h, Layout.byteLength_toList] at htext
  rw [Layout.indentation, htext, String.toList_ofList, columnFrom_eq_foldl]

/-- The pieces that a text is cut into. -/
def pieces : List Char → List String
  | [] => []
  | c :: cs =>
    String.ofList (c :: cs.take (measure c cs).2) :: pieces (cs.drop (measure c cs).2)
termination_by cs => cs.length
decreasing_by simp only [List.length_drop, List.length_cons]; omega

/-- No line is continued by a backslash. -/
def Unbroken (cs : List Char) : Prop := ∀ piece ∈ pieces cs, piece ∉ continuations

instance (cs : List Char) : Decidable (Unbroken cs) :=
  inferInstanceAs (Decidable (∀ piece ∈ pieces cs, piece ∉ continuations))

/-- Where the line of the next lexeme starts, if none but comments and newlines stand before it. -/
def startAfter (start? : Option Nat) (l : Lexeme) : Option Nat :=
  match l.token with
  | .newline => some l.span.stop
  | .comment => start?
  | _ => none

/-- The first lexeme of a line knows how far the line is indented. -/
def Lined (source : String) (start? : Option Nat) : List Placed → Prop
  | [] => True
  | l :: ls => (∀ start ∈ start?, l.indent = Layout.indentation source start) ∧
      Lined source (startAfter start? l.toLexeme) ls

lemma Lined.mono {source : String} {start? : Option Nat} {ls : List Placed}
    (h : Lined source start? ls) : Lined source none ls := by
  induction ls generalizing start? with
  | nil => trivial
  | cons l ls ih =>
    have hstart : startAfter none l.toLexeme = none ∨
        startAfter none l.toLexeme = startAfter start? l.toLexeme := by
      unfold startAfter
      split <;> simp
    refine ⟨nofun, ?_⟩
    rcases hstart with hstart | hstart <;> rw [hstart]
    · exact ih h.2
    · exact h.2

lemma unbroken_cons {c : Char} {cs : List Char} (h : Unbroken (c :: cs)) :
    String.ofList (c :: cs.take (measure c cs).2) ∉ continuations ∧
      Unbroken (cs.drop (measure c cs).2) := by
  unfold Unbroken at h ⊢
  rw [pieces] at h
  exact List.forall_mem_cons.mp h

lemma eq_of_mem_newlines {text : List Char} (h : String.ofList text ∈ newlines) :
    text = ['\n'] ∨ text = ['\r', '\n'] := by
  simpa [newlines, ← String.toList_inj] using h

lemma indentAfter_newline {text : List Char} (h : String.ofList text ∈ newlines) (indent : Nat)
    (rest : List Char) : indentAfter indent text rest = columnFrom 0 rest := by
  obtain rfl | rfl := eq_of_mem_newlines h
  · rfl
  · rfl

lemma notMem_comment (cs : List Char) :
    '\n' ∉ '#' :: cs.take (runLength (· ≠ '\n') cs) := by
  rw [take_runLength, List.mem_cons, not_or]
  exact ⟨by decide, fun h => by simpa using List.mem_takeWhile_imp h⟩

lemma token?_of_notMem {piece : Piece} {text : String} {t : Token} (h : piece ∉ idlePieces)
    (ht : piece.token? text = some t) : t ≠ .newline ∧ t ≠ .comment := by
  cases piece with
  | blank | newline | comment => exact absurd (by simp [idlePieces]) h
  | word =>
    rw [Piece.token?] at ht
    split at ht <;> cases ht <;> simp
  | _ =>
    cases ht
    simp

/-- **The lines of a scan**: behind a newline, each lexeme up to the first of a statement stands on
the line that starts there, or on a later one. -/
lemma lined_scanFrom (source : String) (offset indent : Nat) (cs : List Char) : ∀ before start?,
    source.toList = before ++ cs → byteLength before = offset → Unbroken cs →
      (∀ start ∈ start?, indent = Layout.indentation source start) →
        Lined source start? (scanFrom offset indent cs) := by
  fun_induction scanFrom offset indent cs with
  | case1 => exact fun _ _ _ _ _ _ => trivial
  | case2 offset indent c cs found text rest stop later token htoken ih =>
    rintro before start? hsource rfl hunbroken hstart
    have hpiece : source.toList = before ++ text ++ rest := split_piece found.2 hsource
    have hstop : byteLength (before ++ text) = stop := byteLength_append ..
    refine ⟨hstart, ih _ _ hpiece hstop (unbroken_cons hunbroken).2 fun start hmem => ?_⟩
    obtain ⟨-, hblank⟩ | ⟨hblank, -⟩ | ⟨hnewline, hnewlines⟩ | ⟨rfl, hcomment⟩ | hidle :=
      measure_cases c cs
    · simp only [found, hblank] at htoken
      cases htoken
    · simp only [found, hblank] at htoken
      cases htoken
    · simp only [found, hnewline] at htoken
      cases htoken
      cases hmem
      rw [indentAfter_newline hnewlines, ← indentation_eq hpiece, hstop]
    · simp only [found, hcomment] at htoken
      cases htoken
      have hline : '\n' ∉ text := by
        simp only [text, found, hcomment]
        exact notMem_comment cs
      rw [indentAfter, if_neg hline]
      exact hstart start hmem
    · obtain ⟨hnewline, hcomment⟩ := token?_of_notMem hidle htoken
      unfold startAfter at hmem
      split at hmem
      · exact absurd ‹_› hnewline
      · exact absurd ‹_› hcomment
      · cases hmem
  | case3 offset indent c cs found text rest stop later htoken ih =>
    rintro before start? hsource rfl hunbroken hstart
    have hpiece : source.toList = before ++ text ++ rest := split_piece found.2 hsource
    obtain ⟨hwhole, hunbroken⟩ := unbroken_cons hunbroken
    refine ih _ _ hpiece (byteLength_append ..) hunbroken ?_
    have hline : '\n' ∉ text := by
      intro hmem
      rcases (skipped_of_measure (token?_eq_none htoken)).resolve_right hwhole '\n'
        (by rwa [String.toList_ofList]) with h | h | h <;> cases h
    rwa [indentAfter, if_neg hline]

end Scan

namespace Layout

open Scan (Placed Lined raw)

/-! ### What the layout makes of the lines -/

variable {source : String} {s : State} {ls : List Placed} {start depth stop : Nat}

lemma textLines_comment {l : Lexeme} (h : l.token = .comment) (ls : List Lexeme) :
    textLines start depth (l :: ls) = textLines start depth ls := by
  rw [textLines, h]

lemma textLines_newline {l : Lexeme} (h : l.token = .newline) (ls : List Lexeme) :
    textLines start 0 (l :: ls) = ⟨start, []⟩ :: textLines l.span.stop 0 ls := by
  rw [textLines, h]
  exact if_neg (Nat.lt_irrefl 0)

lemma textLines_within {l : Lexeme} (h : l.token = .newline) (hdepth : 0 < depth)
    (ls : List Lexeme) : textLines start depth (l :: ls) = textLines start depth ls := by
  rw [textLines, h]
  exact if_pos hdepth

lemma textLines_other {l : Lexeme} (hcomment : l.token ≠ .comment) (hnewline : l.token ≠ .newline)
    (ls : List Lexeme) : textLines start depth (l :: ls) =
      (textLines start (bracket depth l.token) ls).modifyHead (.push l) := by
  rw [textLines]
  split
  · contradiction
  · contradiction
  · rfl

lemma startAfter_newline {l : Lexeme} (h : l.token = .newline) (start? : Option Nat) :
    Scan.startAfter start? l = some l.span.stop := by
  rw [Scan.startAfter, h]

lemma startAfter_comment {l : Lexeme} (h : l.token = .comment) (start? : Option Nat) :
    Scan.startAfter start? l = start? := by
  rw [Scan.startAfter, h]

lemma startAfter_other {l : Lexeme} (hcomment : l.token ≠ .comment) (hnewline : l.token ≠ .newline)
    (start? : Option Nat) : Scan.startAfter start? l = none := by
  unfold Scan.startAfter
  split
  · contradiction
  · contradiction
  · rfl

/-- In a line that starts at `start`, the rest of it comes out, and then what the rule says. -/
def Continues (source : String) (stop : Nat) (s : State) (start : Nat) (ls : List Placed) : Prop :=
  ∃ line lines, textLines start s.depth (ls.map (·.toLexeme)) = line :: lines ∧
    line.start = start ∧
      quiet (run stop s ls) = line.tokens ++ ruled source (s.levels ++ [0]) lines

/-- Between lines, the next of which starts at `start`, what the rule says comes out. -/
def Begins (source : String) (stop : Nat) (s : State) (start : Nat) (ls : List Placed) : Prop :=
  quiet (run stop s ls) =
    ruled source (s.levels ++ [0]) (textLines start 0 (ls.map (·.toLexeme)))

lemma quiet_settle (hs : Rising s.levels) (hpending : s.pending.isSome) (width : Nat) :
    quiet (settle s width).1 = (relevel width (s.levels ++ [0])).1 ∧
      (settle s width).2.levels ++ [0] = (relevel width (s.levels ++ [0])).2 := by
  obtain ⟨span, hspan⟩ := Option.isSome_iff_exists.mp hpending
  rw [settle, hspan]
  exact quiet_reindent hs width span

/-- The end of the text closes all levels. -/
lemma relevel_zero (hs : Rising s.levels) : relevel 0 (s.levels ++ [0]) =
    (List.replicate s.levels.length .dedent, [0]) := by
  have hall : ∀ level ∈ s.levels, decide (0 < level) = true := fun level hlevel =>
    decide_eq_true (hs.pos level hlevel)
  unfold relevel
  rw [if_neg (Nat.not_lt_zero _), popTo_append_zero, List.takeWhile_eq_self_iff.mpr hall,
    List.dropWhile_eq_nil_iff.mpr hall]
  simp

lemma continues_nil (hpending : s.pending = none) : Continues source stop s start [] := by
  refine ⟨⟨start, []⟩, [], rfl, rfl, ?_⟩
  rw [run, finish_eq, settle, hpending]
  simp [quiet, ruled, TextLine.tokens]

lemma begins_nil (hs : Rising s.levels) (hpending : s.pending.isSome) :
    Begins source stop s start [] := by
  obtain ⟨hmarks, hlevels⟩ := quiet_settle hs hpending 0
  rw [relevel_zero hs] at hmarks hlevels
  have hnone : (settle s 0).2.levels = [] := by simpa using hlevels
  rw [Begins, run, finish_eq, quiet_append, hmarks, hnone]
  simp [quiet, ruled, textLines]

/-- The first lexeme of a line lets the marks of the line out. -/
lemma begins_place {l : Placed} (hs : Rising s.levels) (hpending : s.pending.isSome)
    (hdepth : s.depth = 0) (hcomment : l.token ≠ .comment) (hnewline : l.token ≠ .newline)
    (hl : l.indent = indentation source start)
    (h : Continues source stop (place s l).2 start ls) :
    quiet ((place s l).1 ++ run stop (place s l).2 ls) =
      ruled source (s.levels ++ [0]) (textLines start 0 ((l :: ls).map (·.toLexeme))) := by
  obtain ⟨line, lines, hlines, rfl, hrun⟩ := h
  obtain ⟨hmarks, hlevels⟩ := quiet_settle hs hpending l.indent
  have hout : (place s l).1 = (settle s l.indent).1 ++ [l.toLexeme] := rfl
  have hkept : (place s l).2.levels = (settle s l.indent).2.levels := rfl
  rw [depth_place, hdepth] at hlines
  rw [List.map_cons, textLines_other hcomment hnewline, hlines, List.modifyHead_cons, ruled,
    if_neg (by simp [TextLine.push]), hout, quiet_append, quiet_append, hmarks, hrun, hkept,
    hlevels, hl]
  simp [quiet, hnewline, TextLine.push, TextLine.tokens]

/-- **One step** in a line. -/
lemma continues_cons {l : Placed} (hpending : s.pending = none) (hl : Lined source none (l :: ls))
    (hcontinues : ∀ depth, Lined source none ls →
      Continues source stop { s with depth } start ls)
    (hbegins : s.depth = 0 → Lined source (some l.span.stop) ls →
      Begins source stop { s with pending := some l.span } l.span.stop ls) :
    Continues source stop s start (l :: ls) := by
  unfold Continues
  rw [List.map_cons, run]
  obtain ⟨hdrop, hstep⟩ | ⟨⟨hnewline, -, hzero⟩, hstep⟩ | ⟨⟨hcomment, hnewline⟩, hstep⟩ :=
    step_cases s l
  · have hlines : textLines start s.depth (l.toLexeme :: ls.map (·.toLexeme)) =
        textLines start s.depth (ls.map (·.toLexeme)) := by
      rcases hdrop with hcomment | ⟨hnewline, hsome | hpos⟩
      · exact textLines_comment hcomment _
      · rw [hpending] at hsome
        cases hsome
      · exact textLines_within hnewline hpos _
    rw [hstep, hlines]
    exact hcontinues s.depth hl.2.mono
  · have hlined := hl.2
    rw [startAfter_newline hnewline] at hlined
    have hlines : textLines start s.depth (l.toLexeme :: ls.map (·.toLexeme)) = ⟨start, []⟩ ::
        textLines l.span.stop 0 (ls.map (·.toLexeme)) := by
      rw [hzero]
      exact textLines_newline hnewline _
    rw [hstep, hlines]
    exact ⟨_, _, rfl, rfl, hbegins hzero hlined⟩
  · have hplace : place s l = ([l.toLexeme], { s with depth := bracket s.depth l.token }) := by
      obtain ⟨levels, depth, pending⟩ := s
      obtain rfl : pending = none := hpending
      exact place_of_settled levels depth l
    have hlined := hl.2
    rw [startAfter_other hcomment hnewline] at hlined
    obtain ⟨line, lines, hlines, hstart, hrun⟩ := hcontinues (bracket s.depth l.token) hlined
    rw [hstep, hplace, textLines_other hcomment hnewline, hlines, List.modifyHead_cons]
    refine ⟨_, _, rfl, hstart, ?_⟩
    rw [quiet_append, hrun]
    simp [quiet, hnewline, TextLine.push, TextLine.tokens]

/-- **One step** between lines. -/
lemma begins_cons {l : Placed} (hs : Rising s.levels) (hpending : s.pending.isSome)
    (hdepth : s.depth = 0) (hl : Lined source (some start) (l :: ls))
    (hcontinues : Lined source none ls → Continues source stop (place s l).2 start ls)
    (hbegins : ∀ start, Lined source (some start) ls → Begins source stop s start ls) :
    Begins source stop s start (l :: ls) := by
  obtain ⟨hindent, hlined⟩ := hl
  unfold Begins
  rw [run]
  obtain ⟨hdrop, hstep⟩ | ⟨⟨-, hnone, -⟩, -⟩ | ⟨⟨hcomment, hnewline⟩, hstep⟩ := step_cases s l
  · rw [hstep]
    rcases hdrop with hcomment | ⟨hnewline, -⟩
    · rw [startAfter_comment hcomment] at hlined
      rw [List.map_cons, textLines_comment hcomment]
      exact hbegins start hlined
    · rw [startAfter_newline hnewline] at hlined
      rw [List.map_cons, textLines_newline hnewline, ruled, if_pos rfl]
      exact hbegins _ hlined
  · rw [hnone] at hpending
    cases hpending
  · rw [startAfter_other hcomment hnewline] at hlined
    rw [hstep]
    exact begins_place hs hpending hdepth hcomment hnewline (hindent start rfl) (hcontinues hlined)

/-- **A whole run**: the stream is that of the rule, but for the line in which the run starts. -/
lemma quiet_run (source : String) (stop : Nat) (ls : List Placed) :
    ∀ s start, Rising s.levels →
      (s.pending = none → Lined source none ls → Continues source stop s start ls) ∧
      (s.pending.isSome → s.depth = 0 → Lined source (some start) ls →
        Begins source stop s start ls) := by
  induction ls with
  | nil =>
    exact fun s start hs => ⟨fun hpending _ => continues_nil hpending,
      fun hpending _ _ => begins_nil hs hpending⟩
  | cons l ls ih =>
    intro s start hs
    constructor
    · intro hpending hl
      exact continues_cons hpending hl (fun depth => (ih { s with depth } _ hs).1 hpending)
        ((ih { s with pending := some l.span } _ hs).2 rfl)
    · intro hpending hdepth hl
      refine begins_cons hs hpending hdepth hl ?_ fun start => (ih s start hs).2 hpending hdepth
      exact (ih (place s l).2 _ ((lays_settle s l.indent).rising hs)).1 pending_settle

end Layout

/-! ### What the parser makes of an indented source -/

namespace Grammar

/-- The line ends in front of another token are skipped. -/
lemma skipNewlines_append {newlines : List Lexeme} (h : ∀ l ∈ newlines, l.token = .newline)
    {l : Lexeme} (hl : l.token ≠ .newline) (rest : List Lexeme) (last : Span) :
    ∃ last', skipNewlines ⟨newlines ++ l :: rest, last⟩ = .ok ((), ⟨l :: rest, last'⟩) := by
  rw [skipNewlines, loop_eq]
  have hfuel : newlines.length < (newlines ++ l :: rest).length + 1 := by
    rw [List.length_append]
    omega
  generalize (newlines ++ l :: rest).length + 1 = n at hfuel ⊢
  induction newlines generalizing last n with
  | nil =>
    obtain ⟨n, rfl⟩ := Nat.exists_eq_add_one_of_ne_zero (Nat.ne_of_gt hfuel)
    refine ⟨last, ?_⟩
    have heat : eat .newline ⟨l :: rest, last⟩ = .ok (false, ⟨l :: rest, last⟩) := by
      rw [eat, bind_of_ok (peek_eq_ok _)]
      exact if_neg hl ▸ rfl
    rw [loopN]
    exact bind_eq_ok.mpr ⟨.done (), _, bind_of_ok heat, rfl⟩
  | cons l' newlines ih =>
    obtain ⟨hl', h⟩ := List.forall_mem_cons.1 h
    obtain ⟨n, rfl⟩ := Nat.exists_eq_add_one_of_ne_zero (Nat.ne_of_gt (Nat.zero_lt_of_lt hfuel))
    obtain ⟨last', hrest⟩ := ih h l'.span n (Nat.lt_of_succ_lt_succ hfuel)
    refine ⟨last', ?_⟩
    have heat : eat .newline ⟨l' :: newlines ++ l :: rest, last⟩ =
        .ok (true, ⟨newlines ++ l :: rest, l'.span⟩) := by
      rw [eat, bind_of_ok (peek_eq_ok _)]
      exact if_pos hl' ▸ rfl
    rw [loopN]
    exact bind_eq_ok.mpr ⟨.again (), _, bind_of_ok heat, hrest⟩

/-- No statement starts with an indent. -/
lemma parseLexemes_indent {newlines : List Lexeme} (h : ∀ l ∈ newlines, l.token = .newline)
    (span : Span) (rest : List Lexeme) :
    parseLexemes (newlines ++ ⟨.indent, span⟩ :: rest) =
      .error ⟨.unexpected .expression .indent, span⟩ := by
  obtain ⟨last, hskip⟩ := skipNewlines_append h (l := ⟨.indent, span⟩) (by simp) rest ⟨0, 0⟩
  rw [parseLexemes_eq, sourceFile]
  simp only [Bind.bind, StateT.bind, hskip, Except.bind]
  rfl

end Grammar

namespace Layout

open Scan (raw Unbroken)

variable {source : String}

lemma parse_of_quiet {ts : List Token} (h : quiet (lexemes source) = .indent :: ts) :
    ∃ span, Grammar.parse source = .error ⟨.unexpected .expression .indent, span⟩ := by
  obtain ⟨before, after, htokens, hbefore, -, -⟩ := List.filter_eq_cons_iff.mp h
  obtain ⟨newlines, marked, hlexemes, rfl, hmarked⟩ := List.map_eq_append_iff.mp htokens
  obtain ⟨⟨token, span⟩, rest, rfl, rfl, -⟩ := List.map_eq_cons_iff.mp hmarked
  refine ⟨span, ?_⟩
  rw [Grammar.parse, hlexemes]
  exact Grammar.parseLexemes_indent (fun l hl => by simpa using hbefore _ (List.mem_map_of_mem hl))
    span rest

lemma ruled_cons_of_idle {line : TextLine}
    (h : line.lexemes = [] ∨ indentation source line.start = 0) (lines : List TextLine) :
    ruled source [0] (line :: lines) = line.tokens ++ ruled source [0] lines := by
  rw [ruled]
  split
  · next hline => simp [TextLine.tokens, hline]
  · next hline => simp [h.resolve_left hline, relevel, popTo]

lemma ruled_indented {blank : List TextLine} {line : TextLine}
    (hblank : ∀ b ∈ blank, b.lexemes = []) (hline : line.lexemes ≠ [])
    (hindent : 0 < indentation source line.start) (more : List TextLine) :
    ∃ ts, ruled source [0] (blank ++ line :: more) = .indent :: ts := by
  induction blank with
  | nil =>
    have hrelevel : relevel (indentation source line.start) [0] =
        ([.indent], [indentation source line.start, 0]) := if_pos hindent
    rw [List.nil_append, ruled, if_neg hline, hrelevel]
    exact ⟨_, rfl⟩
  | cons b blank ih =>
    obtain ⟨hb, hblank⟩ := List.forall_mem_cons.mp hblank
    rw [List.cons_append, ruled, if_pos hb]
    exact ih hblank

/-- **The rule of indentation**. The marks of a text without continued lines are those of the rule
for all lines but the first, before which there are none. So they are those of the rule for the
whole text if nothing stands on the first line or it is not indented. A text whose first line is
empty and that goes on with an indented one starts with an indent, and does not parse. -/
theorem lexemes_follow_rule (source : String) (h : Unbroken source.toList) :
    ∃ first lines, textLines 0 0 (raw source) = first :: lines ∧
      quiet (lexemes source) = first.tokens ++ ruled source [0] lines ∧
      (first.lexemes = [] ∨ indentation source 0 = 0 →
        quiet (lexemes source) = ruled source [0] (textLines 0 0 (raw source))) ∧
      ∀ blank line more, textLines 0 0 (raw source) = first :: (blank ++ line :: more) →
        (∀ b ∈ first :: blank, b.lexemes = []) → line.lexemes ≠ [] →
        0 < indentation source line.start →
          (quiet (lexemes source)).head? = some .indent ∧
            ∃ span, Grammar.parse source = .error ⟨.unexpected .expression .indent, span⟩ := by
  have hlined : Scan.Lined source none (Scan.scan source) :=
    Scan.lined_scanFrom source 0 _ source.toList [] none rfl rfl h nofun
  obtain ⟨first, lines, hlines, hstart, hrun⟩ :=
    (quiet_run source source.utf8ByteSize _ {} 0 (List.pairwise_singleton ..)).1 rfl hlined
  refine ⟨first, lines, hlines, hrun, fun hfirst => ?_, ?_⟩
  · rw [raw, hlines, ruled_cons_of_idle (by rwa [hstart])]
    exact hrun
  · intro blank line more hsplit hblank hline hindent
    obtain ⟨hfirst, hblank⟩ := List.forall_mem_cons.mp hblank
    obtain ⟨-, rfl⟩ := List.cons.inj (hlines.symm.trans hsplit)
    obtain ⟨ts, hts⟩ := ruled_indented hblank hline hindent more
    have hquiet : quiet (lexemes source) = .indent :: ts := by
      rw [lexemes, hrun, TextLine.tokens, hfirst]
      exact hts
    exact ⟨by rw [hquiet]; rfl, parse_of_quiet hquiet⟩

/-- Two spaces, a tab within brackets that counts for nothing, three spaces that fit no level. -/
theorem lexemes_follow_rule_bracketed :
    Unbroken "#\n  (\n\t1)\n    y\n   z\n".toList ∧
      quiet (lexemes "#\n  (\n\t1)\n    y\n   z\n") =
        [.indent, .punct .lParen, .number "1", .punct .rParen, .indent, .name "y", .dedent, .error,
          .name "z", .dedent, .eof] ∧
      ∃ span, Grammar.parse "#\n  (\n\t1)\n    y\n   z\n" =
        .error ⟨.unexpected .expression .indent, span⟩ := by
  have h : Unbroken "#\n  (\n\t1)\n    y\n   z\n".toList := by decide +kernel
  have hlines : textLines 0 0 (raw "#\n  (\n\t1)\n    y\n   z\n") =
      ⟨0, []⟩ :: ([] ++
        ⟨2, [⟨.punct .lParen, ⟨4, 5⟩⟩, ⟨.number "1", ⟨7, 8⟩⟩, ⟨.punct .rParen, ⟨8, 9⟩⟩]⟩ ::
        [⟨10, [⟨.name "y", ⟨14, 15⟩⟩]⟩, ⟨16, [⟨.name "z", ⟨19, 20⟩⟩]⟩, ⟨21, []⟩]) := by
    decide +kernel
  obtain ⟨first, lines, hfirst, -, hrule, hindent⟩ := lexemes_follow_rule _ h
  obtain ⟨rfl, -⟩ := List.cons.inj (hfirst.symm.trans hlines)
  refine ⟨h, ?_, (hindent _ _ _ hlines (by simp) (by simp) (by decide +kernel)).2⟩
  rw [hrule (.inl rfl)]
  decide +kernel

/-- The first line of a text is not marked, though the rule marks it, and the text parses. -/
theorem first_line_unmarked :
    Unbroken "  x\n".toList ∧
      ruled "  x\n" [0] (textLines 0 0 (raw "  x\n")) = [.indent, .name "x", .dedent, .eof] ∧
      quiet (lexemes "  x\n") = [.name "x", .eof] ∧ (Grammar.parse "  x\n").toBool = true := by
  decide +kernel

end Layout

end AnnotatedWasm
