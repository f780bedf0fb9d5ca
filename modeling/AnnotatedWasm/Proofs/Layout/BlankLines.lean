import AnnotatedWasm.Proofs.Layout.Lookahead
import AnnotatedWasm.Proofs.Parsing.Blindness

/-!
Lines with nothing but blanks and a comment on them.

Such a line adds comments and newlines to the scan, and nothing else (`scanFrom_idle`), and behind a
newline outside brackets the layout passes over these. So the line changes neither the tokens nor
the text under them, and a parser that goes by tokens does not see it.
-/

namespace AnnotatedWasm

namespace Scan

/-! ### Lines without statements -/

/-- A line of blanks with a comment behind them, or with none. -/
def IdleLine (line : List Char) : Prop :=
  ∃ blanks rest, line = blanks ++ rest ++ ['\n'] ∧
    (∀ c ∈ blanks, c = ' ' ∨ c = '\t' ∨ c = '\x0c') ∧
      (rest = [] ∨ rest = ['\r'] ∨ ∃ text, rest = '#' :: text ∧ '\n' ∉ text)

/-- Lexemes that no statement is made of. -/
def Idle (ls : List Placed) : Prop := ∀ l ∈ ls, l.token = .comment ∨ l.token = .newline

lemma scanFrom_comment {text : List Char} (h : '\n' ∉ text) (offset indent : Nat)
    (later : List Char) : ∃ idle, Idle idle ∧
      scanFrom offset indent ('#' :: text ++ '\n' :: later) =
        idle ++ scanFrom (offset + byteLength ('#' :: text ++ ['\n'])) (columnFrom 0 later)
          later := by
  have hrun : measure '#' (text ++ '\n' :: later) = (.comment, text.length) := by
    have hall : ∀ c ∈ text, decide (c ≠ '\n') = true := fun c hc =>
      decide_eq_true fun heq => h (heq ▸ hc)
    have hlength : runLength (· ≠ '\n') (text ++ '\n' :: later) = text.length := by
      rw [runLength_append _ (ends_cons.mpr (by decide)), runLength_all hall]
    exact congrArg (Prod.mk Piece.comment) hlength
  have hscan := scanFrom_piece hrun offset indent
  have hplain : String.ofList ([] ++ ['\n']) ∈ newlines := .head _
  have hnewline := scanFrom_newline hplain (offset + byteLength ('#' :: text))
    (indentAfter indent ('#' :: text) ('\n' :: later)) later
  rw [List.nil_append, List.nil_append] at hnewline
  rw [hnewline] at hscan
  rw [byteLength_append, ← Nat.add_assoc]
  exact ⟨[_, _], by simp [Idle], hscan⟩

lemma scanFrom_idle {line : List Char} (h : IdleLine line) (offset indent : Nat)
    (later : List Char) : ∃ idle, Idle idle ∧ scanFrom offset indent (line ++ later) =
      idle ++ scanFrom (offset + byteLength line) (columnFrom 0 later) later := by
  obtain ⟨blanks, rest, rfl, hblanks, hrest⟩ := h
  have hline (offset indent : Nat) : ∃ idle, Idle idle ∧
      scanFrom offset indent (rest ++ '\n' :: later) =
        idle ++ scanFrom (offset + byteLength (rest ++ ['\n'])) (columnFrom 0 later) later := by
    rcases hrest with rfl | rfl | ⟨text, rfl, htext⟩
    · exact ⟨[_], by simp [Idle], scanFrom_newline (.head _) offset indent later⟩
    · exact ⟨[_], by simp [Idle], scanFrom_newline (.tail _ (.head _)) offset indent later⟩
    · exact scanFrom_comment htext offset indent later
  cases blanks with
  | nil => simpa using hline offset indent
  | cons c blanks =>
    obtain ⟨hc, hblanks⟩ := List.forall_mem_cons.mp hblanks
    have hends : Ends isBlank (rest ++ '\n' :: later) := by
      rcases hrest with rfl | rfl | ⟨text, rfl, -⟩ <;> exact ends_cons.mpr (by decide)
    have hrun : measure c (blanks ++ (rest ++ '\n' :: later)) = (.blank, blanks.length) := by
      unfold measure
      rw [if_pos (isBlank_iff.mpr hc), runLength_append _ hends,
        runLength_all fun d hd => isBlank_iff.mpr (hblanks d hd)]
    obtain ⟨idle, hidle, hscan⟩ := hline (offset + byteLength (c :: blanks))
      (indentAfter indent (c :: blanks) (rest ++ '\n' :: later))
    have hpiece := scanFrom_piece hrun offset indent
    rw [hscan] at hpiece
    refine ⟨idle, hidle, ?_⟩
    simpa [placed?, Piece.token?, Nat.add_assoc] using hpiece

/-! ### What is written under the lexemes -/

/-- A lexeme with the text under it in place of its span. -/
def Placed.written (source : String) (l : Placed) : Token × String × Nat :=
  (l.token, l.span.textIn source, l.indent)

lemma textIn_start {source : String} {before text : List Char}
    (h : before ++ text <+: source.toList) :
    Span.textIn source ⟨byteLength before, byteLength before + byteLength text⟩ =
      String.ofList text := by
  obtain ⟨after, h⟩ := h
  exact textIn_of_append h.symm

/-- What is written under the lexemes of a text does not depend on the text around it. -/
lemma written_scanFrom {source source' : String} (offset indent : Nat) (cs : List Char) :
    ∀ before before' offset', before ++ cs <+: source.toList → byteLength before = offset →
      before' ++ cs <+: source'.toList → byteLength before' = offset' →
        (scanFrom offset indent cs).map (Placed.written source) =
          (scanFrom offset' indent cs).map (Placed.written source') := by
  have hsplit (n : Nat) (before : List Char) (c : Char) (cs : List Char) :
      before ++ c :: cs = before ++ (c :: cs.take n) ++ cs.drop n := by simp
  fun_induction scanFrom offset indent cs with
  | case1 =>
    intros
    rw [scanFrom]
    rfl
  | case2 offset indent c cs found text rest stop later token htoken ih =>
    rintro before before' offset' hsource rfl hsource' rfl
    rw [hsplit found.2] at hsource hsource'
    have htext : Span.textIn source ⟨byteLength before, byteLength before + byteLength text⟩ =
        Span.textIn source' ⟨byteLength before', byteLength before' + byteLength text⟩ :=
      (textIn_start ((List.prefix_append ..).trans hsource)).trans
        (textIn_start ((List.prefix_append ..).trans hsource')).symm
    have hlater := ih _ _ _ hsource (byteLength_append ..) hsource' rfl
    rw [byteLength_append] at hlater
    rw [scanFrom]
    simp only [found, text] at htoken
    simp only [htoken, List.map_cons]
    exact congrArg₂ _ (congrArg (fun text => (token, text, indent)) htext) hlater
  | case3 offset indent c cs found text rest stop later htoken ih =>
    rintro before before' offset' hsource rfl hsource' rfl
    rw [hsplit found.2] at hsource hsource'
    have hlater := ih _ _ _ hsource (byteLength_append ..) hsource' rfl
    rw [byteLength_append] at hlater
    rw [scanFrom]
    simp only [found, text] at htoken
    simp only [htoken]
    exact hlater

/-- **A line without statements** changes nothing in the scan around it. -/
lemma written_scan {before after line : String} {pre post : List Placed} {l : Placed}
    (h : scan (before ++ after) = pre ++ l :: post) (hl : l.token = .newline)
    (hstop : l.span.stop = before.utf8ByteSize) (hline : IdleLine line.toList) :
    ∃ idle post', Idle idle ∧ scan (before ++ line ++ after) = pre ++ l :: (idle ++ post') ∧
      (pre ++ l :: post').map (Placed.written (before ++ line ++ after)) =
        (pre ++ l :: post).map (Placed.written (before ++ after)) := by
  rw [← Layout.byteLength_toList] at hstop
  obtain ⟨ds, hds⟩ : ∃ ds, before.toList = ds ++ ['\n'] := by
    obtain ⟨ds, rest, hsource, hstop'⟩ := exists_newline 0 _ _ l (by rw [← scan, h]; simp) hl
    rw [String.toList_append, List.append_cons] at hsource
    exact ⟨ds, append_inj_byteLength hsource (by omega)⟩
  have hsource (later : String) : (before ++ later).toList = ds ++ '\n' :: later.toList := by
    rw [String.toList_append, hds, List.append_assoc]
    rfl
  rw [scan, hsource] at h
  rw [hds] at hstop
  have hscan (later : List Char) : scanFrom 0 (columnFrom 0 (ds ++ '\n' :: after.toList))
      (ds ++ '\n' :: later) =
        pre ++ l :: scanFrom (byteLength (ds ++ ['\n'])) (columnFrom 0 later) later := by
    rw [scanFrom_line later h hl (by rw [hstop, Nat.zero_add]), Nat.zero_add]
  obtain ⟨idle, hidle, hinserted⟩ := scanFrom_idle hline (byteLength (ds ++ ['\n']))
    (columnFrom 0 (line.toList ++ after.toList)) after.toList
  have hnew : scan (before ++ line ++ after) = pre ++ l :: (idle ++ scanFrom
      (byteLength (ds ++ ['\n']) + byteLength line.toList) (columnFrom 0 after.toList)
        after.toList) := by
    rw [scan, String.append_assoc, hsource, String.toList_append, columnFrom_line 0 ds after.toList,
      hscan, hinserted]
  have hfirst : (pre ++ [l]).map (Placed.written (before ++ line ++ after)) =
      (pre ++ [l]).map (Placed.written (before ++ after)) := by
    have hstart (later : String) : [] ++ (ds ++ ['\n']) <+: (before ++ later).toList := by
      rw [List.nil_append, ← hds, String.toList_append]
      exact List.prefix_append ..
    have hwhole := hscan []
    rw [scanFrom] at hwhole
    rw [← hwhole, String.append_assoc]
    exact written_scanFrom 0 _ _ [] [] 0 (hstart _) rfl (hstart _) rfl
  have hrest : (scanFrom (byteLength (ds ++ ['\n']) + byteLength line.toList)
      (columnFrom 0 after.toList) after.toList).map (Placed.written (before ++ line ++ after)) =
        post.map (Placed.written (before ++ after)) := by
    have hpost := (List.cons.inj (List.append_cancel_left ((hscan after.toList).symm.trans h))).2
    rw [← hpost, ← hds, ← byteLength_append]
    refine written_scanFrom _ _ _ _ before.toList _ ?_ rfl ?_ rfl <;>
      simp [String.toList_append]
  refine ⟨idle, _, hidle, hnew, ?_⟩
  rw [List.append_cons, List.map_append, hfirst, hrest, ← List.map_append, ← List.append_cons]

end Scan

/-! ### The layout around a line without statements -/

def Lexeme.written (source : String) (l : Lexeme) : Token × String :=
  (l.token, l.span.textIn source)

namespace Layout

open Scan (Placed Idle IdleLine raw)

/-- The token stream of a source, with the text under each token in place of its span. -/
def written (source : String) : List (Token × String) :=
  (lexemes source).map (Lexeme.written source)

variable {source source' : String} {s s' : State} {ls ls' : List Placed}

/-- Two states that differ only in where the newline that waits stands. -/
structure State.Alike (source source' : String) (s s' : State) : Prop where
  levels : s.levels = s'.levels
  depth : s.depth = s'.depth
  pending : s.pending.map (Span.textIn source) = s'.pending.map (Span.textIn source')

lemma written_reindent {span span' : Span} (h : span.textIn source = span'.textIn source')
    (levels : List Nat) (width : Nat) :
    (reindent levels width span).1.map (Lexeme.written source) =
        (reindent levels width span').1.map (Lexeme.written source') ∧
      (reindent levels width span).2 = (reindent levels width span').2 := by
  simp only [reindent]
  split
  · simp [Lexeme.written, h]
  · split <;> simp [Lexeme.written, h]

lemma written_settle (h : s.Alike source source' s') (width : Nat) :
    (settle s width).1.map (Lexeme.written source) =
        (settle s' width).1.map (Lexeme.written source') ∧
      (settle s width).2.Alike source source' (settle s' width).2 := by
  obtain ⟨hlevels, hdepth, hpending⟩ := h
  unfold settle
  cases hspan : s.pending with
  | none =>
    rw [hspan, Option.map_none, eq_comm, Option.map_eq_none_iff] at hpending
    rw [hpending]
    exact ⟨rfl, hlevels, hdepth, by rw [hspan, hpending, Option.map_none, Option.map_none]⟩
  | some span =>
    rw [hspan, Option.map_some, eq_comm, Option.map_eq_some_iff] at hpending
    obtain ⟨span', hspan', htext⟩ := hpending
    obtain ⟨hmarks, hkept⟩ := written_reindent htext.symm s.levels width
    rw [hspan', ← hlevels]
    refine ⟨?_, hkept, hdepth, rfl⟩
    simp only [List.map_cons, hmarks, Lexeme.written, htext]

lemma written_finish {stop stop' : Nat} (h : s.Alike source source' s')
    (hstop : Span.textIn source ⟨stop, stop⟩ = Span.textIn source' ⟨stop', stop'⟩) :
    (finish s stop).map (Lexeme.written source) =
      (finish s' stop').map (Lexeme.written source') := by
  obtain ⟨hmarks, hnext⟩ := written_settle h 0
  rw [finish_eq, finish_eq, List.map_append, hmarks, hnext.levels, List.map_append]
  simp [Lexeme.written, hstop]

/-- **One step**: two states that are alike stay so, and the same comes out. -/
lemma written_step (h : s.Alike source source' s') {l l' : Placed}
    (hl : l.written source = l'.written source') :
    (step s l).1.map (Lexeme.written source) = (step s' l').1.map (Lexeme.written source') ∧
      (step s l).2.Alike source source' (step s' l').2 := by
  simp only [Placed.written, Prod.mk.injEq] at hl
  obtain ⟨htoken, htext, hindent⟩ := hl
  have hwaits : s.pending.isSome = s'.pending.isSome := by
    rw [← Option.isSome_map (f := Span.textIn source), h.pending, Option.isSome_map]
  unfold step
  rw [htoken, hwaits, h.depth]
  split
  · exact ⟨rfl, h⟩
  · split
    · exact ⟨rfl, h⟩
    · exact ⟨rfl, h.levels, rfl, congrArg some htext⟩
  · have hsettle : settle s' l.indent = settle s' l'.indent := by rw [hindent]
    obtain ⟨hmarks, hnext⟩ := written_settle h l.indent
    rw [hsettle] at hmarks hnext
    refine ⟨?_, hnext.levels, ?_, hnext.pending⟩
    · simp [place, hmarks, Lexeme.written, htoken, htext]
    · rw [depth_place, depth_place, htoken, h.depth]

/-- **A whole run**. -/
lemma written_run {stop stop' : Nat} (h : s.Alike source source' s')
    (hls : ls.map (Placed.written source) = ls'.map (Placed.written source'))
    (hstop : Span.textIn source ⟨stop, stop⟩ = Span.textIn source' ⟨stop', stop'⟩) :
    (run stop s ls).map (Lexeme.written source) =
      (run stop' s' ls').map (Lexeme.written source') := by
  induction ls generalizing s s' ls' with
  | nil =>
    obtain rfl : ls' = [] := List.map_eq_nil_iff.mp hls.symm
    exact written_finish h hstop
  | cons l ls ih =>
    obtain ⟨l', ls', rfl, hl, hls⟩ := List.map_eq_cons_iff.mp hls.symm
    obtain ⟨hout, hnext⟩ := written_step h hl.symm
    rw [run, run, List.map_append, List.map_append, hout, ih hnext hls.symm]

/-- Behind a newline that waits, lexemes without statements do nothing. -/
lemma run_idle {idle : List Placed} (h : Idle idle) (hs : s.pending.isSome) (stop : Nat)
    (ls : List Placed) : run stop s (idle ++ ls) = run stop s ls := by
  induction idle with
  | nil => rfl
  | cons l idle ih =>
    obtain ⟨hl, hidle⟩ := List.forall_mem_cons.mp h
    have hstep : step s l = ([], s) := by
      rcases hl with hl | hl <;> simp [step, hl, hs]
    rw [List.cons_append, run, hstep]
    exact ih hidle

lemma pending_of_newline {pre : List Placed} {l : Placed} (hl : l.token = .newline)
    (hdepth : (pre.map (·.token)).foldl bracket 0 = 0) :
    (State.after {} (pre ++ [l])).pending.isSome := by
  have hremembers := remembers_after (pre ++ [l])
  refine hremembers.ends ⟨pre.map (·.token), [], by simp [hl], nofun⟩ ?_
  rw [hremembers.depth, List.map_append, List.foldl_append, hdepth, List.map_singleton, hl]
  rfl

lemma textIn_end (source : String) :
    Span.textIn source ⟨source.utf8ByteSize, source.utf8ByteSize⟩ = "" := by
  have hwhole : source.toList = source.toList ++ [] ++ [] := by simp
  have hend := textIn_of_append hwhole
  rwa [byteLength_nil, Nat.add_zero, byteLength_toList] at hend

/-- **A line without statements** behind a newline outside brackets changes no token, and nothing
that is written under one. -/
lemma written_insert {before after line : String} {pre post : List Lexeme} {l : Lexeme}
    (h : raw (before ++ after) = pre ++ l :: post) (hl : l.token = .newline)
    (hstop : l.span.stop = before.utf8ByteSize)
    (hdepth : (pre.map Lexeme.token).foldl bracket 0 = 0) (hline : IdleLine line.toList) :
    written (before ++ line ++ after) = written (before ++ after) := by
  obtain ⟨pre, rest, hscan, rfl, hrest⟩ := List.map_eq_append_iff.mp h
  obtain ⟨l, post, rfl, rfl, rfl⟩ := List.map_eq_cons_iff.mp hrest
  rw [List.map_map] at hdepth
  obtain ⟨idle, post', hidle, hnew, hwritten⟩ := Scan.written_scan hscan hl hstop hline
  have hrun (stop : Nat) : run stop {} (pre ++ l :: (idle ++ post')) =
      run stop {} (pre ++ l :: post') := by
    rw [List.append_cons, run_append, run_idle hidle (pending_of_newline hl hdepth), ← run_append,
      ← List.append_cons]
  rw [written, written, lexemes, lexemes, hnew, hscan, hrun]
  exact written_run ⟨rfl, rfl, rfl⟩ hwritten ((textIn_end _).trans (textIn_end _).symm)

/-- **Lines without statements never matter**. Where one is put behind a newline outside brackets,
the stream has the same tokens with the same texts, and the source parses to the same tree up to
spans or fails for the same reason. -/
theorem parse_insert_idle {before after line : String} {pre post : List Lexeme} {l : Lexeme}
    (h : raw (before ++ after) = pre ++ l :: post) (hl : l.token = .newline)
    (hstop : l.span.stop = before.utf8ByteSize)
    (hdepth : (pre.map Lexeme.token).foldl bracket 0 = 0) (hline : IdleLine line.toList) :
    written (before ++ line ++ after) = written (before ++ after) ∧
      Grammar.outcome (Grammar.parse (before ++ line ++ after)) =
        Grammar.outcome (Grammar.parse (before ++ after)) := by
  have hwritten := written_insert h hl hstop hdepth hline
  refine ⟨hwritten, Grammar.outcome_parseLexemes ?_⟩
  simpa [written, Lexeme.written, Function.comp_def] using congrArg (List.map Prod.fst) hwritten

/-- A comment behind a tab and a form feed, in a block and behind brackets. -/
theorem parse_insert_idle_comment :
    written ("if x:\n    f(\n1)\n" ++ "\t\x0c# c\r\n" ++ "    y\n") =
        written ("if x:\n    f(\n1)\n" ++ "    y\n") ∧
      Grammar.outcome (Grammar.parse ("if x:\n    f(\n1)\n" ++ "\t\x0c# c\r\n" ++ "    y\n")) =
        Grammar.outcome (Grammar.parse ("if x:\n    f(\n1)\n" ++ "    y\n")) := by
  have hraw : raw ("if x:\n    f(\n1)\n" ++ "    y\n") =
      [⟨.keyword .kIf, ⟨0, 2⟩⟩, ⟨.name "x", ⟨3, 4⟩⟩, ⟨.punct .colon, ⟨4, 5⟩⟩, ⟨.newline, ⟨5, 6⟩⟩,
        ⟨.name "f", ⟨10, 11⟩⟩, ⟨.punct .lParen, ⟨11, 12⟩⟩, ⟨.newline, ⟨12, 13⟩⟩,
        ⟨.number "1", ⟨13, 14⟩⟩, ⟨.punct .rParen, ⟨14, 15⟩⟩] ++ ⟨.newline, ⟨15, 16⟩⟩ ::
          [⟨.name "y", ⟨20, 21⟩⟩, ⟨.newline, ⟨21, 22⟩⟩] := by
    decide +kernel
  have hline : IdleLine "\t\x0c# c\r\n".toList :=
    ⟨['\t', '\x0c'], ['#', ' ', 'c', '\r'], by decide +kernel, by simp,
      .inr (.inr ⟨_, rfl, by decide⟩)⟩
  exact parse_insert_idle hraw rfl (by decide +kernel) (by decide +kernel) hline

end Layout

end AnnotatedWasm
