import AnnotatedWasm.Proofs.Parsing.Order

/-!
Where the lexemes of a source stand.

A lexeme starts no earlier than the one before it stops, and names and numbers are spelled as the
source has it under their spans. Only marks are put in without a place of their own: they have the
span of the newline before them, and so they stop where that one does.
-/

namespace AnnotatedWasm

open Syntax (isWord)

/-- A byte offset that lies within no character of the source. -/
def Boundary (source : String) (n : Nat) : Prop := (⟨n⟩ : String.Pos.Raw).IsValid source

namespace Span

/-- What the source has under a span. -/
def textIn (source : String) (s : Span) : String :=
  String.Pos.Raw.extract source ⟨s.start⟩ ⟨s.stop⟩

/-- A span of whole characters. -/
structure Valid (source : String) (s : Span) : Prop where
  start : Boundary source s.start
  stop : Boundary source s.stop
  le : s.start ≤ s.stop

end Span

variable {source : String}

lemma Boundary.le {n : Nat} (h : Boundary source n) : n ≤ source.utf8ByteSize := h.le_rawEndPos

lemma boundary_of_append {before after : List Char} (h : source.toList = before ++ after) :
    Boundary source (byteLength before) := by
  have hsource : source = String.ofList before ++ String.ofList after := by
    rw [← String.ofList_append, ← h, String.ofList_toList]
  refine String.Pos.Raw.isValid_iff_exists_append.mpr ⟨_, _, hsource, ?_⟩
  rw [Layout.byteLength_eq_utf8Len, String.rawEndPos_ofList]

lemma boundary_zero : Boundary source 0 := boundary_of_append (List.nil_append source.toList).symm

lemma boundary_utf8ByteSize : Boundary source source.utf8ByteSize := by
  have h := boundary_of_append (List.append_nil source.toList).symm
  rwa [Layout.byteLength_toList] at h

lemma textIn_of_append {before text after : List Char}
    (h : source.toList = before ++ text ++ after) :
    Span.textIn source ⟨byteLength before, byteLength before + byteLength text⟩ =
      String.ofList text := by
  have hsource : source = String.ofList (before ++ text ++ after) := by
    rw [← h, String.ofList_toList]
  rw [Span.textIn, hsource, Layout.byteLength_eq_utf8Len, Layout.byteLength_eq_utf8Len]
  exact String.extract_of_valid before text after

/-- A name or a number is spelled as in the source, and a name is a word. -/
structure Lexeme.Spelled (source : String) (l : Lexeme) : Prop where
  text : ∀ text, l.token = .name text ∨ l.token = .number text → l.span.textIn source = text
  word : ∀ text, l.token = .name text → isWord text = true

lemma Lexeme.spelled_of_ne {l : Lexeme}
    (h : ∀ text, ¬(l.token = .name text ∨ l.token = .number text)) : l.Spelled source :=
  ⟨fun text ht => absurd ht (h text), fun text ht => absurd (.inl ht) (h text)⟩

/-- Lexemes that come one after the other from `pos` on, where each of the tokens `floating` may
stop at `pos` as well. -/
def Spaced (source : String) (floating : List Token) (pos : Nat) : List Lexeme → Prop
  | [] => True
  | l :: ls => l.span.Valid source ∧ l.Spelled source ∧
      (pos ≤ l.span.start ∨ l.token ∈ floating ∧ l.span.stop = pos) ∧
      Spaced source floating l.span.stop ls

lemma Spaced.from_le {pos pos' : Nat} {ls : List Lexeme} (h : Spaced source [] pos ls)
    (hle : pos' ≤ pos) : Spaced source [] pos' ls := by
  cases ls with
  | nil => trivial
  | cons l ls =>
    obtain ⟨hvalid, hspelled, hpos | ⟨hmem, -⟩, hls⟩ := h
    · exact ⟨hvalid, hspelled, .inl (hle.trans hpos), hls⟩
    · cases hmem

lemma Spaced.suffix {floating : List Token} {pos : Nat} {l : Lexeme} {ls ms : List Lexeme}
    (h : Spaced source floating pos ls) (hms : l :: ms <:+ ls) :
    Spaced source floating 0 (l :: ms) := by
  induction ls generalizing pos with
  | nil => cases List.suffix_nil.mp hms
  | cons m ls ih =>
    obtain ⟨hvalid, hspelled, -, hls⟩ := h
    rcases List.suffix_cons_iff.mp hms with heq | hms
    · obtain ⟨rfl, rfl⟩ := List.cons.inj heq
      exact ⟨hvalid, hspelled, .inl (Nat.zero_le _), hls⟩
    · exact ih hls hms

/-! ### The scan -/

namespace Scan

lemma text_of_token? {piece : Piece} {t : Token} {written text : String}
    (h : piece.token? written = some t) (ht : t = .name text ∨ t = .number text) :
    text = written := by
  unfold Piece.token? at h
  split at h
  case h_1 => cases h
  case h_4 => split at h <;> cases h <;> simp_all
  case h_5 => cases h; simp_all
  all_goals
    cases h
    simp at ht

lemma take_runLength (p : Char → Bool) (cs : List Char) :
    cs.take (runLength p cs) = cs.takeWhile p :=
  (List.prefix_iff_eq_take.mp (List.takeWhile_prefix p)).symm

lemma measure_eq_word {c : Char} {cs : List Char} (h : (measure c cs).1 = .word) :
    isWordStart c = true ∧ (measure c cs).2 = runLength isWordPart cs := by
  have hmarked : (marked c cs).1 ≠ .word := by
    unfold marked
    split <;> nofun
  unfold measure at h ⊢
  grind

lemma isWord_of_token? {c : Char} {cs : List Char} {text : String}
    (h : (measure c cs).1.token? (String.ofList (c :: cs.take (measure c cs).2)) =
      some (.name text)) : isWord text = true := by
  have hpiece : (measure c cs).1 = .word := by
    rcases hp : (measure c cs).1 <;> simp_all [Piece.token?]
  obtain ⟨hc, hn⟩ := measure_eq_word hpiece
  rw [hpiece, hn, take_runLength, Piece.token?] at h
  split at h <;> cases h
  next hkeyword => simpa [isWord, hc] using hkeyword

/-- A piece and what follows it make up the text that is left. -/
lemma split_piece (n : Nat) {c : Char} {cs before : List Char}
    (h : source.toList = before ++ c :: cs) :
    source.toList = before ++ (c :: cs.take n) ++ cs.drop n := by
  rw [h, List.append_assoc, List.cons_append, List.take_append_drop]

lemma spaced_scanFrom (source : String) (offset indent : Nat) (cs : List Char) : ∀ before,
    source.toList = before ++ cs → byteLength before = offset →
      Spaced source [] offset ((scanFrom offset indent cs).map (·.toLexeme)) := by
  fun_induction scanFrom offset indent cs with
  | case1 => exact fun _ _ _ => trivial
  | case2 offset indent c cs found text rest stop later token htoken ih =>
    rintro before hsource rfl
    have hpiece : source.toList = before ++ text ++ rest := split_piece found.2 hsource
    have hstop : byteLength (before ++ text) = stop := byteLength_append before text
    refine ⟨⟨boundary_of_append hsource, ?_, Nat.le_add_right ..⟩,
      ⟨fun word hword => ?_, fun word hword => ?_⟩, .inl le_rfl, ih _ hpiece hstop⟩
    · have hboundary := boundary_of_append hpiece
      rwa [hstop] at hboundary
    · rw [text_of_token? htoken hword]
      exact textIn_of_append hpiece
    · obtain rfl : token = _ := hword
      exact isWord_of_token? htoken
  | case3 offset indent c cs found text rest stop later htoken ih =>
    rintro before hsource rfl
    have hpiece : source.toList = before ++ text ++ rest := split_piece found.2 hsource
    exact (ih _ hpiece (byteLength_append before text)).from_le (Nat.le_add_right ..)

/-- The lexemes of the scan come one after the other. -/
lemma spaced_scan (source : String) : Spaced source [] 0 ((scan source).map (·.toLexeme)) :=
  spaced_scanFrom source 0 _ source.toList [] rfl rfl

end Scan

/-! ### The layout of the lines -/

namespace Layout

open Scan (Placed)

variable {s : State} {pos lo : Nat} {ls : List Placed} {later : List Lexeme}

/-- What has come so far stops by `pos`, and the newline that waits stands between there and `lo`,
where the next lexeme may start. -/
structure State.Holds (source : String) (pos lo : Nat) (s : State) : Prop where
  le : pos ≤ lo
  boundary : Boundary source lo
  pending : ∀ span ∈ s.pending, pos ≤ span.start ∧ span.stop ≤ lo ∧ span.Valid source

lemma spaced_marks {span : Span} {ms : List Lexeme} (hspan : span.Valid source)
    (hms : ∀ m ∈ ms, m.span = span ∧ m.token ∈ markTokens)
    (h : Spaced source markTokens span.stop later) :
    Spaced source markTokens span.stop (ms ++ later) := by
  induction ms with
  | nil => exact h
  | cons m ms ih =>
    obtain ⟨⟨rfl, hmark⟩, hms⟩ := List.forall_mem_cons.mp hms
    have hspelled : m.Spelled source := by
      refine Lexeme.spelled_of_ne fun text htext => ?_
      rcases htext with htext | htext <;> simp [htext, markTokens] at hmark
    exact ⟨hspan, hspelled, .inr ⟨hmark, rfl⟩, ih hms⟩

/-- What comes after a newline and its marks may start from `lo` on. -/
lemma spaced_settle (h : s.Holds source pos lo) (width : Nat)
    (hlater : ∀ pos ≤ lo, Spaced source markTokens pos later) :
    Spaced source markTokens pos ((settle s width).1 ++ later) := by
  cases hpending : s.pending with
  | none =>
    have hnil : (settle s width).1 = [] := by rw [settle, hpending]
    rw [hnil]
    exact hlater pos h.le
  | some span =>
    have hcons : (settle s width).1 =
        ⟨.newline, span⟩ :: (reindent s.levels width span).1 := by rw [settle, hpending]
    obtain ⟨hpos, hlo, hvalid⟩ := h.pending span hpending
    rw [hcons]
    refine ⟨hvalid, Lexeme.spelled_of_ne (by simp), .inl hpos, ?_⟩
    exact spaced_marks hvalid (fun m hm => of_mem_reindent hm) (hlater _ hlo)

/-- The marks that close the text stand at its end. -/
lemma spaced_dedents {stop : Nat} (hstop : Boundary source stop) (levels : List Nat) :
    ∀ pos ≤ stop, Spaced source markTokens pos
      (levels.map (fun _ => ⟨.dedent, ⟨stop, stop⟩⟩) ++ [⟨.eof, ⟨stop, stop⟩⟩]) := by
  have hend : Span.Valid source ⟨stop, stop⟩ := ⟨hstop, hstop, le_rfl⟩
  induction levels with
  | nil => exact fun pos hpos => ⟨hend, Lexeme.spelled_of_ne (by simp), .inl hpos, trivial⟩
  | cons level levels ih =>
    exact fun pos hpos => ⟨hend, Lexeme.spelled_of_ne (by simp), .inl hpos, ih stop le_rfl⟩

lemma spaced_finish (h : s.Holds source pos lo) :
    Spaced source markTokens pos (finish s source.utf8ByteSize) := by
  have hsettle := spaced_settle h 0 fun pos hpos =>
    spaced_dedents boundary_utf8ByteSize (settle s 0).2.levels pos (hpos.trans h.boundary.le)
  rwa [← List.append_assoc] at hsettle

/-- The layout keeps lexemes one after the other. -/
lemma spaced_run (h : s.Holds source pos lo) (hls : Spaced source [] lo (ls.map (·.toLexeme))) :
    Spaced source markTokens pos (run source.utf8ByteSize s ls) := by
  induction ls generalizing s pos lo with
  | nil => exact spaced_finish h
  | cons l ls ih =>
    obtain ⟨hvalid, hspelled, hlo, hls⟩ := hls
    replace hlo : lo ≤ l.span.start := hlo.resolve_right fun hmem => by cases hmem.1
    have hstop : lo ≤ l.span.stop := hlo.trans hvalid.le
    have hlater : s.Holds source pos l.span.stop :=
      ⟨h.le.trans hstop, hvalid.stop, fun span hspan =>
        (h.pending span hspan).imp_right (.imp_left (·.trans hstop))⟩
    rw [run]
    unfold step
    split
    · exact ih hlater hls
    · split
      · exact ih hlater hls
      · refine ih ⟨hlater.le, hlater.boundary, ?_⟩ hls
        rintro span ⟨⟩
        exact ⟨h.le.trans hlo, le_rfl, hvalid⟩
    · have hnone : (place s l).2.Holds source l.span.stop l.span.stop := by
        refine ⟨le_rfl, hvalid.stop, fun span hspan => ?_⟩
        have hpending : (place s l).2.pending = none := pending_settle
        rw [hpending] at hspan
        cases hspan
      have hplace := spaced_settle h l.indent fun pos hpos =>
        (show Spaced source markTokens pos (l.toLexeme :: _) from
          ⟨hvalid, hspelled, .inl (hpos.trans hlo), ih hnone hls⟩)
      rwa [List.append_cons] at hplace

/-- The lexemes of a source come one after the other. -/
lemma spaced_lexemes (source : String) : Spaced source markTokens 0 (lexemes source) :=
  spaced_run ⟨le_rfl, boundary_zero, nofun⟩ (Scan.spaced_scan source)

end Layout

end AnnotatedWasm
