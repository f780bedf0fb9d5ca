import AnnotatedWasm.Proofs.Spans.Stream
import AnnotatedWasm.Proofs.Layout.Blocks

/-!
The lexemes of the scan tile the source.

They stand one after the other on whole characters, and what lies between them are blanks and line
continuations. The layout lets them pass in their order. It drops comments, newlines within
brackets and newlines of empty lines, and puts in marks of its own, which are no lexemes of the
scan: a mark has the span of a newline, and no two lexemes of the scan have a byte in common.
-/

namespace AnnotatedWasm

/-! ### Lexemes and gaps -/

lemma Ascends.pairwise {lo hi : Nat} {ls : List Lexeme} (h : Ascends lo hi ls) :
    ls.Pairwise (·.span.start ≤ ·.span.start) := by
  have hfrom {lo : Nat} {ls : List Lexeme} (h : Ascends lo hi ls) :
      ∀ l ∈ ls, lo ≤ l.span.start := by
    induction ls generalizing lo with
    | nil => exact nofun
    | cons l ls ih =>
      exact List.forall_mem_cons.mpr ⟨h.1, fun m hm => h.1.trans (ih h.2 m hm)⟩
  induction ls generalizing lo with
  | nil => exact .nil
  | cons l ls ih => exact .cons (hfrom h.2) (ih h.2)

lemma Spaced.valid {source : String} {floating : List Token} {pos : Nat} {ls : List Lexeme}
    (h : Spaced source floating pos ls) : ∀ l ∈ ls, l.span.Valid source := by
  induction ls generalizing pos with
  | nil => exact nofun
  | cons l ls ih => exact List.forall_mem_cons.mpr ⟨h.1, ih h.2.2.2⟩

/-- The byte `i` stands under a span. -/
def Span.Covers (s : Span) (i : Nat) : Prop := s.start ≤ i ∧ i < s.stop

/-- Lexemes that come one after the other have no byte in common. -/
lemma Spaced.pairwise {source : String} {pos : Nat} {ls : List Lexeme}
    (h : Spaced source [] pos ls) :
    (∀ l ∈ ls, pos ≤ l.span.start) ∧ ls.Pairwise (·.span.stop ≤ ·.span.start) := by
  induction ls generalizing pos with
  | nil => exact ⟨nofun, .nil⟩
  | cons l ls ih =>
    obtain ⟨hvalid, -, hpos, hls⟩ := h
    replace hpos : pos ≤ l.span.start := hpos.resolve_right fun hmem => by cases hmem.1
    obtain ⟨hfrom, hpairwise⟩ := ih hls
    refine ⟨List.forall_mem_cons.mpr ⟨hpos, fun m hm => ?_⟩, .cons hfrom hpairwise⟩
    exact (hpos.trans hvalid.le).trans (hfrom m hm)

namespace Scan

/-- The lexemes of the scan, comments and newlines included. -/
def raw (source : String) : List Lexeme := (scan source).map (·.toLexeme)

def newlines : List String := ["\n", "\r\n"]

def continuations : List String := ["\\\n", "\\\r\n"]

/-- What the scan leaves out: a run of blanks, or a line continuation. -/
def Skipped (text : String) : Prop :=
  (∀ c ∈ text.toList, c = ' ' ∨ c = '\t' ∨ c = '\x0c') ∨ text ∈ continuations

lemma isBlank_iff {c : Char} : isBlank c = true ↔ c = ' ' ∨ c = '\t' ∨ c = '\x0c' := by
  simp [isBlank, or_assoc]

/-- The pieces that no line has to hold. -/
def idlePieces : List Piece := [.blank, .newline, .comment]

lemma marked_notMem (c : Char) (cs : List Char) : (marked c cs).1 ∉ idlePieces := by
  unfold marked
  split <;> simp [idlePieces]

/-- What a piece can be: blanks, a line continuation, a newline, a comment, or none of these. -/
lemma measure_cases (c : Char) (cs : List Char) :
    isBlank c = true ∧ measure c cs = (.blank, runLength isBlank cs) ∨
      ((measure c cs).1 = .blank ∧
        String.ofList (c :: cs.take (measure c cs).2) ∈ continuations) ∨
      ((measure c cs).1 = .newline ∧ String.ofList (c :: cs.take (measure c cs).2) ∈ newlines) ∨
      (c = '#' ∧ measure c cs = (.comment, runLength (· ≠ '\n') cs)) ∨
      (measure c cs).1 ∉ idlePieces := by
  unfold measure
  split
  · next hc => exact .inl ⟨hc, rfl⟩
  refine .inr ?_
  split
  · exact .inr (.inr (.inr (by simp [idlePieces])))
  split
  · exact .inr (.inr (.inr (by simp [idlePieces])))
  split
  · exact .inr (.inl ⟨rfl, .head _⟩)
  · exact .inr (.inl ⟨rfl, .tail _ (.head _)⟩)
  · exact .inl ⟨rfl, .head _⟩
  · exact .inl ⟨rfl, .tail _ (.head _)⟩
  · exact .inr (.inr (.inl ⟨rfl, rfl⟩))
  · refine .inr (.inr (.inr ?_))
    split
    · simp [idlePieces]
    · exact marked_notMem _ _
  · refine .inr (.inr (.inr ?_))
    split <;> simp [idlePieces]
  · refine .inr (.inr (.inr ?_))
    split <;> simp [idlePieces]
  · exact .inr (.inr (.inr (marked_notMem _ _)))

/-- A piece without a token is skipped. -/
lemma skipped_of_measure {c : Char} {cs : List Char} (h : (measure c cs).1 = .blank) :
    Skipped (String.ofList (c :: cs.take (measure c cs).2)) := by
  obtain ⟨hc, hblank⟩ | ⟨-, hskipped⟩ | ⟨hnewline, -⟩ | ⟨-, hcomment⟩ | hidle := measure_cases c cs
  · rw [hblank, take_runLength]
    refine .inl fun d hd => isBlank_iff.mp ?_
    rw [String.toList_ofList] at hd
    rcases List.mem_cons.mp hd with rfl | hd
    · exact hc
    · exact List.mem_takeWhile_imp hd
  · exact .inr hskipped
  · cases h.symm.trans hnewline
  · rw [hcomment] at h
    cases h
  · exact absurd (by simp [h, idlePieces]) hidle

lemma token?_eq_none {piece : Piece} {text : String} (h : piece.token? text = none) :
    piece = .blank := by
  cases piece with
  | blank => rfl
  | word =>
    rw [Piece.token?] at h
    split at h <;> cases h
  | _ => cases h

lemma byteLength_pos (c : Char) (cs : List Char) : 0 < byteLength (c :: cs) := by
  rw [byteLength_cons]
  exact Nat.add_pos_left c.utf8Size_pos _

lemma start_lt_stop (offset indent : Nat) (cs : List Char) :
    ∀ l ∈ scanFrom offset indent cs, l.span.start < l.span.stop := by
  fun_induction scanFrom offset indent cs with
  | case1 => exact List.forall_mem_nil _
  | case2 offset indent c cs found text rest stop later token htoken ih =>
    exact List.forall_mem_cons.mpr ⟨Nat.lt_add_of_pos_right (byteLength_pos ..), ih⟩
  | case3 offset indent c cs found text rest stop later htoken ih => exact ih

/-- The byte `i` is skipped, with all that stands around it between two lexemes of `ls`, from
`lo` on. -/
def InGap (source : String) (lo : Nat) (ls : List Lexeme) (i : Nat) : Prop :=
  ∃ gap : Span, gap.Valid source ∧ lo ≤ gap.start ∧ gap.Covers i ∧ Skipped (gap.textIn source) ∧
    ∀ l ∈ ls, l.span.stop ≤ gap.start ∨ gap.stop ≤ l.span.start

lemma covers_or_inGap (source : String) (offset indent : Nat) (cs : List Char) : ∀ before,
    source.toList = before ++ cs → byteLength before = offset →
      ∀ i, offset ≤ i → i < offset + byteLength cs →
        (∃ l ∈ scanFrom offset indent cs, l.span.Covers i) ∨
          InGap source offset ((scanFrom offset indent cs).map (·.toLexeme)) i := by
  fun_induction scanFrom offset indent cs with
  | case1 =>
    intro before _ _ i hlo hhi
    rw [byteLength_nil] at hhi
    omega
  | case2 offset indent c cs found text rest stop later token htoken ih =>
    rintro before hsource rfl i hlo hhi
    have hpiece : source.toList = before ++ text ++ rest := split_piece found.2 hsource
    rw [← add_byteLength _ found.2] at hhi
    by_cases hi : i < stop
    · exact .inl ⟨_, List.mem_cons_self, hlo, hi⟩
    · rcases ih _ hpiece (byteLength_append ..) i (Nat.le_of_not_lt hi) hhi with
        ⟨l, hl, hcovers⟩ | ⟨gap, hvalid, hfrom, hcovers, hskipped, happart⟩
      · exact .inl ⟨l, List.mem_cons_of_mem _ hl, hcovers⟩
      · refine .inr ⟨gap, hvalid, (Nat.le_add_right ..).trans hfrom, hcovers, hskipped, ?_⟩
        exact List.forall_mem_cons.mpr ⟨.inl hfrom, happart⟩
  | case3 offset indent c cs found text rest stop later htoken ih =>
    rintro before hsource rfl i hlo hhi
    have hpiece : source.toList = before ++ text ++ rest := split_piece found.2 hsource
    have hstop : byteLength (before ++ text) = stop := byteLength_append ..
    rw [← add_byteLength _ found.2] at hhi
    by_cases hi : i < stop
    · refine .inr ⟨⟨byteLength before, stop⟩, ⟨boundary_of_append hsource, ?_, Nat.le_add_right ..⟩,
        le_rfl, ⟨hlo, hi⟩, ?_, fun l hl => .inr ?_⟩
      · have hboundary := boundary_of_append hpiece
        rwa [hstop] at hboundary
      · rw [textIn_of_append hpiece]
        exact skipped_of_measure (token?_eq_none htoken)
      · exact (spaced_scanFrom source stop _ rest _ hpiece hstop).pairwise.1 l hl
    · rcases ih _ hpiece hstop i (Nat.le_of_not_lt hi) hhi with
        hl | ⟨gap, hvalid, hfrom, hrest⟩
      · exact .inl hl
      · exact .inr ⟨gap, hvalid, (Nat.le_add_right ..).trans hfrom, hrest⟩

end Scan

/-! ### What the layout lets pass -/

namespace Layout

open Scan (Placed raw)

variable {s : State} {width stop : Nat} {ls : List Placed} {all : List Lexeme}

/-- What a step does with a lexeme: it drops a comment or a newline, lets a newline wait, or takes
in anything else. -/
lemma step_cases (s : State) (l : Placed) :
    (l.token = .comment ∨ l.token = .newline ∧ (s.pending.isSome ∨ 0 < s.depth)) ∧
        step s l = ([], s) ∨
      (l.token = .newline ∧ s.pending = none ∧ s.depth = 0) ∧
        step s l = ([], { s with pending := some l.span }) ∨
      (l.token ≠ .comment ∧ l.token ≠ .newline) ∧ step s l = place s l := by
  unfold step
  split
  · next hl => exact .inl ⟨.inl hl, rfl⟩
  · next hl =>
    split
    · next hdrop => exact .inl ⟨.inr ⟨hl, by simpa using hdrop⟩, rfl⟩
    · next hwait => exact .inr (.inl ⟨⟨hl, by simpa using hwait⟩, rfl⟩)
  · next hcomment hnewline => exact .inr (.inr ⟨⟨hcomment, hnewline⟩, rfl⟩)

/-- Nothing but comments stands behind the last newline. -/
def EndsLine (before : List Token) : Prop :=
  ∃ line comments, before = line ++ .newline :: comments ∧ ∀ t ∈ comments, t = .comment

/-- Whether a token is dropped where the tokens `before` stand before it: comments are, and
newlines within brackets, and those of lines with nothing or a comment alone on them that come
behind another newline. -/
def Dropped (before : List Token) (t : Token) : Prop :=
  t = .comment ∨ t = .newline ∧ (0 < before.foldl bracket 0 ∨ EndsLine before)

lemma endsLine_concat {before : List Token} {t : Token} :
    EndsLine (before ++ [t]) ↔ t = .newline ∨ t = .comment ∧ EndsLine before := by
  constructor
  · rintro ⟨line, comments, heq, hcomments⟩
    rcases List.eq_nil_or_concat comments with rfl | ⟨comments, c, rfl⟩
    · exact .inl (List.cons.inj (List.append_inj' heq rfl).2).1
    · rw [List.concat_eq_append] at heq hcomments
      have hsplit : before ++ [t] = (line ++ .newline :: comments) ++ [c] := by simp [heq]
      obtain ⟨rfl, hc⟩ := List.append_inj' hsplit rfl
      obtain ⟨hcomments, hlast⟩ := List.forall_mem_append.mp hcomments
      exact .inr ⟨(List.cons.inj hc).1.trans (hlast c (by simp)), line, comments, rfl, hcomments⟩
  · rintro (rfl | ⟨rfl, line, comments, rfl, hcomments⟩)
    · exact ⟨before, [], rfl, nofun⟩
    · refine ⟨line, comments ++ [.comment], by simp, List.forall_mem_append.mpr ⟨hcomments, ?_⟩⟩
      simp

/-- What the state says about the tokens that led to it. -/
structure Remembers (s : State) (before : List Token) : Prop where
  depth : s.depth = before.foldl bracket 0
  waits : s.pending.isSome → EndsLine before
  ends : EndsLine before → s.depth = 0 → s.pending.isSome

lemma depth_settle (s : State) (width : Nat) : (settle s width).2.depth = s.depth := by
  unfold settle
  split <;> rfl

lemma depth_place (s : State) (l : Placed) : (place s l).2.depth = bracket s.depth l.token := by
  rw [← depth_settle s l.indent]
  rfl

lemma remembers_after (ls : List Placed) :
    Remembers (State.after {} ls) (ls.map (·.token)) := by
  induction ls using List.reverseRecOn with
  | nil =>
    refine ⟨rfl, nofun, ?_⟩
    rintro ⟨line, comments, heq, -⟩
    cases line <;> cases heq
  | append_singleton ls l ih =>
    rw [after_concat, List.map_append, List.map_singleton]
    generalize State.after {} ls = s at ih
    have hdepth (t : Token) (ht : t = .comment ∨ t = .newline) :
        s.depth = (ls.map (fun l => l.token) ++ [t]).foldl bracket 0 := by
      rw [List.foldl_concat, ← ih.depth]
      rcases ht with rfl | rfl <;> rfl
    obtain ⟨hl, hstep⟩ | ⟨⟨hl, hpending, hzero⟩, hstep⟩ | ⟨⟨hcomment, hnewline⟩, hstep⟩ :=
      step_cases s l
    · rw [hstep]
      refine ⟨hdepth _ (hl.imp_right And.left), fun hsome => endsLine_concat.mpr ?_,
        fun hends hzero => ?_⟩
      · exact hl.symm.imp And.left fun hl => ⟨hl, ih.waits hsome⟩
      · rcases hl with hl | ⟨-, hsome | hpos⟩
        · rcases endsLine_concat.mp hends with h | ⟨-, h⟩
          · cases hl.symm.trans h
          · exact ih.ends h hzero
        · exact hsome
        · exact absurd hzero hpos.ne'
    · rw [hstep]
      exact ⟨hdepth _ (.inr hl), fun _ => endsLine_concat.mpr (.inl hl), fun _ _ => rfl⟩
    · have hnone : (place s l).2.pending = none := pending_settle
      rw [hstep]
      refine ⟨?_, fun hsome => ?_, fun hends => ?_⟩
      · rw [List.foldl_concat, ← ih.depth, depth_place]
      · rw [hnone] at hsome
        cases hsome
      · exact (endsLine_concat.mp hends).elim (absurd · hnewline) fun h => absurd h.1 hcomment

/-- Whether the layout lets a lexeme pass, be it later. -/
def passes (s : State) (l : Placed) : Bool :=
  match l.token with
  | .comment => false
  | .newline => !(s.pending.isSome || 0 < s.depth)
  | _ => true

lemma Remembers.passes_iff {before : List Token} (h : Remembers s before) (l : Placed) :
    passes s l = true ↔ ¬ Dropped before l.token := by
  unfold passes Dropped
  split
  · next hl => simp [hl]
  · next hl =>
    have hwaits : s.pending.isSome = true ∨ 0 < s.depth ↔
        0 < before.foldl bracket 0 ∨ EndsLine before := by
      rw [← h.depth]
      refine ⟨fun hor => hor.symm.imp_right h.waits, ?_⟩
      rintro (hdepth | hends)
      · exact .inr hdepth
      · rcases Nat.eq_zero_or_pos s.depth with hzero | hpos
        · exact .inl (h.ends hends hzero)
        · exact .inr hpos
    simp only [hl, reduceCtorEq, true_and, false_or, ← hwaits]
    simp
  · next hcomment hnewline => exact ⟨fun _ h => h.elim hcomment fun h => hnewline h.1, fun _ => rfl⟩

/-- The lexemes that pass. -/
def kept (s : State) : List Placed → List Lexeme
  | [] => []
  | l :: ls => (if passes s l then [l.toLexeme] else []) ++ kept (step s l).2 ls

/-- The newline that waits, as a lexeme. -/
def waiting (s : State) : List Lexeme := s.pending.toList.map (⟨.newline, ·⟩)

lemma kept_append (s : State) (before after : List Placed) :
    kept s (before ++ after) = kept s before ++ kept (s.after before) after := by
  induction before generalizing s with
  | nil => rfl
  | cons l before ih =>
    rw [List.cons_append, kept, kept, ih, List.append_assoc]
    rfl

lemma kept_sublist (s : State) (ls : List Placed) :
    (kept s ls).Sublist (ls.map (·.toLexeme)) := by
  induction ls generalizing s with
  | nil => exact .slnil
  | cons l ls ih =>
    rw [kept, List.map_cons]
    split
    · exact (ih _).cons_cons _
    · exact (ih _).cons _

/-- The lexemes `all` can be told from what the layout puts in. -/
structure Apart (all : List Lexeme) : Prop where
  tokens : ∀ l ∈ all, l.token ∉ Scan.layoutTokens
  newlines : ∀ span, ⟨.newline, span⟩ ∈ all → ⟨.error, span⟩ ∉ all

lemma filter_reindent (h : Apart all) {span : Span} (hspan : ⟨.newline, span⟩ ∈ all)
    (levels : List Nat) (width : Nat) :
    (reindent levels width span).1.filter (· ∈ all) = [] := by
  refine List.filter_eq_nil_iff.mpr fun l hl => ?_
  obtain ⟨rfl, hmark⟩ := of_mem_reindent hl
  obtain ⟨token, span⟩ := l
  simp only [markTokens, List.mem_cons, List.not_mem_nil, or_false] at hmark
  rw [decide_eq_true_eq]
  rcases hmark with rfl | rfl | rfl
  · exact fun hmem => h.tokens _ hmem (by simp [Scan.layoutTokens])
  · exact fun hmem => h.tokens _ hmem (by simp [Scan.layoutTokens])
  · exact h.newlines span hspan

lemma filter_settle (h : Apart all) (hs : ∀ l ∈ waiting s, l ∈ all) (width : Nat) :
    (settle s width).1.filter (· ∈ all) = waiting s := by
  cases hpending : s.pending with
  | none => simp [settle, waiting, hpending]
  | some span =>
    have hspan : ⟨.newline, span⟩ ∈ all := hs _ (by simp [waiting, hpending])
    simp [settle, waiting, hpending, hspan, filter_reindent h hspan]

lemma filter_finish (h : Apart all) (hs : ∀ l ∈ waiting s, l ∈ all) (stop : Nat) :
    (finish s stop).filter (· ∈ all) = waiting s := by
  have hclosing (t : Token) (ht : t ∈ Scan.layoutTokens) (span : Span) : ⟨t, span⟩ ∉ all :=
    fun hmem => h.tokens _ hmem ht
  have hdedent : ⟨.dedent, ⟨stop, stop⟩⟩ ∉ all := hclosing _ (by simp [Scan.layoutTokens]) _
  have heof : ⟨.eof, ⟨stop, stop⟩⟩ ∉ all := hclosing _ (by simp [Scan.layoutTokens]) _
  rw [finish_eq, List.filter_append, filter_settle h hs]
  simp [hdedent, heof]

/-- **One step**: what waits or comes in goes out or waits. -/
lemma filter_step (h : Apart all) (hs : ∀ l ∈ waiting s, l ∈ all) {l : Placed}
    (hl : l.toLexeme ∈ all) :
    (step s l).1.filter (· ∈ all) ++ waiting (step s l).2 =
      waiting s ++ if passes s l then [l.toLexeme] else [] := by
  obtain ⟨hdrop, hstep⟩ | ⟨⟨hnewline, hpending, hzero⟩, hstep⟩ | ⟨⟨hcomment, hnewline⟩, hstep⟩ :=
    step_cases s l
  · have hpass : passes s l = false := by
      rcases hdrop with hl | ⟨hl, hdrop⟩
      · rw [passes, hl]
      · have hor : (s.pending.isSome || 0 < s.depth) = true := by simpa using hdrop
        simp only [passes, hl, hor, Bool.not_true]
    simp [hstep, hpass]
  · have hpass : passes s l = true := by simp [passes, hnewline, hpending, hzero]
    simp [hstep, hpass, waiting, hpending, ← hnewline]
  · have hpass : passes s l = true := by
      unfold passes
      split <;> first | rfl | contradiction
    have hnone : (place s l).2.pending = none := pending_settle
    have hout : (place s l).1 = (settle s l.indent).1 ++ [l.toLexeme] := rfl
    rw [hstep, hout, List.filter_append, filter_settle h hs, if_pos hpass]
    simp [hl, waiting, hnone]

/-- **A whole run**: but for what is put in, the lexemes that pass come out. -/
lemma filter_run (h : Apart all) (stop : Nat) (hs : ∀ l ∈ waiting s, l ∈ all)
    (hls : ∀ l ∈ ls, l.toLexeme ∈ all) :
    (run stop s ls).filter (· ∈ all) = waiting s ++ kept s ls := by
  induction ls generalizing s with
  | nil => rw [run, filter_finish h hs, kept, List.append_nil]
  | cons l ls ih =>
    obtain ⟨hl, hls⟩ := List.forall_mem_cons.mp hls
    have hstep := filter_step h hs hl
    have hnext : ∀ m ∈ waiting (step s l).2, m ∈ all := by
      intro m hm
      have hmem : m ∈ waiting s ++ if passes s l then [l.toLexeme] else [] := by
        rw [← hstep]
        exact List.mem_append_right _ hm
      rcases List.mem_append.mp hmem with hmem | hmem
      · exact hs m hmem
      · split at hmem
        · exact List.mem_singleton.mp hmem ▸ hl
        · cases hmem
    rw [run, kept, List.filter_append, ih hnext hls, ← List.append_assoc, hstep, List.append_assoc]

/-- What the layout puts in. -/
def addedTokens : List Token := [.indent, .dedent, .error, .eof]

lemma mem_settle {l : Lexeme} (h : l ∈ (settle s width).1) :
    l ∈ waiting s ∨ l.token ∈ addedTokens := by
  cases hpending : s.pending with
  | none => simp [settle, hpending] at h
  | some span =>
    simp only [settle, hpending] at h
    rcases List.mem_cons.mp h with rfl | h
    · exact .inl (by simp [waiting, hpending])
    · have hmark := (of_mem_reindent h).2
      simp only [markTokens, List.mem_cons, List.not_mem_nil, or_false] at hmark
      exact .inr (by rcases hmark with h | h | h <;> simp [addedTokens, h])

lemma mem_run {l : Lexeme} (h : l ∈ run stop s ls) :
    l ∈ waiting s ∨ l ∈ ls.map (·.toLexeme) ∨ l.token ∈ addedTokens := by
  induction ls generalizing s with
  | nil =>
    rw [run, finish_eq] at h
    rcases List.mem_append.mp h with h | h
    · exact (mem_settle h).imp_right .inr
    · rcases List.mem_append.mp h with h | h
      · obtain ⟨-, rfl⟩ := List.mem_replicate.mp h
        exact .inr (.inr (by simp [addedTokens]))
      · obtain rfl := List.mem_singleton.mp h
        exact .inr (.inr (by simp [addedTokens]))
  | cons m ls ih =>
    rw [run] at h
    obtain ⟨-, hstep⟩ | ⟨⟨hnewline, -, -⟩, hstep⟩ | ⟨-, hstep⟩ := step_cases s m
    · rw [hstep] at h
      exact (ih h).imp_right (.imp_left (List.mem_cons_of_mem _))
    · rw [hstep] at h
      rcases ih h with h | h | h
      · obtain rfl : l = ⟨.newline, m.span⟩ := by simpa [waiting] using h
        exact .inr (.inl (List.mem_cons.mpr (.inl (by rw [← hnewline]))))
      · exact .inr (.inl (List.mem_cons_of_mem _ h))
      · exact .inr (.inr h)
    · have hnone : waiting (place s m).2 = [] := by
        have hpending : (place s m).2.pending = none := pending_settle
        simp [waiting, hpending]
      have hout : (place s m).1 = (settle s m.indent).1 ++ [m.toLexeme] := rfl
      rw [hstep, hout, List.mem_append, List.mem_append] at h
      rcases h with (h | h) | h
      · exact (mem_settle h).imp_right .inr
      · exact .inr (.inl (List.mem_cons.mpr (.inl (List.mem_singleton.mp h))))
      · rcases ih h with h | h | h
        · rw [hnone] at h
          cases h
        · exact .inr (.inl (List.mem_cons_of_mem _ h))
        · exact .inr (.inr h)

/-! ### Whole sources -/

lemma spaced_raw (source : String) : Spaced source [] 0 (raw source) := Scan.spaced_scan source

lemma start_lt_stop_raw (source : String) : ∀ l ∈ raw source, l.span.start < l.span.stop :=
  List.forall_mem_map.mpr (Scan.start_lt_stop _ _ _)

/-- A lexeme of the scan is told by the place where it starts. -/
lemma nodup_starts (source : String) : ((raw source).map (·.span.start)).Nodup := by
  rw [List.Nodup, List.pairwise_map]
  refine (spaced_raw source).pairwise.2.imp_of_mem fun hl _ hle => ?_
  exact Nat.ne_of_lt ((start_lt_stop_raw source _ hl).trans_le hle)

lemma apart_raw (source : String) : Apart (raw source) where
  tokens := List.forall_mem_map.mpr (Scan.scanFrom_notMem _ _ _)
  newlines span hnewline herror := by
    have heq := List.inj_on_of_nodup_map (nodup_starts source) hnewline herror rfl
    cases heq

lemma filter_lexemes (source : String) :
    (lexemes source).filter (· ∈ raw source) = kept {} (Scan.scan source) :=
  filter_run (apart_raw source) _ nofun fun _ hl => List.mem_map_of_mem hl

lemma mem_kept_iff {source : String} {before after : List Lexeme} {l : Lexeme}
    (h : raw source = before ++ l :: after) :
    l ∈ kept {} (Scan.scan source) ↔ ¬ Dropped (before.map Lexeme.token) l.token := by
  have hnodup : (raw source).Nodup := .of_map _ (nodup_starts source)
  rw [h, List.nodup_middle, List.nodup_cons, List.mem_append, not_or] at hnodup
  obtain ⟨⟨hbefore, hafter⟩, -⟩ := hnodup
  obtain ⟨before', rest, hscan, rfl, hrest⟩ := List.map_eq_append_iff.mp h
  obtain ⟨l', after', rfl, rfl, rfl⟩ := List.map_eq_cons_iff.mp hrest
  have hremembers : Remembers (State.after {} before')
      ((before'.map (·.toLexeme)).map Lexeme.token) := by
    rw [List.map_map]
    exact remembers_after before'
  have hbefore' : l'.toLexeme ∉ kept {} before' := fun hmem =>
    hbefore ((kept_sublist _ _).subset hmem)
  have hafter' (s : State) : l'.toLexeme ∉ kept s after' := fun hmem =>
    hafter ((kept_sublist _ _).subset hmem)
  rw [← hremembers.passes_iff l', hscan, kept_append, kept, List.mem_append,
    List.mem_append]
  split <;> simp_all

/-- How the lexemes of the scan, and the stream made of them, stand in the source. -/
structure Tiling (source : String) : Prop where
  /-- Each lexeme of the scan stands on whole characters, and on one at least. -/
  spans : ∀ l ∈ raw source, l.span.Valid source ∧ l.span.start < l.span.stop
  /-- They come one after the other. -/
  disjoint : (raw source).Pairwise (·.span.stop ≤ ·.span.start)
  /-- What lies between them is skipped. -/
  gaps : ∀ i < source.utf8ByteSize, (∀ l ∈ raw source, ¬ l.span.Covers i) →
    Scan.InGap source 0 (raw source) i
  /-- Those that the stream has are in their order there. -/
  order : ((lexemes source).filter (· ∈ raw source)).Sublist (raw source)
  /-- Just those are missing that are dropped. -/
  dropped : ∀ before l after, raw source = before ++ l :: after →
    (l ∈ lexemes source ↔ ¬ Dropped (before.map Lexeme.token) l.token)
  /-- All else is put in. -/
  added : ∀ l ∈ lexemes source, l ∉ raw source → l.token ∈ addedTokens
  starts : (lexemes source).Pairwise (·.span.start ≤ ·.span.start)

/-- **The lexemes tile the source**, whatever the text is. -/
theorem lexemes_tile (source : String) : Tiling source where
  spans l hl := ⟨(spaced_raw source).valid l hl, start_lt_stop_raw source l hl⟩
  disjoint := (spaced_raw source).pairwise.2
  gaps i hi hfree := by
    have hcovers := Scan.covers_or_inGap source 0 (Scan.columnFrom 0 source.toList) source.toList []
      rfl rfl i (Nat.zero_le i) (by rwa [Nat.zero_add, byteLength_toList])
    refine hcovers.resolve_left ?_
    rintro ⟨l, hl, hl'⟩
    exact hfree _ (List.mem_map_of_mem hl) hl'
  order := by
    rw [filter_lexemes]
    exact kept_sublist _ _
  dropped before l after h := by
    have hl : l ∈ raw source := by simp [h]
    rw [← mem_kept_iff h, ← filter_lexemes, List.mem_filter]
    simp [hl]
  added l hl hraw := by
    rcases mem_run hl with h | h | h
    · cases h
    · exact absurd h hraw
    · exact h
  starts := (ascends_lexemes source).pairwise

end Layout

end AnnotatedWasm
