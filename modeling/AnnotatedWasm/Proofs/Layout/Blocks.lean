import AnnotatedWasm.Proofs.Parsing.Lexical

/-!
The marks of indentation are balanced.

An indent opens a block and a dedent closes the innermost one. The tokens that a step of the layout
lets out lead in this way from the blocks of the state before it to those of the state after it
(`lays_step`), whatever the text is, and at the end none is open. Newlines and marks are held back
while a bracket is open, and a mark comes out right behind a newline (`Guarded`).
-/

namespace AnnotatedWasm

def Token.isMark (t : Token) : Bool := t = .indent || t = .dedent

namespace Layout

open Scan (Placed)

/-! ### Opening and closing blocks -/

/-- Tokens before a line indented by `width` lead from the open blocks `σ`, innermost first, to
`τ`. -/
inductive Lays (width : Nat) : List Nat → List Token → List Nat → Prop
  | nil {σ} : Lays width σ [] σ
  | indent {σ ts τ} : σ.headD 0 < width → Lays width (width :: σ) ts τ →
      Lays width σ (.indent :: ts) τ
  | dedent {w σ ts τ} : Lays width σ ts τ → Lays width (w :: σ) (.dedent :: ts) τ
  | other {σ t ts τ} : t.isMark = false → Lays width σ ts τ → Lays width σ (t :: ts) τ

/-- The blocks are indented farther and farther, all of them farther than the text itself. -/
def Rising (σ : List Nat) : Prop := (σ ++ [0]).Pairwise (· > ·)

variable {s : State} {width : Nat} {σ τ υ : List Nat} {t : Token} {ts us : List Token}

lemma Rising.cons (h : Rising σ) (hw : σ.headD 0 < width) : Rising (width :: σ) := by
  refine List.pairwise_cons.mpr ⟨fun w hmem => ?_, h⟩
  cases σ with
  | nil =>
    obtain rfl := List.mem_singleton.mp hmem
    exact hw
  | cons v σ =>
    rcases List.mem_cons.mp hmem with rfl | hmem
    · exact hw
    · have hv : v > w := List.rel_of_pairwise_cons h hmem
      exact Nat.lt_trans hv hw

namespace Lays

lemma append (h : Lays width σ ts τ) (h' : Lays width τ us υ) : Lays width σ (ts ++ us) υ := by
  induction h with
  | nil => exact h'
  | indent hw _ ih => exact .indent hw (ih h')
  | dedent _ ih => exact .dedent (ih h')
  | other ht _ ih => exact .other ht (ih h')

lemma split (h : Lays width σ (ts ++ us) υ) : ∃ τ, Lays width σ ts τ ∧ Lays width τ us υ := by
  induction ts generalizing σ with
  | nil => exact ⟨σ, .nil, h⟩
  | cons t ts ih =>
    cases h with
    | indent hw h =>
      obtain ⟨τ, hts, hus⟩ := ih h
      exact ⟨τ, .indent hw hts, hus⟩
    | dedent h =>
      obtain ⟨τ, hts, hus⟩ := ih h
      exact ⟨τ, .dedent hts, hus⟩
    | other ht h =>
      obtain ⟨τ, hts, hus⟩ := ih h
      exact ⟨τ, .other ht hts, hus⟩

lemma rising (h : Lays width σ ts τ) (hσ : Rising σ) : Rising τ := by
  induction h with
  | nil => exact hσ
  | indent hw _ ih => exact ih (hσ.cons hw)
  | dedent _ ih => exact ih (List.pairwise_cons.mp hσ).2
  | other _ _ ih => exact ih hσ

/-- What is open in the end has been open before or was opened on the way. -/
lemma count (h : Lays width σ ts τ) :
    ts.count .indent + σ.length = ts.count .dedent + τ.length := by
  induction h with
  | nil => rfl
  | indent _ _ ih =>
    simp only [List.count_cons, List.length_cons] at ih ⊢
    simp
    omega
  | dedent _ ih =>
    simp only [List.count_cons, List.length_cons]
    simp
    omega
  | @other _ t _ _ ht _ ih =>
    simp only [Token.isMark, Bool.or_eq_false_iff, decide_eq_false_iff_not] at ht
    rw [List.count_cons_of_ne ht.1, List.count_cons_of_ne ht.2]
    exact ih

end Lays

/-! ### The steps of the layout -/

/-- The blocks that are open after a lexeme before a line indented by `width`. -/
def reopen (width : Nat) (levels : List Nat) (l : Lexeme) : List Nat :=
  match l.token with
  | .indent => width :: levels
  | .dedent => levels.tail
  | _ => levels

lemma Lays.foldl_reopen {ls : List Lexeme} (h : Lays width σ (ls.map Lexeme.token) τ) :
    ls.foldl (reopen width) σ = τ := by
  induction ls generalizing σ with
  | nil =>
    cases h
    rfl
  | cons l ls ih =>
    generalize hts : (l :: ls).map Lexeme.token = ts at h
    cases h with
    | nil => cases hts
    | indent _ h =>
      obtain ⟨hl, rfl⟩ := List.cons.inj hts
      rw [List.foldl_cons, reopen, hl]
      exact ih h
    | dedent h =>
      obtain ⟨hl, rfl⟩ := List.cons.inj hts
      rw [List.foldl_cons, reopen, hl]
      exact ih h
    | other hmark h =>
      obtain ⟨rfl, rfl⟩ := List.cons.inj hts
      have hkeep : reopen width σ l = σ := by
        unfold reopen
        split
        · next hl =>
          rw [hl] at hmark
          cases hmark
        · next hl =>
          rw [hl] at hmark
          cases hmark
        · rfl
      rw [List.foldl_cons, hkeep]
      exact ih h

lemma lays_dedents (width : Nat) (closed kept : List Nat) (span : Span) :
    Lays width (closed ++ kept) ((closed.map fun _ => (⟨.dedent, span⟩ : Lexeme)).map Lexeme.token)
      kept := by
  induction closed with
  | nil => exact .nil
  | cons w closed ih => exact .dedent ih

lemma lays_reindent (levels : List Nat) (width : Nat) (span : Span) :
    Lays width levels ((reindent levels width span).1.map Lexeme.token)
      (reindent levels width span).2 := by
  unfold reindent
  split
  · next hlt => exact .indent hlt .nil
  · have hclosed := lays_dedents width (levels.takeWhile (width < ·))
      (levels.dropWhile (width < ·)) span
    rw [List.takeWhile_append_dropWhile] at hclosed
    simp only [List.map_append]
    refine hclosed.append ?_
    split
    · exact .nil
    · exact .other rfl .nil

lemma lays_settle (s : State) (width : Nat) :
    Lays width s.levels ((settle s width).1.map Lexeme.token) (settle s width).2.levels := by
  unfold settle
  split
  · exact .nil
  · next span _ => exact .other rfl (lays_reindent s.levels width span)

/-- **One step**: what comes out leads to the blocks of the next state. -/
lemma lays_step (s : State) {l : Placed} (hl : l.token.isMark = false) :
    Lays l.indent s.levels ((step s l).1.map Lexeme.token) (step s l).2.levels := by
  unfold step
  split
  · exact .nil
  · split <;> exact .nil
  · simp only [place, List.map_append]
    exact (lays_settle s l.indent).append (.other hl .nil)

lemma finish_eq (s : State) (stop : Nat) : finish s stop = (settle s 0).1 ++
    (List.replicate (settle s 0).2.levels.length ⟨.dedent, ⟨stop, stop⟩⟩ ++
      [⟨.eof, ⟨stop, stop⟩⟩]) := by
  rw [← List.map_const']
  exact List.append_assoc ..

lemma lays_finish (s : State) (stop : Nat) :
    Lays 0 s.levels ((finish s stop).map Lexeme.token) [] := by
  have hclose := lays_dedents 0 (settle s 0).2.levels [] ⟨stop, stop⟩
  rw [List.append_nil] at hclose
  simp only [finish, List.map_append]
  exact ((lays_settle s 0).append hclose).append (.other rfl .nil)

/-- The state after some lexemes of the scan. -/
def State.after (s : State) (ls : List Placed) : State := ls.foldl (fun s l => (step s l).2) s

/-- What has come out by then. -/
def emitted (s : State) : List Placed → List Lexeme
  | [] => []
  | l :: ls => (step s l).1 ++ emitted (step s l).2 ls

lemma run_append (stop : Nat) (s : State) (before after : List Placed) :
    run stop s (before ++ after) = emitted s before ++ run stop (s.after before) after := by
  induction before generalizing s with
  | nil => rfl
  | cons l before ih =>
    rw [List.cons_append, run, ih, ← List.append_assoc]
    rfl

lemma emitted_concat (s : State) (before : List Placed) (l : Placed) :
    emitted s (before ++ [l]) = emitted s before ++ (step (s.after before) l).1 := by
  induction before generalizing s with
  | nil => simp [emitted, State.after]
  | cons m before ih =>
    rw [List.cons_append, emitted, ih, ← List.append_assoc]
    rfl

lemma after_concat (s : State) (before : List Placed) (l : Placed) :
    s.after (before ++ [l]) = (step (s.after before) l).2 := List.foldl_concat ..

/-- Blocks that rise stay so, and the marks that came out count them. -/
structure Counted (out : List Lexeme) (levels : List Nat) : Prop where
  rising : Rising levels
  count : (out.map Lexeme.token).count .indent =
    (out.map Lexeme.token).count .dedent + levels.length

lemma Counted.append {out q : List Lexeme} (h : Counted out σ)
    (hq : Lays width σ (q.map Lexeme.token) τ) : Counted (out ++ q) τ := by
  refine ⟨hq.rising h.rising, ?_⟩
  have hcount := hq.count
  have hout := h.count
  simp only [List.map_append, List.count_append]
  omega

/-- **A whole run**: by induction over the lexemes of the scan. -/
lemma counted_emitted {ls : List Placed} (hls : ∀ l ∈ ls, l.token.isMark = false) :
    Counted (emitted {} ls) (State.after {} ls).levels := by
  induction ls using List.reverseRecOn with
  | nil => exact ⟨List.pairwise_singleton _ _, rfl⟩
  | append_singleton ls l ih =>
    obtain ⟨hbefore, hl⟩ := List.forall_mem_append.mp hls
    rw [emitted_concat, after_concat]
    exact (ih hbefore).append (lays_step _ (hl l (List.mem_singleton_self l)))

/-! ### Newlines and marks stand outside brackets -/

/-- Newlines and marks come out while no bracket is open, and a mark comes out right behind a
newline or another mark. The flag says that one of these came last. -/
def Guarded : Nat → Bool → List Token → Prop
  | _, _, [] => True
  | depth, fresh, t :: ts =>
    (t = .newline ∨ t.isMark = true → depth = 0) ∧ (t.isMark = true → fresh = true) ∧
      Guarded (bracket depth t) (t = .newline || t.isMark) ts

namespace Guarded

variable {depth : Nat} {fresh : Bool}

lemma mono (h : Guarded depth false ts) : Guarded depth fresh ts := by
  cases ts with
  | nil => trivial
  | cons t ts =>
    obtain ⟨hdepth, hfresh, hts⟩ := h
    exact ⟨hdepth, fun ht => absurd (hfresh ht) (by decide), hts⟩

lemma append (h : Guarded depth fresh ts) (h' : Guarded (ts.foldl bracket depth) false us) :
    Guarded depth fresh (ts ++ us) := by
  induction ts generalizing depth fresh with
  | nil => exact h'.mono
  | cons t ts ih => exact ⟨h.1, h.2.1, ih h.2.2 h'⟩

lemma singleton (ht : t.isMark = false) (hnewline : t ≠ .newline) : Guarded depth fresh [t] := by
  refine ⟨?_, ?_, trivial⟩
  · rintro (rfl | h)
    · exact absurd rfl hnewline
    · rw [ht] at h
      cases h
  · intro h
    rw [ht] at h
    cases h

end Guarded

lemma isMark_scan (source : String) : ∀ l ∈ Scan.scan source, l.token.isMark = false := by
  intro l hl
  have hlayout := Scan.scanFrom_notMem _ _ _ l hl
  simp only [Scan.layoutTokens, List.mem_cons, List.not_mem_nil, or_false, not_or] at hlayout
  simp [Token.isMark, hlayout]

/-- The blocks that are open, innermost first, when the lexemes `out` have come out of the layout.
Between two steps they are those of the state; within a step each mark that has come out has opened
or closed its block, and those that are to come have not. -/
inductive Opened (source : String) : List Lexeme → List Nat → Prop
  | step {before l after out} : Scan.scan source = before ++ l :: after →
      out <+: (step (State.after {} before) l).1 →
      Opened source (emitted {} before ++ out)
        (out.foldl (reopen l.indent) (State.after {} before).levels)
  | finish {out} : out <+: finish (State.after {} (Scan.scan source)) source.utf8ByteSize →
      Opened source (emitted {} (Scan.scan source) ++ out)
        (out.foldl (reopen 0) (State.after {} (Scan.scan source)).levels)

lemma Counted.of_partial {out q ls : List Lexeme} (h : Counted out σ)
    (hls : Lays width σ (ls.map Lexeme.token) τ) (hq : q <+: ls) :
    Counted (out ++ q) (q.foldl (reopen width) σ) := by
  obtain ⟨more, rfl⟩ := hq
  rw [List.map_append] at hls
  obtain ⟨υ, hυ, -⟩ := hls.split
  rw [hυ.foldl_reopen]
  exact h.append hυ

lemma Opened.counted {source : String} {out : List Lexeme} {levels : List Nat}
    (h : Opened source out levels) : Counted out levels := by
  have hmark := isMark_scan source
  cases h with
  | step hscan hout =>
    rw [hscan] at hmark
    obtain ⟨hbefore, hl⟩ := List.forall_mem_append.mp hmark
    exact (counted_emitted hbefore).of_partial (lays_step _ (hl _ List.mem_cons_self)) hout
  | finish hout => exact (counted_emitted hmark).of_partial (lays_finish _ _) hout

end Layout

end AnnotatedWasm
