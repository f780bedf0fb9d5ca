import AnnotatedWasm.Proofs.Printing.Taking

/-!
The order of the lexemes of a source.

They start one after the other and end with the only `eof`. Each `indent` stands right before the
token that starts its line, so a block that opens there has a statement to read.
-/

namespace AnnotatedWasm

/-- Whether a token starts a statement, as far as the layout knows. -/
def Token.Starts (t : Token) : Prop := t ∉ [.newline, .dedent, .eof]

/-- Each `indent` stands right before the token that starts its line. -/
def Opens (ls : List Lexeme) : Prop :=
  ∀ l rest, l :: rest <:+ ls → l.token = .indent → (Grammar.next rest).Starts

namespace Opens

variable {l : Lexeme} {ls ms : List Lexeme}

lemma suffix (h : Opens ls) (hms : ms <:+ ls) : Opens ms :=
  fun l rest hl => h l rest (hl.trans hms)

lemma cons (hl : l.token = .indent → (Grammar.next ls).Starts) (h : Opens ls) :
    Opens (l :: ls) := by
  intro m rest hm hindent
  rcases List.suffix_cons_iff.mp hm with heq | hm
  · obtain ⟨rfl, rfl⟩ := List.cons.inj heq
    exact hl hindent
  · exact h m rest hm hindent

lemma append (hms : ∀ m ∈ ms, m.token ≠ .indent) (h : Opens ls) : Opens (ms ++ ls) := by
  induction ms with
  | nil => exact h
  | cons m ms ih =>
    obtain ⟨hm, hms⟩ := List.forall_mem_cons.mp hms
    exact (ih hms).cons fun hindent => absurd hindent hm

end Opens

/-- The lexemes start by `N` as far as the first error, that one included. -/
def Grammar.StartBy (N : Nat) : List Lexeme → Prop
  | [] => True
  | l :: ls => l.span.start ≤ N ∧ (l.token ≠ .error → StartBy N ls)

/-- The lexemes start one after the other, from `lo` on and by `hi`. -/
def Ascends (lo hi : Nat) : List Lexeme → Prop
  | [] => lo ≤ hi
  | l :: ls => lo ≤ l.span.start ∧ Ascends l.span.start hi ls

namespace Ascends

variable {lo mid hi : Nat} {l : Lexeme} {ls ms before after : List Lexeme}

lemma le (h : Ascends lo hi ls) : lo ≤ hi := by
  induction ls generalizing lo with
  | nil => exact h
  | cons l ls ih => exact h.1.trans (ih h.2)

lemma from_le {lo' : Nat} (h : Ascends lo hi ls) (hle : lo' ≤ lo) : Ascends lo' hi ls := by
  cases ls with
  | nil => exact hle.trans h
  | cons l ls => exact ⟨hle.trans h.1, h.2⟩

lemma to_le {hi' : Nat} (h : Ascends lo hi ls) (hle : hi ≤ hi') : Ascends lo hi' ls := by
  induction ls generalizing lo with
  | nil => exact h.trans hle
  | cons l ls ih => exact ⟨h.1, ih h.2⟩

lemma append (h : Ascends lo mid ls) (h' : Ascends mid hi ms) : Ascends lo hi (ls ++ ms) := by
  induction ls generalizing lo with
  | nil => exact h'.from_le h
  | cons l ls ih => exact ⟨h.1, ih h.2⟩

/-- Lexemes at one place. -/
lemma of_forall_eq {n : Nat} (h : ∀ l ∈ ls, l.span.start = n) : Ascends n n ls := by
  induction ls with
  | nil => exact le_rfl
  | cons l ls ih =>
    obtain ⟨hl, hls⟩ := List.forall_mem_cons.mp h
    refine ⟨hl.ge, ?_⟩
    rw [hl]
    exact ih hls

lemma startBy (h : Ascends lo hi ls) : Grammar.StartBy hi ls := by
  induction ls generalizing lo with
  | nil => trivial
  | cons l ls ih => exact ⟨h.2.le, fun _ => ih h.2⟩

/-- As far as an error the lexemes start no later than that error. -/
lemma startBy_error (h : Ascends lo hi (before ++ l :: after)) (hl : l.token = .error) :
    Grammar.StartBy l.span.start (before ++ l :: after) := by
  induction before generalizing lo with
  | nil => exact ⟨le_rfl, fun hne => absurd hl hne⟩
  | cons b before ih =>
    have hstart := ih h.2
    refine ⟨?_, fun _ => hstart⟩
    cases before with
    | nil => exact h.2.1
    | cons c before => exact h.2.1.trans hstart.1

end Ascends

/-! ### The scan -/

namespace Scan

/-- A piece and what follows it take up all of the text. -/
lemma add_byteLength (offset n : Nat) (c : Char) (cs : List Char) :
    offset + byteLength (c :: cs.take n) + byteLength (cs.drop n) =
      offset + byteLength (c :: cs) := by
  rw [Nat.add_assoc, ← byteLength_append, List.cons_append, List.take_append_drop]

lemma ascends_scanFrom (offset indent : Nat) (cs : List Char) :
    Ascends offset (offset + byteLength cs) ((scanFrom offset indent cs).map (·.toLexeme)) := by
  fun_induction scanFrom offset indent cs with
  | case1 => exact le_rfl
  | case2 offset indent c cs found text rest stop later token htoken ih =>
    rw [add_byteLength offset found.2 c cs] at ih
    exact ⟨le_rfl, ih.from_le (Nat.le_add_right ..)⟩
  | case3 offset indent c cs found text rest stop later htoken ih =>
    rw [add_byteLength offset found.2 c cs] at ih
    exact ih.from_le (Nat.le_add_right ..)

/-- What the layout adds to the lexemes of the scan. -/
def layoutTokens : List Token := [.indent, .dedent, .eof]

lemma token?_notMem {piece : Piece} {text : String} {t : Token} (h : piece.token? text = some t) :
    t ∉ layoutTokens := by
  unfold Piece.token? at h
  split at h
  case h_1 => cases h
  case h_4 =>
    split at h <;> cases h <;> simp [layoutTokens]
  all_goals
    cases h
    simp [layoutTokens]

lemma scanFrom_notMem (offset indent : Nat) (cs : List Char) :
    ∀ l ∈ scanFrom offset indent cs, l.token ∉ layoutTokens := by
  fun_induction scanFrom offset indent cs with
  | case1 => exact List.forall_mem_nil _
  | case2 offset indent c cs found text rest stop later token htoken ih =>
    exact List.forall_mem_cons.mpr ⟨token?_notMem htoken, ih⟩
  | case3 offset indent c cs found text rest stop later htoken ih => exact ih

/-- The end of the text is no lexeme of the scan. -/
lemma scan_ne_eof (source : String) : ∀ l ∈ scan source, l.token ≠ .eof := by
  intro l hl heof
  exact scanFrom_notMem _ _ _ l hl (by simp [layoutTokens, heof])

end Scan

/-! ### The layout of the lines -/

namespace Layout

open Scan (Placed)

variable {s : State} {lo₀ lo stop width : Nat} {ls : List Placed}

/-- Nothing before `lo₀` is to come, and the newline that waits stands no later than `lo`. -/
structure State.Waits (lo₀ lo : Nat) (s : State) : Prop where
  le : lo₀ ≤ lo
  pending : ∀ span ∈ s.pending, lo₀ ≤ span.start ∧ span.start ≤ lo

/-- What is put in where the indentation changes. -/
def markTokens : List Token := [.indent, .dedent, .error]

/-- Marks stand where the newline does. -/
lemma of_mem_reindent {levels : List Nat} {span : Span} {l : Lexeme}
    (h : l ∈ (reindent levels width span).1) : l.span = span ∧ l.token ∈ markTokens := by
  unfold reindent at h
  split at h
  · obtain rfl := List.mem_singleton.mp h
    exact ⟨rfl, by simp [markTokens]⟩
  · rcases List.mem_append.mp h with h | h
    · obtain ⟨_, -, rfl⟩ := List.mem_map.mp h
      exact ⟨rfl, by simp [markTokens]⟩
    · split at h
      · cases h
      · obtain rfl := List.mem_singleton.mp h
        exact ⟨rfl, by simp [markTokens]⟩

lemma of_mem_settle {l : Lexeme} (h : l ∈ (settle s width).1) :
    l.span ∈ s.pending ∧ l.token ≠ .eof := by
  unfold settle at h
  split at h
  · cases h
  · next span hspan =>
    rw [hspan, Option.mem_some_iff]
    rcases List.mem_cons.mp h with rfl | h
    · exact ⟨rfl, nofun⟩
    · obtain ⟨rfl, hmark⟩ := of_mem_reindent h
      refine ⟨rfl, fun heof => ?_⟩
      simp [markTokens, heof] at hmark

lemma pending_settle : (settle s width).2.pending = none := by
  unfold settle
  split
  · assumption
  · rfl

lemma ascends_settle (h : s.Waits lo₀ lo) (width : Nat) : Ascends lo₀ lo (settle s width).1 := by
  cases hpending : s.pending with
  | none =>
    have hnil : (settle s width).1 = [] := by rw [settle, hpending]
    rw [hnil]
    exact h.le
  | some span =>
    have hat (l : Lexeme) (hl : l ∈ (settle s width).1) : l.span.start = span.start := by
      have hspan := (of_mem_settle hl).1
      rw [hpending] at hspan
      exact congrArg Span.start (Option.some.inj hspan).symm
    obtain ⟨hlo₀, hlo⟩ := h.pending span hpending
    exact ((Ascends.of_forall_eq hat).from_le hlo₀).to_le hlo

lemma ascends_finish (h : s.Waits lo₀ lo) (hlo : lo ≤ stop) : Ascends lo₀ stop (finish s stop) := by
  have hend (l : Lexeme) (hl : l ∈ (settle s 0).2.levels.map (fun _ => ⟨.dedent, ⟨stop, stop⟩⟩) ++
      [⟨.eof, ⟨stop, stop⟩⟩]) : l.span.start = stop := by
    rcases List.mem_append.mp hl with hl | hl
    · obtain ⟨_, -, rfl⟩ := List.mem_map.mp hl
      rfl
    · obtain rfl := List.mem_singleton.mp hl
      rfl
  have h' := (ascends_settle h 0).append ((Ascends.of_forall_eq hend).from_le hlo)
  rwa [← List.append_assoc] at h'

/-- The layout of ascending lexemes ascends. -/
lemma ascends_run (h : s.Waits lo₀ lo) (hls : Ascends lo stop (ls.map (·.toLexeme))) :
    Ascends lo₀ stop (run stop s ls) := by
  induction ls generalizing s lo₀ lo with
  | nil => exact ascends_finish h hls
  | cons l ls ih =>
    obtain ⟨hlo, hls⟩ := hls
    have hlater : s.Waits lo₀ l.span.start :=
      ⟨h.le.trans hlo, fun span hspan => (h.pending span hspan).imp_right (·.trans hlo)⟩
    rw [run]
    unfold step
    split
    · exact ih hlater hls
    · split
      · exact ih hlater hls
      · refine ih ⟨hlater.le, ?_⟩ hls
        rintro span ⟨⟩
        exact ⟨hlater.le, le_rfl⟩
    · have hnone : (place s l).2.Waits l.span.start l.span.start := by
        refine ⟨le_rfl, fun span hspan => ?_⟩
        have hpending : (place s l).2.pending = none := pending_settle
        rw [hpending] at hspan
        cases hspan
      have hl : Ascends l.span.start l.span.start [l.toLexeme] := ⟨le_rfl, le_rfl⟩
      exact ((ascends_settle h _).append (hl.from_le hlo)).append (ih hnone hls)

/-- The stream ends with the only `eof`. -/
lemma exists_run (stop : Nat) (s : State) (hls : ∀ l ∈ ls, l.token ≠ .eof) : ∃ body,
    run stop s ls = body ++ [⟨.eof, ⟨stop, stop⟩⟩] ∧ ∀ l ∈ body, l.token ≠ .eof := by
  induction ls generalizing s with
  | nil =>
    refine ⟨(settle s 0).1 ++ (settle s 0).2.levels.map fun _ => ⟨.dedent, ⟨stop, stop⟩⟩, rfl,
      fun l hl => ?_⟩
    rcases List.mem_append.mp hl with hl | hl
    · exact (of_mem_settle hl).2
    · obtain ⟨_, -, rfl⟩ := List.mem_map.mp hl
      nofun
  | cons l ls ih =>
    obtain ⟨hl, hls⟩ := List.forall_mem_cons.mp hls
    obtain ⟨body, hrun, hbody⟩ := ih (step s l).2 hls
    refine ⟨(step s l).1 ++ body, by rw [run, hrun, List.append_assoc], ?_⟩
    refine List.forall_mem_append.mpr ⟨fun m hm => ?_, hbody⟩
    unfold step at hm
    split at hm
    · cases hm
    · split at hm <;> cases hm
    · rcases List.mem_append.mp hm with hm | hm
      · exact (of_mem_settle hm).2
      · obtain rfl := List.mem_singleton.mp hm
        exact hl

/-! ### Blocks that open -/

/-- Blocks that close leave no `indent`. -/
lemma opens_reindent {levels : List Nat} {span : Span} {rest : List Lexeme} (h : Opens rest)
    (hnext : levels.headD 0 < width → (Grammar.next rest).Starts) :
    Opens ((reindent levels width span).1 ++ rest) := by
  unfold reindent
  split
  · next hlt => exact h.cons fun _ => hnext hlt
  · refine h.append fun m hm => ?_
    rcases List.mem_append.mp hm with hm | hm
    · obtain ⟨_, -, rfl⟩ := List.mem_map.mp hm
      nofun
    · split at hm
      · cases hm
      · obtain rfl := List.mem_singleton.mp hm
        nofun

lemma opens_settle {rest : List Lexeme} (h : Opens rest)
    (hnext : s.current < width → (Grammar.next rest).Starts) :
    Opens ((settle s width).1 ++ rest) := by
  unfold settle
  split
  · exact h
  · exact (opens_reindent h hnext).cons nofun

/-- The lexeme that lets the newline go starts the line. -/
lemma opens_run (stop : Nat) (s : State) (hls : ∀ l ∈ ls, l.token ∉ Scan.layoutTokens) :
    Opens (run stop s ls) := by
  induction ls generalizing s with
  | nil =>
    have hend : Opens [⟨.eof, ⟨stop, stop⟩⟩] :=
      .cons nofun fun _ _ h => by cases List.suffix_nil.mp h
    change Opens ((settle s 0).1 ++ _ ++ _)
    rw [List.append_assoc]
    refine opens_settle (hend.append fun m hm => ?_) fun hlt => absurd hlt (Nat.not_lt_zero _)
    obtain ⟨_, -, rfl⟩ := List.mem_map.mp hm
    nofun
  | cons l ls ih =>
    obtain ⟨hl, hls⟩ := List.forall_mem_cons.mp hls
    simp only [Scan.layoutTokens, List.mem_cons, not_or] at hl
    rw [run]
    unfold step
    split
    · exact ih _ hls
    · split <;> exact ih _ hls
    · next hnewline =>
      have hne : l.token ≠ .newline := hnewline
      have hstarts : l.token.Starts := by simp [Token.Starts, hne, hl]
      rw [place, List.append_assoc]
      exact opens_settle ((ih _ hls).cons fun hindent => absurd hindent hl.1) fun _ => hstarts

lemma opens_lexemes (source : String) : Opens (lexemes source) :=
  opens_run _ _ (Scan.scanFrom_notMem _ _ _)

/-! ### The stream of a source -/

lemma byteLength_eq_utf8Len (cs : List Char) : byteLength cs = String.utf8Len cs := by
  induction cs with
  | nil => rfl
  | cons c cs ih => rw [byteLength_cons, ih, String.utf8Len_cons, Nat.add_comm]

lemma byteLength_toList (source : String) : byteLength source.toList = source.utf8ByteSize := by
  rw [byteLength_eq_utf8Len, ← String.utf8ByteSize_ofList, String.ofList_toList]

lemma ascends_lexemes (source : String) :
    Ascends 0 source.utf8ByteSize (lexemes source) := by
  have hscan := Scan.ascends_scanFrom 0 (Scan.columnFrom 0 source.toList) source.toList
  rw [Nat.zero_add, byteLength_toList] at hscan
  exact ascends_run ⟨le_rfl, nofun⟩ hscan

lemma exists_lexemes (source : String) : ∃ body stop,
    lexemes source = body ++ [⟨.eof, stop⟩] ∧ ∀ l ∈ body, l.token ≠ .eof := by
  obtain ⟨body, hrun, hbody⟩ := exists_run source.utf8ByteSize {} (Scan.scan_ne_eof source)
  exact ⟨body, _, hrun, hbody⟩

end Layout

end AnnotatedWasm
