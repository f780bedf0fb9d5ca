import AnnotatedWasm.Proofs.Printing.Scanning

/-!
The layout of written lines.

A line of level `n` is indented by `4 * n`, so the layout pass has the stack `4 * n, …, 8, 4`
there. From one line to the next the level grows by one at most: `Flows` says which tokens such
lines give, and the layout pass gives these.
-/

namespace AnnotatedWasm.Layout

open Syntax
open Scan (Placed Writable)

/-! ### Indentation -/

/-- The indentations of the open blocks in a block of the given depth, innermost first. -/
def stack : Nat → List Nat
  | 0 => []
  | n + 1 => 4 * (n + 1) :: stack n

theorem headD_stack (n : Nat) : (stack n).headD 0 = 4 * n := by
  cases n <;> rfl

/-- The marks before a line of `level` in a block of depth `cur`. -/
def marks (cur level : Nat) : List Token :=
  if cur < level then [.indent] else List.replicate (cur - level) .dedent

theorem takeWhile_stack {cur level : Nat} (h : level ≤ cur) :
    ((stack cur).takeWhile (4 * level < ·)).length = cur - level ∧
      (stack cur).dropWhile (4 * level < ·) = stack level := by
  induction cur with
  | zero =>
    obtain rfl : level = 0 := by omega
    exact ⟨rfl, rfl⟩
  | succ cur ih =>
    rcases Nat.lt_or_ge cur level with hlt | hle
    · obtain rfl : level = cur + 1 := by omega
      simp [stack]
    · have hlt : 4 * level < 4 * (cur + 1) := by omega
      obtain ⟨htake, hdrop⟩ := ih hle
      simp only [stack, List.takeWhile_cons, List.dropWhile_cons, hlt, decide_true, if_true,
        List.length_cons, htake, hdrop]
      exact ⟨by omega, trivial⟩

theorem reindent_stack {cur level : Nat} (h : level ≤ cur + 1) (span : Span) :
    (reindent (stack cur) (4 * level) span).1.map Lexeme.token = marks cur level ∧
      (reindent (stack cur) (4 * level) span).2 = stack level := by
  unfold reindent marks
  rw [headD_stack]
  by_cases hlt : cur < level
  · obtain rfl : level = cur + 1 := by omega
    rw [if_pos hlt, if_pos (by omega)]
    exact ⟨rfl, rfl⟩
  · obtain ⟨htake, hdrop⟩ := takeWhile_stack (Nat.le_of_not_lt hlt)
    rw [if_neg hlt, if_neg (by omega)]
    simp only [hdrop, headD_stack, if_true, List.append_nil, List.map_map, and_true]
    rw [← htake]
    exact List.map_const' ..

/-! ### One line -/

/-- The number of open brackets after a token. -/
def bracket (depth : Nat) : Token → Nat
  | .punct p => if p.isOpening then depth + 1 else if p.isClosing then depth - 1 else depth
  | _ => depth

/-- Tokens that close the brackets they open. -/
def Balanced (ts : List Token) : Prop := ∀ depth, ts.foldl bracket depth = depth

theorem place_of_settled (levels : List Nat) (depth : Nat) (l : Placed) :
    place ⟨levels, depth, none⟩ l = ([l.toLexeme], ⟨levels, bracket depth l.token, none⟩) := by
  simp only [place, settle, List.nil_append]
  rfl

theorem step_eq_place {l : Placed} (hl : Writable l.token) (s : State) : step s l = place s l := by
  unfold step
  split <;> simp_all [Writable]

/-- Within a line tokens pass unchanged. -/
theorem run_tokens (stop : Nat) (levels : List Nat) {ls : List Placed}
    (hls : ∀ l ∈ ls, Writable l.token) (depth : Nat) (more : List Placed) :
    run stop ⟨levels, depth, none⟩ (ls ++ more)
      = ls.map Placed.toLexeme ++
        run stop ⟨levels, (ls.map (·.token)).foldl bracket depth, none⟩ more := by
  induction ls generalizing depth with
  | nil => rfl
  | cons l ls ih =>
    rw [List.cons_append, run, step_eq_place (hls l (by simp)), place_of_settled,
      ih (fun l h => hls l (List.mem_cons_of_mem _ h))]
    rfl

/-- A newline that waits is let go before the first token of the next line. -/
theorem run_pending (stop : Nat) (levels : List Nat) (depth : Nat) (span : Span) {l : Placed}
    (hl : Writable l.token) (ls : List Placed) :
    run stop ⟨levels, depth, some span⟩ (l :: ls)
      = ⟨.newline, span⟩ :: (reindent levels l.indent span).1 ++
        run stop ⟨(reindent levels l.indent span).2, depth, none⟩ (l :: ls) := by
  rw [run, run, step_eq_place hl, step_eq_place hl, place_of_settled]
  simp only [place, settle, List.append_assoc, List.cons_append]
  rfl

theorem run_newline (stop : Nat) (levels : List Nat) {l : Placed} (hl : l.token = .newline)
    (ls : List Placed) :
    run stop ⟨levels, 0, none⟩ (l :: ls) = run stop ⟨levels, 0, some l.span⟩ ls := by
  simp [run, step, hl]

/-! ### All lines -/

/-- A line that is read back as it was written. -/
structure Good (l : Line) : Prop where
  tokens : l.tokens ≠ []
  writable : ∀ t ∈ l.tokens, Writable t
  balanced : Balanced l.tokens

/-- The tokens that lines give in a block of the given depth, up to the end of the text. -/
inductive Flows : Nat → List Line → List Token → Prop
  | nil (cur : Nat) : Flows cur [] (List.replicate cur .dedent ++ [.eof])
  | cons {cur : Nat} {l : Line} {ls : List Line} {ts : List Token} (good : Good l)
      (level : l.level ≤ cur + 1) (rest : Flows l.level ls ts) :
      Flows cur (l :: ls) (marks cur l.level ++ (l.tokens ++ .newline :: ts))

/-- What the scanner makes of a line. -/
def lineViews (l : Line) : List (Token × Nat) :=
  (l.tokens ++ [Token.newline]).map fun t => (t, 4 * l.level)

/-- The lexemes of a first line, and those of the lines behind it. -/
theorem exists_split {l : Line} {ls : List Line} {ps : List Placed}
    (h : ps.map Placed.view = (l :: ls).flatMap lineViews) :
    ∃ qs nl more, ps = qs ++ nl :: more ∧ qs.map (·.token) = l.tokens ∧
      (∀ q ∈ qs, q.indent = 4 * l.level) ∧ nl.token = .newline ∧
      more.map Placed.view = ls.flatMap lineViews := by
  rw [List.flatMap_cons, lineViews, List.map_append, List.append_assoc] at h
  obtain ⟨qs, rs, rfl, hqs, hrs⟩ := List.map_eq_append_iff.1 h
  obtain ⟨nl, more, rfl, hnl, hmore⟩ := List.map_eq_cons_iff.1 hrs
  refine ⟨qs, nl, more, rfl, ?_, ?_, congrArg Prod.fst hnl, hmore⟩
  · have := congrArg (List.map Prod.fst) hqs
    simpa [Placed.view, Function.comp_def] using this
  · intro q hq
    have : q.view ∈ l.tokens.map fun t => (t, 4 * l.level) := hqs ▸ List.mem_map_of_mem hq
    obtain ⟨t, -, ht⟩ := List.mem_map.1 this
    exact (congrArg Prod.snd ht).symm

/-- A good line that starts without a waiting newline leaves one behind. -/
theorem run_good {l : Line} (hl : Good l) (stop : Nat) (levels : List Nat) {qs : List Placed}
    {nl : Placed} (hqs : qs.map (·.token) = l.tokens) (hnl : nl.token = .newline)
    (more : List Placed) :
    (run stop ⟨levels, 0, none⟩ (qs ++ nl :: more)).map Lexeme.token
      = l.tokens ++ (run stop ⟨levels, 0, some nl.span⟩ more).map Lexeme.token := by
  have hw : ∀ q ∈ qs, Writable q.token := fun q hq =>
    hl.writable _ (hqs ▸ List.mem_map_of_mem hq)
  rw [run_tokens stop levels hw, hqs, hl.balanced, run_newline _ _ hnl, List.map_append,
    List.map_map]
  rw [← hqs]
  rfl

theorem run_flows {cur : Nat} {ls : List Line} {ts : List Token} (h : Flows cur ls ts)
    (stop : Nat) (span : Span) {ps : List Placed}
    (hps : ps.map Placed.view = ls.flatMap lineViews) :
    (run stop ⟨stack cur, 0, some span⟩ ps).map Lexeme.token = .newline :: ts := by
  induction h generalizing span ps with
  | nil cur =>
    obtain rfl := List.map_eq_nil_iff.1 hps
    obtain ⟨hmarks, hstack⟩ := reindent_stack (Nat.zero_le (cur + 1)) span
    rw [Nat.mul_zero] at hmarks hstack
    simp only [run, finish, settle, hstack, stack, List.map_append, List.map_cons, hmarks]
    simp [marks]
  | @cons cur l ls ts good level rest ih =>
    obtain ⟨qs, nl, more, rfl, hqs, hindent, hnl, hmore⟩ := exists_split hps
    obtain ⟨hmarks, hstack⟩ := reindent_stack level span
    cases qs with
    | nil => exact absurd hqs.symm good.tokens
    | cons q qs =>
      have hq : Writable q.token := good.writable _ (by simp [← hqs])
      rw [List.cons_append, run_pending _ _ _ _ hq, hindent q (by simp), hstack,
        ← List.cons_append, List.map_append, List.map_cons, hmarks, run_good good _ _ hqs hnl,
        ih nl.span hmore]
      rfl

theorem Flows.good {cur : Nat} {ls : List Line} {ts : List Token} (h : Flows cur ls ts) :
    ∀ l ∈ ls, Good l := by
  induction h with
  | nil => simp
  | cons good _ _ ih => exact List.forall_mem_cons.2 ⟨good, ih⟩

/-- The tokens of a source are those that its lines give. -/
theorem map_token_lexemes {ls : List Line} {ts : List Token} (h : Flows 0 ls ts)
    (hfirst : ∀ l ∈ ls.head?, l.level = 0) :
    (lexemes (String.ofList (ls.flatMap Line.chars))).map Lexeme.token = ts := by
  have hps : (Scan.scan (String.ofList (ls.flatMap Line.chars))).map Placed.view
      = ls.flatMap lineViews := by
    rw [Scan.scan, String.toList_ofList]
    exact Scan.views_lines fun l hl => (h.good l hl).writable
  rw [lexemes]
  generalize Scan.scan _ = ps at hps
  cases h with
  | nil =>
    obtain rfl := List.map_eq_nil_iff.1 hps
    rfl
  | @cons _ l ls ts good level rest =>
    have hl : l.level = 0 := hfirst l rfl
    obtain ⟨qs, nl, more, rfl, hqs, -, hnl, hmore⟩ := exists_split hps
    rw [hl] at rest ⊢
    rw [run_good good _ _ hqs hnl]
    exact congrArg (l.tokens ++ ·) (run_flows rest _ _ hmore)

end AnnotatedWasm.Layout
