import AnnotatedWasm.Proofs.Parsing.Statements

/-!
What is parsed is lexically sound.

A parser that has taken no error token stands no later than the first one, and one that has come to
`eof` has taken the whole stream.
-/

namespace AnnotatedWasm.Grammar

open Syntax

variable {N : Nat} {source : String} {m : Module}

lemma parseLexemes_eq (ls : List Lexeme) : parseLexemes ls =
    (sourceFile (inner (ls.length + 1)) (ls.length + 1) ⟨ls, ⟨0, 0⟩⟩).map Prod.fst := rfl

lemma near_start (h : StartBy N (Layout.lexemes source)) :
    State.Near ⟨True, N, source⟩ ⟨Layout.lexemes source, ⟨0, 0⟩⟩ :=
  ⟨Nat.zero_le _, h, Layout.opens_lexemes source, boundary_zero, Layout.spaced_lexemes source⟩

lemma held_start {ls : List Lexeme} :
    Knowledge.Held ⟨True, N, source⟩ 0 ⟨0, 0⟩ [] ⟨ls, ⟨0, 0⟩⟩ :=
  ⟨le_rfl, boundary_zero, Nat.zero_le _, le_rfl, .nil le_rfl, nofun⟩

/-- Where a source is parsed, tokens have been taken as far as an `eof` and nodes have been read
from them. An error stands no later than the lexemes start. -/
lemma outcome_parse (h : StartBy N (Layout.lexemes source)) : match parse source with
    | .ok m => ∃ taken rest stop, Layout.lexemes source = taken ++ rest ∧
        Carries [] (taken.map Lexeme.token) [] ∧ next rest = .eof ∧
          Laid source 0 stop (stmtNodes m.body)
    | .error e => e.span.start ≤ N := by
  rw [parse, parseLexemes_eq]
  generalize (Layout.lexemes source).length + 1 = n
  have hout := (adds_sourceFile (T := fun _ => True) (σ := []) (sound_inner n) n).runs _
    (fun _ => near_start h) (fun _ => held_start) trivial
  cases hrun : sourceFile (inner n) n ⟨Layout.lexemes source, ⟨0, 0⟩⟩ with
  | error e =>
    rw [hrun] at hout
    exact hout.2 trivial
  | ok out =>
    rw [hrun] at hout
    obtain ⟨taken, hpasses, -, hheld⟩ := hout
    exact ⟨taken, _, _, hpasses.took.1, hpasses.carries trivial, next_sourceFile hrun,
      (hheld trivial).laid⟩

lemma laid_of_parse (h : parse source = .ok m) :
    ∃ stop, Laid source 0 stop (stmtNodes m.body) := by
  have hout := outcome_parse (Layout.ascends_lexemes source).startBy
  rw [h] at hout
  obtain ⟨-, -, stop, -, -, -, hlaid⟩ := hout
  exact ⟨stop, hlaid⟩

/-- What comes from an `eof` on, where only the last lexeme is one. -/
lemma rest_of_next_eof {taken rest body : List Lexeme} {e : Lexeme}
    (h : body ++ [e] = taken ++ rest) (hbody : ∀ l ∈ body, l.token ≠ .eof)
    (hnext : next rest = .eof) : rest = [] ∨ rest = [e] := by
  cases rest with
  | nil => exact .inl rfl
  | cons l rest =>
    rcases List.eq_nil_or_concat rest with rfl | ⟨rest, l', rfl⟩
    · have hlast := (List.append_inj' h rfl).2
      exact .inr hlast.symm
    · -- the `eof` that comes next would not be the last lexeme
      have hsplit : body ++ [e] = (taken ++ l :: rest) ++ [l'] := by simp [h]
      have hmem : l ∈ body := by
        rw [(List.append_inj' hsplit rfl).1]
        simp
      exact absurd hnext (hbody l hmem)

lemma carries_of_parse (h : parse source = .ok m) :
    Carries [] ((Layout.lexemes source).map Lexeme.token) [] := by
  have hout := outcome_parse (Layout.ascends_lexemes source).startBy
  rw [h] at hout
  obtain ⟨taken, rest, -, hrest, hcarries, hnext, -⟩ := hout
  obtain ⟨body, stop, hlexemes, hbody⟩ := Layout.exists_lexemes source
  rw [hrest, List.map_append]
  refine hcarries.append ?_
  rcases rest_of_next_eof (hlexemes.symm.trans hrest) hbody hnext with rfl | rfl
  · exact .nil
  · exact .cons (.plain rfl) .nil

/-- **What is parsed is lexically sound.** Where a source is parsed, no token of its stream is an
error and its brackets are nested. Where the stream has an error, parsing fails, and no later than
at the first one. -/
theorem parse_lexically_sound (source : String) :
    (∀ m, parse source = .ok m → (∀ l ∈ Layout.lexemes source, l.token ≠ .error) ∧
      Nested ((Layout.lexemes source).map Lexeme.token)) ∧
    ∀ l, (Layout.lexemes source).find? (·.token = .error) = some l →
      ∃ e, parse source = .error e ∧ e.span.start ≤ l.span.start := by
  have hsound (m : Module) (h : parse source = .ok m) : ∀ l ∈ Layout.lexemes source,
      l.token ≠ .error := fun l hl =>
    (carries_of_parse h).ne_error l.token (List.mem_map_of_mem hl)
  refine ⟨fun m h => ⟨hsound m h, (carries_of_parse h).nested⟩, fun l hl => ?_⟩
  have herror : l.token = .error := by simpa using List.find?_some hl
  cases hparse : parse source with
  | ok m => exact absurd herror (hsound m hparse l (List.mem_of_find?_eq_some hl))
  | error e =>
    obtain ⟨-, before, after, hlexemes, -⟩ := List.find?_eq_some_iff_append.mp hl
    have hstart : StartBy l.span.start (Layout.lexemes source) := by
      have hascends := Layout.ascends_lexemes source
      rw [hlexemes] at hascends ⊢
      exact hascends.startBy_error herror
    have hout := outcome_parse hstart
    rw [hparse] at hout
    exact ⟨e, rfl, hout⟩

/-- Brackets of all three kinds in a source that is parsed; and a line that fits no open block,
after a bracket that is closed by one of another kind. -/
theorem parse_lexically_sound_brackets :
    (∃ m, parse "x = [f((1,), \x7b2: 3\x7d)]\n" = .ok m) ∧
    Nested ((Layout.lexemes "x = [f((1,), \x7b2: 3\x7d)]\n").map Lexeme.token) ∧
    ∃ l e, (Layout.lexemes "if a:\n        f[0)\n    c\n").find? (·.token = .error) = some l ∧
      l.span = ⟨18, 19⟩ ∧ parse "if a:\n        f[0)\n    c\n" = .error e ∧ e.span.start ≤ 18 := by
  have hparsed : (parse "x = [f((1,), \x7b2: 3\x7d)]\n").toOption.isSome = true := by
    decide +kernel
  have herror : (Layout.lexemes "if a:\n        f[0)\n    c\n").find? (·.token = .error) =
      some ⟨.error, ⟨18, 19⟩⟩ := by
    decide +kernel
  obtain ⟨e, he, hstart⟩ := (parse_lexically_sound _).2 _ herror
  cases hparse : parse "x = [f((1,), \x7b2: 3\x7d)]\n" with
  | error e =>
    rw [hparse] at hparsed
    cases hparsed
  | ok m =>
    obtain ⟨-, hnested⟩ := (parse_lexically_sound _).1 m hparse
    exact ⟨⟨m, rfl⟩, hnested, _, e, herror, rfl, he, hstart⟩

end AnnotatedWasm.Grammar
