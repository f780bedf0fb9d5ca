import AnnotatedWasm.Proofs.Parsing.Lexical

/-!
The parser makes progress and ends.

`Advances n T M p` is about a parser `p` that starts before a token allowed by `T`. Where it
succeeds, it has taken tokens from the front of the stream, never `eof`, and at least one if its
value is as `M` says. Where it fails, it has stalled only if the stream had `n` tokens or more. That
is what `Parses` says where nothing is known of the streams.

`Consuming` lists the parsers that take a token where they succeed, each with the tokens before
which it is called, and `Lenient` those that may take none. Both are over `r`, which reads the parts
of expressions, and `stmt`, which reads the statements of a block.
-/

namespace AnnotatedWasm.Grammar

open Syntax

variable {n : Nat} {fresh : Bool} {T : Token → Prop} {σ τ : List Punct} {α : Type} {M : α → Prop}
  {A : State → Prop} {P : α → State → Prop} {r : Inner} {stmt : Parser Stmt} {p : Parser α}

def Advanced (n : Nat) (M : α → Prop) (s : State) : Except ParseError (α × State) → Prop
  | .ok (a, s') => ∃ taken, Took s s' taken ∧ (M a → taken ≠ [])
  | .error e => e.fault = .stalled → n ≤ s.rest.length

def Advances (n : Nat) (T : Token → Prop) (M : α → Prop) (p : Parser α) : Prop :=
  ∀ s : State, T (next s.rest) → Advanced n M s (p s)

/-- The parsers for the parts of expressions make progress on streams of fewer than `n` tokens. -/
structure Inner.Advances (n : Nat) (r : Inner) : Prop where
  ofExpr : Grammar.Advances n (fun _ => True) Always r.expr
  ofOrTest : Grammar.Advances n (fun _ => True) Always r.orTest
  ofNotTest : Grammar.Advances n (fun _ => True) Always r.notTest
  ofFactor : Grammar.Advances n (fun _ => True) Always r.factor

structure Progress (r : Inner) (stmt : Parser Stmt) (n : Nat) (fresh : Bool) (T : Token → Prop)
    (M : α → Prop) (p : Parser α) : Prop where
  advances : Advances (n + fresh.toNat) T M p
  productive : Productive r stmt p

/-! ### Where nothing is known -/

def unknown : Knowledge := ⟨False, 0, ""⟩

lemma advances_iff_runs : Advances n T M p ↔ Runs unknown n T σ A p τ M P := by
  refine forall_congr' fun s => ?_
  constructor
  · intro h _ _ hT
    have hrun := h hT
    cases hout : p s with
    | error e =>
      rw [hout] at hrun
      exact ⟨hrun, False.elim⟩
    | ok out =>
      rw [hout] at hrun
      obtain ⟨taken, htook, hne⟩ := hrun
      exact ⟨taken, ⟨htook, False.elim, False.elim⟩, hne, False.elim⟩
  · intro h hT
    have hrun := h False.elim False.elim hT
    cases hout : p s with
    | error e =>
      rw [hout] at hrun
      exact hrun.1
    | ok out =>
      rw [hout] at hrun
      obtain ⟨taken, hpasses, hne, -⟩ := hrun
      exact ⟨taken, hpasses.took, hne⟩

lemma advances_iff_good {nodes : α → List Node} :
    Advances n (fun _ => True) Always p ↔ Good unknown n p nodes :=
  ⟨fun h _ _ _ => advances_iff_runs.mp h, fun h => advances_iff_runs.mpr (h [] 0 ⟨0, 0⟩)⟩

lemma Inner.advances_iff_sound : r.Advances n ↔ r.Sound unknown n :=
  ⟨fun h => ⟨advances_iff_good.mp h.ofExpr, advances_iff_good.mp h.ofOrTest,
      advances_iff_good.mp h.ofNotTest, advances_iff_good.mp h.ofFactor⟩,
    fun h => ⟨advances_iff_good.mpr h.ofExpr, advances_iff_good.mpr h.ofOrTest,
      advances_iff_good.mpr h.ofNotTest, advances_iff_good.mpr h.ofFactor⟩⟩

lemma Parses.progress (h : Parses ⟨unknown, r, stmt⟩ n fresh T [] A p [] M P) :
    Progress r stmt n fresh T M p :=
  ⟨advances_iff_runs.mpr h.runs, h.productive id⟩

lemma Progress.placed {P : Nat → Span → α → State → Prop} (h : ∀ {lo start}, Parses
      ⟨unknown, r, stmt⟩ n fresh T [] (unknown.At lo start) p [] M (P lo start)) :
    Progress r stmt n fresh T M p :=
  Parses.progress (@h 0 ⟨0, 0⟩)

lemma Progress.held {P : Nat → Span → List Node → α → State → Prop} (h : ∀ {lo start ns}, Parses
      ⟨unknown, r, stmt⟩ n fresh T [] (unknown.Held lo start ns) p [] M (P lo start ns)) :
    Progress r stmt n fresh T M p :=
  Parses.progress (@h 0 ⟨0, 0⟩ [])

lemma Progress.parses (h : Progress r stmt n fresh T M p) :
    Parses ⟨unknown, r, stmt⟩ n fresh T σ A p τ M P :=
  ⟨advances_iff_runs.mp h.advances, fun _ => h.productive⟩

/-! ### Parsers by what they take -/

inductive Consuming (r : Inner) (stmt : Parser Stmt) : (Token → Prop) → {α : Type} → Parser α → Prop
  | expect {t : Token} (ht : t ≠ .eof) : Consuming r stmt (fun _ => True) (expect t)
  | identifier : Consuming r stmt (fun _ => True) identifier
  | separated {α : Type} {mark : Token} {item : Parser α} (hmark : mark ≠ .eof)
      (hitem : Consuming r stmt (fun _ => True) item) :
      Consuming r stmt (fun _ => True) (separated mark item)
  | chain {op? : Token → Option BinOp} {operand : Parser Expr} (hop : op? .eof = none)
      (h : Consuming r stmt (fun _ => True) operand) :
      Consuming r stmt (fun _ => True) (chain op? operand)
  -- expressions
  | innerExpr : Consuming r stmt (fun _ => True) r.expr
  | innerOrTest : Consuming r stmt (fun _ => True) r.orTest
  | innerNotTest : Consuming r stmt (fun _ => True) r.notTest
  | innerFactor : Consuming r stmt (fun _ => True) r.factor
  | exprList : Consuming r stmt (fun _ => True) (exprList r)
  | targets : Consuming r stmt (fun _ => True) (tupleOf (trailed r) (atWord "in"))
  | param (annotated : Bool) : Consuming r stmt (fun _ => True) (param r annotated)
  | lambda : Consuming r stmt (· = .keyword .kLambda) (lambda r)
  | yieldExpr : Consuming r stmt (· = .keyword .kYield) (yieldExpr r)
  | strings (text : String) : Consuming r stmt (· = .string text) strings
  | primary : Consuming r stmt (fun _ => True) (primary r)
  | trailed : Consuming r stmt (fun _ => True) (trailed r)
  | awaited : Consuming r stmt (fun _ => True) (awaited r)
  | power : Consuming r stmt (fun _ => True) (power r)
  | factor : Consuming r stmt (fun _ => True) (factor r)
  | arithmetic : Consuming r stmt (fun _ => True) (arithmetic r)
  | comparison : Consuming r stmt (fun _ => True) (comparison r)
  | notTest : Consuming r stmt (fun _ => True) (notTest r)
  | orTest : Consuming r stmt (fun _ => True) (orTest r)
  | expr : Consuming r stmt (fun _ => True) (expr r)
  -- statements
  | innerStmt : Consuming r stmt (fun _ => True) stmt
  | block : Consuming r stmt (fun _ => True) (block stmt)
  | suite : Consuming r stmt (fun _ => True) (suite stmt)
  | raising : Consuming r stmt (· = .keyword .kRaise) (raising r)
  | dottedName : Consuming r stmt (fun _ => True) dottedName
  | nameList : Consuming r stmt (fun _ => True) nameList
  | importing : Consuming r stmt (· = .keyword .kImport) importing
  | importedNames (parenthesized : Bool) :
      Consuming r stmt (fun _ => True) (importedNames parenthesized)
  | importingFrom : Consuming r stmt (· = .keyword .kFrom) importingFrom
  | exprOrAssign : Consuming r stmt (fun _ => True) (exprOrAssign r)
  | simple : Consuming r stmt (fun _ => True) (simple r)
  | handler : Consuming r stmt (fun _ => True) (handler r stmt)
  | withItem : Consuming r stmt (fun _ => True) (withItem r)
  | ifStmt : Consuming r stmt (· = .keyword .kIf) (ifStmt r stmt)
  | whileStmt : Consuming r stmt (· = .keyword .kWhile) (whileStmt r stmt)
  | forStmt : Consuming r stmt (· = .keyword .kFor) (forStmt r stmt)
  | funcDef (decorators : List Expr) :
      Consuming r stmt (· = .keyword .kDef) (funcDef r stmt decorators)
  | classDef (decorators : List Expr) :
      Consuming r stmt (· = .keyword .kClass) (classDef r stmt decorators)
  | tryStmt : Consuming r stmt (· = .keyword .kTry) (tryStmt r stmt)
  | withStmt : Consuming r stmt (· = .keyword .kWith) (withStmt r stmt)
  | decorated : Consuming r stmt (· = .punct .«at») (decorated r stmt)
  | statementOver : Consuming r stmt (fun _ => True) (statementOver r stmt)

inductive Lenient (r : Inner) (stmt : Parser Stmt) : {α : Type} → Parser α → Prop
  | after? {α : Type} {t : Token} {p : Parser α} (ht : t ≠ .eof)
      (hp : Consuming r stmt (fun _ => True) p) : Lenient r stmt (after? t p)
  | listUntil {α : Type} {close : Token} {item : Parser α}
      (hitem : Consuming r stmt (fun _ => True) item) : Lenient r stmt (listUntil close item)
  | skipNewlines : Lenient r stmt skipNewlines
  | braced : Lenient r stmt (braced r)
  | callArgs : Lenient r stmt (callArgs r)
  | comparison? : Lenient r stmt comparison?
  | clause (word : Keyword) : Lenient r stmt (clause word stmt)
  | endOfStatement : Lenient r stmt endOfStatement

section

variable (hr : r.Sound unknown n) (h : SoundStmt unknown n stmt)

include hr h

lemma Consuming.progress (hp : Consuming r stmt T p) : Progress r stmt n false T Always p := by
  induction hp with
  | expect ht =>
    have hexpect : Keeps ⟨unknown, r, stmt⟩ n false (fun _ => True) [] (Grammar.expect _ >>= pure)
        Always := .expect ⟨ht, False.elim⟩ (.same rfl rfl)
    rw [bind_pure] at hexpect
    exact .held hexpect
  | identifier => exact .held keeps_identifier
  | separated hmark _ ih =>
    exact .held (.separated (I := fun _ _ => True) ⟨hmark, False.elim⟩ False.elim ih.parses
      fun _ => ih.parses)
  | chain hop _ ih => exact .placed (placesExpr_chain hop False.elim ih.parses)
  | innerExpr => exact .placed hr.expr
  | innerOrTest => exact .placed hr.orTest
  | innerNotTest => exact .placed hr.notTest
  | innerFactor => exact .placed hr.factor
  | exprList => exact .placed (placesExpr_exprList hr)
  | targets => exact .placed (placesExpr_tupleOf (placesExpr_trailed hr) (.peek fun _ => .same rfl rfl))
  | param annotated => exact .placed (places_param hr annotated)
  | lambda => exact .placed (placesExpr_lambda hr)
  | yieldExpr => exact .placed (placesExpr_yieldExpr hr)
  | strings text => exact .placed (parses_strings text)
  | primary => exact .placed (placesExpr_primary hr)
  | trailed => exact .placed (placesExpr_trailed hr)
  | awaited => exact .placed (placesExpr_awaited hr)
  | power => exact .placed (placesExpr_power hr)
  | factor => exact .placed (placesExpr_factor hr)
  | arithmetic => exact .placed (placesExpr_arithmetic hr)
  | comparison => exact .placed (placesExpr_comparison hr)
  | notTest => exact .placed (placesExpr_notTest hr)
  | orTest => exact .placed (placesExpr_orTest hr)
  | expr => exact .placed (placesExpr_expr hr)
  | innerStmt => exact .placed (places_stmt h)
  | block => exact .held (parses_block h)
  | suite => exact .held (parses_suite h)
  | raising => exact .placed (drafts_raising hr)
  | dottedName | nameList => exact .held (keeps_names rfl)
  | importing => exact .placed drafts_importing
  | importedNames parenthesized => exact .held (keeps_importedNames parenthesized)
  | importingFrom => exact .placed drafts_importingFrom
  | exprOrAssign => exact .placed (drafts_exprOrAssign hr)
  | simple => exact .placed (drafts_simple hr)
  | handler => exact .held (parses_handler hr h)
  | withItem => exact .held (adds_withItem hr)
  | ifStmt => exact .placed (drafts_ifStmt hr h)
  | whileStmt => exact .placed (drafts_whileStmt hr h)
  | forStmt => exact .placed (drafts_forStmt hr h)
  | funcDef decorators =>
    exact Parses.progress (A := unknown.Before 0 ⟨0, 0⟩ _) (drafts_funcDef hr h decorators)
  | classDef decorators =>
    exact Parses.progress (A := unknown.Before 0 ⟨0, 0⟩ _) (drafts_classDef hr h decorators)
  | tryStmt => exact .placed (drafts_tryStmt hr h)
  | withStmt => exact .placed (drafts_withStmt hr h)
  | decorated => exact .placed (drafts_decorated hr h)
  | statementOver => exact .placed (places_statementOver hr h)

lemma Lenient.progress (hp : Lenient r stmt p) :
    Progress r stmt n false (fun _ => True) Never p := by
  cases hp with
  | after? ht hp =>
    exact .held
      (.after? (Q := fun _ _ => True) ⟨ht, False.elim⟩ (hp.progress hr h).parses False.elim)
  | listUntil hitem =>
    exact .held (.listUntil (g := fun _ => .expr (.noneLit ⟨0, 0⟩)) (hitem.progress hr h).parses)
  | skipNewlines => exact .held keeps_skipNewlines
  | braced => exact Parses.progress (A := unknown.Held 0 ⟨0, 0⟩ []) (drafts_braced hr)
  | callArgs => exact .held (adds_callArgs hr)
  | comparison? => exact .held (keeps_comparison?.weaken (fun _ => False.elim) fun _ _ _ => id)
  | clause word => exact .held (adds_clause h)
  | endOfStatement => exact .held keeps_endOfStatement

end

/-! ### The grammar that reads sources -/

lemma Progress.exists_taken {s s' : State} {a : α}
    (hp : Progress r stmt n fresh T M p) (hT : T (next s.rest)) (hrun : p s = .ok (a, s')) :
    ∃ taken, Took s s' taken ∧ (M a → taken ≠ []) := by
  have hadvanced := hp.advances s hT
  rwa [hrun] at hadvanced

lemma progress_of_consuming {depth : Nat}
    (hp : Consuming (inner n) (statement (inner n) depth) T p) :
    Progress (inner n) (statement (inner n) depth) (min n depth) false T Always p :=
  hp.progress ((sound_inner n).mono (Nat.min_le_left ..))
    (soundStmt_statement (sound_inner n) depth)

lemma progress_of_lenient {depth : Nat} (hp : Lenient (inner n) (statement (inner n) depth) p) :
    Progress (inner n) (statement (inner n) depth) (min n depth) false (fun _ => True) Never p :=
  hp.progress ((sound_inner n).mono (Nat.min_le_left ..))
    (soundStmt_statement (sound_inner n) depth)

lemma progress_file (n depth : Nat) :
    Progress (inner n) (statement (inner n) depth) (min n depth) false (fun _ => True) Never
      (sourceFile (inner n) depth) :=
  .held (adds_sourceFile (sound_inner n) depth)

/-- Unrolled once more, the grammar of expressions is good for one token more. -/
lemma advances_unrolled (hr : r.Advances n) :
    Inner.Advances (n + 1) ⟨expr r, orTest r, notTest r, factor r⟩ :=
  Inner.advances_iff_sound.mpr
    (sound_unrolled (E := ⟨unknown, r, statement r 0⟩) (Inner.advances_iff_sound.mp hr))

lemma progress_statementOver (hr : r.Advances (n + fresh.toNat))
    (h : Advances n (fun _ => True) Always stmt) :
    Progress r stmt n fresh T Always (statementOver r stmt) :=
  .placed (places_statementOver (E := ⟨unknown, r, stmt⟩) (Inner.advances_iff_sound.mp hr)
    (advances_iff_good.mp h))

/-- The grammar is unrolled more often than there are tokens. -/
lemma parseLexemes_ne_stalled {ls : List Lexeme} {e : ParseError} (h : parseLexemes ls = .error e) :
    e.fault ≠ .stalled := by
  have hrun := (progress_file (ls.length + 1) (ls.length + 1)).advances ⟨ls, ⟨0, 0⟩⟩ trivial
  rw [parseLexemes_eq] at h
  cases hout : sourceFile (inner (ls.length + 1)) (ls.length + 1) ⟨ls, ⟨0, 0⟩⟩ with
  | ok out =>
    rw [hout] at h
    cases h
  | error e' =>
    rw [hout] at h hrun
    cases h
    intro he
    have hle : min (ls.length + 1) (ls.length + 1) ≤ ls.length := hrun he
    rw [Nat.min_self] at hle
    exact Nat.not_succ_le_self ls.length hle

lemma exists_near {source : String} {l : Lexeme} {ls : List Lexeme}
    (h : l :: ls <:+ Layout.lexemes source) :
    ∃ N, State.Near ⟨True, N, source⟩ ⟨l :: ls, ⟨0, 0⟩⟩ := by
  have hstart (N : Nat) (ls : List Lexeme) (hls : ∀ l ∈ ls, l.span.start ≤ N) : StartBy N ls := by
    induction ls with
    | nil => trivial
    | cons l ls ih =>
      obtain ⟨hl, hls⟩ := List.forall_mem_cons.mp hls
      exact ⟨hl, fun _ => ih hls⟩
  refine ⟨((l :: ls).map (·.span.start)).sum, Nat.zero_le _, hstart _ _ fun m hm => ?_,
    (Layout.opens_lexemes source).suffix h, boundary_zero, (Layout.spaced_lexemes source).suffix h⟩
  exact List.le_sum_of_mem (List.mem_map_of_mem hm (f := (·.span.start)))

/-- Wherever a clause is written, it is read with its block. -/
lemma ne_nil_of_clause {source : String} {depth : Nat} {word : Keyword} {s s' : State}
    {b : List Stmt} (hrest : s.rest <:+ Layout.lexemes source) (hnext : next s.rest = .keyword word)
    (hrun : clause word (statement (inner n) depth) s = .ok (b, s')) : b ≠ [] := by
  obtain ⟨rest, last⟩ := s
  cases rest with
  | nil => cases hnext
  | cons l rest =>
    -- what was taken before the clause does not matter
    have heat (last : Span) :
        eat (.keyword word) ⟨l :: rest, last⟩ = .ok (true, ⟨rest, l.span⟩) := by
      rw [eat, bind_of_ok (peek_eq_ok _), if_pos hnext]
      rfl
    obtain ⟨N, hnear⟩ := exists_near hrest
    have hout := runs_clause (E := ⟨⟨True, N, source⟩, inner n, statement (inner n) depth⟩)
      (σ := []) (soundStmt_statement (sound_inner n) depth) _ (fun _ => hnear) (fun _ => held_start) hnext
    rw [clause, bind_of_ok (heat _)] at hrun hout
    rw [hrun] at hout
    obtain ⟨-, -, -, hne⟩ := hout
    exact hne trivial

/-- What progress means for the grammar, however often it is unrolled. -/
structure MakesProgress : Prop where
  /-- Parsing a source ends in a tree or in an error of the source. -/
  ends : ∀ source, (∃ m, parse source = .ok m) ∨
    ∃ e, parse source = .error e ∧ e.fault ≠ .stalled
  /-- A parser that succeeds has taken a token, and never the end of the stream. -/
  takes : ∀ (n depth : Nat) (T : Token → Prop) (α : Type) (p : Parser α),
    Consuming (inner n) (statement (inner n) depth) T p → ∀ s a s', T (next s.rest) →
      p s = .ok (a, s') → ∃ taken, Took s s' taken ∧ taken ≠ []
  /-- One that may take nothing does not take the end of the stream either. -/
  spares : ∀ (n depth : Nat) (α : Type) (p : Parser α),
    Lenient (inner n) (statement (inner n) depth) p → ∀ s a s', p s = .ok (a, s') →
      ∃ taken, Took s s' taken
  /-- A source is read as far as the end of the stream, which stays where it is. -/
  file : ∀ n depth s m s', sourceFile (inner n) depth s = .ok (m, s') →
    next s'.rest = .eof ∧ ∃ taken, Took s s' taken
  /-- A round of a loop that asks for another has taken a token. -/
  loops : ∀ n depth, Productive (inner n) (statement (inner n) depth) (sourceFile (inner n) depth) ∧
    (∀ (T : Token → Prop) (α : Type) (p : Parser α),
      Consuming (inner n) (statement (inner n) depth) T p →
        Productive (inner n) (statement (inner n) depth) p) ∧
    ∀ (α : Type) (p : Parser α), Lenient (inner n) (statement (inner n) depth) p →
      Productive (inner n) (statement (inner n) depth) p
  /-- What an expression is read with gets a shorter stream: if it is good for streams of fewer
  than `n` tokens, the expression is read from those of up to `n`. -/
  expressions : ∀ n (r : Inner), r.Advances n →
    Inner.Advances (n + 1) ⟨expr r, orTest r, notTest r, factor r⟩
  /-- So does what the statements of a block are read with. -/
  statements : ∀ n (r : Inner) (stmt : Parser Stmt), r.Advances (n + 1) →
    Advances n (fun _ => True) Always stmt →
      Advances (n + 1) (fun _ => True) Always (statementOver r stmt)
  /-- No block of a parsed source is empty unless it is a clause that is left out. -/
  bodies : ∀ source m, parse source = .ok m → ∀ s, .stmt s ∈ m.nodes → [] ∉ s.bodies
  /-- A clause that is written is not empty. -/
  clauses : ∀ source n depth word s b s', s.rest <:+ Layout.lexemes source →
    next s.rest = .keyword word → clause word (statement (inner n) depth) s = .ok (b, s') → b ≠ []

/-- **The parser makes progress and ends.** Every source is parsed to a tree or to an error of its
own: each parser that succeeds has taken a token unless it may match nothing, none takes the end of
the stream, each round of a loop takes a token, and what is called again finds a shorter stream. The
blocks of the tree are not empty. -/
theorem parse_makesProgress : MakesProgress where
  ends source := by
    cases h : parse source with
    | ok m => exact .inl ⟨m, rfl⟩
    | error e => exact .inr ⟨e, rfl, parseLexemes_ne_stalled h⟩
  takes n depth T α p hp s a s' hT hrun := by
    obtain ⟨taken, htaken, hne⟩ := (progress_of_consuming hp).exists_taken hT hrun
    exact ⟨taken, htaken, hne trivial⟩
  spares n depth α p hp s a s' hrun := by
    obtain ⟨taken, htaken, -⟩ := (progress_of_lenient hp).exists_taken trivial hrun
    exact ⟨taken, htaken⟩
  file n depth s m s' hrun := by
    obtain ⟨taken, htaken, -⟩ := (progress_file n depth).exists_taken trivial hrun
    exact ⟨next_sourceFile hrun, taken, htaken⟩
  loops n depth := ⟨(progress_file n depth).productive,
    fun T α p hp => (progress_of_consuming hp).productive,
    fun α p hp => (progress_of_lenient hp).productive⟩
  expressions n r hr := advances_unrolled hr
  statements n r stmt hr h := by
    have hover : Progress r stmt n true (fun _ => True) Always (statementOver r stmt) :=
      progress_statementOver hr h
    exact hover.advances
  bodies source m h s hs := by
    obtain ⟨top, htop, hs⟩ := List.mem_flatMap.mp hs
    obtain ⟨stop, hlaid⟩ := laid_of_parse h
    exact fun hnil => (hlaid.wellPlaced top htop _ hs).filled [] hnil rfl
  clauses source n depth word s b s' hrest hnext hrun :=
    ne_nil_of_clause hrest hnext hrun

end AnnotatedWasm.Grammar
