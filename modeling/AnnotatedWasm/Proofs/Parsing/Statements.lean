import AnnotatedWasm.Proofs.Parsing.Expressions

/-!
The grammar of statements and of whole sources takes tokens, keeps the brackets and places its
nodes, and the bodies that it reads are not empty.

A statement starts with the lexeme that the parser stands at, which for a definition may belong to
a decorator. What ends its line is taken after its span is closed, and the marks that end a block
stand where the newline before them does, so no statement reaches into the next.
-/

namespace AnnotatedWasm.Grammar

open Syntax

variable {K : Knowledge} {E : Setting} {n : Nat} {fresh : Bool} {T : Token → Prop}
  {σ : List Punct} {lo : Nat} {start : Span} {ns : List Node}

def SoundStmt (K : Knowledge) (n : Nat) (stmt : Parser Stmt) : Prop :=
  Good K n stmt fun s => [.stmt s]

/-- A parser that reads all of a statement but its span. -/
abbrev DraftsStmt (E : Setting) (n : Nat) (fresh : Bool) (T : Token → Prop) (σ : List Punct)
    (p : Parser (Span → Stmt)) : Prop :=
  ∀ {lo start}, Parses E n fresh T σ (E.At lo start) p σ Always
    fun node => E.Drafts lo start fun span => .stmt (node span)

lemma Parses.draft_of {node : Span → Stmt}
    (hnode : E.known → Builds (fun span => .stmt (node span)) ns) :
    Parses E n fresh T σ (E.Held lo start ns) (Pure.pure node) σ Never
      fun node => E.Drafts lo start fun span => .stmt (node span) :=
  .pure not_false fun hknown _ hs => ⟨ns, hnode hknown, hs⟩

lemma Parses.draft_stmt {node : Span → Stmt} (hnode : Plain (fun span => .stmt (node span)) ns) :
    Parses E n fresh T σ (E.Held lo start ns) (Pure.pure node) σ Never
      fun node => E.Drafts lo start fun span => .stmt (node span) :=
  .draft_of fun _ => hnode.builds

/-! ### Blocks -/

section Blocks

variable (h : SoundStmt E.toKnowledge n E.stmt)

include h

lemma places_stmt : Places E n false T σ E.stmt fun s => [.stmt s] :=
  .anywhere ⟨h σ _ _, fun _ => .stmt⟩

/-- One more statement of a block, with the newlines behind it. -/
lemma parses_line (body : List Stmt) :
    Parses E n false T σ (E.Held lo start (ns ++ stmtNodes body)) (do
      let s ← E.stmt
      skipNewlines
      return Step.again (body ++ [s])) σ Always
      fun step s => step.value ≠ [] ∧ E.Held lo start (ns ++ stmtNodes step.value) s := by
  refine .take (.adds (places_stmt h)) fun s => keeps_skipNewlines.bind fun _ =>
    .pure not_false fun _ _ hs => ?_
  exact ⟨List.concat_ne_nil s body, by simpa [Step.value, stmtNodes] using hs⟩

/-- Where the lines of a block start, the first round reads a statement. -/
lemma parses_block : Parses E n false T σ (E.Held lo start ns) (block E.stmt) σ Always
    fun body s => body ≠ [] ∧ E.Held lo start (ns ++ stmtNodes body) s := by
  refine .peek fun t => ?_
  split
  · exact .take (.adds (places_stmt h)) fun s => .pure not_false fun _ _ hs => ⟨List.cons_ne_nil s [], hs⟩
  next hnewline =>
  obtain rfl : t = .newline := not_not.mp hnewline
  refine .advance (.plain rfl) (.peek fun t => .require (.advance_indent (.skip_starts ?_)))
  refine .bind (.loop_from (P := fun body s => body ≠ [] ∧ E.Held lo start (ns ++ stmtNodes body) s)
    (L := Asks) (fun body => .pull fun hbody => .peek fun t => ?_) (fun _ => trivial)
    (fun _ => False.elim) (Parses.peek_starts fun t ht => ?_).runs)
    fun body => .pull fun hbody => .eat (.plain rfl) ?_ ?_
  · split
    · exact .pure not_false fun hknown _ hs => ⟨hbody hknown, hs⟩
    · exact .pure not_false fun hknown _ hs => ⟨hbody hknown, hs⟩
    · exact (parses_line h body).weaken (fun _ _ => trivial) fun _ _ _ => id
  · split
    · exact .pure not_false fun hknown => by simp [Token.Starts] at ht; exact absurd hknown ht
    · exact .pure not_false fun hknown => by simp [Token.Starts] at ht; exact absurd hknown ht
    · refine ((parses_line h []).weaken (fun _ _ => trivial) fun _ _ _ => id).of_imp
        fun _ _ _ _ hs => ?_
      simpa [stmtNodes] using hs
  · exact .pure not_false fun hknown _ hs => ⟨hbody hknown, hs⟩
  · exact .pure not_false fun hknown _ hs => ⟨hbody hknown, hs⟩

lemma parses_suite : Parses E n fresh T σ (E.Held lo start ns) (suite E.stmt) σ Always
    fun body s => body ≠ [] ∧ E.Held lo start (ns ++ stmtNodes body) s :=
  .expect (.plain rfl) ((parses_block h).weaken (fun _ => False.elim) fun _ _ _ => id)

/-- A clause that is written is not empty. -/
lemma runs_clause {word : Keyword} :
    Runs E.toKnowledge (n + false.toNat) (· = .keyword word) σ (E.Held lo start ns)
      (clause word E.stmt) σ Always fun body _ => body ≠ [] :=
  Parses.runs_eat
    (.advance (.plain rfl) ((parses_suite h).weaken (fun _ => False.elim) fun _ _ _ => And.left))

lemma adds_clause {word : Keyword} : Adds E n fresh T σ (clause word E.stmt) Never stmtNodes :=
  .eat (.plain rfl) ((parses_suite h).weaken (fun _ => False.elim) fun _ _ _ => And.right)
    (.pure not_false fun _ _ hs => by simpa [stmtNodes] using hs)

end Blocks

lemma keeps_atLineEnd : Keeps E n fresh T σ atLineEnd Never := by
  refine .peek fun t => ?_
  split <;> exact .same rfl rfl

lemma keeps_endOfStatement : Keeps E n fresh T σ endOfStatement Never := by
  refine .peek fun t => ?_
  split
  · rw [← bind_pure advance]
    exact .advance (.plain rfl) (.same rfl rfl)
  · exact .same rfl rfl
  · exact .same rfl rfl
  · exact .unexpected

/-! ### Simple statements -/

lemma parses_names {mark : Token} (hmark : (mark.isPlain && mark ≠ .eof) = true) :
    Parses E n fresh T σ (E.Held lo start ns) (separated mark identifier) σ Always
      fun ids s => (∀ id ∈ ids, isWord id = true) ∧ E.Held lo start ns s := by
  refine .separated (.plain hmark) (fun _ _ _ hs hheld => ⟨hheld.1, hheld.2.before hs⟩)
    (finds_identifier.weaken (fun _ => id) fun _ _ _ hs =>
      ⟨List.forall_mem_singleton.mpr hs.1, hs.2⟩)
    fun ids => .pull fun hids => finds_identifier.weaken (fun _ => id) fun hknown _ _ hs => ?_
  exact ⟨List.forall_mem_append.mpr ⟨hids hknown, List.forall_mem_singleton.mpr hs.1⟩, hs.2⟩

lemma keeps_names {mark : Token} (hmark : (mark.isPlain && mark ≠ .eof) = true) :
    Keeps E n fresh T σ (separated mark identifier) Always :=
  (parses_names hmark).weaken (fun _ => id) fun _ _ _ => And.right

lemma keeps_asName : Keeps E n fresh T σ (after? (.keyword .kAs) identifier) Never :=
  .after? (.plain rfl) keeps_identifier fun _ _ hs => hs

lemma drafts_importing : DraftsStmt E n fresh (· = .keyword .kImport) σ importing :=
  .first rfl (.plain rfl) ((keeps_names rfl).bind fun _ => keeps_asName.bind fun _ => .draft_stmt rfl)

/-- Each round takes a name, the last one too. -/
lemma keeps_importedNames (parenthesized : Bool) :
    Keeps E n fresh T σ (importedNames parenthesized) Always := by
  intro lo start ns
  have hround {T : Token → Prop} (names : List (String × Option String)) :
      Keeps E n fresh T σ (do
        let name ← identifier
        let asName ← after? (.keyword .kAs) identifier
        let names := names ++ [(name, asName)]
        if ← eat (.punct .comma) then
          if parenthesized && (← peek) = .punct .rParen then
            return .done names
          return .again names
        else
          return Step.done names) Always := by
    refine keeps_identifier.take fun name => keeps_asName.bind fun asName => ?_
    refine .eat (.plain rfl) (.peek fun t => ?_) (.same rfl rfl)
    split <;> exact .same rfl rfl
  refine .loop_from (fun names => ?_) (fun _ => trivial) (fun _ => id) (hround []).runs
  exact (hround names).weaken (fun _ _ => trivial) fun _ _ _ => id

lemma drafts_importingFrom : DraftsStmt E n fresh (· = .keyword .kFrom) σ importingFrom := by
  refine .first rfl (.plain rfl) ((keeps_names rfl).bind fun path => .expect (.plain rfl) ?_)
  refine .eat (.opens rfl) ?_ ?_
  · exact (keeps_importedNames true).bind fun _ => .expect (.closes rfl) (.draft_stmt rfl)
  · exact (keeps_importedNames false).bind fun _ => .draft_stmt rfl

section

variable (hr : E.parts.Sound E.toKnowledge n)

include hr

lemma drafts_raising : DraftsStmt E n fresh (· = .keyword .kRaise) σ (raising E.parts) := by
  refine .first rfl (.plain rfl) (keeps_atLineEnd.bind fun ends => ?_)
  cases ends with
  | true => exact .draft_stmt rfl
  | false =>
    refine .bind (.adds hr.expr) fun exception => ?_
    exact (adds_after? (.plain rfl) hr.expr).bind fun cause => .draft_stmt rfl

lemma drafts_exprOrAssign : DraftsStmt E n false T σ (exprOrAssign E.parts) := by
  intro lo start
  have hlist {T : Token → Prop} : PlacesExpr E n false T σ (exprList E.parts) :=
    placesExpr_exprList hr
  refine hlist.take fun target => .peek fun t => ?_
  cases ht : augmented? t with
  | some op =>
    refine .advance (shifts_of_some rfl (fun _ => by decide) ht) ?_
    exact .bind (.adds hlist) fun value => .draft_stmt rfl
  | none =>
    refine .eat (.plain rfl) ?_ (.eat (.plain rfl) ?_ (.draft_stmt rfl))
    · refine .bind (.adds hr.expr) fun annot => ?_
      exact (adds_after? (.plain rfl) hlist).bind fun value => .draft_stmt rfl
    · refine .bind (.adds hlist) fun value => .bind (.loop (P := fun parts : List Expr × Expr =>
        E.Held lo start (exprNodes parts.1 ++ [.expr parts.2]))
        rfl fun parts => .eat (.plain rfl) ?_ (.same rfl rfl))
        fun parts => by exact .draft_stmt rfl
      refine .bind (.adds hlist) fun next => .pure not_false fun _ _ hs => ?_
      rwa [Step.value, exprNodes_concat]

lemma drafts_simple : DraftsStmt E n false T σ (simple E.parts) := by
  refine .peek fun t => ?_
  split
  case h_4 =>
    refine .first rfl (.plain rfl) (keeps_atLineEnd.bind fun ends => ?_)
    cases ends with
    | true => exact .draft_stmt rfl
    | false => exact .bind (.adds (placesExpr_exprList hr)) fun value => .draft_stmt rfl
  case h_5 =>
    exact .first rfl (.plain rfl) (.bind (.adds (placesExpr_exprList hr)) fun target => .draft_stmt rfl)
  case h_6 =>
    refine .first rfl (.plain rfl) (.bind (.adds hr.expr) fun test => ?_)
    exact (adds_after? (.plain rfl) hr.expr).bind fun message => .draft_stmt rfl
  case h_7 => exact drafts_raising hr
  case h_8 =>
    refine .first rfl (.plain rfl) ((parses_names rfl).bind fun ids => .pull fun hids => ?_)
    exact .draft_of fun hknown _ => ⟨rfl, rfl, rfl, hids hknown, nofun⟩
  case h_9 => exact .first rfl (.plain rfl) ((keeps_names rfl).bind fun ids => .draft_stmt rfl)
  case h_10 => exact drafts_importing
  case h_11 => exact drafts_importingFrom
  case h_12 => exact drafts_exprOrAssign hr
  all_goals exact .first rfl (.plain rfl) (.draft_stmt rfl)

/-- The targets of a `with` statement. -/
lemma adds_withItem : Adds E n false T σ (withItem E.parts) Always
    fun i => .expr i.1 :: optNodes i.2 := by
  refine .take (.adds hr.expr) fun context => ?_
  refine (adds_after? (.plain rfl) (placesExpr_trailed hr)).bind fun target =>
    .pure not_false fun _ _ hs => ?_
  rwa [List.append_assoc] at hs

/-! ### Compound statements -/

variable (h : SoundStmt E.toKnowledge n E.stmt)

include h

lemma drafts_ifStmt :
    DraftsStmt E n fresh (· = .keyword .kIf) σ (ifStmt E.parts E.stmt) := by
  refine .first rfl (.plain rfl) (.bind (.adds hr.expr) fun test => ?_)
  refine (parses_suite h).bind fun body => .pull fun hbody => .bind (.loop_of
    (P := fun (elifs : List Branch) s => (∀ b ∈ elifs, b.body ≠ []) ∧
      E.Held _ _ (.expr test :: stmtNodes body ++ elifs.flatMap Branch.children) s)
    (fun elifs => .pull fun helifs => .eat (.plain rfl) ?_
      (.pure not_false fun hknown _ hs => ⟨helifs hknown, hs⟩)) fun _ _ hs => ⟨by simp, by simpa using hs⟩)
    fun elifs => .pull fun helifs => (adds_clause h).bind fun orelse =>
      .draft_of fun hknown _ => ?_
  · refine .bind (.adds hr.expr) fun test => (parses_suite h).bind fun body =>
      .pure not_false fun hknown _ hs => ?_
    refine ⟨List.forall_mem_append.mpr ⟨helifs hknown, List.forall_mem_singleton.mpr hs.1⟩, ?_⟩
    simpa [Step.value, Branch.children] using hs.2
  · exact ⟨rfl, by simp [Node.children, Stmt.children], rfl, List.forall_mem_nil _,
      List.forall_mem_cons.mpr ⟨hbody hknown, List.forall_mem_map.mpr (helifs hknown)⟩⟩

lemma drafts_whileStmt :
    DraftsStmt E n fresh (· = .keyword .kWhile) σ (whileStmt E.parts E.stmt) := by
  refine .first rfl (.plain rfl) (.bind (.adds hr.expr) fun test => ?_)
  refine (parses_suite h).bind fun body => .pull fun hbody => (adds_clause h).bind fun orelse => ?_
  exact .draft_of fun hknown _ =>
    ⟨rfl, rfl, rfl, nofun, List.forall_mem_singleton.mpr (hbody hknown)⟩

lemma drafts_forStmt :
    DraftsStmt E n fresh (· = .keyword .kFor) σ (forStmt E.parts E.stmt) := by
  intro lo start
  have hword : Keeps E n false (fun _ => True) σ (atWord "in") Never := .peek fun _ => .same rfl rfl
  refine .first rfl (.plain rfl)
    (.bind (.adds (placesExpr_tupleOf (placesExpr_trailed hr) hword)) fun target => ?_)
  have hrest : Parses E n false (fun _ => True) σ (E.Held lo start [.expr target]) (do
        let iter ← exprList E.parts
        let body ← suite E.stmt
        let orelse ← clause .kElse E.stmt
        return fun span => Stmt.forLoop span target iter body orelse) σ Never
      fun node => E.Drafts lo start fun span => .stmt (node span) := by
    refine .bind (.adds (placesExpr_exprList hr)) fun iter => (parses_suite h).bind fun body => ?_
    refine .pull fun hbody => (adds_clause h).bind fun orelse => .draft_of fun hknown _ => ?_
    exact ⟨rfl, rfl, rfl, nofun, List.forall_mem_singleton.mpr (hbody hknown)⟩
  exact .eat (.plain rfl) hrest (.unexpected_bind fun hE _ => hrest.productive hE)

/-- Decorators may have been read before. -/
lemma drafts_funcDef (decorators : List Expr) : Parses E n fresh (· = .keyword .kDef) σ
    (E.Before lo start (exprNodes decorators)) (funcDef E.parts E.stmt decorators) σ Always
    fun node => E.Drafts lo start fun span => .stmt (node span) := by
  refine .step (.plain rfl) (finds_identifier.bind fun name => .pull fun hname => ?_)
  refine .expect (.opens rfl) ((adds_params hr true).bind fun params => .expect (.closes rfl) ?_)
  refine (adds_after? (.plain rfl) hr.expr).bind fun returns => (parses_suite h).bind fun body => ?_
  refine .pull fun hbody => .draft_of fun hknown _ => ⟨rfl, ?_, rfl,
    List.forall_mem_singleton.mpr (hname hknown), List.forall_mem_singleton.mpr (hbody hknown)⟩
  simp [Node.children, Stmt.children]

lemma drafts_classDef (decorators : List Expr) : Parses E n fresh (· = .keyword .kClass) σ
    (E.Before lo start (exprNodes decorators)) (classDef E.parts E.stmt decorators) σ Always
    fun node => E.Drafts lo start fun span => .stmt (node span) := by
  have hrest (name : String) (bases : List Expr) : Parses E n false (fun _ => True) σ
      (E.Held lo start (exprNodes decorators ++ exprNodes bases)) (do
        let body ← suite E.stmt
        return fun span => Stmt.classDef span { name, bases, decorators } body) σ Never
      fun node => E.Drafts lo start fun span => .stmt (node span) := by
    refine (parses_suite h).bind fun body => .pull fun hbody => .draft_of fun hknown _ => ?_
    exact ⟨rfl, by simp [Node.children, Stmt.children], rfl, List.forall_mem_nil _,
      List.forall_mem_singleton.mpr (hbody hknown)⟩
  refine .step (.plain rfl) (keeps_identifier.bind fun name => .eat (.opens rfl) ?_ ?_)
  · exact (adds_exprs hr).bind fun bases => .expect (.closes rfl) (hrest name bases)
  · exact (hrest name []).of_imp fun _ _ _ _ hs => by simpa [exprNodes] using hs

lemma parses_handler : Parses E n false T σ (E.Held lo start ns) (handler E.parts E.stmt) σ Always
    fun b s => b.body ≠ [] ∧ E.Held lo start (ns ++ b.children) s := by
  refine .peek fun t => ?_
  split
  · exact (parses_suite h).take fun body => .same rfl rfl
  · refine .take (.adds hr.expr) fun exception => keeps_asName.bind fun name => ?_
    refine (parses_suite h).bind fun body => .pure not_false fun _ _ hs => hs.imp_right fun hs => ?_
    simpa [Handler.children, optNodes, exprNodes] using hs

lemma drafts_tryStmt :
    DraftsStmt E n fresh (· = .keyword .kTry) σ (tryStmt E.parts E.stmt) := by
  refine .first rfl (.plain rfl) ((parses_suite h).bind fun body => .pull fun hbody => ?_)
  refine .bind (.loop_of (P := fun (handlers : List Handler) s => (∀ b ∈ handlers, b.body ≠ []) ∧
      E.Held _ _ (stmtNodes body ++ handlers.flatMap Handler.children) s)
    (fun handlers => .pull fun hhandlers => .eat (.plain rfl) ?_
      (.pure not_false fun hknown _ hs => ⟨hhandlers hknown, hs⟩)) fun _ _ hs => ⟨by simp, by simpa using hs⟩)
    fun handlers => .pull fun hhandlers => (adds_clause h).bind fun orelse =>
      (adds_clause h).bind fun finale => ?_
  · refine (parses_handler hr h).bind fun b => .pure not_false fun hknown _ hs => ?_
    refine ⟨List.forall_mem_append.mpr ⟨hhandlers hknown, List.forall_mem_singleton.mpr hs.1⟩, ?_⟩
    simpa [Step.value] using hs.2
  · split
    · exact .unexpected_bind fun hE _ => .pure _
    · exact .draft_of fun hknown _ => ⟨rfl, by simp [Node.children, Stmt.children], rfl, List.forall_mem_nil _,
        List.forall_mem_cons.mpr ⟨hbody hknown, List.forall_mem_map.mpr (hhandlers hknown)⟩⟩

lemma drafts_withStmt :
    DraftsStmt E n fresh (· = .keyword .kWith) σ (withStmt E.parts E.stmt) := by
  refine .first rfl (.plain rfl) (.bind (.separated (I := fun items : List (Expr × Option Expr) =>
      E.Held _ _ (items.flatMap fun i => .expr i.1 :: optNodes i.2)) (.plain rfl)
    (fun _ _ _ hs hheld => hheld.before hs)
    ((adds_withItem hr).weaken (fun _ => id) fun _ _ _ hs => by simpa using hs) fun items =>
      (adds_withItem hr).weaken (fun _ => id) fun _ _ _ hs => by simpa using hs) fun items => ?_)
  refine (parses_suite h).bind fun body => .pull fun hbody => .draft_of fun hknown _ => ?_
  exact ⟨rfl, rfl, rfl, nofun, List.forall_mem_singleton.mpr (hbody hknown)⟩

/-- The first decorator starts the statement, and the first round takes it. -/
lemma drafts_decorated :
    DraftsStmt E n fresh (· = .punct .«at») σ (decorated E.parts E.stmt) := by
  intro lo start
  have hdecorator (decorators : List Expr) : Parses E n false (fun _ => True) σ
      (E.Held lo start (exprNodes decorators)) (do
        let decorator ← E.parts.expr
        expect .newline
        skipNewlines
        return Step.again (decorators ++ [decorator])) σ Never
      fun step => E.Held lo start (exprNodes step.value) := by
    refine .bind (.adds hr.expr) fun decorator => .expect (.plain rfl) ?_
    refine keeps_skipNewlines.bind fun _ => .pure not_false fun _ _ hs => ?_
    rwa [Step.value, exprNodes_concat]
  refine .take (.loop_from (P := fun decorators => E.Held lo start (exprNodes decorators))
    (L := Always) (fun decorators => .eat (.plain rfl) (hdecorator decorators) (.same rfl rfl)) (fun _ => trivial)
    (fun _ => id) (Parses.runs_eat (.first rfl (.plain rfl) (hdecorator [])))) fun decorators =>
      .peek fun t => ?_
  split
  · exact ((drafts_funcDef hr h _).goes).weaken (fun _ => False.elim) fun _ _ _ => id
  · exact ((drafts_classDef hr h _).goes).weaken (fun _ => False.elim) fun _ _ _ => id
  · exact .unexpected

lemma drafts_compound? {t : Token} {p : Parser (Span → Stmt)}
    (hp : compound? E.parts E.stmt t = some p) : DraftsStmt E n fresh (· = t) σ p := by
  unfold compound? at hp
  split at hp
  case h_9 => cases hp
  all_goals obtain rfl := Option.some.inj hp
  case h_1 => exact drafts_ifStmt hr h
  case h_2 => exact drafts_whileStmt hr h
  case h_3 => exact drafts_forStmt hr h
  case h_4 => exact (drafts_funcDef hr h []).begins rfl
  case h_5 => exact (drafts_classDef hr h []).begins rfl
  case h_6 => exact drafts_tryStmt hr h
  case h_7 => exact drafts_withStmt hr h
  case h_8 => exact drafts_decorated hr h

end

/-! ### Sources -/

/-- The rest of a statement needs the grammar unrolled once less than its start. -/
lemma places_statementOver (hr : E.parts.Sound E.toKnowledge (n + fresh.toNat))
    (h : SoundStmt E.toKnowledge n E.stmt) :
    Places E n fresh T σ (statementOver E.parts E.stmt) fun s => [.stmt s] := by
  intro lo start
  have hrest : E.parts.Sound E.toKnowledge n := hr.mono (Nat.le_add_right n fresh.toNat)
  refine .peekSpan fun start => .peek fun t => ?_
  cases hp : compound? E.parts E.stmt t with
  | some p =>
    refine (drafts_compound? hrest h hp).take fun node => .drafts fun ns hnode => ?_
    exact .spanFrom hnode fun _ => .same rfl rfl
  | none =>
    have hsimple : DraftsStmt E n fresh (· = t) σ (simple E.parts) := (drafts_simple hr).earlier
    refine hsimple.take fun node => .drafts fun ns hnode => ?_
    -- what ends the line is no part of the statement
    exact .spanFrom hnode fun _ => keeps_endOfStatement.bind fun _ => .same rfl rfl

/-- Statements stall where either they or the expressions in them are unrolled too seldom. -/
lemma soundStmt_statement {r : Inner} (hr : r.Sound K n) :
    ∀ depth, SoundStmt K (min n depth) (statement r depth)
  | 0 => by
    rw [Nat.min_zero]
    exact good_stalled
  | depth + 1 => fun σ lo start => by
    have hinside := soundStmt_statement hr depth
    rcases Nat.lt_or_ge depth n with hlt | hge
    · rw [Nat.min_eq_right hlt]
      rw [Nat.min_eq_right hlt.le] at hinside
      have hover : Places ⟨K, r, statement r depth⟩ depth true (fun _ => True) σ
          (statementOver r (statement r depth)) fun s => [.stmt s] :=
        places_statementOver (hr.mono hlt) hinside
      exact hover.runs
    · rw [Nat.min_eq_left (Nat.le_succ_of_le hge)]
      rw [Nat.min_eq_left hge] at hinside
      have hover : Places ⟨K, r, statement r depth⟩ n false (fun _ => True) σ
          (statementOver r (statement r depth)) fun s => [.stmt s] :=
        places_statementOver hr hinside
      exact hover.runs

lemma adds_sourceFile {r : Inner} (hr : r.Sound K n) (depth : Nat) :
    Adds ⟨K, r, statement r depth⟩ (min n depth) false T σ (sourceFile r depth) Never
      fun m => stmtNodes m.body := by
  refine keeps_skipNewlines.bind fun _ => .bind (.loop_of (P := fun body => Knowledge.Held K _ _
    (_ ++ stmtNodes body)) (fun body => .peek fun t => ?_)
    fun _ _ hs => by simpa [stmtNodes] using hs) fun body => .same rfl rfl
  split
  · exact .same rfl rfl
  · have hstmt := soundStmt_statement hr depth
    exact (parses_line (E := ⟨K, r, statement r depth⟩) hstmt body).weaken (fun _ _ => trivial)
      fun _ _ _ => And.right

/-! ### The end of the stream -/

variable {r : Inner} {α : Type} {s s' : State}

/-- The last round of a loop is the one that is done. -/
lemma exists_done {body : α → Parser (Step α)} {b : α} : ∀ {n : Nat} {a : α} {s : State},
    loopN body n a s = .ok (b, s') → ∃ a₁ s₁, body a₁ s₁ = .ok (.done b, s')
  | 0, a, s, h => by
    obtain ⟨_, _, -, h⟩ := bind_eq_ok.mp h
    cases h
  | n + 1, a, s, h => by
    obtain ⟨step, s₁, hround, h⟩ := bind_eq_ok.mp h
    cases step with
    | done c =>
      cases h
      exact ⟨a, s, hround⟩
    | again c => exact exists_done h

/-- A source is read to its end. -/
lemma next_sourceFile {depth : Nat} {m : Module} (h : sourceFile r depth s = .ok (m, s')) :
    next s'.rest = .eof := by
  obtain ⟨_, s₁, -, h⟩ := bind_eq_ok.mp h
  obtain ⟨body, s₂, hloop, h⟩ := bind_eq_ok.mp h
  cases h
  obtain ⟨_, s₃, hdone⟩ := exists_done hloop
  obtain ⟨t, s₄, hpeek, hdone⟩ := bind_eq_ok.mp hdone
  rw [peek_eq_ok] at hpeek
  cases hpeek
  split at hdone
  · next heof =>
    cases hdone
    exact heof
  · obtain ⟨_, _, -, hdone⟩ := bind_eq_ok.mp hdone
    obtain ⟨_, _, -, hdone⟩ := bind_eq_ok.mp hdone
    cases hdone

end AnnotatedWasm.Grammar
