import AnnotatedWasm.Proofs.Printing.Simple

/-!
Parsing written blocks, and the statements that have blocks under them.

A statement with blocks goes on as long as its clauses do, so what is read of it depends on the
token behind it: `EndsStmt` allows all that can stand there in a written module. The statements
in the blocks are read by a parser that is given, and the circle is closed in a later module.
-/

namespace AnnotatedWasm.Grammar

open Syntax

variable {r : Inner} {stmt : Parser Stmt} {F : Token → Prop} {x : Expr} {b : List Stmt}

/-! ### Where statements start and end -/

/-- The words that open a further clause of a statement. -/
def clauseWords : List Keyword := [.kElif, .kElse, .kExcept, .kFinally]

/-- A token that may stand behind a statement: neither a line end nor a further clause. -/
def EndsStmt (t : Token) : Prop := t ≠ .newline ∧ ∀ k ∈ clauseWords, t ≠ .keyword k

instance (t : Token) : Decidable (EndsStmt t) := inferInstanceAs (Decidable (_ ∧ _))

theorem EndsStmt.ne_word {t : Token} (h : EndsStmt t) {k : Keyword} (hk : k ∈ clauseWords) :
    t ≠ .keyword k :=
  h.2 k hk

/-- A token that opens a statement ends the one before, and does not end the block. -/
def OpensStmt (t : Token) : Prop := EndsStmt t ∧ t ≠ .dedent ∧ t ≠ .eof

instance (t : Token) : Decidable (OpensStmt t) := inferInstanceAs (Decidable (_ ∧ _))

theorem head?_stream {s : Stmt} {i : Item} {is : List Item} {cs : List Clause}
    (h : s.clauses = ⟨i :: is, b⟩ :: cs) : s.stream.head? = i.tokens.head? := by
  obtain ⟨t, ts, ht⟩ := List.exists_cons_of_ne_nil i.tokens_ne_nil
  rw [Stmt.stream_eq, h, List.flatMap_cons, Clause.stream, List.flatMap_cons, ht]
  rfl

/-- The first line of a statement starts with an expression or with a token of its own. -/
theorem exists_opens (s : Stmt) : ∃ t, s.stream.head? = some t ∧ OpensStmt t := by
  have htoken {t : Token} {is : List Item} {cs : List Clause} {b : List Stmt}
      (h : s.clauses = ⟨.token t :: is, b⟩ :: cs) (ht : OpensStmt t) :
      ∃ t, s.stream.head? = some t ∧ OpensStmt t :=
    ⟨t, by rw [head?_stream h, tokens_token]; rfl, ht⟩
  have hexpr {x : Expr} {is : List Item} {cs : List Clause} {b : List Stmt}
      (h : s.clauses = ⟨.expr x :: is, b⟩ :: cs) :
      ∃ t, s.stream.head? = some t ∧ OpensStmt t :=
    ⟨.punct .lParen, by rw [head?_stream h, tokens_expr, head?_tokens], by decide⟩
  cases s with
  | expr s e => exact hexpr rfl
  | assign s ts v => cases ts <;> exact hexpr rfl
  | annAssign s t a v => exact hexpr rfl
  | augAssign s t op v => exact hexpr rfl
  | funcDef s h b =>
    obtain ⟨n, ps, ret, ds⟩ := h
    cases ds <;> exact htoken rfl (by decide)
  | classDef s h b =>
    obtain ⟨n, bs, ds⟩ := h
    cases ds <;> exact htoken rfl (by decide)
  | _ => exact htoken rfl (by decide)

/-! ### Blocks -/

/-- The parser of the statements in a block reads this one as written. -/
def ReadsStmt (stmt : Parser Stmt) (s : Stmt) : Prop := Takes stmt s.stream EndsStmt s.erase

theorem takes_skipNewlines (hF : ∀ t, F t → t ≠ .newline) : Takes skipNewlines [] F () := by
  refine .loop (.done (.eat_not hF ?_))
  rw [if_neg (by decide)]
  exact .pure

/-- A statement with the line ends behind it, of which there are none. -/
theorem takes_stmt_skip {s : Stmt} {ts : List Token} (hs : Takes stmt ts EndsStmt s.erase)
    (ys : List Stmt) :
    Takes (stmt >>= fun s' => skipNewlines >>= fun _ =>
        (pure (.again (ys.map Stmt.erase ++ [s'])) : Parser (Step (List Stmt)))) ts EndsStmt
      (.again ((ys ++ [s]).map Stmt.erase)) := by
  rw [List.map_append]
  exact hs.bind_last ((takes_skipNewlines fun t ht => ht.1).bind_last .pure)

theorem takes_block (hb : ∀ s ∈ b, ReadsStmt stmt s) :
    Takes (block stmt) (.newline :: .indent :: (b.flatMap Stmt.stream ++ [.dedent])) F
      (b.map Stmt.erase) := by
  have hdedent : EndsStmt .dedent := by decide
  rw [block]
  refine .peek rfl ?_
  rw [if_neg (by simp)]
  refine .advance (.peek rfl ?_)
  rw [if_neg (by simp)]
  refine .advance ((takes_skipNewlines (F := EndsStmt) fun t ht => ht.1).bind_nil ?_ ?_)
  · intro t _
    cases b with
    | nil => exact hdedent
    | cons s b =>
      obtain ⟨u, hu, hopens⟩ := exists_opens s
      rw [List.flatMap_cons, List.append_assoc, headD_append hu]
      exact hopens.1
  refine Takes.bind_cons (G := (· = .dedent)) (.loop (.each (A := List.map Stmt.erase)
    (G := EndsStmt) ?_ ?_ ?_ ?_)) rfl (.eat .pure)
  · rintro t rfl
    exact hdedent
  · intro s _
    obtain ⟨u, hu, hopens⟩ := exists_opens s
    exact ⟨u, hu, hopens.1⟩
  · intro ys s hs
    obtain ⟨u, hu, hopens⟩ := exists_opens s
    refine .peek hu ?_
    split
    · exact absurd rfl hopens.2.1
    · exact absurd rfl hopens.2.2
    · exact takes_stmt_skip (hb s hs) ys
  · refine .peek_nil ?_
    rintro t rfl
    exact .pure

/-- A block with the colon before it. -/
def suiteTokens (b : List Stmt) : List Token :=
  .punct .colon :: .newline :: .indent :: (b.flatMap Stmt.stream ++ [.dedent])

theorem takes_suite (hb : ∀ s ∈ b, ReadsStmt stmt s) :
    Takes (suite stmt) (suiteTokens b) F (b.map Stmt.erase) :=
  .expect (takes_block hb)

theorem stream_suite (items : List Item) (hb : b ≠ []) :
    (Clause.mk (items ++ [.mark .colon]) b).stream
      = items.flatMap Item.tokens ++ suiteTokens b := by
  rw [Clause.stream_block hb, suiteTokens]
  simp

/-- A clause that may be left out. -/
theorem takes_clause {k : Keyword} (hb : ∀ s ∈ b, ReadsStmt stmt s)
    (hF : ∀ t, F t → t ≠ .keyword k) :
    Takes (clause k stmt) ((Clause.optional k b).flatMap Clause.stream) F (b.map Stmt.erase) := by
  rw [clause]
  cases b with
  | nil =>
    refine .eat_not hF ?_
    rw [if_neg (by decide)]
    exact .pure
  | cons s b =>
    have hstream : (Clause.optional k (s :: b)).flatMap Clause.stream
        = .keyword k :: suiteTokens (s :: b) := by
      rw [Clause.optional, List.flatMap_singleton]
      simpa using stream_suite [.word k] (List.cons_ne_nil s b)
    rw [hstream]
    refine .eat ?_
    rw [if_pos rfl]
    exact takes_suite hb

/-- Behind a clause that may be left out stands its word, or what comes after it. -/
theorem headD_clause {G : Token → Prop} {k : Keyword} {t : Token} (ht : G t)
    (hk : G (.keyword k)) : G (((Clause.optional k b).flatMap Clause.stream).headD t) := by
  cases b with
  | nil => exact ht
  | cons s b =>
    rw [Clause.optional, List.flatMap_singleton, Clause.stream]
    simpa using hk

/-! ### Parts that may come again -/

section Repeated

variable {α γ : Type} {mark : Token} {item : Parser α} {xs : List γ} {f : γ → List Token}
  {g : γ → α} {G : Token → Prop}

/-- Items with a mark before each of them, as many as there are. -/
def repeated (mark : Token) (item : Parser α) : Parser (List α) :=
  loop (fun as => do
    if ← eat mark then
      return .again (as ++ [← item])
    else
      return .done as) []

theorem takes_repeated (hitem : ∀ x ∈ xs, Takes item (f x) G (g x)) (hmark : G mark)
    (hF : ∀ t, F t → G t ∧ t ≠ mark) :
    Takes (repeated mark item) (xs.flatMap fun x => mark :: f x) F (xs.map g) := by
  refine .loop (.each (A := List.map g) (fun t ht => (hF t ht).1)
    (fun x _ => ⟨mark, rfl, hmark⟩) ?_ ?_)
  · intro ys x hx
    rw [List.map_append]
    refine .eat ?_
    rw [if_pos rfl]
    exact (hitem x hx).bind_last .pure
  · refine .eat_not (fun t ht => (hF t ht).2) ?_
    rw [if_neg (by decide)]
    exact .pure

end Repeated

/-! ### Statements with blocks -/

/-- All that a statement is written with is read as written. -/
structure ReadsParts (r : Inner) (stmt : Parser Stmt) (s : Stmt) : Prop where
  fits : s.Fits
  exprs : ∀ c ∈ s.clauses, ∀ x, .expr x ∈ c.head → Reads r x
  stmts : ∀ c ∈ s.clauses, ∀ t ∈ c.block, ReadsStmt stmt t

/-- What a clause that may be left out needs of the statements in it. -/
theorem readsStmt_of_optional (k : Keyword) {cs : List Clause}
    (h : ∀ c ∈ cs, ∀ t ∈ c.block, ReadsStmt stmt t) (hmem : ∀ c ∈ Clause.optional k b, c ∈ cs) :
    ∀ t ∈ b, ReadsStmt stmt t := by
  cases b with
  | nil => simp
  | cons s b => exact h ⟨[.word k, .mark .colon], s :: b⟩ (hmem _ (by simp [Clause.optional]))

/-- A first clause that a word and some items open. -/
theorem stream_word (k : Keyword) (items : List Item) (hb : b ≠ []) :
    (Clause.mk (.word k :: items ++ [.mark .colon]) b).stream
      = .keyword k :: (items.flatMap Item.tokens ++ suiteTokens b) := by
  simpa using stream_suite (.word k :: items) hb

def elifClause (r : Inner) (stmt : Parser Stmt) : Parser Branch := do
  let test ← r.expr
  let body ← suite stmt
  return .mk test body

theorem ifStmt_eq (r : Inner) (stmt : Parser Stmt) : ifStmt r stmt = (do
    advance
    let test ← r.expr
    let body ← suite stmt
    let elifs ← repeated (.keyword .kElif) (elifClause r stmt)
    let orelse ← clause .kElse stmt
    return fun span => .ifElse span test body elifs orelse) := by
  simp only [ifStmt, repeated, elifClause, bind_assoc, pure_bind]

def branchTokens : Branch → List Token
  | .mk t b => t.tokens ++ suiteTokens b

theorem stream_branch {e : Branch} (h : e.clause.block ≠ []) :
    e.clause.stream = .keyword .kElif :: branchTokens e := by
  obtain ⟨t, b⟩ := e
  simpa [branchTokens, Branch.clause] using stream_word .kElif [.expr t] h

theorem takes_elifClause {e : Branch} (hx : ∀ x, .expr x ∈ e.clause.head → Reads r x)
    (hb : ∀ s ∈ e.clause.block, ReadsStmt stmt s) :
    Takes (elifClause r stmt) (branchTokens e) F e.erase := by
  obtain ⟨t, b⟩ := e
  rw [Branch.erase]
  exact (hx t (by simp [Branch.clause])).expr.bind_cons (by decide)
    ((takes_suite hb).bind_last .pure)

theorem makes_if {s : Span} {elifs : List Branch} {o : List Stmt}
    (h : ReadsParts r stmt (.ifElse s x b elifs o)) :
    Makes (ifStmt r stmt) (Stmt.ifElse s x b elifs o).stream EndsStmt
      (.ifElse s x b elifs o) := by
  obtain ⟨⟨hb, helifs⟩, hexprs, hstmts⟩ := h
  have hmap : (elifs.map Branch.clause).flatMap Clause.stream
      = elifs.flatMap fun e => .keyword .kElif :: branchTokens e := by
    rw [List.flatMap_map]
    exact List.flatMap_congr fun e he => stream_branch (helifs e he)
  have hstream : (Stmt.ifElse s x b elifs o).stream
      = .keyword .kIf :: (x.tokens ++ (suiteTokens b
        ++ (elifs.flatMap (fun e => .keyword .kElif :: branchTokens e)
          ++ (Clause.optional .kElse o).flatMap Clause.stream))) := by
    have hfirst := stream_word .kIf [.expr x] hb
    simp_all [Stmt.stream_eq, Stmt.clauses]
  have hmem : ∀ e ∈ elifs, e.clause ∈ (Stmt.ifElse s x b elifs o).clauses := fun e he => by
    simp [Stmt.clauses, List.mem_map_of_mem he]
  have ho : ∀ t ∈ o, ReadsStmt stmt t :=
    readsStmt_of_optional .kElse hstmts fun c hc => by simp [Stmt.clauses, hc]
  rw [hstream, ifStmt_eq]
  refine ⟨_, .advance ((hexprs _ List.mem_cons_self x (by simp)).expr.bind_cons (by decide)
    ((takes_suite (F := fun _ => True) (hstmts _ List.mem_cons_self)).bind (fun _ _ => trivial)
    ((takes_repeated (F := (· ≠ .keyword .kElif)) (G := fun _ => True)
      (fun e he => takes_elifClause (hexprs _ (hmem e he)) (hstmts _ (hmem e he))) trivial
      fun t ht => ⟨trivial, ht⟩).bind ?_ ((takes_clause ho ?_).bind_last .pure)))),
    by rw [Stmt.erase]⟩
  · intro t ht
    exact headD_clause (G := (· ≠ .keyword .kElif)) (ht.ne_word (by decide)) (by decide)
  · exact fun t ht => ht.ne_word (by decide)

/-- The body of a loop and its `else` clause, which end the statement. -/
theorem takes_loopParts {α : Type} {o : List Stmt} {g : List Stmt → List Stmt → α}
    (hb : ∀ s ∈ b, ReadsStmt stmt s) (ho : ∀ s ∈ o, ReadsStmt stmt s) :
    Takes (suite stmt >>= fun b' => clause .kElse stmt >>= fun o' => pure (g b' o'))
      (suiteTokens b ++ (Clause.optional .kElse o).flatMap Clause.stream) EndsStmt
      (g (b.map Stmt.erase) (o.map Stmt.erase)) :=
  (takes_suite (F := fun _ => True) hb).bind (fun _ _ => trivial)
    ((takes_clause ho fun t ht => ht.ne_word (by decide)).bind_last .pure)

theorem makes_while {s : Span} {o : List Stmt} (h : ReadsParts r stmt (.whileLoop s x b o)) :
    Makes (whileStmt r stmt) (Stmt.whileLoop s x b o).stream EndsStmt (.whileLoop s x b o) := by
  obtain ⟨hb, hexprs, hstmts⟩ := h
  have hstream : (Stmt.whileLoop s x b o).stream
      = .keyword .kWhile :: (x.tokens ++ (suiteTokens b
        ++ (Clause.optional .kElse o).flatMap Clause.stream)) := by
    have hfirst := stream_word .kWhile [.expr x] hb
    simp_all [Stmt.stream_eq, Stmt.clauses]
  have ho : ∀ t ∈ o, ReadsStmt stmt t :=
    readsStmt_of_optional .kElse hstmts fun c hc => by simp [Stmt.clauses, hc]
  rw [hstream, whileStmt]
  exact ⟨_, .advance ((hexprs _ List.mem_cons_self x (by simp)).expr.bind_cons (by decide)
    (takes_loopParts (hstmts _ List.mem_cons_self) ho)), by rw [Stmt.erase]⟩

theorem makes_for {s : Span} {i : Expr} {o : List Stmt}
    (h : ReadsParts r stmt (.forLoop s x i b o)) :
    Makes (forStmt r stmt) (Stmt.forLoop s x i b o).stream EndsStmt (.forLoop s x i b o) := by
  obtain ⟨hb, hexprs, hstmts⟩ := h
  have hstream : (Stmt.forLoop s x i b o).stream
      = .keyword .kFor :: (x.tokens ++ .name "in" :: (i.tokens ++ (suiteTokens b
        ++ (Clause.optional .kElse o).flatMap Clause.stream))) := by
    have hfirst := stream_word .kFor [.expr x, .ident "in", .expr i] hb
    simp_all [Stmt.stream_eq, Stmt.clauses]
  have ho : ∀ t ∈ o, ReadsStmt stmt t :=
    readsStmt_of_optional .kElse hstmts fun c hc => by simp [Stmt.clauses, hc]
  have hx := hexprs _ List.mem_cons_self x (by simp)
  have hi := hexprs _ List.mem_cons_self i (by simp)
  rw [hstream, forStmt]
  have htarget : Takes (trailed r) x.tokens (Above 0) x.erase :=
    (hx.primary.before fun _ _ => trivial).trailed fun _ h => h
  refine ⟨fun s => .forLoop s x.erase i.erase (b.map Stmt.erase) (o.map Stmt.erase),
    .advance (htarget.tupleOf.bind_cons (by decide) (.eat ?_)), by rw [Stmt.erase]⟩
  rw [if_neg (by decide)]
  exact (takes_exprList hi).bind_cons (by decide)
    (takes_loopParts (hstmts _ List.mem_cons_self) ho)

/-! ### Definitions -/

/-- The tokens of a function definition behind its first word. -/
def funcTokens (h : FuncHeader) (b : List Stmt) : List Token :=
  .name h.name :: .punct .lParen :: ((commas (h.params.map Param.items)).flatMap Item.tokens
    ++ .punct .rParen :: ((Item.behind (.mark .arrow) h.returns).flatMap Item.tokens
      ++ suiteTokens b))

theorem stream_func {h : FuncHeader} (hb : b ≠ []) :
    (Clause.mk h.items b).stream = .keyword .kDef :: funcTokens h b := by
  rw [FuncHeader.items, stream_suite _ hb, funcTokens]
  simp

theorem makes_funcDef {s : Span} {n : String} {ps : List Param} {ret : Option Expr}
    {ds : List Expr} (hps : ∀ p ∈ ps, ∀ x, .expr x ∈ p.items → Reads r x)
    (hret : ∀ x ∈ ret, Reads r x) (hstmts : ∀ t ∈ b, ReadsStmt stmt t) :
    Makes (funcDef r stmt (ds.map Expr.erase)) (.keyword .kDef :: funcTokens ⟨n, ps, ret, ds⟩ b) F
      (.funcDef s ⟨n, ps, ret, ds⟩ b) := by
  rw [funcTokens, funcDef]
  have hreturns := takes_behind (F := (· = .punct .colon)) (t := .punct .arrow)
    (fun x hx => (hret x hx).expr.before (by rintro t rfl; decide)) (by rintro t rfl; simp)
  exact ⟨_, .advance (.identifier (.expect ((takes_params (by simp) (by decide) (by decide)
    (by decide) (by decide) hps).bind_cons rfl (.expect (hreturns.bind (fun _ _ => rfl)
    ((takes_suite hstmts).bind_last .pure)))))), by rw [Stmt.erase, FuncHeader.erase]⟩

/-- The tokens of a class definition behind its first word. -/
def classTokens (h : ClassHeader) (b : List Stmt) : List Token :=
  .name h.name :: .punct .lParen :: (exprTokens h.bases ++ .punct .rParen :: suiteTokens b)

theorem stream_class {h : ClassHeader} (hb : b ≠ []) :
    (Clause.mk h.items b).stream = .keyword .kClass :: classTokens h b := by
  have hitems := stream_suite (([.word .kClass, .ident h.name, .mark .lParen]
    ++ commas (h.bases.map fun x => [.expr x])) ++ [.mark .rParen]) hb
  rw [classTokens, ← flatMap_commas_exprs]
  simpa [ClassHeader.items] using hitems

theorem makes_classDef {s : Span} {n : String} {bases ds : List Expr}
    (hbases : ∀ x ∈ bases, Reads r x) (hstmts : ∀ t ∈ b, ReadsStmt stmt t) :
    Makes (classDef r stmt (ds.map Expr.erase)) (.keyword .kClass :: classTokens ⟨n, bases, ds⟩ b) F
      (.classDef s ⟨n, bases, ds⟩ b) := by
  rw [classTokens, classDef]
  refine ⟨fun s => .classDef s ⟨n, bases.map Expr.erase, ds.map Expr.erase⟩ (b.map Stmt.erase),
    .advance (.identifier (.eat ((takes_listUntil (by decide) (by decide) (by decide)
      hbases).bind_cons rfl (.expect ?_)))), by rw [Stmt.erase, ClassHeader.erase]⟩
  rw [pure_bind]
  exact (takes_suite hstmts).bind_last .pure

/-- A decorator, with the end of its line. -/
def decorator (r : Inner) : Parser Expr := do
  let decorator ← r.expr
  expect .newline
  skipNewlines
  return decorator

theorem decorated_eq (r : Inner) (stmt : Parser Stmt) : decorated r stmt = (do
    let decorators ← repeated (.punct .«at») (decorator r)
    match ← peek with
    | .keyword .kDef => funcDef r stmt decorators
    | .keyword .kClass => classDef r stmt decorators
    | _ => unexpected .definition) := by
  have hloop : repeated (.punct .«at») (decorator r) = loop (fun decorators => do
      if ← eat (.punct .«at») then
        let decorator ← r.expr
        expect .newline
        skipNewlines
        return .again (decorators ++ [decorator])
      else
        return .done decorators) [] := by
    simp only [repeated, decorator, bind_assoc, pure_bind]
  rw [hloop]
  rfl

/-- The words that decorators stand before. -/
def IsDefinition (t : Token) : Prop := t = .keyword .kDef ∨ t = .keyword .kClass

theorem takes_decorators {ds : List Expr} (hds : ∀ x ∈ ds, Reads r x) :
    Takes (repeated (.punct .«at») (decorator r)) ((decoration ds).flatMap Clause.stream)
      IsDefinition (ds.map Expr.erase) := by
  have hstream : (decoration ds).flatMap Clause.stream
      = ds.flatMap fun x => .punct .«at» :: (x.tokens ++ [.newline]) := by
    rw [decoration, List.flatMap_map]
    refine List.flatMap_congr fun x _ => ?_
    rw [Clause.stream_line]
    simp
  rw [hstream]
  refine takes_repeated (G := (· ≠ .newline)) (fun x hx => ?_) (by decide) ?_
  · exact (hds x hx).expr.bind_cons (by decide)
      (.expect ((takes_skipNewlines fun _ h => h).bind_last .pure))
  · rintro t (rfl | rfl) <;> simp

/-- A definition with at least one decorator. -/
theorem makes_decorated {s : Stmt} {ds : List Expr} {ts : List Token} {k : Keyword}
    (hds : ∀ x ∈ ds, Reads r x) (hk : k = .kDef ∨ k = .kClass)
    (hdef : Makes (if k = .kDef then funcDef r stmt (ds.map Expr.erase)
      else classDef r stmt (ds.map Expr.erase)) (.keyword k :: ts) EndsStmt s) :
    Makes (decorated r stmt) ((decoration ds).flatMap Clause.stream ++ .keyword k :: ts)
      EndsStmt s := by
  obtain ⟨node, hnode, hs⟩ := hdef
  rw [decorated_eq]
  refine ⟨node, (takes_decorators hds).bind_cons (by simpa [IsDefinition] using hk)
    (.peek rfl ?_), hs⟩
  rcases hk with rfl | rfl
  · exact hnode
  · exact hnode

/-! ### `try` and `with` -/

def handlerTokens : Handler → List Token
  | .mk e n b => ((e.map .expr).toList).flatMap Item.tokens
      ++ ((renamed n).flatMap Item.tokens ++ suiteTokens b)

theorem stream_handler {h : Handler} (hb : h.clause.block ≠ []) :
    h.clause.stream = .keyword .kExcept :: handlerTokens h := by
  obtain ⟨e, n, b⟩ := h
  have hitems := stream_word .kExcept ((e.map Item.expr).toList ++ renamed n) hb
  rw [List.flatMap_append, List.append_assoc] at hitems
  exact hitems

theorem takes_handler {h : Handler} (hfits : h.Fits)
    (hx : ∀ x, .expr x ∈ h.clause.head → Reads r x)
    (hb : ∀ s ∈ h.clause.block, ReadsStmt stmt s) :
    Takes (handler r stmt) (handlerTokens h) F h.erase := by
  obtain ⟨e, n, b⟩ := h
  obtain ⟨-, hname, -⟩ := hfits
  rw [handler, handlerTokens, Handler.erase]
  cases e with
  | none =>
    obtain rfl : n = none := by simpa using hname
    refine .peek rfl ?_
    rw [if_pos rfl]
    exact (takes_suite hb).bind_last .pure
  | some x =>
    rw [Option.map_some, Option.toList_some, List.flatMap_singleton, tokens_expr]
    refine .peek (head?_append x _) ?_
    rw [if_neg (by decide)]
    refine (hx x (by simp [Handler.clause])).expr.bind (fun t _ => ?_)
      ((takes_renamed (F := (· = .punct .colon)) (by rintro t rfl; simp)).bind (fun _ _ => rfl)
        ((takes_suite hb).bind_last .pure))
    cases n <;> simp [renamed, suiteTokens] <;> decide

theorem makes_try {s : Span} {hs : List Handler} {o f : List Stmt}
    (h : ReadsParts r stmt (.tryExcept s b hs o f)) :
    Makes (tryStmt r stmt) (Stmt.tryExcept s b hs o f).stream EndsStmt
      (.tryExcept s b hs o f) := by
  obtain ⟨⟨hb, hsome, hhs⟩, hexprs, hstmts⟩ := h
  have hmap : (hs.map Handler.clause).flatMap Clause.stream
      = hs.flatMap fun h => .keyword .kExcept :: handlerTokens h := by
    rw [List.flatMap_map]
    refine List.flatMap_congr fun h hh => stream_handler ?_
    obtain ⟨e, n, b⟩ := h
    exact (hhs _ hh).1
  have hstream : (Stmt.tryExcept s b hs o f).stream
      = .keyword .kTry :: (suiteTokens b
        ++ (hs.flatMap (fun h => .keyword .kExcept :: handlerTokens h)
          ++ ((Clause.optional .kElse o).flatMap Clause.stream
            ++ (Clause.optional .kFinally f).flatMap Clause.stream))) := by
    have hfirst := stream_word .kTry [] hb
    simp_all [Stmt.stream_eq, Stmt.clauses]
  have hmem : ∀ h ∈ hs, h.clause ∈ (Stmt.tryExcept s b hs o f).clauses := fun h hh => by
    simp [Stmt.clauses, List.mem_map_of_mem hh]
  have ho : ∀ t ∈ o, ReadsStmt stmt t :=
    readsStmt_of_optional .kElse hstmts fun c hc => by simp [Stmt.clauses, hc]
  have hf : ∀ t ∈ f, ReadsStmt stmt t :=
    readsStmt_of_optional .kFinally hstmts fun c hc => by simp [Stmt.clauses, hc]
  have hnonempty : ¬((hs.map Handler.erase).isEmpty && (f.map Stmt.erase).isEmpty) = true := by
    simp only [Bool.and_eq_true, List.isEmpty_iff, List.map_eq_nil_iff]
    tauto
  rw [hstream, tryStmt]
  refine ⟨fun s => .tryExcept s (b.map Stmt.erase) (hs.map Handler.erase) (o.map Stmt.erase)
    (f.map Stmt.erase), .advance ((takes_suite (F := fun _ => True)
    (hstmts _ List.mem_cons_self)).bind (fun _ _ => trivial) ?_), by rw [Stmt.erase]⟩
  refine (takes_repeated (F := (· ≠ .keyword .kExcept)) (G := fun _ => True)
    (fun h hh => takes_handler (hhs h hh) (hexprs _ (hmem h hh)) (hstmts _ (hmem h hh))) trivial
    fun t ht => ⟨trivial, ht⟩).bind ?_ ?_
  · intro t ht
    cases o with
    | nil => exact headD_clause (G := (· ≠ .keyword .kExcept)) (ht.ne_word (by decide)) (by decide)
    | cons u o => simp [Clause.optional, Clause.stream]
  refine (takes_clause (F := (· ≠ .keyword .kElse)) ho fun _ h => h).bind ?_
    ((takes_clause hf fun t ht => ht.ne_word (by decide)).bind_last ?_)
  · intro t ht
    exact headD_clause (G := (· ≠ .keyword .kElse)) (ht.ne_word (by decide)) (by decide)
  · rw [if_neg hnonempty]
    exact .pure

/-- The tokens of a context and its target. -/
def withTokens (i : Expr × Option Expr) : List Token :=
  i.1.tokens ++ (Item.behind (.word .kAs) i.2).flatMap Item.tokens

theorem takes_withItem {i : Expr × Option Expr} (hi : Reads r i.1) (ht : ∀ x ∈ i.2, Reads r x) :
    Takes (withItem r) (withTokens i) (fun t => t = .punct .comma ∨ t = .punct .colon)
      (i.1.erase, i.2.map Expr.erase) := by
  refine hi.expr.bind ?_ ((takes_behind (fun y hy => ?_) ?_).bind_last .pure)
  · rintro t (rfl | rfl) <;> exact headD_behind (G := Above 11) (by decide) (by decide)
  · refine ((ht y hy).primary.before fun _ _ => trivial).trailed ?_
    rintro t (rfl | rfl) <;> decide
  · rintro t (rfl | rfl) <;> simp

theorem makes_with {s : Span} {items : List (Expr × Option Expr)}
    (h : ReadsParts r stmt (.withItems s items b)) :
    Makes (withStmt r stmt) (Stmt.withItems s items b).stream EndsStmt
      (.withItems s items b) := by
  obtain ⟨⟨hb, hne⟩, hexprs, hstmts⟩ := h
  obtain ⟨i, items, rfl⟩ := List.exists_cons_of_ne_nil hne
  have hstream : (Stmt.withItems s (i :: items) b).stream
      = .keyword .kWith :: ((withTokens i
        ++ items.flatMap fun j => .punct .comma :: withTokens j) ++ suiteTokens b) := by
    have hgroups : (commas ((i :: items).map fun j =>
          .expr j.1 :: Item.behind (.word .kAs) j.2)).flatMap Item.tokens
        = withTokens i ++ items.flatMap fun j => .punct .comma :: withTokens j := by
      rw [← intercalate_cons, flatMap_commas]
      simp only [List.flatMap_cons, tokens_expr]
      rfl
    rw [Stmt.stream_eq, Stmt.clauses, List.flatMap_singleton, stream_word _ _ hb, hgroups]
  have hitem : ∀ j ∈ i :: items, ∀ x, .expr x ∈ .expr j.1 :: Item.behind (.word .kAs) j.2 →
      Reads r x := fun j hj x hx => by
    refine hexprs _ List.mem_cons_self x ?_
    have hmem : .expr x ∈ commas ((i :: items).map fun j =>
        .expr j.1 :: Item.behind (.word .kAs) j.2) :=
      mem_intercalate_of_mem (List.mem_map.2 ⟨j, hj, rfl⟩) hx
    exact List.mem_cons_of_mem _ (List.mem_append_left _ hmem)
  rw [hstream, withStmt]
  refine ⟨_, .advance (Takes.bind (G := (· = .punct .colon)) (.separated (fun j hj => ?_)
    (by rintro t rfl; simp)) (fun _ _ => rfl)
    ((takes_suite (hstmts _ List.mem_cons_self)).bind_last .pure)), by rw [Stmt.erase]⟩
  refine takes_withItem (hitem j hj j.1 (by simp)) fun x hx => hitem j hj x ?_
  simp [Item.behind, Option.mem_def.1 hx]

end AnnotatedWasm.Grammar
