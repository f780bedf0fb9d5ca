import AnnotatedWasm.Proofs.Parsing.Blindness
import AnnotatedWasm.Proofs.Printing.Blocks

/-!
Parsing undoes printing.

A statement is read if the expressions and the statements it is written with are. Both are
written with fewer tokens than it, so a grammar that is unrolled once for each token of the
stream reads every statement, and with them the module.
-/

namespace AnnotatedWasm.Grammar

open Syntax

variable {r : Inner} {stmt : Parser Stmt} {F : Token → Prop} {s : Stmt}

/-! ### One statement -/

theorem head?_token {t : Token} {items : List Item} {b : List Stmt} {cs : List Clause}
    (h : s.clauses = ⟨.token t :: items, b⟩ :: cs) : s.stream.head? = some t := by
  rw [head?_stream h, tokens_token]
  rfl

/-- A statement that fits on a line, with the end of the line. -/
theorem MakesLine.takes {ts : List Token} {t : Token} (h : MakesLine r ts s)
    (ht : (ts ++ [Token.newline]).head? = some t) (hnone : compound? r stmt t = none) :
    Takes (statementOver r stmt) (ts ++ [.newline]) F s.erase := by
  obtain ⟨node, hnode, hs⟩ := h
  rw [statementOver]
  refine .peekSpan (.peek ht ?_)
  rw [hnone, ← hs]
  refine hnode.bind_cons rfl (.spanFrom ?_)
  rw [endOfStatement, bind_assoc]
  exact .peek rfl (.advance .pure)

theorem takes_line {head : List Item} {t : Token} (hs : s.clauses = [.line head])
    (ht : s.stream.head? = some t) (hnone : compound? r stmt t = none)
    (h : MakesLine r (head.flatMap Item.tokens) s) :
    Takes (statementOver r stmt) s.stream F s.erase := by
  have hstream : s.stream = head.flatMap Item.tokens ++ [.newline] := by
    rw [Stmt.stream_eq, hs, List.flatMap_singleton, Clause.stream_line]
  rw [hstream] at ht ⊢
  exact h.takes ht hnone

theorem takes_wordLine {k : Keyword} {items : List Item}
    (hs : s.clauses = [.line (.word k :: items)]) (hk : compound? r stmt (.keyword k) = none)
    (h : MakesLine r (.keyword k :: items.flatMap Item.tokens) s) :
    Takes (statementOver r stmt) s.stream F s.erase := by
  refine takes_line hs (head?_token hs) hk ?_
  simpa using h

theorem takes_exprLine {x : Expr} {items : List Item}
    (hs : s.clauses = [.line (.expr x :: items)])
    (h : MakesLine r (x.tokens ++ items.flatMap Item.tokens) s) :
    Takes (statementOver r stmt) s.stream F s.erase := by
  refine takes_line hs (by rw [head?_stream hs, tokens_expr, head?_tokens]) rfl ?_
  simpa using h

/-- A statement with blocks under it, told by its first token. -/
theorem takes_compound {t : Token} {p : Parser (Span → Stmt)} (ht : s.stream.head? = some t)
    (hp : compound? r stmt t = some p) (h : Makes p s.stream EndsStmt s) :
    Takes (statementOver r stmt) s.stream EndsStmt s.erase := by
  obtain ⟨node, hnode, hs⟩ := h
  rw [statementOver]
  refine .peekSpan (.peek ht ?_)
  rw [hp, ← hs]
  exact hnode.bind_last (.spanFrom .pure)

/-- A definition is told by its own word, or by the mark of its first decorator. -/
theorem takes_definition {k : Keyword} {c : Clause} {ds : List Expr} {ts : List Token}
    (hs : s.clauses = decoration ds ++ [c]) (hc : c.stream = .keyword k :: ts)
    (hk : k = .kDef ∨ k = .kClass) (hds : ∀ x ∈ ds, Reads r x)
    (hdef : Makes (if k = .kDef then funcDef r stmt (ds.map Expr.erase)
      else classDef r stmt (ds.map Expr.erase)) (.keyword k :: ts) EndsStmt s) :
    Takes (statementOver r stmt) s.stream EndsStmt s.erase := by
  have hstream : s.stream = (decoration ds).flatMap Clause.stream ++ .keyword k :: ts := by
    rw [Stmt.stream_eq, hs, List.flatMap_append, List.flatMap_singleton, hc]
  cases ds with
  | nil =>
    refine takes_compound (p := if k = .kDef then funcDef r stmt [] else classDef r stmt [])
      (t := .keyword k) (by rw [hstream]; rfl) (by rcases hk with rfl | rfl <;> rfl) ?_
    rw [hstream]
    exact hdef
  | cons d ds =>
    refine takes_compound (p := decorated r stmt) (head?_token hs) rfl ?_
    rw [hstream]
    exact makes_decorated hds hk hdef

/-- The decorators of a definition are among the expressions it is written with. -/
theorem reads_decorators {cs : List Clause} {ds : List Expr}
    (h : ∀ c ∈ decoration ds ++ cs, ∀ x, .expr x ∈ c.head → Reads r x) :
    ∀ x ∈ ds, Reads r x := fun x hx =>
  h (.line [.mark .«at», .expr x]) (List.mem_append_left _ (List.mem_map.2 ⟨x, hx, rfl⟩)) x
    (by simp [Clause.line])

theorem takes_funcStmt {s : Span} {h : FuncHeader} {b : List Stmt}
    (hs : ReadsParts r stmt (.funcDef s h b)) :
    Takes (statementOver r stmt) (Stmt.funcDef s h b).stream EndsStmt
      (Stmt.funcDef s h b).erase := by
  obtain ⟨n, ps, ret, ds⟩ := h
  obtain ⟨⟨hb, -, -⟩, hexprs, hstmts⟩ := hs
  have hmem : ⟨(FuncHeader.mk n ps ret ds).items, b⟩ ∈
      (Stmt.funcDef s ⟨n, ps, ret, ds⟩ b).clauses := by
    simp [Stmt.clauses]
  have hps : ∀ p ∈ ps, ∀ x, .expr x ∈ p.items → Reads r x := fun p hp x hx => by
    have hx : .expr x ∈ commas (ps.map Param.items) :=
      mem_intercalate_of_mem (List.mem_map_of_mem hp) hx
    exact hexprs _ hmem x (by simp [FuncHeader.items, hx])
  have hret : ∀ x ∈ ret, Reads r x := by
    rintro x rfl
    exact hexprs _ hmem x (by simp [FuncHeader.items, Item.behind])
  exact takes_definition rfl (stream_func hb) (.inl rfl) (reads_decorators hexprs)
    (makes_funcDef hps hret (hstmts _ hmem))

theorem takes_classStmt {s : Span} {h : ClassHeader} {b : List Stmt}
    (hs : ReadsParts r stmt (.classDef s h b)) :
    Takes (statementOver r stmt) (Stmt.classDef s h b).stream EndsStmt
      (Stmt.classDef s h b).erase := by
  obtain ⟨n, bases, ds⟩ := h
  obtain ⟨⟨hb, -⟩, hexprs, hstmts⟩ := hs
  have hmem : ⟨(ClassHeader.mk n bases ds).items, b⟩ ∈
      (Stmt.classDef s ⟨n, bases, ds⟩ b).clauses := by
    simp [Stmt.clauses]
  have hbases : ∀ x ∈ bases, Reads r x := fun x hx => by
    have hx : .expr x ∈ commas (bases.map fun x => [.expr x]) :=
      mem_intercalate_of_mem (List.mem_map.2 ⟨x, hx, rfl⟩) (by simp)
    exact hexprs _ hmem x (by simp [ClassHeader.items, hx])
  exact takes_definition rfl (stream_class hb) (.inr rfl) (reads_decorators hexprs)
    (makes_classDef hbases (hstmts _ hmem))

/-- A statement is read if all that it is written with is. -/
theorem takes_statementOver (h : ReadsParts r stmt s) :
    Takes (statementOver r stmt) s.stream EndsStmt s.erase := by
  -- the expressions on the line of a statement without blocks
  have hline {head : List Item} (hc : s.clauses = [.line head]) :
      ∀ x, .expr x ∈ head → Reads r x :=
    h.exprs (.line head) (by simp [hc])
  have hfits := h.fits
  cases s with
  | expr s e =>
    exact takes_exprLine rfl (by simpa using makes_expr s (hline rfl e (by simp)))
  | assign s ts v =>
    obtain ⟨t, ts, rfl⟩ := List.exists_cons_of_ne_nil hfits
    have hts : ∀ x ∈ t :: ts, Reads r x := fun x hx =>
      hline rfl x (List.mem_append_left _ (List.mem_flatMap.2 ⟨x, hx, by simp⟩))
    have hone (x : Expr) : [Item.expr x, .mark .assign].flatMap Item.tokens
        = x.tokens ++ [.punct .assign] := by
      simp
    have hassign := makes_assign s hfits hts (hline rfl v (by simp))
    refine takes_line rfl (by rw [head?_stream rfl, tokens_expr, head?_tokens]) rfl ?_
    rw [List.flatMap_append, List.flatMap_assoc, List.flatMap_singleton, tokens_expr]
    simpa only [hone] using hassign
  | annAssign s t a v =>
    refine takes_exprLine rfl ?_
    simpa using makes_annAssign s (hline rfl t (by simp)) (hline rfl a (by simp)) (v := v)
      fun x hx => hline rfl x (by simp [Item.behind, Option.mem_def.1 hx])
  | augAssign s t op v =>
    refine takes_exprLine rfl ?_
    simpa using makes_augAssign s hfits (hline rfl t (by simp)) (hline rfl v (by simp))
  | ret s v =>
    refine takes_wordLine rfl rfl (makes_ret s fun x hx => hline rfl x ?_)
    simp [Option.mem_def.1 hx]
  | pass s => exact takes_wordLine rfl rfl (makes_pass s)
  | breakLoop s => exact takes_wordLine rfl rfl (makes_break s)
  | continueLoop s => exact takes_wordLine rfl rfl (makes_continue s)
  | del s t =>
    exact takes_wordLine rfl rfl (by simpa using makes_del s (hline rfl t (by simp)))
  | assert s t m =>
    refine takes_wordLine rfl rfl ?_
    simpa using makes_assert s (hline rfl t (by simp)) (m := m)
      fun x hx => hline rfl x (by simp [Item.behind, Option.mem_def.1 hx])
  | raise s e c =>
    refine takes_wordLine rfl rfl ?_
    have he : ∀ x ∈ e, Reads r x := fun x hx => hline rfl x (by simp [Option.mem_def.1 hx])
    have hc : ∀ x ∈ c, Reads r x := fun x hx =>
      hline rfl x (by simp [Item.behind, Option.mem_def.1 hx])
    simpa using makes_raise s he hc hfits
  | global s ns => exact takes_wordLine rfl rfl (makes_global s hfits.1)
  | «nonlocal» s ns => exact takes_wordLine rfl rfl (makes_nonlocal s hfits.1)
  | importModule s path a =>
    refine takes_wordLine rfl rfl ?_
    simpa using makes_import s (a := a) hfits.1
  | importNames s path ns =>
    refine takes_wordLine rfl rfl ?_
    have hnames : (commas (ns.map fun n => .ident n.1 :: renamed n.2)).flatMap Item.tokens
        = [.punct .comma].intercalate (ns.map importTokens) := by
      rw [flatMap_commas]
      simp only [List.flatMap_cons, tokens_token]
      rfl
    simpa [hnames] using makes_importFrom s hfits.1 hfits.2.2.1
  | ifElse s x b elifs o => exact takes_compound (head?_token rfl) rfl (makes_if h)
  | whileLoop s x b o => exact takes_compound (head?_token rfl) rfl (makes_while h)
  | forLoop s x i b o => exact takes_compound (head?_token rfl) rfl (makes_for h)
  | funcDef s hd b => exact takes_funcStmt h
  | classDef s hd b => exact takes_classStmt h
  | tryExcept s b hs o f => exact takes_compound (head?_token rfl) rfl (makes_try h)
  | withItems s items b => exact takes_compound (head?_token rfl) rfl (makes_with h)

/-! ### All statements -/

theorem length_le_flatMap {α : Type} {f : α → List Token} {x : α} {xs : List α} (h : x ∈ xs) :
    (f x).length ≤ (xs.flatMap f).length := by
  rw [List.flatMap_def]
  exact (List.sublist_flatten_of_mem (List.mem_map_of_mem h)).length_le

/-- A statement in a block has fewer tokens than the statement around it. -/
theorem length_stream_of_mem {s t : Stmt} {c : Clause} (hc : c ∈ s.clauses) (ht : t ∈ c.block) :
    t.stream.length < s.stream.length := by
  obtain ⟨head, block⟩ := c
  have hne : block ≠ [] := List.ne_nil_of_mem ht
  have hclause : (Clause.mk head block).stream.length ≤ s.stream.length := by
    rw [Stmt.stream_eq]
    exact length_le_flatMap hc
  have hblock : t.stream.length ≤ (block.flatMap Stmt.stream).length :=
    length_le_flatMap ht
  rw [Clause.stream_block hne] at hclause
  simp only [List.length_append, List.length_cons] at hclause
  omega

/-- An expression on a line of a statement has no more tokens than the statement. -/
theorem length_tokens_le_stream {s : Stmt} {x : Expr} {c : Clause} (hc : c ∈ s.clauses)
    (hx : .expr x ∈ c.head) : x.tokens.length ≤ s.stream.length := by
  have hclause : c.stream.length ≤ s.stream.length := by
    rw [Stmt.stream_eq]
    exact length_le_flatMap hc
  have hhead : x.tokens.length ≤ (c.head.flatMap Item.tokens).length := by
    rw [← tokens_expr]
    exact length_le_flatMap hx
  rw [Clause.stream] at hclause
  simp only [List.length_append] at hclause
  omega

/-- Unrolled once for each token, the grammar reads a written statement. -/
theorem reads_statement {n : Nat} {s : Stmt} (hwf : s.WellFormed) {depth : Nat}
    (hdepth : s.stream.length ≤ depth) (hn : s.stream.length ≤ n) :
    ReadsStmt (statement (inner (n + 1)) depth) s := by
  induction depth generalizing s with
  | zero =>
    obtain ⟨t, ht, -⟩ := exists_opens s
    rw [List.length_eq_zero_iff.1 (Nat.le_zero.1 hdepth)] at ht
    cases ht
  | succ depth ih =>
    rw [Stmt.WellFormed] at hwf
    have hclause (c : Clause) (hc : c ∈ s.clauses) :
        (∀ i ∈ c.head, i.WellFormed) ∧ ∀ t ∈ c.block, t.WellFormed := by
      have h := hwf.2 c hc
      rwa [Clause.WellFormed] at h
    refine takes_statementOver ⟨hwf.1, fun c hc x hx => ?_, fun c hc t ht => ?_⟩
    · have hlen := length_tokens_le_stream hc hx
      exact reads_of_wellFormed (Item.wellFormed_expr.1 ((hclause c hc).1 _ hx)) (by omega)
    · have hlen := length_stream_of_mem hc ht
      exact ih ((hclause c hc).2 t ht) (by omega) (by omega)

/-! ### The module -/

/-- A source of statements that are read, each from its own tokens. -/
theorem takes_statements {body : List Stmt} {f : Stmt → List Token} {depth : Nat}
    (hread : ∀ s ∈ body, Takes (statement r depth) (f s) EndsStmt s.erase)
    (hopens : ∀ s ∈ body, ∃ t, (f s).head? = some t ∧ OpensStmt t) :
    Takes (sourceFile r depth) (body.flatMap f) (· = .eof) ⟨body.map Stmt.erase⟩ := by
  have hends (s : Stmt) (hs : s ∈ body) : ∃ t, (f s).head? = some t ∧ EndsStmt t := by
    obtain ⟨t, ht, hopens⟩ := hopens s hs
    exact ⟨t, ht, hopens.1⟩
  rw [sourceFile]
  refine (takes_skipNewlines (F := EndsStmt) fun t ht => ht.1).bind_nil ?_ ?_
  · rintro t rfl
    cases body with
    | nil => exact (by decide : EndsStmt .eof)
    | cons s body =>
      obtain ⟨t, ht, hends⟩ := hends s (by simp)
      rw [List.flatMap_cons, headD_append ht]
      exact hends
  refine Takes.bind_last (.loop (.each (A := List.map Stmt.erase) (G := EndsStmt)
    (by rintro t rfl; decide) hends ?_ ?_)) .pure
  · intro ys s hs
    obtain ⟨t, ht, hopens⟩ := hopens s hs
    refine .peek ht ?_
    rw [if_neg hopens.2.2]
    exact takes_stmt_skip (hread s hs) ys
  · refine .peek_nil ?_
    rintro t rfl
    rw [if_pos rfl]
    exact .pure

theorem takes_sourceFile {m : Module} {n depth : Nat} (hwf : m.WellFormed)
    (hn : (m.body.flatMap Stmt.stream).length ≤ n)
    (hdepth : (m.body.flatMap Stmt.stream).length ≤ depth) :
    Takes (sourceFile (inner (n + 1)) depth) (m.body.flatMap Stmt.stream) (· = .eof) m.erase := by
  refine takes_statements (fun s hs => ?_) fun s _ => exists_opens s
  have hlen : s.stream.length ≤ (m.body.flatMap Stmt.stream).length := length_le_flatMap hs
  exact reads_statement (hwf s hs) (by omega) (by omega)

/-- A text with these tokens is parsed to what the grammar reads from them, spans apart. -/
theorem exists_parse {source : String} {ts : List Token} {m : Module}
    (htokens : (Layout.lexemes source).map Lexeme.token = ts ++ [.eof])
    (h : Takes (sourceFile (inner (ts.length + 2)) (ts.length + 2)) ts (· = .eof) m) :
    ∃ m', parse source = .ok m' ∧ m'.erase = m := by
  have hlength := congrArg List.length htokens
  rw [List.length_map, List.length_append, List.length_singleton] at hlength
  have hbare : State.bare ⟨Layout.lexemes source, nowhere⟩ = bare (ts ++ [.eof]) := by
    rw [bare, ← htokens, List.map_map]
    rfl
  have hrun := shows_sourceFile (blind_inner (ts.length + 2)) (ts.length + 2)
    ⟨Layout.lexemes source, nowhere⟩
  rw [hbare, h [.eof] rfl] at hrun
  rw [parse, parseLexemes_eq, hlength]
  change ∃ m', Except.map Prod.fst (sourceFile _ _ ⟨Layout.lexemes source, nowhere⟩) = _ ∧ _
  generalize sourceFile (inner (ts.length + 2)) (ts.length + 2) _ = out at hrun ⊢
  rcases out with e | ⟨m', rest⟩
  · exact hrun.elim
  · exact ⟨m', rfl, hrun.1.symm⟩

/-- **Parsing undoes printing**: the text of a well-formed module is parsed, and the result is
the module itself, its spans apart. -/
theorem parse_print (m : Module) (h : m.WellFormed) :
    ∃ m', parse m.print = .ok m' ∧ m'.erase = m.erase :=
  exists_parse (m.map_token_lexemes h) (takes_sourceFile h (by omega) (by omega))

/-- A module with blocks in blocks, further clauses of three kinds, a string that needs all three
escapes, and expressions that share their first tokens with other forms. -/
def searchSource : Module :=
  let p : Span := nowhere
  { body := [
      .importNames p ["wasmfunc"] [("wasmfunc", some "marked"), ("i32", none)],
      .funcDef p ⟨"search", [.mk "n" p (some (.name p "i32")) none], some (.name p "i32"),
          [.name p "marked"]⟩ [
        .whileLoop p (.compare p (.number p "0")
            [(.lt, .name p "n"), (.notIn, .set p [.number p "1_0"])]) [
          .tryExcept p
            [.ifElse p (.name p "n") [.breakLoop p] [.mk (.tuple p [.name p "n"]) [.pass p]] []]
            [.mk (some (.attr p (.name p "errors") "Stop")) (some "e") [.continueLoop p]] []
            [.pass p]]
          [.assign p [.name p "s", .subscript p (.name p "a") (.number p "0")]
            (.string p "say \"\\\n\"")],
        .ret p (some (.call p (.name p "min")
          [.lambda p [.mk "k" p none (some (.noneLit p))] (.name p "k")]
          [("key", .dict p [(.name p "n", .bool p true)])]))]] }

theorem Clause.wellFormed_mk {head : List Item} {b : List Stmt} :
    (Clause.mk head b).WellFormed ↔ (∀ i ∈ head, i.WellFormed) ∧ ∀ s ∈ b, s.WellFormed := by
  rw [Clause.WellFormed]

theorem searchSource_wellFormed : searchSource.WellFormed := by
  have hname : ∀ n ∈ ["wasmfunc", "marked", "i32", "search", "n", "errors", "Stop", "e", "s", "a",
      "min", "k", "key"], isIdentifier n = true := by
    decide
  have hnumber : isNumber "0" = true ∧ isNumber "1_0" = true := by decide
  -- one equation for each form that occurs, since the general one would go on for ever
  simp [searchSource, Module.WellFormed, Clause.wellFormed_mk,
    Stmt.WellFormed.eq_1 (.importNames _ _ _), Stmt.WellFormed.eq_1 (.funcDef _ _ _),
    Stmt.WellFormed.eq_1 (.whileLoop _ _ _ _), Stmt.WellFormed.eq_1 (.tryExcept _ _ _ _ _),
    Stmt.WellFormed.eq_1 (.ifElse _ _ _ _ _), Stmt.WellFormed.eq_1 (.breakLoop _),
    Stmt.WellFormed.eq_1 (.pass _), Stmt.WellFormed.eq_1 (.continueLoop _),
    Stmt.WellFormed.eq_1 (.assign _ _ _), Stmt.WellFormed.eq_1 (.ret _ _), Expr.WellFormed,
    Item.WellFormed, Stmt.Fits, Expr.Fits, Handler.Fits, Stmt.clauses, Expr.items, Clause.line,
    Branch.clause, Handler.clause, Clause.optional, decoration, FuncHeader.items, Param.items,
    Item.behind, commas, tupleItems, names, renamed, CmpOp.tokens, Param.name, Param.annot,
    hname, hnumber]

theorem parse_print_search : searchSource.WellFormed ∧
    ∃ m', parse searchSource.print = .ok m' ∧ m'.erase = searchSource.erase :=
  ⟨searchSource_wellFormed, parse_print searchSource searchSource_wellFormed⟩

end AnnotatedWasm.Grammar
