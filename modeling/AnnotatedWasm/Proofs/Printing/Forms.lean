import AnnotatedWasm.Proofs.Printing.Sparse

/-!
The forms of expressions.

Each form is read at its level, if the expressions inside it are read at theirs. What stands between
the parentheses of a written expression is read so. The circle is closed by induction on how often
the grammar is unrolled: once for each token is enough.
-/

namespace AnnotatedWasm.Grammar

open Syntax

variable {r : Inner} {ts us vs : List Token} {F G : Token → Prop} {e e' e₁ : Expr}

/-! ### Names and literals -/

theorem lead_name {id : String} (h : isIdentifier id = true) : lead (.name id) ≤ 0 := by
  have hne : id ≠ "not" := by
    rintro rfl
    exact absurd h (by decide)
  simp [lead, hne]

theorem readsAt_name {id : String} (h : isIdentifier id = true) :
    ReadsAt r 0 [.name id] (.name nowhere id) := by
  refine readsAt_primary rfl (lead_name h) ?_
  rw [primary]
  exact .peekSpan (.peek rfl (.advance (.spanFrom .pure)))

theorem readsAt_number (text : String) : ReadsAt r 0 [.number text] (.number nowhere text) := by
  refine readsAt_primary (t := .number text) rfl (Nat.le_refl 0) ?_
  rw [primary]
  exact .peekSpan (.peek rfl (.advance (.spanFrom .pure)))

theorem takes_strings (value : String) :
    Takes strings [.string (literal value)] (Above 0) value := by
  refine .loop ?_
  rw [← List.append_nil [_]]
  refine .again (c := value) (G := Above 0) (.peek rfl (.advance ?_)) (by simp) (fun _ h => h) ?_
  · rw [Scan.unquote_literal, String.empty_append]
    exact .pure
  · refine .done (.peek_nil fun t ht => ?_)
    split
    · exact absurd ht (Nat.lt_irrefl 0)
    · exact .pure

theorem readsAt_string (value : String) :
    ReadsAt r 0 [.string (literal value)] (.string nowhere value) := by
  refine readsAt_primary (t := .string (literal value)) rfl (Nat.le_refl 0) ?_
  rw [primary]
  exact .peekSpan (.peek rfl ((takes_strings value).bind_last (.spanFrom .pure)))

theorem readsAt_bool (value : Bool) :
    ReadsAt r 0 [.keyword (if value then .kTrue else .kFalse)] (.bool nowhere value) := by
  cases value <;>
  · refine readsAt_primary rfl (by decide) ?_
    rw [primary]
    exact .peekSpan (.peek rfl (.advance (.spanFrom .pure)))

theorem readsAt_noneLit : ReadsAt r 0 [.keyword .kNone] (.noneLit nowhere) := by
  refine readsAt_primary rfl (by decide) ?_
  rw [primary]
  exact .peekSpan (.peek rfl (.advance (.spanFrom .pure)))

/-! ### Brackets and braces -/

theorem readsAt_list {es : List Expr} (hes : ∀ x ∈ es, Reads r x) :
    ReadsAt r 0 (.punct .lBracket :: (exprTokens es ++ [.punct .rBracket]))
      (.list nowhere (es.map Expr.erase)) := by
  refine readsAt_primary rfl (by decide) ?_
  rw [primary]
  refine .peekSpan (.peek rfl (.advance ?_))
  exact (takes_listUntil (by decide) (by decide) (by decide) hes).bind_cons rfl
    (.expect (.spanFrom .pure))

/-- What a star stands before goes on as far as it can. -/
theorem takes_starred {x : Expr} (hx : Reads r x) :
    Takes (expr r) (.punct .star :: x.tokens) (Above 11) (.starred nowhere x.erase) := by
  have hprimary : Takes (primary r) (.punct .star :: x.tokens) (Above 11)
      (.starred nowhere x.erase) := by
    rw [primary]
    refine .peekSpan (.peek rfl (.advance ?_))
    exact (hx.orTest.before fun _ => Above.mono (by decide)).bind_last (.spanFrom .pure)
  exact Takes.rise (n := 0) rfl (by decide) (hprimary.trailed fun _ => Above.mono (by decide))
    (Nat.zero_le 14) (Nat.le_refl 14) fun _ h => h

/-- Braces around what makes an expression of the span. -/
theorem readsAt_braces {node : Span → Expr}
    (h : Takes (braced r) ts (· = .punct .rBrace) node) :
    ReadsAt r 0 (.punct .lBrace :: (ts ++ [.punct .rBrace])) (node nowhere) := by
  refine readsAt_primary rfl (by decide) ?_
  rw [primary]
  exact .peekSpan (.peek rfl (.advance (h.bind_cons rfl (.expect (.spanFrom .pure)))))

theorem takes_set {es : List Expr} (hne : es ≠ []) (hes : ∀ x ∈ es, Reads r x) :
    Takes (braced r) (exprTokens es) (· = .punct .rBrace)
      (fun s => .set s (es.map Expr.erase)) := by
  rw [braced]
  match es, hne with
  | [x], _ =>
    have hx := (hes x (by simp)).expr
    rw [exprTokens, List.map_singleton, List.intercalate_singleton]
    refine .peek (head?_tokens x) ?_
    rw [if_neg (by decide)]
    refine (hx.before (by rintro t rfl; decide)).bind_last (.eat_not (by rintro t rfl; decide) ?_)
    rw [if_neg (by decide)]
    refine .eat_not (by rintro t rfl; decide) ?_
    rw [if_neg (by decide)]
    exact .pure
  | x :: y :: es, _ =>
    have hx := (hes x (by simp)).expr
    rw [exprTokens, List.map_cons, List.map_cons, List.intercalate_cons_cons, ← List.map_cons,
      List.append_assoc, ← exprTokens]
    refine .peek (head?_append x _) ?_
    rw [if_neg (by decide)]
    refine hx.bind_cons (by decide) (.eat_not (by rintro t -; simp) ?_)
    rw [if_neg (by decide)]
    refine .eat ?_
    rw [if_pos rfl]
    exact (takes_listUntil (by decide) (by decide) (by decide) fun z hz =>
      hes z (List.mem_cons_of_mem x hz)).bind_last .pure

/-- The tokens of a key and its value. -/
def entryTokens (kv : Expr × Expr) : List Token := kv.1.tokens ++ .punct .colon :: kv.2.tokens

theorem takes_dict {kvs : List (Expr × Expr)}
    (hkvs : ∀ kv ∈ kvs, Reads r kv.1 ∧ Reads r kv.2) :
    Takes (braced r) ([.punct .comma].intercalate (kvs.map entryTokens)) (· = .punct .rBrace)
      (fun s => .dict s (kvs.map fun kv => (kv.1.erase, kv.2.erase))) := by
  rw [braced]
  cases kvs with
  | nil =>
    refine .peek_nil ?_
    rintro t rfl
    rw [if_pos rfl]
    exact .pure
  | cons kv kvs =>
    obtain ⟨hkey, hvalue⟩ := hkvs kv (by simp)
    rw [intercalate_cons, entryTokens, List.append_assoc, List.cons_append]
    refine .peek (head?_append kv.1 _) ?_
    rw [if_neg (by decide)]
    refine hkey.expr.bind_cons (by decide) (.eat ?_)
    rw [if_pos rfl]
    refine hvalue.expr.bind ?_ (Takes.bind_last (.loop (.each
      (A := fun ys => (kv :: ys).map fun kv => (kv.1.erase, kv.2.erase)) (G := Above 11)
      (by rintro t rfl; decide) (fun y _ => ⟨_, rfl, by decide⟩) ?_ ?_)) .pure)
    · rintro t rfl
      cases kvs with
      | nil => decide
      | cons => exact (by decide : Above 11 (.punct .comma))
    · intro ys y hy
      obtain ⟨hkey, hvalue⟩ := hkvs y (by simp [hy])
      rw [← List.cons_append, List.map_append]
      refine .eat ?_
      rw [if_pos rfl]
      refine .peek (head?_append y.1 _) ?_
      rw [if_neg (by decide)]
      exact hkey.expr.bind_cons (by decide) (.expect (hvalue.expr.bind_last .pure))
    · refine .eat_not (by rintro t rfl; decide) ?_
      rw [if_neg (by decide)]
      exact .pure

/-! ### Operators -/

theorem readsAt_await (h : ReadsAt r 0 ts e) :
    ReadsAt r 1 (.keyword .kAwait :: ts) (.await nowhere e) := by
  refine ⟨?_, _, rfl, by decide⟩
  refine Takes.peek rfl ?_
  rw [if_pos rfl]
  exact .peekSpan (.advance (h.takes.bind_last (.spanFrom .pure)))

/-- The parser of what a unary operator stands before. -/
def operandOf (r : Inner) : UnaryOp → Parser Expr
  | .not => r.notTest
  | .neg | .pos | .invert => r.factor

theorem readsAt_unary {op : UnaryOp} (h : Takes (operandOf r op) ts (Above (stop op.level)) e) :
    ReadsAt r op.level (op.token :: ts) (.unary nowhere op e) := by
  cases op
  case not =>
    refine ⟨Takes.peekSpan (.eat ?_), _, rfl, by decide⟩
    rw [if_pos rfl]
    exact h.bind_last (.spanFrom .pure)
  all_goals
    refine ⟨Takes.peekSpan (.peek rfl (.advance ?_)), _, rfl, by decide⟩
    exact h.bind_last (.spanFrom .pure)

theorem readsAt_pow (hx : ReadsAt r 1 ts e) (hy : Takes r.factor us (Above 1) e') :
    ReadsAt r 2 (ts ++ .punct .pow :: us) (.binary nowhere .pow e e') := by
  obtain ⟨htakes, t, ht, hlead⟩ := hx
  refine ⟨Takes.peekSpan (htakes.bind_cons (by decide) (.eat ?_)), t, by simp [ht], hlead⟩
  rw [if_pos rfl]
  exact hy.bind_last (.spanFrom .pure)

section Chains

variable {op : BinOp} (hop : op ≠ .pow)

include hop

theorem parserAt_level (r : Inner) :
    parserAt r op.level = chain (operator? op.level) (parserAt r (op.level - 1)) := by
  cases op <;> first | exact absurd rfl hop | rfl

/-- A chain goes on with an operator that associates to the left. -/
theorem leads_binary
    (hl : Leads (operator? op.level) (parserAt r (op.level - 1)) ts (Above (stop (op.level - 1))) e)
    (hr : Takes (parserAt r (op.level - 1)) us (Above (stop (op.level - 1))) e') :
    Leads (operator? op.level) (parserAt r (op.level - 1)) (ts ++ op.token :: us)
      (Above (stop (op.level - 1))) (.binary nowhere op e e') := by
  have htoken : operator? op.level op.token = some op ∧ Above (stop (op.level - 1)) op.token := by
    cases op <;> first | exact absurd rfl hop | exact ⟨rfl, by decide⟩
  exact hl.binary htoken.1 htoken.2 hr

theorem Leads.readsAt
    (h : Leads (operator? op.level) (parserAt r (op.level - 1)) ts (Above (stop (op.level - 1))) e)
    (hhead : ∃ t, ts.head? = some t ∧ lead t ≤ leadLimit op.level) : ReadsAt r op.level ts e := by
  refine ⟨?_, hhead⟩
  rw [parserAt_level hop]
  refine h.takes.before fun t ht => ⟨ht.mono ?_, operator?_none ht⟩
  cases op <;> first | exact absurd rfl hop | decide

end Chains

theorem readsAt_compare {rest : List (CmpOp × Expr)} (hne : rest ≠ [])
    {f : CmpOp × Expr → List Token} (hx : ReadsAt r 9 ts e)
    (hrest : ∀ c ∈ rest, ReadsAt r 9 (f c) c.2.erase) :
    ReadsAt r 10 (ts ++ rest.flatMap fun c => c.1.tokens ++ f c)
      (.compare nowhere e (rest.map fun c => (c.1, c.2.erase))) := by
  obtain ⟨htakes, t, ht, hlead⟩ := hx
  refine ⟨?_, t, by simp [ht], hlead⟩
  refine takes_comparison hne htakes (fun c hc => (hrest c hc).takes) fun c hc => ?_
  obtain ⟨u, hu, hlead⟩ := (hrest c hc).head
  refine ⟨u, hu, ?_⟩
  rintro rfl
  exact absurd hlead (by decide)

/-! ### Whole expressions -/

theorem readsAt_ifElse (hx : ReadsAt r 13 ts e) (hy : Takes r.orTest us (Above 10) e')
    (hz : Takes r.expr vs (Above 11) e₁) :
    ReadsAt r 14 (ts ++ .keyword .kIf :: (us ++ .keyword .kElse :: vs))
      (.ifElse nowhere e' e e₁) := by
  obtain ⟨htakes, t, ht, hlead⟩ := hx
  refine ⟨Takes.peekSpan (.peek (t := t) (by simp [ht]) ?_), t, by simp [ht], hlead⟩
  split
  · exact absurd hlead (by decide)
  · exact absurd hlead (by decide)
  refine htakes.bind_cons (by decide) (.eat ?_)
  rw [if_pos rfl]
  exact hy.bind_cons (by decide) (.expect (hz.bind_last (.spanFrom .pure)))

theorem takes_named {t v : Expr} (ht : Reads r t) (hv : Reads r v) :
    Takes (expr r) (t.tokens ++ .punct .walrus :: v.tokens) (Above 11)
      (.named nowhere t.erase v.erase) := by
  rw [expr]
  refine .peekSpan (.peek (head?_append t _) ?_)
  refine (readsAt_tokens ht.primary 13 (by decide)).takes.bind_cons (by decide)
    (.eat_not (by simp) ?_)
  rw [if_neg (by decide)]
  refine .eat ?_
  rw [if_pos rfl]
  exact hv.expr.bind_last (.spanFrom .pure)

theorem takes_yieldFrom {v : Expr} (hv : Reads r v) :
    Takes (expr r) (.keyword .kYield :: .keyword .kFrom :: v.tokens) (Above 11)
      (.yieldFrom nowhere v.erase) := by
  rw [expr]
  refine .peekSpan (.peek rfl (.peekSpan (.advance (.eat ?_))))
  rw [if_pos rfl]
  exact hv.expr.bind_last (.spanFrom .pure)

theorem takes_yield {v : Option Expr} (hv : ∀ x ∈ v, Reads r x) :
    Takes (expr r) (.keyword .kYield :: ((v.map .expr).toList).flatMap Item.tokens)
      (· = .punct .rParen) (.yield nowhere (v.map Expr.erase)) := by
  rw [expr]
  refine .peekSpan (.peek rfl (.peekSpan (.advance ?_)))
  cases v with
  | none =>
    refine .eat_not (by rintro t rfl; simp) ?_
    rw [if_neg (by decide)]
    refine .peek_nil ?_
    rintro t rfl
    exact .spanFrom .pure
  | some x =>
    have hx := (hv x rfl).expr
    rw [Option.map_some, Option.toList_some, List.flatMap_singleton, tokens_expr]
    refine .eat_not (fun t _ => ?_) ?_
    · rw [headD_tokens]
      simp
    rw [if_neg (by decide)]
    refine .peek (head?_tokens x) ?_
    exact (hx.before (by rintro t rfl; decide)).bind_last (.spanFrom .pure)

/-! ### Parameters -/

/-- An expression behind a mark, or nothing. -/
theorem takes_behind {p : Parser Expr} {t : Token} {o : Option Expr}
    (ho : ∀ x ∈ o, Takes p x.tokens F x.erase) (ht : ∀ u, F u → u ≠ t) :
    Takes (after? t p) ((Item.behind (.token t) o).flatMap Item.tokens) F
      (o.map Expr.erase) := by
  cases o with
  | none => exact .after?_none ht
  | some x => simpa [Item.behind] using Takes.after? (t := t) (ho x rfl)

theorem headD_behind {t u : Token} {o : Option Expr} (h : G u) (ht : G t) :
    G (((Item.behind (.token t) o).flatMap Item.tokens).headD u) := by
  cases o with
  | none => exact h
  | some x => simpa [Item.behind] using ht

theorem takes_param {annotated : Bool} {p : Param} (hannot : annotated = false → p.annot = none)
    (hcolon : annotated = true → ∀ t, F t → t ≠ .punct .colon)
    (hF : ∀ t, F t → Above 11 t ∧ t ≠ .punct .assign)
    (hp : ∀ x, .expr x ∈ p.items → Reads r x) :
    Takes (param r annotated) (p.items.flatMap Item.tokens) F p.erase := by
  obtain ⟨n, s, a, d⟩ := p
  have ha : ∀ x ∈ a, Reads r x := by
    rintro x rfl
    exact hp x (by simp [Param.items, Item.behind])
  have hd : ∀ x ∈ d, Reads r x := by
    rintro x rfl
    exact hp x (by simp [Param.items, Item.behind])
  have hdefault : Takes (after? (.punct .assign) r.expr)
      ((Item.behind (.mark .assign) d).flatMap Item.tokens) F (d.map Expr.erase) :=
    takes_behind (fun x hx => (hd x hx).expr.before fun t ht => (hF t ht).1)
      fun t ht => (hF t ht).2
  rw [param, Param.items, Param.erase_mk, List.flatMap_append, List.flatMap_cons, tokens_token]
  refine .peekSpan (.identifier ?_)
  cases annotated with
  | false =>
    obtain rfl : a = none := hannot rfl
    exact Takes.bind_nil (G := fun _ => True) .pure (fun _ _ => trivial)
      (hdefault.bind_last (.spanFrom .pure))
  | true =>
    refine (takes_behind (F := fun t => F t ∨ t = .punct .assign) ?_ ?_).bind ?_
      (hdefault.bind_last (.spanFrom .pure))
    · rintro x hx
      refine (ha x hx).expr.before ?_
      rintro t (ht | rfl)
      · exact (hF t ht).1
      · decide
    · rintro t (ht | rfl)
      · exact hcolon rfl t ht
      · simp
    · intro t ht
      exact headD_behind (G := fun t => F t ∨ t = .punct .assign) (.inl ht) (.inr rfl)

/-- Parameters up to the mark that closes them. -/
theorem takes_params {close : Punct} {annotated : Bool} {ps : List Param}
    (hannot : annotated = false → ∀ p ∈ ps, p.annot = none)
    (hcolon : annotated = true → close ≠ .colon) (hcomma : close ≠ .comma)
    (hassign : close ≠ .assign) (hrank : Above 11 (.punct close))
    (hps : ∀ p ∈ ps, ∀ x, .expr x ∈ p.items → Reads r x) :
    Takes (listUntil (.punct close) (param r annotated))
      ((commas (ps.map Param.items)).flatMap Item.tokens) (· = .punct close)
      (ps.map Param.erase) := by
  rw [flatMap_commas]
  refine .listUntil (by simpa using hcomma) (fun p hp => ?_) ?_
  · refine takes_param (fun h => hannot h p hp) ?_ ?_ (hps p hp)
    · rintro h t (rfl | rfl)
      · simp
      · simpa using hcolon h
    · rintro t (rfl | rfl)
      · decide
      · exact ⟨hrank, by simpa using hassign⟩
  · rintro ⟨n, s, a, d⟩ -
    exact ⟨.name n, by simp [Param.items], by simp⟩

theorem takes_lambda {ps : List Param} {b : Expr} (hps : ∀ p ∈ ps, p.annot = none)
    (hparams : ∀ p ∈ ps, ∀ x, .expr x ∈ p.items → Reads r x) (hb : Reads r b) :
    Takes (expr r)
      (.keyword .kLambda :: ((commas (ps.map Param.items)).flatMap Item.tokens
        ++ .punct .colon :: b.tokens))
      (Above 11) (.lambda nowhere (ps.map Param.erase) b.erase) := by
  rw [expr]
  refine .peekSpan (.peek rfl (.peekSpan (.advance ?_)))
  exact (takes_params (fun _ => hps) (by simp) (by decide) (by decide) (by decide)
    hparams).bind_cons rfl (.expect (hb.expr.bind_last (.spanFrom .pure)))

/-! ### Tuples -/

theorem Takes.endsList {α : Type} {t : Token} {f : Bool → Parser α} {b : α}
    (ht : ts.head? = some t) (h : Takes (f (endsList t)) ts F b) :
    Takes ((do return Grammar.endsList (← Grammar.peek)) >>= f) ts F b := by
  rw [bind_assoc]
  refine .peek ht ?_
  rwa [pure_bind]

theorem takes_tuple {es : List Expr} (hne : es ≠ [])
    (hes : ∀ x ∈ es, Takes r.expr x.tokens (Above 11) x.erase) :
    Takes (exprList r) ((tupleItems es).flatMap Item.tokens) (· = .punct .rParen)
      (.tuple nowhere (es.map Expr.erase)) := by
  rw [exprList, tupleOf]
  rcases es with _ | ⟨x, _ | ⟨y, es⟩⟩
  · exact absurd rfl hne
  · simp only [tupleItems, List.flatMap_cons, List.flatMap_nil, tokens_expr, tokens_token,
      List.append_nil]
    refine .peekSpan ((hes x (by simp)).bind_cons (by decide) (.peek rfl ?_))
    rw [if_neg (by simp)]
    refine Takes.bind_last (a := [x.erase]) (.loop (.done (.eat ?_))) (.spanFrom .pure)
    rw [if_pos rfl, bind_assoc]
    refine .peek_nil ?_
    rintro t rfl
    exact .pure
  · rw [tupleItems, flatMap_commas_exprs, exprTokens, intercalate_cons]
    · refine .peekSpan ((hes x (by simp)).bind
        (fun _ _ => (by decide : Above 11 (.punct .comma))) (.peek rfl ?_))
      rw [if_neg (by simp)]
      refine Takes.bind_last (.loop (.each (A := fun ys => (x :: ys).map Expr.erase) (G := Above 11)
        (by rintro t rfl; decide) (fun z _ => ⟨_, rfl, by decide⟩) ?_ ?_)) (.spanFrom .pure)
      · intro ys z hz
        rw [← List.cons_append, List.map_append]
        refine .eat ?_
        rw [if_pos rfl]
        exact .endsList (head?_tokens z) ((hes z (List.mem_cons_of_mem x hz)).bind_last .pure)
      · refine .eat_not (by rintro t rfl; decide) ?_
        rw [if_neg (by decide)]
        exact .pure
    · simp

/-! ### All forms -/

theorem flatMap_commas_args (args : List Expr) (kws : List (String × Expr)) :
    (commas (args.map (fun x => [.expr x])
      ++ kws.map fun k => [.ident k.1, .mark .assign, .expr k.2])).flatMap Item.tokens
      = [.punct .comma].intercalate ((allArgs args kws).map argTokens) := by
  rw [commas, flatMap_intercalate, allArgs]
  simp [Function.comp_def, argTokens]

theorem flatMap_commas_entries (kvs : List (Expr × Expr)) :
    (commas (kvs.map fun kv => [.expr kv.1, .mark .colon, .expr kv.2])).flatMap Item.tokens
      = [.punct .comma].intercalate (kvs.map entryTokens) := by
  have hentry (kv : Expr × Expr) :
      [Item.expr kv.1, .mark .colon, .expr kv.2].flatMap Item.tokens = entryTokens kv := by
    simp [entryTokens]
  simp only [flatMap_commas, hentry]

/-- What stands between the parentheses of an expression is read as that expression. A tuple is
the one form that an expression without parentheses cannot have. -/
theorem takes_body (hfits : e.Fits) (htuple : ∀ s es, e ≠ .tuple s es)
    (hname : ∀ k, isIdentifier k = true → Takes r.expr [.name k] (Above 11) (.name nowhere k))
    (hx : ∀ x, .expr x ∈ e.items → Reads r x) :
    Takes (expr r) (e.items.flatMap Item.tokens) (· = .punct .rParen) e.erase := by
  by_cases hyield : ∃ s v, e = .yield s v
  · obtain ⟨s, v, rfl⟩ := hyield
    have hv : ∀ x ∈ v, Reads r x := by
      rintro x rfl
      exact hx x (by simp [Expr.items])
    cases v <;> simpa [Expr.items, Expr.erase] using takes_yield hv
  have hgroups {groups : List (List Item)} (h : ∀ i ∈ commas groups, i ∈ e.items) :
      ∀ g ∈ groups, ∀ x, .expr x ∈ g → Reads r x := fun g hg x hi =>
    hx x (h _ (mem_intercalate_of_mem hg hi))
  have hexprs {es : List Expr} (h : ∀ i ∈ commas (es.map fun x => [.expr x]), i ∈ e.items) :
      ∀ x ∈ es, Reads r x := by
    simpa using hgroups h
  have hat {x : Expr} (h : .expr x ∈ e.items) (n : Nat) (hn : n ≤ 14) :
      ReadsAt r n x.tokens x.erase := readsAt_tokens (hx x h).primary n hn
  refine .before (G := Above 11) ?_ (by rintro t rfl; decide)
  cases e with
  | name s id => simpa [Expr.items, Expr.erase] using (readsAt_name hfits).expr (by decide)
  | number s text => simpa [Expr.items, Expr.erase] using (readsAt_number text).expr (by decide)
  | string s value => simpa [Expr.items, Expr.erase] using (readsAt_string value).expr (by decide)
  | bool s value => simpa [Expr.items, Expr.erase] using (readsAt_bool value).expr (by decide)
  | noneLit s => simpa [Expr.items, Expr.erase] using readsAt_noneLit.expr (by decide)
  | unary s op x =>
    have hoperand : Takes (operandOf r op) x.tokens (Above (stop op.level)) x.erase := by
      have hoperand := hx x (by simp [Expr.items])
      cases op <;> first | exact hoperand.factor | exact hoperand.notTest
    simpa [Expr.items, Expr.erase] using (readsAt_unary hoperand).expr (by cases op <;> decide)
  | binary s op x y =>
    have hx' := hat (x := x) (by simp [Expr.items])
    have hy' := hat (x := y) (by simp [Expr.items])
    have h : ReadsAt r op.level (x.tokens ++ op.token :: y.tokens)
        (.binary nowhere op x.erase y.erase) := by
      by_cases hop : op = .pow
      · subst hop
        exact readsAt_pow (hx' 1 (by decide)) (hx y (by simp [Expr.items])).factor
      · have hlevel : op.level - 1 ≤ 14 := by cases op <;> decide
        have hleads := leads_binary hop (.of_takes (hx' _ hlevel).takes) (hy' _ hlevel).takes
        exact hleads.readsAt hop ⟨_, head?_append x _, Nat.zero_le _⟩
    simpa [Expr.items, Expr.erase] using h.expr (by cases op <;> decide)
  | compare s x rest =>
    have hrest : ∀ c ∈ rest, ReadsAt r 9 c.2.tokens c.2.erase := fun c hc =>
      hat (List.mem_cons_of_mem _ (List.mem_flatMap.2 ⟨c, hc, by simp⟩)) 9 (by decide)
    have h := readsAt_compare hfits (hat (x := x) (by simp [Expr.items]) 9 (by decide)) hrest
    simpa [Expr.items, Expr.erase, List.flatMap_assoc] using h.expr (by decide)
  | ifElse s t b o =>
    have h := readsAt_ifElse (hat (x := b) (by simp [Expr.items]) 13 (by decide))
      (hx t (by simp [Expr.items])).orTest (hx o (by simp [Expr.items])).expr
    simpa [Expr.items, Expr.erase] using h.expr (by decide)
  | lambda s ps b =>
    have hparams : ∀ p ∈ ps, ∀ x, .expr x ∈ p.items → Reads r x :=
      List.forall_mem_map.1 (hgroups fun i hi => by simp [Expr.items, hi])
    simpa [Expr.items, Expr.erase] using
      takes_lambda (fun p hp => (hfits p hp).2) hparams (hx b (by simp [Expr.items]))
  | call s f args kws =>
    have hall : ∀ g ∈ args.map (fun x => [Item.expr x])
          ++ kws.map fun k => [.ident k.1, .mark .assign, .expr k.2],
        ∀ x, .expr x ∈ g → Reads r x :=
      hgroups fun i hi => by simp [Expr.items, hi]
    rw [List.forall_mem_append, List.forall_mem_map, List.forall_mem_map] at hall
    have h := readsAt_call (fun x h => hall.1 x h x (by simp)) (fun k h => hall.2 k h k.2 (by simp))
      (fun k hk => hname k.1 (hfits k hk)) (hx f (by simp [Expr.items]))
    simpa [Expr.items, Expr.erase, flatMap_commas_args] using h.expr (by decide)
  | attr s v f =>
    simpa [Expr.items, Expr.erase] using
      (readsAt_attr (hx v (by simp [Expr.items])) f).expr (by decide)
  | subscript s v i =>
    simpa [Expr.items, Expr.erase] using
      (readsAt_subscript (hx v (by simp [Expr.items])) (hx i (by simp [Expr.items]))).expr
        (by decide)
  | tuple s es => exact absurd rfl (htuple s es)
  | list s es =>
    have hes : ∀ x ∈ es, Reads r x := hexprs fun i hi => by simp [Expr.items, hi]
    simpa [Expr.items, Expr.erase, flatMap_commas_exprs] using (readsAt_list hes).expr (by decide)
  | dict s kvs =>
    have hall : ∀ kv ∈ kvs, ∀ x, .expr x ∈ [Item.expr kv.1, .mark .colon, .expr kv.2] →
        Reads r x :=
      List.forall_mem_map.1 (hgroups fun i hi => by simp [Expr.items, hi])
    have h := readsAt_braces (takes_dict fun kv hkv =>
      ⟨hall kv hkv kv.1 (by simp), hall kv hkv kv.2 (by simp)⟩)
    simpa [Expr.items, Expr.erase, flatMap_commas_entries] using h.expr (by decide)
  | set s es =>
    have hes : ∀ x ∈ es, Reads r x := hexprs fun i hi => by simp [Expr.items, hi]
    simpa [Expr.items, Expr.erase, flatMap_commas_exprs] using
      (readsAt_braces (takes_set hfits hes)).expr (by decide)
  | starred s v =>
    simpa [Expr.items, Expr.erase] using takes_starred (hx v (by simp [Expr.items]))
  | await s v =>
    have h := readsAt_await (hat (x := v) (by simp [Expr.items]) 0 (by decide))
    simpa [Expr.items, Expr.erase] using h.expr (by decide)
  | yield s v => exact absurd ⟨s, v, rfl⟩ hyield
  | yieldFrom s v =>
    simpa [Expr.items, Expr.erase] using takes_yieldFrom (hx v (by simp [Expr.items]))
  | named s t v =>
    simpa [Expr.items, Expr.erase] using
      takes_named (hx t (by simp [Expr.items])) (hx v (by simp [Expr.items]))

/-! ### Expressions in parentheses -/

theorem length_tokens (e : Expr) :
    e.tokens.length = (e.items.flatMap Item.tokens).length + 2 := by
  rw [Expr.tokens_eq]
  simp

/-- An expression inside another one has fewer tokens. -/
theorem length_tokens_of_mem {e x : Expr} (h : .expr x ∈ e.items) :
    x.tokens.length + 2 ≤ e.tokens.length := by
  have hsub : x.tokens.length ≤ (e.items.flatMap Item.tokens).length := by
    obtain ⟨before, after, hitems⟩ := List.append_of_mem h
    rw [hitems]
    simp
    omega
  rw [length_tokens e]
  omega

theorem mem_tupleItems {x : Expr} {es : List Expr} (h : x ∈ es) : .expr x ∈ tupleItems es := by
  match es with
  | [y] => simpa [tupleItems] using h
  | y :: z :: es =>
    rw [tupleItems]
    · exact mem_intercalate_of_mem (List.mem_map_of_mem h) (by simp)
    · simp

/-- No form but the empty tuple starts with a closing parenthesis. -/
theorem exists_items (e : Expr) (h : ∀ s, e ≠ .tuple s []) :
    ∃ i is, e.items = i :: is ∧ i ≠ .mark .rParen := by
  cases e with
  | unary s op x => cases op <;> exact ⟨_, _, rfl, by simp [UnaryOp.token]⟩
  | tuple s es =>
    match es with
    | [] => exact absurd rfl (h s)
    | [x] => exact ⟨_, _, rfl, by simp⟩
    | x :: y :: es => exact ⟨_, _, rfl, by simp⟩
  | _ => exact ⟨_, _, rfl, by simp⟩

/-- What is read as a list of expressions is read in parentheses. -/
theorem takes_parens {t : Token} (ht : ts.head? = some t) (hne : t ≠ .punct .rParen)
    (h : Takes (exprList r) ts (· = .punct .rParen) e) :
    Takes (primary r) (.punct .lParen :: ts ++ [.punct .rParen]) (fun _ => True) e := by
  rw [primary, List.cons_append]
  refine .peekSpan (.peek rfl (.advance (.eat_not ?_ ?_)))
  · intro u _
    rwa [headD_append ht]
  · rw [if_neg (by decide)]
    exact h.bind_cons rfl (.expect .pure)

theorem takes_tokens (hne : ∀ s, e ≠ .tuple s [])
    (h : Takes (exprList r) (e.items.flatMap Item.tokens) (· = .punct .rParen) e.erase) :
    Takes (primary r) e.tokens (fun _ => True) e.erase := by
  rw [Expr.tokens_eq]
  obtain ⟨i, is, hitems, hi⟩ := exists_items e hne
  rw [hitems, List.flatMap_cons] at h ⊢
  cases i with
  | token t => exact takes_parens (t := t) (by simp) (by simpa using hi) h
  | expr x => exact takes_parens (t := .punct .lParen) (by simp [head?_tokens]) (by decide) h

theorem takes_emptyTuple (s : Span) :
    Takes (primary r) (Expr.tuple s []).tokens F (Expr.tuple s []).erase := by
  rw [primary, Expr.tokens_eq, Expr.erase]
  refine .peekSpan (.peek rfl (.advance (.eat ?_)))
  rw [if_pos rfl]
  exact .spanFrom .pure

/-- The grammar reads a written expression, if it is unrolled once for each token. -/
theorem takes_primary (n : Nat) (e : Expr) (hwf : e.WellFormed) (hlen : e.tokens.length ≤ n) :
    Takes (primary (inner n)) e.tokens (fun _ => True) e.erase := by
  induction n using Nat.strongRecOn generalizing e with
  | ind n ih =>
    rw [Expr.WellFormed] at hwf
    obtain ⟨m, rfl⟩ : ∃ m, n = m + 2 := ⟨n - 2, by have := length_tokens e; omega⟩
    have hsub (x : Expr) (hx : .expr x ∈ e.items) (k : Nat) (hk : m ≤ k) (hk' : k < m + 2) :
        Takes (primary (inner k)) x.tokens (fun _ => True) x.erase := by
      have := length_tokens_of_mem hx
      exact ih k hk' x (Item.wellFormed_expr.1 (hwf.2 _ hx)) (by omega)
    by_cases htuple : ∃ s es, e = .tuple s es
    · obtain ⟨s, es, rfl⟩ := htuple
      by_cases hes : es = []
      · subst hes
        exact takes_emptyTuple s
      · refine takes_tokens (by simp [hes]) ?_
        rw [Expr.erase]
        refine takes_tuple hes fun x hx => ?_
        exact (readsAt_tokens (hsub x (mem_tupleItems hx) (m + 1) (by omega) (by omega)) 14
          (by decide)).takes
    · refine takes_tokens (by rintro s rfl; exact htuple ⟨s, [], rfl⟩) ?_
      have hbody : Takes (expr (inner (m + 1))) (e.items.flatMap Item.tokens)
          (· = .punct .rParen) e.erase :=
        takes_body hwf.1 (fun s es h => htuple ⟨s, es, h⟩)
          (fun k hk => (readsAt_name hk).expr (by decide))
          fun x hx => reads_inner (hsub x hx m (by omega) (by omega))
            (hsub x hx (m + 1) (by omega) (by omega))
      refine hbody.tupleOf.before ?_
      rintro t rfl
      exact ⟨rfl, by simp⟩

/-- So it does wherever an expression may stand. -/
theorem reads_of_wellFormed {n : Nat} (hwf : e.WellFormed) (hlen : e.tokens.length ≤ n) :
    Reads (inner (n + 1)) e :=
  reads_inner (takes_primary n e hwf hlen) (takes_primary (n + 1) e hwf (by omega))

end AnnotatedWasm.Grammar
