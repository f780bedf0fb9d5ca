import AnnotatedWasm.Proofs.Printing.RoundTrip

/-!
Operators are read by their levels.

An operand without parentheses is read at the limit of its place, whatever its own level below that,
and one in parentheses at every level.
-/

namespace AnnotatedWasm.Grammar

open Syntax

variable {r : Inner} {ts : List Token} {e : Expr} {n : Nat}

/-- What is read as a whole expression is read anywhere in parentheses. -/
theorem ReadsAt.parens (h : ReadsAt (inner n) 14 ts e) :
    ReadsAt (inner (n + 1)) 0 (.punct .lParen :: ts ++ [.punct .rParen]) e := by
  obtain ⟨htakes, t, ht, hlead⟩ := h
  refine readsAt_primary rfl (by decide) ((takes_parens ht ?_ ?_).before fun _ _ => trivial)
  · rintro rfl
    exact absurd hlead (by decide)
  · exact htakes.tupleOf.before (by rintro t rfl; decide)

/-! ### Operands -/

/-- The expression is read at its level and, with an operator that associates to the left, as the
start of a longer chain. -/
structure Stands (n : Nat) (e : Expr) : Prop where
  reads : ReadsAt (inner n) e.level e.sparse e.erase
  leads : ∀ s op l x, e = .binary s op l x → op ≠ .pow →
    Leads (operator? op.level) (parserAt (inner n) (op.level - 1)) e.sparse
      (Above (stop (op.level - 1))) e.erase

theorem level_le (e : Expr) : e.level ≤ 14 := by
  have hunary (op : UnaryOp) : op.level ≤ 14 := by cases op <;> decide
  have hbinary (op : BinOp) : op.level ≤ 14 := by cases op <;> decide
  cases e with
  | unary s op x => exact hunary op
  | binary s op l r => exact hbinary op
  | _ => simp [Expr.level]

/-- Only a chain has the level of an operator that associates to the left. -/
theorem exists_binary_of_level {e : Expr} {op : BinOp} (hop : op ≠ .pow)
    (h : e.level = op.level) : ∃ s op' l r, e = .binary s op' l r ∧ op' ≠ .pow := by
  cases e
  case binary s op' l r =>
    refine ⟨s, op', l, r, rfl, ?_⟩
    rintro rfl
    cases op <;> first | exact hop rfl | cases h
  case unary s op' x => cases op' <;> cases op <;> first | exact absurd rfl hop | cases h
  all_goals cases op <;> first | exact absurd rfl hop | cases h

section Operand

variable {x : Expr} (hx : ∀ m, x.sparse.length ≤ m → Stands m x)

include hx

/-- An operand is read at the limit of its place. -/
theorem readsAt_enclosed (limit : Nat) (hlimit : limit ≤ 14)
    (hn : (enclosed limit x.level x.sparse).length ≤ n) :
    ReadsAt (inner n) limit (enclosed limit x.level x.sparse) x.erase := by
  by_cases h : x.level ≤ limit
  · rw [enclosed, if_pos h] at hn ⊢
    exact (hx n hn).reads.rise h hlimit
  · rw [enclosed, if_neg h] at hn ⊢
    simp only [List.cons_append, List.length_cons, List.length_append, List.length_nil] at hn
    obtain ⟨m, rfl⟩ : ∃ m, n = m + 1 := ⟨n - 1, by omega⟩
    have hwhole := (hx m (by omega)).reads.rise (level_le x) (Nat.le_refl 14)
    exact hwhole.parens.rise (Nat.zero_le _) hlimit

/-- A left operand starts the chain of its operator. -/
theorem leads_enclosed {op : BinOp} (hop : op ≠ .pow)
    (hn : (enclosed op.level x.level x.sparse).length ≤ n) :
    Leads (operator? op.level) (parserAt (inner n) (op.level - 1))
      (enclosed op.level x.level x.sparse) (Above (stop (op.level - 1))) x.erase := by
  by_cases h : x.level = op.level
  · -- a chain of the same level goes on
    rw [enclosed, if_pos (Nat.le_of_eq h)] at hn ⊢
    obtain ⟨s, op', l, r, rfl, hop'⟩ := exists_binary_of_level hop h
    have hlevel : op'.level = op.level := h
    have hleads := (hx n hn).leads s op' l r rfl hop'
    rwa [hlevel] at hleads
  · -- any other operand is the first one
    have hpos : 0 < op.level := by cases op <;> decide
    have hsame : enclosed op.level x.level x.sparse = enclosed (op.level - 1) x.level x.sparse := by
      unfold enclosed
      congr 1
      rw [eq_iff_iff]
      omega
    rw [hsame] at hn ⊢
    refine .of_takes (readsAt_enclosed hx _ ?_ hn).takes
    cases op <;> decide

end Operand

/-! ### All expressions of operators -/

theorem stands_binary {s : Span} {op : BinOp} {l x : Expr} (hop : op ≠ .pow)
    (hl : ∀ m, l.sparse.length ≤ m → Stands m l) (hx : ∀ m, x.sparse.length ≤ m → Stands m x)
    (hn : (Expr.binary s op l x).sparse.length ≤ n) : Stands n (.binary s op l x) := by
  have hlevel : op.level ≤ 14 := by cases op <;> decide
  have hsparse : (Expr.binary s op l x).sparse = enclosed op.level l.level l.sparse ++
      op.token :: enclosed (op.level - 1) x.level x.sparse := by
    rw [Expr.sparse, BinOp.leftLimit, BinOp.rightLimit, if_neg hop, if_neg hop]
  have hlengths := hn
  rw [hsparse, List.length_append, List.length_cons] at hlengths
  have hleads : Leads (operator? op.level) (parserAt (inner n) (op.level - 1))
      (Expr.binary s op l x).sparse (Above (stop (op.level - 1))) (Expr.binary s op l x).erase := by
    have hright := readsAt_enclosed hx (n := n) (op.level - 1) (by omega) (by omega)
    rw [hsparse, Expr.erase]
    exact leads_binary hop (leads_enclosed hl hop (by omega)) hright.takes
  refine ⟨hleads.readsAt hop ?_, fun _ _ _ _ heq _ => by cases heq; exact hleads⟩
  obtain ⟨t, ht, hlead⟩ := (readsAt_enclosed hl (n := n) op.level hlevel (by omega)).head
  exact ⟨t, by simp [hsparse, ht], hlead⟩

theorem Operational.stands {e : Expr} (h : Operational e) :
    ∀ n, e.sparse.length ≤ n → Stands n e := by
  induction h with
  | name hid =>
    exact fun n _ => ⟨by rw [Expr.sparse, Expr.erase]; exact readsAt_name hid, by simp⟩
  | number _ =>
    exact fun n _ => ⟨by rw [Expr.sparse, Expr.erase]; exact readsAt_number _, by simp⟩
  | await _ ih =>
    intro n hn
    rw [Expr.sparse, List.length_cons] at hn
    refine ⟨?_, by simp⟩
    rw [Expr.sparse, Expr.erase]
    exact readsAt_await (readsAt_enclosed ih _ (by decide) (by omega))
  | @unary s op x _ ih =>
    rintro (_ | n) hn <;> rw [Expr.sparse, List.length_cons] at hn
    · omega
    · have hoperand := readsAt_enclosed ih op.level (by cases op <;> decide) (n := n) (by omega)
      refine ⟨?_, by simp⟩
      rw [Expr.sparse, Expr.erase]
      refine readsAt_unary ?_
      cases op <;> exact hoperand.takes
  | @binary s op l x _ _ ihl ihx =>
    intro n hn
    by_cases hop : op = .pow
    · subst hop
      have hsparse : (Expr.binary s .pow l x).sparse =
          enclosed 1 l.level l.sparse ++ .punct .pow :: enclosed 3 x.level x.sparse := by
        rw [Expr.sparse]
        rfl
      rw [hsparse, List.length_append, List.length_cons] at hn
      obtain ⟨m, rfl⟩ : ∃ m, n = m + 1 := ⟨n - 1, by omega⟩
      refine ⟨?_, fun _ _ _ _ heq hne => by cases heq; exact absurd rfl hne⟩
      rw [hsparse, Expr.erase]
      exact readsAt_pow (readsAt_enclosed ihl _ (by decide) (by omega))
        (readsAt_enclosed ihx 3 (by decide) (by omega)).takes
    · exact stands_binary hop ihl ihx hn
  | @compare s l rest _ hne _ ihl ihrest =>
    intro n hn
    refine ⟨?_, by simp⟩
    rw [Expr.sparse] at hn ⊢
    rw [List.length_append] at hn
    rw [Expr.erase]
    refine readsAt_compare hne (readsAt_enclosed ihl _ (by decide) (by omega)) fun c hc => ?_
    have hlength : (c.1.tokens ++ enclosed 9 c.2.level c.2.sparse).length ≤
        (rest.flatMap fun c => c.1.tokens ++ enclosed 9 c.2.level c.2.sparse).length :=
      length_le_flatMap (f := fun c : CmpOp × Expr => c.1.tokens ++ enclosed 9 c.2.level c.2.sparse)
        hc
    rw [List.length_append] at hlength
    exact readsAt_enclosed (ihrest c hc) _ (by decide) (by omega)
  | @ifElse s test body orelse _ _ _ iht ihb iho =>
    intro n hn
    have hlengths := hn
    simp only [Expr.sparse, List.length_append, List.length_cons] at hlengths
    obtain ⟨m, rfl⟩ : ∃ m, n = m + 1 := ⟨n - 1, by omega⟩
    refine ⟨?_, by simp⟩
    rw [Expr.sparse, Expr.erase]
    exact readsAt_ifElse (readsAt_enclosed ihb _ (by decide) (by omega))
      (readsAt_enclosed iht 13 (by decide) (by omega)).takes
      (readsAt_enclosed iho 14 (by decide) (by omega)).takes

/-! ### Texts -/

theorem tokens_sparseText {e : Expr} (h : Operational e) :
    (Layout.lexemes e.sparseText).map Lexeme.token = e.sparse ++ [.newline] ++ [.eof] := by
  obtain ⟨t, ht, -⟩ := (Operational.stands h _ (Nat.le_refl _)).reads.head
  have hgood : Layout.Good ⟨0, e.sparse⟩ :=
    ⟨by rintro (hnil : e.sparse = []); simp [hnil] at ht, h.neat.writable, h.neat.balanced⟩
  have hflows : Layout.Flows 0 [⟨0, e.sparse⟩] _ := .cons hgood (Nat.zero_le 1) (.nil 0)
  have htokens := Layout.map_token_lexemes hflows (by simp)
  rw [List.flatMap_singleton] at htokens
  simpa [Layout.marks, Expr.sparseText] using htokens

/-- A token that opens an expression opens no other statement. -/
theorem opensStmt_of_lead {t : Token} (h : lead t ≤ 3) : OpensStmt t := by
  have hwords : ∀ k ∈ clauseWords, lead (.keyword k) = 5 := by decide
  refine ⟨⟨?_, ?_⟩, ?_, ?_⟩
  · rintro rfl
    exact absurd h (by decide)
  · rintro k hk rfl
    rw [hwords k hk] at h
    exact absurd h (by decide)
  · rintro rfl
    exact absurd h (by decide)
  · rintro rfl
    exact absurd h (by decide)

theorem compound?_of_lead {t : Token} (h : lead t ≤ 3) (stmt : Parser Stmt) :
    compound? r stmt t = none := by
  unfold compound?
  split <;> first | rfl | exact absurd h (by decide)

theorem ReadsAt.makesLine {s : Span} (h : ReadsAt (inner n) 14 ts e.erase) :
    MakesLine (inner (n + 1)) ts (.expr s e) := by
  obtain ⟨htakes, t, ht, hlead⟩ := h
  have hlist : Takes (exprList (inner (n + 1))) ts (· = .newline) e.erase :=
    (Takes.tupleOf htakes).before (by rintro t rfl; decide)
  obtain ⟨node, hnode, hs⟩ := takes_exprOrAssign s hlist
  refine ⟨node, .peek ht ?_, hs⟩
  split
  case h_12 => exact hnode
  all_goals exact absurd hlead (by decide)

/-- **Operators are read by their levels.** An expression of operators, written with parentheses only
where the level of an operand is above the limit of its place, is read back, its spans apart. -/
theorem parse_sparseText (e : Expr) (h : Operational e) :
    ∃ m, parse e.sparseText = .ok m ∧ m.erase = ⟨[.expr nowhere e.erase]⟩ := by
  refine exists_parse (tokens_sparseText h) ?_
  rw [List.length_append, List.length_singleton]
  have hwhole := (Operational.stands h (e.sparse.length + 2) (by omega)).reads.rise (level_le e)
    (Nat.le_refl 14)
  obtain ⟨t, ht, hlead⟩ := hwhole.head
  have hhead : (e.sparse ++ [Token.newline]).head? = some t := by simp [ht]
  have hline : MakesLine (inner (e.sparse.length + 1 + 2)) e.sparse (.expr nowhere e) :=
    hwhole.makesLine
  have hread : ∀ s ∈ [Stmt.expr nowhere e], Takes (statement (inner (e.sparse.length + 1 + 2))
      (e.sparse.length + 1 + 2)) (e.sparse ++ [.newline]) EndsStmt s.erase := by
    simp only [List.mem_singleton, forall_eq]
    exact hline.takes hhead (compound?_of_lead hlead _)
  have hall := takes_statements (f := fun _ => e.sparse ++ [.newline]) hread
    fun _ _ => ⟨t, hhead, opensStmt_of_lead hlead⟩
  simpa [Stmt.erase] using hall

/-- An `await` has no other in front of its operand, so that needs parentheses. -/
example : (parse "await await x\n").toOption.isNone = true := by decide +kernel

/-- `- a ** - b ** c < d | e not in await f` -/
def mixedComparison : Expr :=
  let v (id : String) : Expr := .name nowhere id
  .compare nowhere
    (.unary nowhere .neg (.binary nowhere .pow (v "a")
      (.unary nowhere .neg (.binary nowhere .pow (v "b") (v "c")))))
    [(.lt, .binary nowhere .bitOr (v "d") (v "e")), (.notIn, .await nowhere (v "f"))]

/-- `(x is y) is not (p if q else r)` -/
def nestedComparison : Expr :=
  let v (id : String) : Expr := .name nowhere id
  .compare nowhere (.compare nowhere (v "x") [(.is, v "y")])
    [(.isNot, .ifElse nowhere (v "q") (v "p") (v "r"))]

/-- `1 - 2 - (3 - 4 * (5 + 6))` -/
def mixedDifference : Expr :=
  let d (text : String) : Expr := .number nowhere text
  .binary nowhere .sub (.binary nowhere .sub (d "1") (d "2"))
    (.binary nowhere .sub (d "3")
      (.binary nowhere .mul (d "4") (.binary nowhere .add (d "5") (d "6"))))

/-- `(a ** b) ** c + await (await f)` -/
def mixedSum : Expr :=
  let v (id : String) : Expr := .name nowhere id
  .binary nowhere .add (.binary nowhere .pow (.binary nowhere .pow (v "a") (v "b")) (v "c"))
    (.await nowhere (.await nowhere (v "f")))

/-- Operators of most levels, with operands on both sides of their limits. -/
def mixed : Expr :=
  let v (id : String) : Expr := .name nowhere id
  .ifElse nowhere nestedComparison
    (.binary nowhere .or
      (.binary nowhere .and (.unary nowhere .not mixedComparison) (v "g")) (v "h"))
    (.ifElse nowhere (.binary nowhere .pow (.unary nowhere .neg (v "a")) (v "b")) mixedDifference
      mixedSum)

theorem operational_mixed : Operational mixed := by
  have v (id : String) (h : isIdentifier id = true) : Operational (.name nowhere id) := .name h
  have d (text : String) (h : isNumber text = true) : Operational (.number nowhere text) :=
    .number h
  have hcomparison : Operational mixedComparison := by
    refine .compare (.unary (.binary (v "a" rfl) (.unary (.binary (v "b" rfl) (v "c" rfl)))))
      (by simp) ?_
    simp only [List.forall_mem_cons, List.not_mem_nil, false_imp_iff, implies_true, and_true]
    exact ⟨.binary (v "d" rfl) (v "e" rfl), .await (v "f" rfl)⟩
  have hnested : Operational nestedComparison := by
    refine .compare (.compare (v "x" rfl) (by simp) ?_) (by simp) ?_
    · simpa using v "y" rfl
    · simpa using Operational.ifElse (v "q" rfl) (v "p" rfl) (v "r" rfl)
  have hdifference : Operational mixedDifference :=
    .binary (.binary (d "1" rfl) (d "2" rfl)) (.binary (d "3" rfl)
      (.binary (d "4" rfl) (.binary (d "5" rfl) (d "6" rfl))))
  have hsum : Operational mixedSum :=
    .binary (.binary (.binary (v "a" rfl) (v "b" rfl)) (v "c" rfl)) (.await (.await (v "f" rfl)))
  exact .ifElse hnested (.binary (.binary (.unary hcomparison) (v "g" rfl)) (v "h" rfl))
    (.ifElse (.binary (.unary (v "a" rfl)) (v "b" rfl)) hdifference hsum)

theorem parse_sparseText_mixed : Operational mixed ∧
    mixed.sparseText = "not - a ** - b ** c < d | e not in await f and g or h " ++
      "if (x is y) is not (p if q else r) else 1 - 2 - (3 - 4 * (5 + 6)) " ++
      "if (- a) ** b else (a ** b) ** c + await (await f)\n" ∧
    ∃ m, parse mixed.sparseText = .ok m ∧ m.erase = ⟨[.expr nowhere mixed.erase]⟩ := by
  refine ⟨operational_mixed, ?_, parse_sparseText mixed operational_mixed⟩
  simp only [Expr.sparseText, mixed, mixedComparison, nestedComparison, mixedDifference, mixedSum,
    Expr.sparse, List.flatMap_cons, List.flatMap_nil]
  decide +kernel

end AnnotatedWasm.Grammar
