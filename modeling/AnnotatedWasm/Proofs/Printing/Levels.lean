import AnnotatedWasm.Proofs.Printing.Taking

/-!
The levels of the expression grammar.

The grammar has a parser for each level (`parserAt`). Each token that can go on an expression does
so at one level, its `rank`. A parser of a level passes on what the next tighter level takes if the
token behind it has a higher rank, and combines operands at a token of its own rank. So what a
parser of one level reads, that of any looser level reads too (`ReadsAt.rise`).
-/

namespace AnnotatedWasm.Grammar

open Syntax

variable {r : Inner} {ts us : List Token} {F : Token → Prop} {e e' : Expr}

/-- The level at which a token goes on an expression. A string goes on another one. -/
def rank : Token → Nat
  | .punct .lParen | .punct .dot | .punct .lBracket | .string _ => 0
  | .punct .pow => 1
  | .punct .star | .punct .slash | .punct .floorDiv | .punct .percent | .punct .«at» => 2
  | .punct .plus | .punct .minus => 3
  | .punct .shiftLeft | .punct .shiftRight => 4
  | .punct .amp => 5
  | .punct .caret => 6
  | .punct .pipe => 7
  | .punct .eq | .punct .notEq | .punct .lt | .punct .gt | .punct .le | .punct .ge => 8
  | .name s =>
    if s = "in" ∨ s = "is" ∨ s = "not" then 8 else if s = "and" then 9
    else if s = "or" then 10 else 12
  | .punct .walrus | .keyword .kIf => 11
  | _ => 12

/-- The tokens that end an expression of the given level. -/
def Above (n : Nat) (t : Token) : Prop := n < rank t

instance (n : Nat) (t : Token) : Decidable (Above n t) := inferInstanceAs (Decidable (_ < _))

theorem Above.mono {m n : Nat} (h : m ≤ n) {t : Token} (ht : Above n t) : Above m t :=
  Nat.lt_of_le_of_lt h ht

/-! ### Operators between operands -/

/-- The operators that stand between operands at a level: from products to `|`, `and` and `or`. -/
def operator? : Nat → Token → Option BinOp
  | 4 => product?
  | 5 => sum?
  | 6 => shift?
  | 7 => bitAnd?
  | 8 => bitXor?
  | 9 => bitOr?
  | 12 => and?
  | 13 => or?
  | _ => fun _ => none

/-- The highest rank of a token that goes on an expression of the given level. -/
def stop : Nat → Nat
  | 0 | 1 => 0
  | 2 | 3 => 1
  | 4 => 2
  | 5 => 3
  | 6 => 4
  | 7 => 5
  | 8 => 6
  | 9 => 7
  | 10 | 11 => 8
  | 12 => 9
  | 13 => 10
  | _ => 11

theorem rank_of_operator? {n : Nat} {t : Token} {op : BinOp} (h : operator? n t = some op) :
    rank t = stop n := by
  unfold operator? at h
  split at h
  · unfold product? at h
    split at h <;> first | rfl | cases h
  · unfold sum? at h
    split at h <;> first | rfl | cases h
  · unfold shift? at h
    split at h <;> first | rfl | cases h
  · unfold bitAnd? at h
    split at h <;> first | rfl | cases h
  · unfold bitXor? at h
    split at h <;> first | rfl | cases h
  · unfold bitOr? at h
    split at h <;> first | rfl | cases h
  · unfold and? at h
    split at h <;> first | (subst t; rfl) | cases h
  · unfold or? at h
    split at h <;> first | (subst t; rfl) | cases h
  · cases h

theorem operator?_none {n : Nat} {t : Token} (h : Above (stop n) t) : operator? n t = none := by
  rw [Option.eq_none_iff_forall_ne_some]
  intro op hop
  rw [Above, rank_of_operator? hop] at h
  exact Nat.lt_irrefl _ h

/-! ### Powers and signs -/

theorem Takes.awaited {t : Token} (h : Takes (trailed r) ts F e) (ht : ts.head? = some t)
    (hne : t ≠ .keyword .kAwait) : Takes (awaited r) ts F e := by
  rw [Grammar.awaited]
  refine .peek ht ?_
  rwa [if_neg hne]

theorem Takes.power (h : Takes (Grammar.awaited r) ts F e) (hF : ∀ t, F t → Above 1 t) :
    Takes (power r) ts F e := by
  rw [Grammar.power]
  refine .peekSpan (h.bind_last (.eat_not ?_ ?_))
  · rintro u hu rfl
    exact absurd (hF _ hu) (by decide)
  · rw [if_neg (by decide)]
    exact .pure

theorem Takes.factor {t : Token} (h : Takes (Grammar.power r) ts F e) (ht : ts.head? = some t)
    (hsign : sign? t = none) : Takes (factor r) ts F e := by
  rw [Grammar.factor]
  refine .peekSpan (.peek ht ?_)
  rw [hsign]
  exact h

/-! ### Chains -/

/-- One round of reading a chain. -/
def chainRound (op? : Token → Option BinOp) (operand : Parser Expr) (start : Span) (left : Expr) :
    Parser (Step Expr) := do
  match op? (← peek) with
  | none => return .done left
  | some op =>
    advance
    let right ← operand
    return .again (.binary (← spanFrom start) op left right)

theorem chain_eq (op? : Token → Option BinOp) (operand : Parser Expr) :
    chain op? operand = (peekSpan >>= fun start => operand >>= fun first =>
      loop (chainRound op? operand start) first) := rfl

/-- The tokens start a chain that gives `e`, however it goes on. -/
def Leads (op? : Token → Option BinOp) (p : Parser Expr) (ts : List Token) (F : Token → Prop)
    (e : Expr) : Prop :=
  ∀ (us : List Token) (G : Token → Prop) (e' : Expr), (∀ t, G t → F (us.headD t)) →
    Rounds (chainRound op? p nowhere) e us G e' → Takes (chain op? p) (ts ++ us) G e'

namespace Leads

variable {op? : Token → Option BinOp} {p : Parser Expr}

theorem of_takes (h : Takes p ts F e) : Leads op? p ts F e := by
  intro us G e' hG hrounds
  rw [chain_eq]
  exact .peekSpan (h.bind hG (.loop hrounds))

/-- The chain goes on with an operator and an operand. -/
theorem binary {t : Token} {op : BinOp} (h : Leads op? p ts F e) (hop : op? t = some op)
    (hF : F t) (hr : Takes p us F e') :
    Leads op? p (ts ++ t :: us) F (.binary nowhere op e e') := by
  intro vs G x hG hrounds
  rw [List.append_assoc]
  refine h (t :: us ++ vs) G x (fun _ _ => hF) (.again (G := F) (.peek rfl ?_) (by simp) hG hrounds)
  rw [hop]
  exact .advance (hr.bind_last (.spanFrom .pure))

/-- The chain ends. -/
theorem takes (h : Leads op? p ts F e) :
    Takes (chain op? p) ts (fun t => F t ∧ op? t = none) e := by
  have hend : Takes (chain op? p) (ts ++ []) (fun t => F t ∧ op? t = none) e := by
    refine h [] _ e (fun _ ht => ht.1) (.done (.peek_nil fun t ht => ?_))
    rw [ht.2]
    exact .pure
  rwa [List.append_nil] at hend

end Leads

theorem Takes.chain {op? : Token → Option BinOp} {p : Parser Expr} (h : Takes p ts F e) :
    Takes (chain op? p) ts (fun t => F t ∧ op? t = none) e :=
  (Leads.of_takes h).takes

/-! ### Comparisons -/

theorem takes_comparison?_none : Takes comparison? [] (Above 8) none := by
  rw [comparison?]
  refine .peek_nil fun t ht => ?_
  split
  case h_10 => exact .pure
  all_goals exact absurd ht (by decide)

theorem takes_take (op : CmpOp) (t : Token) :
    Takes (comparison?.take op) [t] F (some op) :=
  .advance (.pure)

/-- An operator between two operands. -/
theorem takes_comparison? (op : CmpOp) :
    Takes comparison? op.tokens (fun t => t ≠ .name "not") (some op) := by
  rw [comparison?]
  cases op
  case is =>
    refine .peek rfl (.advance (.eat_not ?_ ?_))
    · exact fun u hu => hu
    · rw [if_neg (by decide)]
      exact .pure
  case isNot =>
    refine .peek rfl (.advance (.eat ?_))
    rw [if_pos rfl]
    exact .pure
  case notIn =>
    refine .peek rfl (.advance (.eat ?_))
    rw [if_pos rfl]
    exact .pure
  all_goals exact .peek rfl (takes_take _ _)

/-- A first operand with comparisons behind it. -/
theorem takes_comparison {rest : List (CmpOp × Expr)} {f : CmpOp × Expr → List Token}
    (hne : rest ≠ []) (h : Takes (arithmetic r) ts (Above 7) e)
    (hrest : ∀ c ∈ rest, Takes (arithmetic r) (f c) (Above 7) c.2.erase)
    (hf : ∀ c ∈ rest, ∃ t, (f c).head? = some t ∧ t ≠ .name "not") :
    Takes (comparison r) (ts ++ rest.flatMap fun c => c.1.tokens ++ f c) (Above 8)
      (.compare nowhere e (rest.map fun c => (c.1, c.2.erase))) := by
  have hg : ∀ c ∈ rest, ∃ t, (c.1.tokens ++ f c).head? = some t ∧ Above 7 t := by
    rintro ⟨op, x⟩ -
    cases op <;> exact ⟨_, rfl, by decide⟩
  rw [Grammar.comparison]
  refine .peekSpan (h.bind ?_ (Takes.bind_last (.loop (.each
    (A := List.map fun c => (c.1, c.2.erase)) (G := Above 7) (fun _ => Above.mono (by decide)) hg
    ?_ (takes_comparison?_none.bind_last .pure))) ?_))
  · intro t _
    obtain ⟨c, rest, rfl⟩ := List.exists_cons_of_ne_nil hne
    obtain ⟨u, hu, hrank⟩ := hg c (by simp)
    have hhead : ((c :: rest).flatMap fun c => c.1.tokens ++ f c).headD t = u :=
      headD_append hu _ t
    exact hhead ▸ hrank
  · intro ys c hc
    rw [List.map_append]
    refine (takes_comparison? c.1).bind (fun t _ => ?_) ((hrest c hc).bind_last .pure)
    obtain ⟨u, hu, hne⟩ := hf c hc
    rwa [List.headD_eq_head?_getD, hu]
  · obtain ⟨c, rest, rfl⟩ := List.exists_cons_of_ne_nil hne
    exact .spanFrom .pure

/-- One operand that is not compared. -/
theorem Takes.comparison (h : Takes (Grammar.arithmetic r) ts F e) (hF : ∀ t, F t → Above 8 t) :
    Takes (comparison r) ts F e := by
  rw [Grammar.comparison]
  refine .peekSpan (h.bind_last (Takes.bind_last (a := []) (.loop (.done ?_)) .pure))
  exact (takes_comparison?_none.before hF).bind_last .pure

/-! ### Boolean operators -/

theorem Takes.notTest {t : Token} (h : Takes (Grammar.comparison r) ts F e)
    (ht : ts.head? = some t) (hne : t ≠ .name "not") : Takes (notTest r) ts F e := by
  rw [Grammar.notTest]
  refine .peekSpan (.eat_not ?_ ?_)
  · intro u _
    rwa [List.headD_eq_head?_getD, ht]
  · rwa [if_neg (by decide)]

theorem Takes.expr {t : Token} (h : Takes (Grammar.orTest r) ts F e)
    (hF : ∀ t, F t → Above 11 t) (ht : ts.head? = some t) (hlambda : t ≠ .keyword .kLambda)
    (hyield : t ≠ .keyword .kYield) : Takes (expr r) ts F e := by
  rw [Grammar.expr]
  refine .peekSpan (.peek ht ?_)
  split
  · exact absurd rfl hlambda
  · exact absurd rfl hyield
  · refine h.bind_last (.eat_not ?_ ?_)
    · rintro u hu rfl
      exact absurd (hF _ hu) (by decide)
    rw [if_neg (by decide)]
    refine .eat_not ?_ ?_
    · rintro u hu rfl
      exact absurd (hF _ hu) (by decide)
    rw [if_neg (by decide)]
    exact .pure

/-! ### The parsers by level -/

/-- The parser of expressions up to a level. -/
def parserAt (r : Inner) : Nat → Parser Expr
  | 0 => trailed r
  | 1 => awaited r
  | 2 => power r
  | 3 => factor r
  | 10 => comparison r
  | 11 => notTest r
  | 14 => expr r
  | n + 1 => chain (operator? (n + 1)) (parserAt r n)

example : parserAt r 9 = arithmetic r := rfl

example : parserAt r 13 = orTest r := rfl

/-- How far up the grammar goes before a token opens a form of its own: `await` above what has
trailers, then the signs, then `not`, then `lambda` and `yield`. The others open no expression. -/
def lead : Token → Nat
  | .number _ | .string _ | .keyword .kTrue | .keyword .kFalse | .keyword .kNone
  | .punct .lParen | .punct .lBracket | .punct .lBrace | .punct .star => 0
  | .keyword .kAwait => 1
  | .punct .plus | .punct .minus | .punct .tilde => 2
  | .name s => if s = "not" then 3 else 0
  | .keyword .kLambda | .keyword .kYield => 4
  | _ => 5

theorem sign?_none {t : Token} (h : lead t ≤ 1) : sign? t = none := by
  unfold sign?
  split <;> first | rfl | exact absurd h (by decide)

/-- How far a token that opens an expression of the level leads. -/
def leadLimit : Nat → Nat
  | 0 => 0
  | 1 | 2 => 1
  | 3 | 4 | 5 | 6 | 7 | 8 | 9 | 10 => 2
  | _ => 3

theorem leadLimit_mono : ∀ m ≤ 14, ∀ n ≤ m, leadLimit n ≤ leadLimit m := by decide

theorem stop_mono : ∀ m ≤ 14, ∀ n ≤ m, stop n ≤ stop m := by decide

section Rise

variable {n : Nat} {t : Token} (ht : ts.head? = some t) (hlead : lead t ≤ leadLimit n)

include ht hlead

/-- The next level passes on what a level takes. -/
theorem Takes.succ (h : Takes (parserAt r n) ts F e) (hn : n < 14)
    (hF : ∀ t, F t → Above (stop (n + 1)) t) : Takes (parserAt r (n + 1)) ts F e := by
  have hne {u : Token} (hu : leadLimit n < lead u) : t ≠ u := by
    rintro rfl
    omega
  -- the levels at which a token could open a form of its own
  match n, hn with
  | 0, _ => exact h.awaited ht (hne (by decide))
  | 1, _ => exact h.power hF
  | 2, _ => exact h.factor ht (sign?_none hlead)
  | 9, _ => exact h.comparison hF
  | 10, _ => exact h.notTest ht (hne (by decide))
  | 13, _ => exact h.expr hF ht (hne (by decide)) (hne (by decide))
  | 3, _ | 4, _ | 5, _ | 6, _ | 7, _ | 8, _ | 11, _ | 12, _ =>
    exact h.chain.before fun u hu => ⟨hu, operator?_none (hF u hu)⟩

/-- So do all looser ones, up to a token that goes on none of them. -/
theorem Takes.rise {m : Nat} (h : Takes (parserAt r n) ts F e) (hm : n ≤ m) (hle : m ≤ 14)
    (hF : ∀ t, F t → Above (stop m) t) : Takes (parserAt r m) ts F e := by
  induction m, hm using Nat.le_induction with
  | base => exact h
  | succ m hm ih =>
    have hbelow := ih (by omega) fun t ht => (hF t ht).mono (stop_mono (m + 1) hle m (by omega))
    exact hbelow.succ ht (hlead.trans (leadLimit_mono m (by omega) n hm)) hle hF

end Rise

/-- The grammar over `r` reads an expression at a level and, as the tokens open it, at all looser
ones. -/
structure ReadsAt (r : Inner) (n : Nat) (ts : List Token) (e : Expr) : Prop where
  takes : Takes (parserAt r n) ts (Above (stop n)) e
  head : ∃ t, ts.head? = some t ∧ lead t ≤ leadLimit n

namespace ReadsAt

variable {n : Nat}

/-- What is read at one level is read at all looser ones. -/
theorem rise {m : Nat} (h : ReadsAt r n ts e) (hm : n ≤ m) (hle : m ≤ 14) : ReadsAt r m ts e := by
  obtain ⟨htakes, t, ht, hlead⟩ := h
  refine ⟨?_, t, ht, hlead.trans (leadLimit_mono m hle n hm)⟩
  exact (htakes.before fun _ hu => hu.mono (stop_mono m hle n hm)).rise ht hlead hm hle
    fun _ hu => hu

theorem expr (h : ReadsAt r n ts e) (hn : n ≤ 14) : Takes (expr r) ts (Above 11) e :=
  (h.rise hn (Nat.le_refl 14)).takes

end ReadsAt

end AnnotatedWasm.Grammar
