import AnnotatedWasm.Proofs.Printing.Levels
import AnnotatedWasm.Proofs.Printing.Stream

/-!
Parsing written expressions.

An expression is written in parentheses, so whatever the level of the grammar that meets it, it
is read as a primary, and what stands between the parentheses is read at the level of its form.
The result is the expression itself, its spans apart.
-/

namespace AnnotatedWasm.Grammar

open Syntax

variable {r : Inner} {ts us : List Token} {F : Token → Prop} {e : Expr}

/-! ### Operands -/

theorem head?_tokens (e : Expr) : e.tokens.head? = some (.punct .lParen) := by
  rw [Expr.tokens_eq]
  rfl

theorem head?_append (e : Expr) (ts : List Token) :
    (e.tokens ++ ts).head? = some (.punct .lParen) := by
  simp [head?_tokens]

theorem headD_tokens (e : Expr) (t : Token) : e.tokens.headD t = .punct .lParen := by
  rw [List.headD_eq_head?_getD, head?_tokens]
  rfl

/-- The grammar over `r` reads a written expression, wherever one may stand. -/
structure Reads (r : Inner) (x : Expr) : Prop where
  primary : Takes (primary r) x.tokens (fun _ => True) x.erase
  expr : Takes r.expr x.tokens (Above 11) x.erase
  orTest : Takes r.orTest x.tokens (Above 10) x.erase
  notTest : Takes r.notTest x.tokens (Above 8) x.erase
  factor : Takes r.factor x.tokens (Above 1) x.erase

/-! ### Lists of expressions -/

@[simp] theorem tokens_token (t : Token) : (Item.token t).tokens = [t] := by rw [Item.tokens]

@[simp] theorem tokens_expr (e : Expr) : (Item.expr e).tokens = e.tokens := by rw [Item.tokens]

@[simp] theorem flatMap_token (ts : List Token) :
    (ts.map Item.token).flatMap Item.tokens = ts := by
  induction ts with
  | nil => rfl
  | cons t ts ih => rw [List.map_cons, List.flatMap_cons, ih, tokens_token, List.singleton_append]

theorem flatMap_intercalate {p : Punct} (groups : List (List Item)) :
    ([.mark p].intercalate groups).flatMap Item.tokens
      = [.punct p].intercalate (groups.map fun g => g.flatMap Item.tokens) := by
  induction groups with
  | nil => rfl
  | cons g groups ih =>
    cases groups with
    | nil => simp
    | cons g' groups =>
      rw [List.intercalate_cons_cons, List.map_cons, List.map_cons, List.intercalate_cons_cons,
        List.flatMap_append, List.flatMap_append, ih]
      simp

/-- The first of some groups, and the others with their marks. -/
theorem intercalate_cons {t : Token} {γ : Type} (f : γ → List Token) (x : γ) (xs : List γ) :
    [t].intercalate ((x :: xs).map f) = f x ++ xs.flatMap fun y => t :: f y := by
  induction xs generalizing x with
  | nil => simp
  | cons y xs ih =>
    rw [List.map_cons, List.map_cons, List.intercalate_cons_cons, ← List.map_cons, ih]
    simp

theorem flatMap_commas {α : Type} (f : α → List Item) (xs : List α) :
    (commas (xs.map f)).flatMap Item.tokens
      = [.punct .comma].intercalate (xs.map fun x => (f x).flatMap Item.tokens) := by
  rw [commas, flatMap_intercalate, List.map_map]
  rfl

/-- Expressions with commas between them. -/
def exprTokens (es : List Expr) : List Token := [.punct .comma].intercalate (es.map Expr.tokens)

theorem flatMap_commas_exprs (es : List Expr) :
    (commas (es.map fun x => [.expr x])).flatMap Item.tokens = exprTokens es := by
  rw [flatMap_commas]
  simp [exprTokens]

theorem takes_listUntil {p : Punct} (hp : p ≠ .comma) (hstart : p ≠ .lParen)
    (hrank : Above 11 (.punct p)) {es : List Expr} (hes : ∀ x ∈ es, Reads r x) :
    Takes (listUntil (.punct p) r.expr) (exprTokens es) (fun t => t = .punct p)
      (es.map Expr.erase) := by
  refine .listUntil (by simpa using hp) (fun x hx => (hes x hx).expr.before ?_) fun x hx => ?_
  · rintro t (rfl | rfl)
    · decide
    · exact hrank
  · exact ⟨_, head?_tokens x, by simpa using hstart.symm⟩

/-- One item without a comma behind it. -/
theorem Takes.tupleOf {item : Parser Expr} {stop : Parser Bool} (h : Takes item ts F e) :
    Takes (tupleOf item stop) ts (fun t => F t ∧ t ≠ .punct .comma) e := by
  rw [Grammar.tupleOf]
  refine .peekSpan ((h.before fun _ ht => ht.1).bind_last (.peek_nil fun t ht => ?_))
  rw [if_pos ht.2]
  exact .pure

theorem takes_exprList {x : Expr} (hx : Reads r x) :
    Takes (exprList r) x.tokens (fun t => Above 11 t ∧ t ≠ .punct .comma) x.erase :=
  hx.expr.tupleOf

/-! ### Primaries with what trails them -/

/-- One round of reading what trails a primary. -/
def trailer (r : Inner) (start : Span) (e : Expr) : Parser (Step Expr) := do
  match ← peek with
  | .punct .lParen =>
    advance
    let (args, keywords) ← callArgs r
    expect (.punct .rParen)
    return .again (.call (← spanFrom start) e args keywords)
  | .punct .dot =>
    advance
    let field ← identifier
    return .again (.attr (← spanFrom start) e field)
  | .punct .lBracket =>
    advance
    let index ← exprList r
    expect (.punct .rBracket)
    return .again (.subscript (← spanFrom start) e index)
  | _ => return .done e

theorem trailed_eq (r : Inner) :
    trailed r = (peekSpan >>= fun start => primary r >>= fun first =>
      loop (trailer r start) first) := rfl

theorem takes_trailer_done {start : Span} :
    Takes (trailer r start e) [] (Above 0) (.done e) := by
  rw [trailer]
  refine .peek_nil fun t ht => ?_
  split
  case h_4 => exact .pure
  all_goals exact absurd ht (by decide)

/-- A primary behind which nothing trails. -/
theorem Takes.trailed (h : Takes (primary r) ts F e) (hF : ∀ t, F t → Above 0 t) :
    Takes (Grammar.trailed r) ts F e := by
  rw [trailed_eq]
  exact .peekSpan (h.bind_last (.loop (.done (takes_trailer_done.before hF))))

theorem readsAt_primary {t : Token} (ht : ts.head? = some t) (hlead : lead t ≤ 0)
    (h : Takes (primary r) ts (Above 0) e) : ReadsAt r 0 ts e :=
  ⟨h.trailed fun _ h => h, t, ht, hlead⟩

/-- An expression in parentheses is read at every level. -/
theorem readsAt_tokens {x : Expr} (h : Takes (primary r) x.tokens (fun _ => True) x.erase) (n : Nat)
    (hn : n ≤ 14) : ReadsAt r n x.tokens x.erase :=
  (readsAt_primary (head?_tokens x) (by decide) (h.before fun _ _ => trivial)).rise
    (Nat.zero_le n) hn

/-- The grammar unrolled once more reads what it read before. -/
theorem reads_inner {n : Nat} {x : Expr}
    (h : Takes (primary (inner n)) x.tokens (fun _ => True) x.erase)
    (hsucc : Takes (primary (inner (n + 1))) x.tokens (fun _ => True) x.erase) :
    Reads (inner (n + 1)) x where
  primary := hsucc
  expr := (readsAt_tokens h 14 (by decide)).takes
  orTest := (readsAt_tokens h 13 (by decide)).takes
  notTest := (readsAt_tokens h 11 (by decide)).takes
  factor := (readsAt_tokens h 3 (by decide)).takes

/-- An operand behind which one part trails. -/
theorem Reads.trailed_once {v : Expr} (hv : Reads r v) (hus : us ≠ [])
    (htrailer : Takes (trailer r nowhere v.erase) us (fun _ => True) (.again e)) :
    ReadsAt r 0 (v.tokens ++ us) e := by
  refine ⟨?_, _, head?_append v us, by decide⟩
  rw [parserAt, trailed_eq]
  refine .peekSpan (hv.primary.bind (fun _ _ => trivial) (.loop ?_))
  rw [← List.append_nil us]
  exact .again htrailer hus (fun _ _ => trivial) (.done takes_trailer_done)

section Trailers

variable {v : Expr} (hv : Reads r v)

include hv

theorem readsAt_attr (f : String) :
    ReadsAt r 0 (v.tokens ++ [.punct .dot, .name f]) (.attr nowhere v.erase f) :=
  hv.trailed_once (by simp) (.peek rfl (.advance (.identifier (.spanFrom .pure))))

theorem readsAt_subscript {i : Expr} (hi : Reads r i) :
    ReadsAt r 0 (v.tokens ++ .punct .lBracket :: (i.tokens ++ [.punct .rBracket]))
      (.subscript nowhere v.erase i.erase) := by
  refine hv.trailed_once (by simp) (.peek rfl (.advance ?_))
  exact (takes_exprList hi).bind_cons (by decide) (.expect (.spanFrom .pure))

end Trailers

/-! ### Calls -/

/-- What follows an argument if that turns out to be the name of one. -/
def keywordOf (r : Inner) (arg : Expr) : Parser (Option (String × Expr)) :=
  match arg.name? with
  | some name => do pure ((← after? (.punct .assign) r.expr).map fun value => (name, value))
  | none => pure none

/-- One argument of a call, added to those before it. -/
def argument (r : Inner) (a : List Expr × List (String × Expr)) :
    Parser (List Expr × List (String × Expr)) := do
  let arg ← r.expr
  match ← keywordOf r arg with
  | some keyword => pure (a.1, a.2 ++ [keyword])
  | none =>
    if a.2.isEmpty then pure (a.1 ++ [arg], a.2)
    else throw ⟨.positionalAfterKeyword, arg.span⟩

/-- One round of reading arguments. -/
def argumentRound (r : Inner) (a : List Expr × List (String × Expr)) :
    Parser (Step (List Expr × List (String × Expr))) := do
  if (← peek) = .punct .rParen then
    return .done a
  let next ← argument r a
  if ← eat (.punct .comma) then
    return .again next
  else
    return .done next

theorem callArgs_eq (r : Inner) : callArgs r = loop (argumentRound r) ([], []) := by
  rw [callArgs]
  congr 1
  funext ⟨args, keywords⟩
  simp only [argumentRound, argument, bind_assoc]
  congr 1
  funext t
  congr 2
  funext arg
  rw [keywordOf]
  cases arg.name? with
  | none =>
    simp only [pure_bind]
    split <;> rfl
  | some name =>
    simp only [bind_assoc, pure_bind]
    congr 1
    funext value?
    cases value? with
    | none =>
      simp only [Option.map_none]
      split <;> rfl
    | some value => rfl

/-- An argument of a call, with its name if it has one. -/
abbrev Arg := Expr ⊕ (String × Expr)

def argTokens : Arg → List Token
  | .inl x => x.tokens
  | .inr k => .name k.1 :: .punct .assign :: k.2.tokens

/-- The arguments of a call in the order they are written. -/
def allArgs (args : List Expr) (kws : List (String × Expr)) : List Arg :=
  args.map Sum.inl ++ kws.map Sum.inr

/-- What is read of arguments: those without a name and those with one. -/
def readArgs (ys : List Arg) : List Expr × List (String × Expr) :=
  ((ys.filterMap Sum.getLeft?).map Expr.erase,
    (ys.filterMap Sum.getRight?).map fun k => (k.1, k.2.erase))

theorem readArgs_allArgs (args : List Expr) (kws : List (String × Expr)) :
    readArgs (allArgs args kws) =
      (args.map Expr.erase, kws.map fun k => (k.1, k.2.erase)) := by
  simp [readArgs, allArgs, List.filterMap_map, Function.comp_def]

/-- Before an argument without a name there is none with a name. -/
theorem getRight?_of_allArgs {args : List Expr} {kws : List (String × Expr)} {ys zs : List Arg}
    {x : Expr} (h : allArgs args kws = ys ++ .inl x :: zs) : ys.filterMap Sum.getRight? = [] := by
  rw [allArgs] at h
  obtain ⟨cs, -, hkws⟩ | ⟨cs, hargs, -⟩ := List.append_eq_append_iff.1 h
  · have hx : Sum.inl x ∈ kws.map (Sum.inr : String × Expr → Arg) := by simp [hkws]
    simp at hx
  · refine List.filterMap_eq_nil_iff.2 fun y hy => ?_
    have hy : y ∈ args.map (Sum.inl : Expr → Arg) := by simp [hargs, hy]
    obtain ⟨z, -, rfl⟩ := List.mem_map.1 hy
    rfl

/-- The tokens behind an argument. -/
def EndsArg (t : Token) : Prop := t = .punct .comma ∨ t = .punct .rParen

theorem EndsArg.above {t : Token} (h : EndsArg t) : Above 11 t := by
  rcases h with rfl | rfl <;> decide

/-- An argument is not taken for the name of one. -/
theorem takes_keywordOf_none (e : Expr) : Takes (keywordOf r e) [] EndsArg none := by
  unfold keywordOf
  split
  · refine Takes.bind_last (Takes.after?_none ?_) .pure
    rintro t (rfl | rfl) <;> decide
  · exact .pure

section Arguments

variable {args : List Expr} {kws : List (String × Expr)} (hargs : ∀ x ∈ args, Reads r x)
  (hkws : ∀ k ∈ kws, Reads r k.2)
  (hname : ∀ k ∈ kws, Takes r.expr [.name k.1] (Above 11) (.name nowhere k.1))

include hargs hkws hname

theorem takes_argument {ys zs : List Arg} {y : Arg} (hys : allArgs args kws = ys ++ y :: zs) :
    Takes (argument r (readArgs ys)) (argTokens y) EndsArg (readArgs (ys ++ [y])) := by
  have hy : y ∈ allArgs args kws := by simp [hys]
  simp only [allArgs, List.mem_append, List.mem_map] at hy
  rw [argument]
  obtain ⟨x, hx, rfl⟩ | ⟨k, hk, rfl⟩ := hy
  · have hnone := getRight?_of_allArgs hys
    refine ((hargs x hx).expr.before fun _ => EndsArg.above).bind_last
      ((takes_keywordOf_none _).bind_last ?_)
    simpa [readArgs, hnone, List.filterMap_cons] using Takes.pure
  · have hvalue := (hkws k hk).expr.before fun _ => EndsArg.above
    have hkeyword : Takes (keywordOf r (.name nowhere k.1)) (.punct .assign :: k.2.tokens) EndsArg
        (some (k.1, k.2.erase)) := Takes.bind_last (Takes.after? hvalue) .pure
    refine (hname k hk).bind_cons (by decide) (hkeyword.bind_last ?_)
    simpa [readArgs, List.filterMap_cons] using Takes.pure

theorem takes_callArgs :
    Takes (callArgs r) ([.punct .comma].intercalate ((allArgs args kws).map argTokens))
      (fun t => t = .punct .rParen) (args.map Expr.erase, kws.map fun k => (k.1, k.2.erase)) := by
  have hhead (y : Arg) : ∃ t, (argTokens y).head? = some t ∧ t ≠ .punct .rParen := by
    cases y with
    | inl x => exact ⟨_, head?_tokens x, by decide⟩
    | inr k => exact ⟨_, rfl, by simp⟩
  rw [callArgs_eq, ← readArgs_allArgs]
  refine .loop (.commas (A := readArgs) (fun _ => ?_) ?_ ?_)
  · refine .peek_nil ?_
    rintro t rfl
    exact .pure
  · intro ys y zs hys
    obtain ⟨t, ht, hne⟩ := hhead y
    refine .peek (t := t) (by simp [ht]) ?_
    rw [if_neg hne]
    exact (takes_argument hargs hkws hname hys).bind_cons (.inl rfl) (.eat .pure)
  · intro ys y zs hys
    obtain ⟨t, ht, hne⟩ := hhead y
    refine .peek ht ?_
    rw [if_neg hne]
    refine ((takes_argument hargs hkws hname hys).before fun _ => .inr).bind_last
      (.eat_not ?_ .pure)
    rintro u rfl
    decide

theorem readsAt_call {v : Expr} (hv : Reads r v) :
    ReadsAt r 0
      (v.tokens ++ .punct .lParen ::
        ([.punct .comma].intercalate ((allArgs args kws).map argTokens) ++ [.punct .rParen]))
      (.call nowhere v.erase (args.map Expr.erase) (kws.map fun k => (k.1, k.2.erase))) := by
  refine hv.trailed_once (by simp) (.peek rfl (.advance ?_))
  exact (takes_callArgs hargs hkws hname).bind_cons rfl (.expect (.spanFrom .pure))

end Arguments

end AnnotatedWasm.Grammar
