import AnnotatedWasm.Proofs.Printing.Forms

/-!
Parsing written lines: the statements that fit on one.

A statement is read before its span is known, so what its parser gives is a function of the
span. `Makes` says of such a parser what `Takes` says of the others.
-/

namespace AnnotatedWasm.Grammar

open Syntax

variable {r : Inner} {ts : List Token} {F : Token → Prop} {x y : Expr}

/-- A parser takes the tokens of a statement, the end of its line apart. -/
def Makes (p : Parser (Span → Stmt)) (ts : List Token) (F : Token → Prop) (s : Stmt) : Prop :=
  ∃ node, Takes p ts F node ∧ node nowhere = s.erase

/-- What stands on a line up to its end. -/
abbrev MakesLine (r : Inner) (ts : List Token) (s : Stmt) : Prop :=
  Makes (simple r) ts (· = .newline) s

theorem takes_exprList_newline (hx : Reads r x) :
    Takes (exprList r) x.tokens (· = .newline) x.erase :=
  (takes_exprList hx).before (by rintro t rfl; decide)

theorem takes_expr_newline (hx : Reads r x) : Takes r.expr x.tokens (· = .newline) x.erase :=
  hx.expr.before (by rintro t rfl; decide)

/-! ### Lines that start with a word -/

theorem makes_pass (s : Span) : MakesLine r [.keyword .kPass] (.pass s) :=
  ⟨_, .peek rfl (.advance .pure), by rw [Stmt.erase]⟩

theorem makes_break (s : Span) : MakesLine r [.keyword .kBreak] (.breakLoop s) :=
  ⟨_, .peek rfl (.advance .pure), by rw [Stmt.erase]⟩

theorem makes_continue (s : Span) : MakesLine r [.keyword .kContinue] (.continueLoop s) :=
  ⟨_, .peek rfl (.advance .pure), by rw [Stmt.erase]⟩

/-- Whether a line goes on, where an expression would start. -/
theorem Takes.atLineEnd_not {α : Type} {f : Bool → Parser α} {b : α}
    (ht : ts.head? = some (.punct .lParen)) (h : Takes (f false) ts F b) :
    Takes (atLineEnd >>= f) ts F b := by
  rw [atLineEnd, bind_assoc]
  refine .peek ht ?_
  rwa [pure_bind]

theorem Takes.atLineEnd {α : Type} {f : Bool → Parser α} {b : α}
    (h : Takes (f true) [] (· = .newline) b) :
    Takes (Grammar.atLineEnd >>= f) [] (· = .newline) b := by
  rw [Grammar.atLineEnd, bind_assoc]
  refine .peek_nil ?_
  rintro t rfl
  rwa [pure_bind]

theorem makes_ret (s : Span) {v : Option Expr} (hv : ∀ x ∈ v, Reads r x) :
    MakesLine r (.keyword .kReturn :: ((v.map .expr).toList).flatMap Item.tokens) (.ret s v) := by
  refine ⟨fun s => .ret s (v.map Expr.erase), .peek rfl (.advance ?_), by rw [Stmt.erase]⟩
  cases v with
  | none => exact .atLineEnd .pure
  | some x =>
    rw [Option.map_some, Option.toList_some, List.flatMap_singleton, tokens_expr]
    exact .atLineEnd_not (head?_tokens x) ((takes_exprList_newline (hv x rfl)).bind_last .pure)

theorem makes_del (s : Span) (hx : Reads r x) :
    MakesLine r (.keyword .kDel :: x.tokens) (.del s x) :=
  ⟨_, .peek rfl (.advance ((takes_exprList_newline hx).bind_last .pure)), by rw [Stmt.erase]⟩

theorem makes_assert (s : Span) (hx : Reads r x) {m : Option Expr} (hm : ∀ y ∈ m, Reads r y) :
    MakesLine r
      (.keyword .kAssert :: (x.tokens ++ (Item.behind (.mark .comma) m).flatMap Item.tokens))
      (.assert s x m) := by
  have hmessage := takes_behind (F := (· = .newline)) (t := .punct .comma)
    (fun y hy => takes_expr_newline (hm y hy)) (by rintro u rfl; simp)
  refine ⟨_, .peek rfl (.advance (hx.expr.bind ?_ (hmessage.bind_last .pure))), by rw [Stmt.erase]⟩
  rintro t rfl
  exact headD_behind (by decide) (by decide)

theorem makes_raise (s : Span) {e c : Option Expr} (he : ∀ y ∈ e, Reads r y)
    (hc : ∀ y ∈ c, Reads r y) (hcause : c.isSome → e.isSome) :
    MakesLine r
      (.keyword .kRaise :: (((e.map .expr).toList).flatMap Item.tokens
        ++ (Item.behind (.word .kFrom) c).flatMap Item.tokens))
      (.raise s e c) := by
  refine ⟨fun s => .raise s (e.map Expr.erase) (c.map Expr.erase), .peek rfl (.advance ?_),
    by rw [Stmt.erase]⟩
  cases e with
  | none =>
    obtain rfl : c = none := by simpa using hcause
    exact .atLineEnd .pure
  | some x =>
    rw [Option.map_some, Option.toList_some, List.flatMap_singleton, tokens_expr]
    have hcause := takes_behind (F := (· = .newline)) (t := .keyword .kFrom)
      (fun y hy => takes_expr_newline (hc y hy)) (by rintro u rfl; simp)
    refine .atLineEnd_not (head?_append x _) ((he x rfl).expr.bind ?_ (hcause.bind_last .pure))
    rintro t rfl
    exact headD_behind (by decide) (by decide)

/-! ### Names -/

theorem takes_identifier (n : String) : Takes identifier [.name n] F n := by
  have h : Takes (identifier >>= pure) [.name n] F n := .identifier .pure
  rwa [bind_pure] at h

theorem takes_names {p : Punct} {ns : List String} (hne : ns ≠ [])
    (hF : ∀ t, F t → t ≠ .punct p) :
    Takes (separated (.punct p) identifier) ((names p ns).flatMap Item.tokens) F ns := by
  obtain ⟨n, ns, rfl⟩ := List.exists_cons_of_ne_nil hne
  have hnames : (names p (n :: ns)).flatMap Item.tokens
      = [.name n] ++ ns.flatMap fun n => [.punct p, .name n] := by
    rw [names, flatMap_intercalate, List.map_map]
    simpa [Function.comp_def] using intercalate_cons (fun n => [.name n]) n ns
  rw [hnames, ← List.map_id (n :: ns)]
  exact Takes.separated (f := fun n => [.name n]) (fun n _ => takes_identifier n) hF

theorem takes_renamed {a : Option String} (hF : ∀ t, F t → t ≠ .keyword .kAs) :
    Takes (after? (.keyword .kAs) identifier) ((renamed a).flatMap Item.tokens) F a := by
  cases a with
  | none => exact .after?_none hF
  | some n => simpa [renamed] using Takes.after? (t := .keyword .kAs) (takes_identifier n)

theorem headD_renamed {G : Token → Prop} {a : Option String} {t : Token} (ht : G t)
    (has : G (.keyword .kAs)) : G (((renamed a).flatMap Item.tokens).headD t) := by
  cases a with
  | none => exact ht
  | some n => simpa [renamed] using has

theorem makes_global (s : Span) {ns : List String} (hne : ns ≠ []) :
    MakesLine r (.keyword .kGlobal :: (names .comma ns).flatMap Item.tokens) (.global s ns) :=
  ⟨_, .peek rfl (.advance ((takes_names hne (by rintro t rfl; simp)).bind_last .pure)),
    by rw [Stmt.erase]⟩

theorem makes_nonlocal (s : Span) {ns : List String} (hne : ns ≠ []) :
    MakesLine r (.keyword .kNonlocal :: (names .comma ns).flatMap Item.tokens)
      (.nonlocal s ns) :=
  ⟨_, .peek rfl (.advance ((takes_names hne (by rintro t rfl; simp)).bind_last .pure)),
    by rw [Stmt.erase]⟩

theorem makes_import (s : Span) {path : List String} {a : Option String} (hne : path ≠ []) :
    MakesLine r
      (.keyword .kImport ::
        ((names .dot path).flatMap Item.tokens ++ (renamed a).flatMap Item.tokens))
      (.importModule s path a) := by
  have hpath := takes_names (F := fun t => t ≠ .punct .dot) hne fun _ h => h
  refine ⟨_, .peek rfl (.advance (hpath.bind ?_ ((takes_renamed ?_).bind_last .pure))),
    by rw [Stmt.erase]⟩
  · rintro t rfl
    exact headD_renamed (G := fun t => t ≠ .punct .dot) (by simp) (by simp)
  · rintro t rfl
    simp

/-- The tokens of an imported name. -/
def importTokens (n : String × Option String) : List Token :=
  .name n.1 :: (renamed n.2).flatMap Item.tokens

theorem takes_importedNames {ns : List (String × Option String)} (hne : ns ≠ []) :
    Takes (importedNames false) ([.punct .comma].intercalate (ns.map importTokens))
      (· = .newline) ns := by
  refine .loop (.commas (A := id) (fun h => absurd h hne) ?_ ?_)
  · rintro ys n zs -
    rw [importTokens, List.cons_append]
    refine .identifier ((takes_renamed (F := fun t => t ≠ .keyword .kAs)
      fun _ h => h).bind_cons (by simp) (.eat ?_))
    rw [if_pos rfl]
    exact .peek_nil fun t _ => .pure
  · rintro ys n zs -
    refine .identifier ((takes_renamed (by rintro t rfl; simp)).bind_last
      (.eat_not (by rintro t rfl; simp) ?_))
    rw [if_neg (by decide)]
    exact .pure

theorem makes_importFrom (s : Span) {path : List String} {ns : List (String × Option String)}
    (hpath : path ≠ []) (hne : ns ≠ []) :
    MakesLine r
      (.keyword .kFrom :: ((names .dot path).flatMap Item.tokens ++ .keyword .kImport ::
        [.punct .comma].intercalate (ns.map importTokens)))
      (.importNames s path ns) := by
  have hpath := takes_names (F := fun t => t ≠ .punct .dot) hpath fun _ h => h
  refine ⟨_, .peek rfl (.advance (hpath.bind_cons (by simp) (.expect (.eat_not (fun t _ => ?_)
    ((takes_importedNames hne).bind_last .pure))))), by rw [Stmt.erase]⟩
  obtain ⟨n, ns, rfl⟩ := List.exists_cons_of_ne_nil hne
  simp [importTokens]

/-! ### Lines that start with an expression -/

/-- A line that is read as an expression. -/
theorem takes_exprOrAssign (s : Span) (hx : Takes (exprList r) ts (· = .newline) x.erase) :
    Makes (exprOrAssign r) ts (· = .newline) (.expr s x) := by
  refine ⟨fun s => .expr s x.erase, hx.bind_last (.peek_nil ?_), by rw [Stmt.erase]⟩
  rintro t rfl
  refine .eat_not (by rintro t rfl; simp) ?_
  rw [if_neg (by decide)]
  refine .eat_not (by rintro t rfl; simp) ?_
  rw [if_neg (by decide)]
  exact .pure

theorem makes_expr (s : Span) (hx : Reads r x) : MakesLine r x.tokens (.expr s x) :=
  (takes_exprOrAssign s (takes_exprList_newline hx)).imp fun _ h => ⟨.peek (head?_tokens x) h.1, h.2⟩

theorem makes_annAssign (s : Span) (hx : Reads r x) (hy : Reads r y) {v : Option Expr}
    (hv : ∀ z ∈ v, Reads r z) :
    MakesLine r
      (x.tokens ++ .punct .colon ::
        (y.tokens ++ (Item.behind (.mark .assign) v).flatMap Item.tokens))
      (.annAssign s x y v) := by
  have hvalue := takes_behind (F := (· = .newline)) (t := .punct .assign)
    (fun z hz => takes_exprList_newline (hv z hz)) (by rintro u rfl; simp)
  refine ⟨_, .peek (head?_append x _) ((takes_exprList hx).bind_cons (by decide)
    (.peek rfl (.eat (hy.expr.bind ?_ (hvalue.bind_last .pure))))), by rw [Stmt.erase]⟩
  rintro t rfl
  exact headD_behind (by decide) (by decide)

theorem makes_augAssign (s : Span) {op : BinOp} (hop : op.assignment?.isSome = true)
    (hx : Reads r x) (hy : Reads r y) :
    MakesLine r
      (x.tokens ++ (((op.assignment?.map Item.token).toList).flatMap Item.tokens ++ y.tokens))
      (.augAssign s x op y) := by
  obtain ⟨p, hp, -, -, haug⟩ := BinOp.exists_assignment hop
  have hF : Above 11 (.punct p) ∧ Token.punct p ≠ .punct .comma := by
    cases op <;> cases hp <;> decide
  simp only [hp, Option.map_some, Option.toList_some, List.flatMap_singleton, tokens_token,
    List.singleton_append]
  refine ⟨fun s => .augAssign s x.erase op y.erase, .peek (head?_append x _)
    ((takes_exprList hx).bind_cons hF (.peek rfl ?_)), by rw [Stmt.erase]⟩
  rw [haug]
  exact .advance ((takes_exprList_newline hy).bind_last .pure)

theorem flatMap_assign (xs : List Expr) (v : Expr) :
    xs.flatMap (fun x => x.tokens ++ [.punct .assign]) ++ v.tokens
      = [.punct .assign].intercalate ((xs ++ [v]).map Expr.tokens) := by
  induction xs with
  | nil => simp
  | cons x xs ih =>
    obtain ⟨y, ys, hys⟩ : ∃ y ys, xs ++ [v] = y :: ys := List.exists_cons_of_ne_nil (by simp)
    rw [List.flatMap_cons, List.append_assoc, ih, List.cons_append, hys]
    simp only [List.map_cons, List.intercalate_cons_cons]

theorem makes_assign (s : Span) {xs : List Expr} {v : Expr} (hne : xs ≠ [])
    (hxs : ∀ x ∈ xs, Reads r x) (hv : Reads r v) :
    MakesLine r (xs.flatMap (fun x => x.tokens ++ [.punct .assign]) ++ v.tokens)
      (.assign s xs v) := by
  have hall : ∀ x ∈ xs ++ [v], Reads r x :=
    List.forall_mem_append.2 ⟨hxs, List.forall_mem_singleton.2 hv⟩
  obtain ⟨x, y, ys, hys⟩ : ∃ x y ys, xs ++ [v] = x :: y :: ys := by
    obtain ⟨x, xs, rfl⟩ := List.exists_cons_of_ne_nil hne
    obtain ⟨y, ys, hys⟩ : ∃ y ys, xs ++ [v] = y :: ys := List.exists_cons_of_ne_nil (by simp)
    exact ⟨x, y, ys, by rw [List.cons_append, hys]⟩
  have hnewline : ∀ t, t = .newline → Above 11 t ∧ t ≠ .punct .comma := by
    rintro t rfl
    decide
  -- Of the expressions read, the last is the value.
  let A (zs : List Expr) : List Expr × Expr :=
    ((x :: y :: zs).dropLast.map Expr.erase, ((x :: y :: zs).getLast (by simp)).erase)
  have hA : A ys = (xs.map Expr.erase, v.erase) := by
    simp only [A, ← hys, List.dropLast_concat, List.getLast_concat]
  rw [flatMap_assign, hys, intercalate_cons, List.flatMap_cons, List.cons_append]
  rw [hys] at hall
  refine ⟨fun s => .assign s (A ys).1 (A ys).2, .peek (head?_append x _) ?_,
    by rw [Stmt.erase, hA]⟩
  refine (takes_exprList (hall x (by simp))).bind_cons (by decide) (.peek rfl
    (.eat_not (by simp) ?_))
  rw [if_neg (by decide)]
  refine .eat ?_
  rw [if_pos rfl]
  refine (takes_exprList (hall y (by simp))).bind ?_ (Takes.bind_last (.loop (.each (A := A)
    (G := fun t => Above 11 t ∧ t ≠ .punct .comma) hnewline (fun z _ => ⟨_, rfl, by decide⟩)
    ?_ ?_)) .pure)
  · intro t ht
    cases ys with
    | nil => exact hnewline t ht
    | cons => exact (by decide : Above 11 (.punct .assign) ∧ Token.punct .assign ≠ .punct .comma)
  · intro zs z hz
    have hnext : A (zs ++ [z]) = ((A zs).1 ++ [(A zs).2], z.erase) := by
      have hlast := List.dropLast_append_getLast (l := x :: y :: zs) (by simp)
      simp only [A, ← List.cons_append, List.dropLast_concat, List.getLast_concat]
      rw [← List.map_singleton, ← List.map_append, hlast]
    rw [hnext]
    refine .eat ?_
    rw [if_pos rfl]
    exact (takes_exprList (hall z (by simp [hz]))).bind_last .pure
  · refine .eat_not (by rintro t rfl; simp) ?_
    rw [if_neg (by decide)]
    exact .pure

end AnnotatedWasm.Grammar
