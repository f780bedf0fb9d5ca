import AnnotatedWasm.Proofs.Parsing.Keeping
import AnnotatedWasm.Proofs.Printing.Expressions

/-!
The grammar of expressions takes tokens, keeps the brackets and places its nodes.

One lemma for each parser, over parts that are good for streams of fewer than `n` tokens. A parser
that starts with a part of its own is good for streams of up to `n` tokens, for what it calls once
it has taken a token has a shorter stream before it. What an operator stands behind is read first,
and the node around it is closed when the other operand has been read too, so each node lists what
is below it in the order in which it was read.
-/

namespace AnnotatedWasm.Grammar

open Syntax

variable {K : Knowledge} {E : Setting} {n : Nat} {fresh : Bool} {T : Token → Prop}
  {σ : List Punct} {lo : Nat} {start : Span} {ns : List Node}

abbrev PlacesExpr (E : Setting) (n : Nat) (fresh : Bool) (T : Token → Prop) (σ : List Punct)
    (p : Parser Expr) : Prop :=
  Places E n fresh T σ p fun e => [.expr e]

/-- A parser that is good for streams of fewer than `n` tokens. -/
def Good {α : Type} (K : Knowledge) (n : Nat) (p : Parser α) (nodes : α → List Node) : Prop :=
  ∀ σ lo start, Runs K n (fun _ => True) σ (K.At lo start) p σ Always
    fun a => K.Held lo start (nodes a)

structure Inner.Sound (K : Knowledge) (n : Nat) (r : Inner) : Prop where
  ofExpr : Good K n r.expr fun e => [.expr e]
  ofOrTest : Good K n r.orTest fun e => [.expr e]
  ofNotTest : Good K n r.notTest fun e => [.expr e]
  ofFactor : Good K n r.factor fun e => [.expr e]

namespace Inner.Sound

lemma mono {m : Nat} {r : Inner} (hm : m ≤ n) (hr : r.Sound K n) : r.Sound K m :=
  ⟨fun σ lo start => (hr.ofExpr σ lo start).mono hm,
    fun σ lo start => (hr.ofOrTest σ lo start).mono hm,
    fun σ lo start => (hr.ofNotTest σ lo start).mono hm,
    fun σ lo start => (hr.ofFactor σ lo start).mono hm⟩

variable (hr : E.parts.Sound E.toKnowledge n)

include hr

lemma expr : PlacesExpr E n false T σ E.parts.expr :=
  .anywhere ⟨hr.ofExpr σ _ _, fun _ => .expr⟩

lemma orTest : PlacesExpr E n false T σ E.parts.orTest :=
  .anywhere ⟨hr.ofOrTest σ _ _, fun _ => .orTest⟩

lemma notTest : PlacesExpr E n false T σ E.parts.notTest :=
  .anywhere ⟨hr.ofNotTest σ _ _, fun _ => .notTest⟩

lemma factor : PlacesExpr E n false T σ E.parts.factor :=
  .anywhere ⟨hr.ofFactor σ _ _, fun _ => .factor⟩

end Inner.Sound

/-! ### Shapes -/

/-- What only some tokens have a value for. -/
lemma shifts_of_some {γ : Type} {op? : Token → Option γ} {t : Token} {op : γ}
    (heof : op? .eof = none) (hrough : E.known → ∀ t ∈ Token.rough, op? t = none)
    (ht : op? t = some op) : Shifts E.toKnowledge σ t σ := by
  refine ⟨?_, fun hknown => .plain (Token.isPlain_of_some (hrough hknown) ht)⟩
  rintro rfl
  rw [heof] at ht
  cases ht

lemma exprNodes_concat (es : List Expr) (e : Expr) :
    exprNodes (es ++ [e]) = exprNodes es ++ [.expr e] := List.map_append

lemma placesExpr_chain {op? : Token → Option BinOp} {operand : Parser Expr} (heof : op? .eof = none)
    (hrough : E.known → ∀ t ∈ Token.rough, op? t = none)
    (h : PlacesExpr E n fresh (fun _ => True) σ operand) :
    PlacesExpr E n fresh T σ (chain op? operand) := by
  refine .peekSpan fun start => h.anywhere.take fun first => .loop rfl fun left => .peek fun t => ?_
  cases ht : op? t with
  | none => exact .same rfl rfl
  | some op =>
    exact .advance (shifts_of_some heof hrough ht) (.bind (.adds h.later) fun right => .close_again rfl)

lemma placesExpr_tupleOf {item : Parser Expr} {stop : Parser Bool}
    (hitem : PlacesExpr E n fresh (fun _ => True) σ item)
    (hstop : Keeps E n false (fun _ => True) σ stop Never) :
    PlacesExpr E n fresh T σ (tupleOf item stop) := by
  refine .peekSpan fun start => hitem.anywhere.take fun first => .peek fun t => ?_
  split
  · exact .same rfl rfl
  · refine .bind (.loop (P := fun elems => E.Held _ start (exprNodes elems)) rfl fun elems =>
      .eat (.plain rfl) (hstop.bind fun ends => ?_) (.same rfl rfl)) fun elems => .close rfl
    cases ends with
    | true => exact .same rfl rfl
    | false =>
      refine .bind (.adds hitem.later) fun e => .pure not_false fun _ _ hs => ?_
      rwa [Step.value, exprNodes_concat]

section

variable (hr : E.parts.Sound E.toKnowledge n)

include hr

lemma placesExpr_exprList : PlacesExpr E n false T σ (exprList E.parts) :=
  placesExpr_tupleOf hr.expr (.peek fun _ => .same rfl rfl)

lemma adds_exprs {close : Token} :
    Adds E n false T σ (listUntil close E.parts.expr) Never exprNodes :=
  .listUntil hr.expr

lemma places_param (annotated : Bool) :
    Places E n false T σ (param E.parts annotated) fun p => [.param p] := by
  refine .peekSpan fun start => .take (.identifier fun _ _ _ hs hat => hat.before hs) fun name =>
    .pull fun hname => ?_
  have hrest {lo : Nat} (annot : Option Expr) : Parses E n false (fun _ => True) σ
      (E.Held lo start (optNodes annot)) (do
        let default ← after? (.punct .assign) E.parts.expr
        return Param.mk name (← spanFrom start) annot default) σ Never
      fun p => E.Held lo start [.param p] := by
    refine (adds_after? (.plain rfl) hr.expr).bind fun default => ?_
    exact .spanFrom (g := fun span => .param (.mk name span annot default))
      (fun hknown _ => ⟨rfl, rfl, rfl, List.forall_mem_singleton.mpr (hname hknown), nofun⟩)
      fun _ => .same rfl rfl
  cases annotated with
  | true => exact (adds_after? (.plain rfl) hr.expr).bind hrest
  | false => exact hrest none

lemma adds_params (annotated : Bool) {close : Token} :
    Adds E n false T σ (listUntil close (param E.parts annotated)) Never paramNodes :=
  .listUntil (places_param hr annotated)

lemma placesExpr_lambda : PlacesExpr E n fresh (· = .keyword .kLambda) σ (lambda E.parts) := by
  refine .peekSpan fun start => .first rfl (.plain rfl) ?_
  refine (adds_params hr false).bind fun params => .expect (.plain rfl) ?_
  exact .bind (.adds hr.expr) fun body => .close rfl

lemma placesExpr_yieldExpr : PlacesExpr E n fresh (· = .keyword .kYield) σ (yieldExpr E.parts) := by
  refine .peekSpan fun start => .first rfl (.plain rfl) (.eat (.plain rfl) ?_ (.peek fun t => ?_))
  · exact .bind (.adds hr.expr) fun value => .close rfl
  · split
    case h_5 => exact .bind (.adds hr.expr) fun value => .close rfl
    all_goals exact .close rfl

/-! ### Brackets -/

lemma drafts_braced : Parses E n false T σ (E.Held lo start []) (braced E.parts) σ Never
    fun node => E.Drafts lo start fun span => .expr (node span) := by
  refine .peek fun t => ?_
  split
  · exact .draft rfl
  refine .bind (.adds hr.expr) fun first => .eat (.plain rfl) ?_ (.eat (.plain rfl) ?_ (.draft rfl))
  · refine .bind (.adds hr.expr) fun value => .bind (.loop (P := fun entries => E.Held lo start
      (entries.flatMap fun kv : Expr × Expr => [.expr kv.1, .expr kv.2]))
      rfl fun entries => .eat (.plain rfl) (.peek fun t => ?_) (.same rfl rfl))
      fun entries => by exact .draft rfl
    split
    · exact .same rfl rfl
    · refine .bind (.adds hr.expr) fun key => .expect (.plain rfl) ?_
      exact .bind (.adds hr.expr) fun value => .pure not_false fun _ _ hs => by simpa [Step.value] using hs
  · exact (adds_exprs hr).bind fun more => .draft rfl

omit hr in
/-- Where a string stands, the first round takes it. -/
lemma parses_strings (text : String) : Parses E n fresh (· = .string text) σ (E.At lo start) strings
    σ Always fun _ => E.Held lo start [] := by
  refine .loop_from (L := Always) (fun value => .peek fun t => ?_) (fun _ => trivial)
    (fun _ => id) (.peek ?_)
  · split
    · exact .advance (.plain rfl) (.same rfl rfl)
    · exact .same rfl rfl
  · have hfirst : Parses E n fresh (· = .string text) σ (E.At lo start) (do
        advance
        return Step.again ("" ++ Text.unquote text)) σ Always fun _ => E.Held lo start [] :=
      .first rfl (.plain rfl) (.same rfl rfl)
    exact hfirst.runs

/-- Each bracket is closed by the parser that opened it. -/
lemma placesExpr_primary : PlacesExpr E n fresh T σ (primary E.parts) := by
  refine .peekSpan fun start => .peek fun t => ?_
  split
  case h_1 => exact .word (.inl rfl) fun _ => ⟨rfl, rfl, rfl, by simp [Node.names]⟩
  case h_2 => exact .word (.inr rfl) fun _ => ⟨rfl, rfl, rfl, nofun⟩
  case h_3 => exact (parses_strings _).take fun value => .close rfl
  case h_7 =>
    refine .first rfl (.opens rfl) (.eat (.closes rfl) (.close rfl) ?_)
    exact .bind (.adds (placesExpr_exprList hr)) fun e => .expect (.closes rfl) (.same rfl rfl)
  case h_8 =>
    exact .first rfl (.opens rfl) ((adds_exprs hr).bind fun elems => .expect (.closes rfl) (.close rfl))
  case h_9 =>
    refine .first rfl (.opens rfl) ((drafts_braced hr).bind fun node => .drafts fun ns hnode => ?_)
    exact .expect (.closes rfl) (.close_of hnode)
  case h_10 => exact .first rfl (.plain rfl) (.bind (.adds hr.orTest) fun value => .close rfl)
  case h_11 => exact .unexpected
  all_goals exact .first rfl (.plain rfl) (.close rfl)

/-! ### Calls -/

omit hr in
/-- The nodes of the arguments read so far. -/
def argNodes (a : List Expr × List (String × Expr)) : List Node :=
  exprNodes a.1 ++ exprNodes (a.2.map (·.2))

lemma adds_keywordOf (arg : Expr) : Adds E n false T σ (keywordOf E.parts arg) Never
    fun keyword? => optNodes (keyword?.map (·.2)) := by
  rw [keywordOf]
  cases arg.name? with
  | none => exact .pure not_false fun _ _ hs => by simpa [optNodes, exprNodes] using hs
  | some name =>
    refine (adds_after? (.plain rfl) hr.expr).bind fun value? => .pure not_false fun _ _ hs => ?_
    cases value? <;> exact hs

/-- Where a name turns out to be a keyword, it is no node of the call. -/
lemma parses_argument (a : List Expr × List (String × Expr)) :
    Parses E n false T σ (E.Held lo start (ns ++ argNodes a)) (argument E.parts a) σ Always
      fun b => E.Held lo start (ns ++ argNodes b) := by
  refine .take (.adds hr.expr) fun arg => (adds_keywordOf hr arg).bind fun keyword? => ?_
  split
  · next keyword =>
    refine .pure not_false fun _ _ hs => ?_
    have hnodes : ns ++ argNodes (a.1, a.2 ++ [keyword]) =
        ns ++ argNodes a ++ [.expr keyword.2] := by simp [argNodes, exprNodes]
    rw [hnodes]
    exact hs.sublist (.append_right (List.sublist_append_left ..) _)
  · split
    · next hempty =>
      refine .pure not_false fun _ _ hs => ?_
      simpa [argNodes, exprNodes, optNodes, List.isEmpty_iff.mp hempty] using hs
    · exact .throw (by simp) fun _ _ hs => hs.near (.expr arg) (by simp)

lemma adds_callArgs : Adds E n false T σ (callArgs E.parts) Never argNodes := by
  rw [callArgs_eq]
  refine .loop_of (fun a => .peek fun t => ?_) fun _ _ hs => by simpa [argNodes, exprNodes] using hs
  split
  · exact .same rfl rfl
  · exact (parses_argument hr a).take fun args => .eat (.plain rfl) (.same rfl rfl) (.same rfl rfl)

lemma parses_trailer (e : Expr) : Parses E n fresh T σ (E.Held lo start [.expr e])
    (trailer E.parts start e) σ Asks fun step => E.Held lo start [.expr step.value] := by
  refine .peek fun t => ?_
  split
  · refine .advance (.opens rfl) ((adds_callArgs hr).bind fun args => ?_)
    exact .expect (.closes rfl) (.close_again rfl)
  · exact .advance (.plain rfl) (keeps_identifier.bind fun field => .close_again rfl)
  · refine .advance (.opens rfl) (.bind (.adds (placesExpr_exprList hr)) fun index => ?_)
    exact .expect (.closes rfl) (.close_again rfl)
  · exact .same rfl rfl

lemma placesExpr_trailed : PlacesExpr E n fresh T σ (trailed E.parts) := by
  rw [trailed_eq]
  exact .peekSpan fun start => (placesExpr_primary hr).take fun first =>
    .loop rfl fun e => parses_trailer hr e

/-! ### Operators -/

lemma placesExpr_awaited : PlacesExpr E n fresh T σ (awaited E.parts) := by
  refine .peek fun t => ?_
  split
  · next ht =>
    subst ht
    refine .peekSpan fun start => .first rfl (.plain rfl) ?_
    exact .bind (.adds (placesExpr_trailed hr)) fun value => .close rfl
  · exact placesExpr_trailed hr

lemma placesExpr_power : PlacesExpr E n fresh T σ (power E.parts) := by
  refine .peekSpan fun start => (placesExpr_awaited hr).take fun base => ?_
  exact .eat (.plain rfl) (.bind (.adds hr.factor) fun exponent => .close rfl) (.same rfl rfl)

omit hr in
lemma stands_of_sign? {t : Token} {op : UnaryOp} (h : sign? t = some op) : t.stands = true := by
  unfold sign? at h
  split at h
  case h_4 => cases h
  all_goals rfl

lemma placesExpr_factor : PlacesExpr E n fresh T σ (factor E.parts) := by
  refine .peekSpan fun start => .peek fun t => ?_
  cases ht : sign? t with
  | some op =>
    exact .first (stands_of_sign? ht) (shifts_of_some rfl (fun _ => by decide) ht)
      (.bind (.adds hr.factor) fun operand => .close rfl)
  | none => exact placesExpr_power hr

omit hr in
lemma placesExpr_levels {ops : List (Token → Option BinOp)}
    (hops : ∀ op? ∈ ops, op? .eof = none ∧ ∀ t ∈ Token.rough, op? t = none) :
    ∀ {operand : Parser Expr}, PlacesExpr E n fresh (fun _ => True) σ operand →
      PlacesExpr E n fresh (fun _ => True) σ
        (ops.foldl (fun operand op? => chain op? operand) operand) := by
  induction ops with
  | nil => exact fun h => h
  | cons op? ops ih =>
    intro operand h
    obtain ⟨⟨heof, hrough⟩, hops⟩ := List.forall_mem_cons.mp hops
    exact ih hops (placesExpr_chain heof (fun _ => hrough) h)

lemma placesExpr_arithmetic : PlacesExpr E n fresh T σ (arithmetic E.parts) :=
  .anywhere (placesExpr_levels (by decide) (placesExpr_factor hr))

omit hr in
/-- An operator is at least one token. -/
lemma keeps_comparison? : Keeps E n fresh T σ comparison? (·.isSome) := by
  refine .peek fun t => ?_
  split
  case h_8 => exact .advance (.plain rfl) (.eat (.plain rfl) (.same rfl rfl) (.same rfl rfl))
  case h_9 => exact .advance (.plain rfl) (.eat (.plain rfl) (.same rfl rfl) .unexpected)
  case h_10 => exact .pure nofun fun _ _ hs => hs
  all_goals exact .advance (.plain rfl) (.same rfl rfl)

lemma placesExpr_comparison : PlacesExpr E n fresh T σ (comparison E.parts) := by
  refine .peekSpan fun start => (placesExpr_arithmetic hr).take fun left => ?_
  refine .bind (.loop (P := fun rest : List (CmpOp × Expr) =>
    E.Held _ start (.expr left :: exprNodes (rest.map (·.2)))) rfl fun rest =>
      keeps_comparison?.bind fun op => ?_) fun rest => ?_
  · cases op with
    | some op =>
      refine .take (.adds (placesExpr_arithmetic hr)) fun e => .pure not_false fun _ _ hs => ?_
      simpa [Step.value, exprNodes] using hs
    | none => exact .same rfl rfl
  · split
    · next hempty =>
      exact .pure not_false fun _ _ hs => by simpa [exprNodes, List.isEmpty_iff.mp hempty] using hs
    · exact .close rfl

lemma placesExpr_notTest : PlacesExpr E n fresh T σ (notTest E.parts) := by
  refine .peekSpan fun start => .eat_of (.first rfl (.plain rfl) ?_) (placesExpr_comparison hr)
  exact .bind (.adds hr.notTest) fun operand => .close rfl

lemma placesExpr_orTest : PlacesExpr E n fresh T σ (orTest E.parts) :=
  placesExpr_chain rfl (fun _ => by decide)
    (placesExpr_chain rfl (fun _ => by decide) (placesExpr_notTest hr))

lemma placesExpr_expr : PlacesExpr E n fresh T σ (expr E.parts) := by
  refine .peekSpan fun start => .peek fun t => ?_
  split
  case h_1 => exact placesExpr_lambda hr
  case h_2 => exact placesExpr_yieldExpr hr
  case h_3 =>
    refine (placesExpr_orTest hr).take fun e => .eat (.plain rfl) ?_ (.eat (.plain rfl) ?_ (.same rfl rfl))
    · refine .bind (.adds hr.orTest) fun test => .expect (.plain rfl) ?_
      exact .bind (.adds hr.expr) fun orelse => .close rfl
    · exact .bind (.adds hr.expr) fun value => .close rfl

/-- Unrolled once more, the grammar of expressions is good for one token more. -/
lemma sound_unrolled : Inner.Sound E.toKnowledge (n + 1)
    ⟨expr E.parts, orTest E.parts, notTest E.parts, factor E.parts⟩ where
  ofExpr _ _ _ := (placesExpr_expr hr : PlacesExpr E n true _ _ _).runs
  ofOrTest _ _ _ := (placesExpr_orTest hr : PlacesExpr E n true _ _ _).runs
  ofNotTest _ _ _ := (placesExpr_notTest hr : PlacesExpr E n true _ _ _).runs
  ofFactor _ _ _ := (placesExpr_factor hr : PlacesExpr E n true _ _ _).runs

end

/-- Where the unrolling ends, the parser stalls whatever the stream. -/
lemma good_stalled {α : Type} {nodes : α → List Node} :
    Good K 0 (do throw ⟨.stalled, ← peekSpan⟩) nodes := by
  intro σ lo start s hs _ _
  rw [bind_of_ok (peekSpan_eq_ok s)]
  exact ⟨fun _ => Nat.zero_le _, fun hknown => (hs hknown).here⟩

/-- The grammar of expressions is good for as many tokens as it is unrolled. -/
lemma sound_inner : ∀ n, (inner n).Sound K n
  | 0 => ⟨good_stalled, good_stalled, good_stalled, good_stalled⟩
  | n + 1 => sound_unrolled (E := ⟨K, inner n, statement (inner n) 0⟩) (sound_inner n)

end AnnotatedWasm.Grammar
