import AnnotatedWasm.Proofs.Parsing.Lexical

/-!
The parser goes by tokens.

`Blind P p q` says of two parsers that the second, on a stream without spans, does what the first
does on the stream: both fail for the same reason or both succeed, with values related by `P` and
with the same tokens left. Spans go into trees and errors, and nowhere else, so each parser of the
grammar is blind to them: without spans it gives the same tree without spans.
-/

namespace AnnotatedWasm.Grammar

open Syntax

/-- The state without its spans. -/
def State.bare (s : State) : State := ⟨s.rest.map fun l => ⟨l.token, nowhere⟩, nowhere⟩

variable {α β : Type} {P : α → α → Prop} {R : β → β → Prop} {v : α → α}

/-- What comes out of a run, and of one without spans. -/
def Agree (P : α → α → Prop) : Except ParseError (α × State) → Except ParseError (α × State) → Prop
  | .ok (a, s), .ok (a', s') => P a a' ∧ s' = s.bare
  | .error e, .error e' => e'.fault = e.fault
  | _, _ => False

def Blind (P : α → α → Prop) (p q : Parser α) : Prop := ∀ s, Agree P (p s) (q s.bare)

/-- The second value is what the first looks like. -/
abbrev Seen (v : α → α) (a a' : α) : Prop := a' = v a

/-- The values of a parser without spans are seen through `v`. -/
abbrev Shows (v : α → α) (p : Parser α) : Prop := Blind (Seen v) p p

def Step.map (v : α → α) : Step α → Step α
  | again a => again (v a)
  | done a => done (v a)

namespace Blind

lemma pure {b b' : β} (h : R b b') : Blind R (pure b) (pure b') := fun _ => ⟨h, rfl⟩

section Bind

variable {p q : Parser α} {f g : α → Parser β}

lemma bind (hp : Blind P p q) (hf : ∀ a a', P a a' → Blind R (f a) (g a')) :
    Blind R (p >>= f) (q >>= g) := by
  intro s
  have hrun := hp s
  simp only [Bind.bind, StateT.bind, Except.bind]
  generalize p s = x, q s.bare = y at hrun ⊢
  rcases x with e | ⟨a, s₁⟩ <;> rcases y with e' | ⟨a', s'⟩
  · exact hrun
  · exact hrun.elim
  · exact hrun.elim
  · obtain ⟨ha, rfl⟩ := hrun
    exact hf a a' ha s₁

lemma next (hp : Blind (Seen v) p q) (hf : ∀ a, Blind R (f a) (g (v a))) :
    Blind R (p >>= f) (q >>= g) := by
  refine hp.bind ?_
  rintro a _ rfl
  exact hf a

end Bind

/-! ### Steps -/

lemma peek {f g : Token → Parser β} (h : ∀ t, Blind R (f t) (g t)) :
    Blind R (peek >>= f) (peek >>= g) := by
  intro s
  have hnext : Grammar.next s.bare.rest = Grammar.next s.rest := by
    obtain ⟨rest, last⟩ := s
    cases rest <;> rfl
  rw [bind_of_ok (peek_eq_ok s), bind_of_ok (peek_eq_ok s.bare), hnext]
  exact h _ s

lemma peekSpan {f g : Span → Parser β} (h : ∀ span, Blind R (f span) (g nowhere)) :
    Blind R (peekSpan >>= f) (peekSpan >>= g) := by
  rintro ⟨rest, last⟩
  cases rest with
  | nil => exact h last ⟨[], last⟩
  | cons l rest => exact h l.span ⟨l :: rest, last⟩

lemma spanFrom {start : Span} {f g : Span → Parser β} (h : ∀ span, Blind R (f span) (g nowhere)) :
    Blind R (spanFrom start >>= f) (spanFrom nowhere >>= g) :=
  fun s => h (start.extendTo s.last) s

lemma throw {e e' : ParseError} (h : e'.fault = e.fault) :
    Blind R (throw e : Parser β) (throw e') := fun _ => h

lemma unexpected {wanted : Wanted} : Blind R (unexpected wanted : Parser β) (unexpected wanted) :=
  .peek fun _ => .peekSpan fun _ => .throw rfl

lemma unexpected_bind {wanted : Wanted} {f g : α → Parser β} :
    Blind R (Grammar.unexpected wanted >>= f) (Grammar.unexpected wanted >>= g) := by
  have hfail : Blind (fun _ _ => False) (Grammar.unexpected wanted : Parser α)
      (Grammar.unexpected wanted) := .unexpected
  exact hfail.bind fun _ _ => False.elim

lemma advance {f g : Unit → Parser β} (h : Blind R (f ()) (g ())) :
    Blind R (advance >>= f) (advance >>= g) := by
  rintro ⟨rest, last⟩
  cases rest with
  | nil => exact h ⟨[], last⟩
  | cons l rest => exact h ⟨rest, l.span⟩

lemma eat {t : Token} {f g : Bool → Parser β} (htrue : Blind R (f true) (g true))
    (hfalse : Blind R (f false) (g false)) : Blind R (eat t >>= f) (eat t >>= g) := by
  rw [Grammar.eat, bind_assoc, bind_assoc]
  refine .peek fun u => ?_
  split
  · rw [bind_assoc, bind_assoc]
    exact .advance (by rwa [pure_bind, pure_bind])
  · rwa [pure_bind, pure_bind]

lemma expect {t : Token} {f g : Unit → Parser β} (h : Blind R (f ()) (g ())) :
    Blind R (expect t >>= f) (expect t >>= g) := by
  rw [Grammar.expect, bind_assoc, bind_assoc]
  refine .peek fun u => ?_
  split
  · exact .advance h
  · exact .unexpected_bind

lemma identifier {f g : String → Parser β} (h : ∀ name, Blind R (f name) (g name)) :
    Blind R (identifier >>= f) (identifier >>= g) := by
  rw [Grammar.identifier, bind_assoc, bind_assoc]
  refine .peek fun t => ?_
  split
  · rw [bind_assoc, bind_assoc]
    exact .advance (by rw [pure_bind, pure_bind]; exact h _)
  · exact .unexpected_bind

lemma after? {t : Token} {p : Parser α} (hp : Shows v p) :
    Shows (Option.map v) (after? t p) :=
  .eat (hp.next fun _ => .pure rfl) (.pure rfl)

/-! ### Loops -/

section Loop

variable {body body' : α → Parser (Step α)}
  (hbody : ∀ a, Blind (Seen (Step.map v)) (body a) (body' (v a)))

include hbody

lemma loopN (n : Nat) : ∀ a, Blind (Seen v) (loopN body n a) (loopN body' n (v a)) := by
  induction n with
  | zero => exact fun _ => .peekSpan fun _ => .throw rfl
  | succ n ih =>
    intro a
    refine (hbody a).next fun step => ?_
    cases step with
    | again b => exact ih b
    | done b => exact .pure rfl

lemma loop {a : α} : Blind (Seen v) (loop body a) (loop body' (v a)) := by
  intro s
  have hlength : s.bare.rest.length = s.rest.length := List.length_map ..
  rw [loop_eq, loop_eq, hlength]
  exact loopN hbody (s.rest.length + 1) a s

end Loop

lemma listUntil {close : Token} {item : Parser α} (hitem : Shows v item) :
    Shows (List.map v) (listUntil close item) := by
  refine .loop fun items => .peek fun t => ?_
  split
  · exact .pure rfl
  · refine hitem.next fun a => ?_
    have hconcat : items.map v ++ [v a] = (items ++ [a]).map v := by simp
    exact .eat (.pure (congrArg Step.again hconcat)) (.pure (congrArg Step.done hconcat))

lemma separated {mark : Token} {item : Parser α} (hitem : Shows v item) :
    Shows (List.map v) (separated mark item) := by
  refine hitem.next fun first => .loop (a := [first]) fun items => ?_
  exact .eat (hitem.next fun a => .pure (by simp [Seen, Step.map])) (.pure rfl)

lemma skipNewlines {f g : Unit → Parser β} (h : Blind R (f ()) (g ())) :
    Blind R (skipNewlines >>= f) (skipNewlines >>= g) := by
  have hskip : Shows id Grammar.skipNewlines := by
    refine .loop fun _ => ?_
    exact .eat (.pure rfl) (.pure rfl)
  exact hskip.next fun _ => h

end Blind

/-! ### Expressions -/

structure Inner.Blind (r : Inner) : Prop where
  expr : Shows Expr.erase r.expr
  orTest : Shows Expr.erase r.orTest
  notTest : Shows Expr.erase r.notTest
  factor : Shows Expr.erase r.factor

variable {r : Inner}

lemma shows_chain {op? : Token → Option BinOp} {operand : Parser Expr}
    (h : Shows Expr.erase operand) : Shows Expr.erase (chain op? operand) := by
  refine .peekSpan fun start => h.next fun first => .loop fun left => .peek fun t => ?_
  cases op? t with
  | none => exact .pure rfl
  | some op =>
    refine .advance (h.next fun right => .spanFrom fun _ => .pure ?_)
    simp only [Seen, Step.map, Expr.erase]

lemma shows_tupleOf {item : Parser Expr} {stop : Parser Bool} (hitem : Shows Expr.erase item)
    (hstop : Shows id stop) : Shows Expr.erase (tupleOf item stop) := by
  refine .peekSpan fun start => hitem.next fun first => .peek fun t => ?_
  split
  · exact .pure rfl
  · refine (Blind.loop (v := List.map Expr.erase) (a := [first]) fun elems => ?_).next
      fun elems => .spanFrom fun _ => .pure (by simp only [Seen, Expr.erase])
    refine .eat (hstop.next fun ends => ?_) (.pure rfl)
    cases ends with
    | true => exact .pure rfl
    | false => exact hitem.next fun e => .pure (by simp [Seen, Step.map])

lemma shows_exprList (hr : r.Blind) : Shows Expr.erase (exprList r) :=
  shows_tupleOf hr.expr (.peek fun _ => .pure rfl)

lemma shows_param (hr : r.Blind) (annotated : Bool) : Shows Param.erase (param r annotated) := by
  refine .peekSpan fun start => .identifier fun name => ?_
  have hrest (annot : Option Expr) : Blind (Seen Param.erase)
      (do let default ← after? (.punct .assign) r.expr
          return Param.mk name (← spanFrom start) annot default)
      (do let default ← after? (.punct .assign) r.expr
          return Param.mk name (← spanFrom nowhere) (annot.map Expr.erase) default) :=
    hr.expr.after?.next fun _ => .spanFrom fun _ => .pure (Param.erase_mk ..).symm
  cases annotated with
  | true => exact hr.expr.after?.next hrest
  | false => exact hrest none

lemma shows_lambda (hr : r.Blind) : Shows Expr.erase (lambda r) := by
  refine .peekSpan fun start => .advance ((shows_param hr false).listUntil.next fun params => ?_)
  refine .expect (hr.expr.next fun body => .spanFrom fun _ => .pure ?_)
  simp only [Seen, Expr.erase]

lemma shows_yieldExpr (hr : r.Blind) : Shows Expr.erase (yieldExpr r) := by
  refine .peekSpan fun start => .advance (.eat ?_ (.peek fun t => ?_))
  · exact hr.expr.next fun value => .spanFrom fun _ => .pure (by simp only [Seen, Expr.erase])
  · split
    case h_5 =>
      exact hr.expr.next fun value => .spanFrom fun _ => .pure (by simp only [Seen, Expr.erase])
    all_goals exact .spanFrom fun _ => .pure (by simp only [Seen, Expr.erase])

/-- What a node that lacks its span looks like, whichever span it gets. -/
def SeenNode {α : Type} (v : α → α) (node node' : Span → α) : Prop :=
  ∀ span, node' nowhere = v (node span)

lemma blind_braced (hr : r.Blind) : Blind (SeenNode Expr.erase) (braced r) (braced r) := by
  refine .peek fun t => ?_
  split
  · exact .pure fun _ => by simp only [Expr.erase, List.map_nil]
  refine hr.expr.next fun first => .eat ?_ (.eat ?_ ?_)
  · refine hr.expr.next fun value => ?_
    refine (Blind.loop (v := List.map fun entry => (entry.1.erase, entry.2.erase))
      (a := [(first, value)]) fun entries => ?_).next fun entries => ?_
    swap
    · exact .pure fun _ => by simp only [Expr.erase]
    refine .eat (.peek fun t => ?_) (.pure rfl)
    split
    · exact .pure rfl
    · refine hr.expr.next fun key => .expect (hr.expr.next fun value => ?_)
      exact .pure (by simp [Seen, Step.map])
  · refine hr.expr.listUntil.next fun more => .pure fun _ => ?_
    simp only [Expr.erase, List.map_cons]
  · exact .pure fun _ => by simp only [Expr.erase, List.map_cons, List.map_nil]

lemma shows_strings : Shows id strings := by
  refine .loop fun value => .peek fun t => ?_
  split
  · exact .advance (.pure rfl)
  · exact .pure rfl

lemma shows_primary (hr : r.Blind) : Shows Expr.erase (primary r) := by
  refine .peekSpan fun start => .peek fun t => ?_
  split
  case h_3 =>
    exact shows_strings.next fun value => .spanFrom fun _ => .pure
      (by simp only [Seen, Expr.erase, id_eq])
  case h_7 =>
    refine .advance (.eat ?_ ?_)
    · exact .spanFrom fun _ => .pure (by simp only [Seen, Expr.erase, List.map_nil])
    · exact (shows_exprList hr).next fun e => .expect (.pure rfl)
  case h_8 =>
    refine .advance (hr.expr.listUntil.next fun elems => .expect ?_)
    exact .spanFrom fun _ => .pure (by simp only [Seen, Expr.erase])
  case h_9 =>
    refine .advance ((blind_braced hr).bind fun node node' hnode => .expect ?_)
    exact .spanFrom fun span => .pure (hnode span)
  case h_10 =>
    refine .advance (hr.orTest.next fun value => .spanFrom fun _ => .pure ?_)
    simp only [Seen, Expr.erase]
  case h_11 => exact .unexpected
  all_goals exact .advance (.spanFrom fun _ => .pure (by simp only [Seen, Expr.erase]))

/-- What the arguments of a call look like. -/
def seenArgs (a : List Expr × List (String × Expr)) : List Expr × List (String × Expr) :=
  (a.1.map Expr.erase, a.2.map fun keyword => (keyword.1, keyword.2.erase))

lemma name?_erase (e : Expr) : e.erase.name? = e.name? := by
  cases e with
  | yield span value => cases value <;> rw [Expr.erase] <;> rfl
  | _ => rw [Expr.erase]; rfl

lemma blind_keywordOf (hr : r.Blind) (arg : Expr) :
    Blind (Seen (Option.map fun keyword => (keyword.1, keyword.2.erase))) (keywordOf r arg)
      (keywordOf r arg.erase) := by
  rw [keywordOf, keywordOf, name?_erase]
  cases arg.name? with
  | none => exact .pure rfl
  | some name => exact hr.expr.after?.next fun value => .pure (by cases value <;> rfl)

lemma blind_argument (hr : r.Blind) (a : List Expr × List (String × Expr)) :
    Blind (Seen seenArgs) (argument r a) (argument r (seenArgs a)) := by
  refine hr.expr.next fun arg => (blind_keywordOf hr arg).next fun keyword? => ?_
  cases keyword? with
  | some keyword => exact .pure (by simp [Seen, seenArgs])
  | none =>
    have hempty : (seenArgs a).2.isEmpty = a.2.isEmpty := List.isEmpty_map
    dsimp only [Option.map_none]
    rw [hempty]
    split
    · exact .pure (by simp [Seen, seenArgs])
    · exact .throw rfl

lemma shows_callArgs (hr : r.Blind) : Shows seenArgs (callArgs r) := by
  rw [callArgs_eq]
  refine .loop (a := ([], [])) fun a => .peek fun t => ?_
  split
  · exact .pure rfl
  · exact (blind_argument hr a).next fun next => .eat (.pure rfl) (.pure rfl)

lemma blind_trailer (hr : r.Blind) (start : Span) (e : Expr) :
    Blind (Seen (Step.map Expr.erase)) (trailer r start e) (trailer r nowhere e.erase) := by
  refine .peek fun t => ?_
  split
  · refine .advance ((shows_callArgs hr).next fun args => .expect (.spanFrom fun _ => .pure ?_))
    simp only [Seen, Step.map, Expr.erase]
  · refine .advance (.identifier fun field => .spanFrom fun _ => .pure ?_)
    simp only [Seen, Step.map, Expr.erase]
  · refine .advance ((shows_exprList hr).next fun index => .expect (.spanFrom fun _ => .pure ?_))
    simp only [Seen, Step.map, Expr.erase]
  · exact .pure rfl

lemma shows_trailed (hr : r.Blind) : Shows Expr.erase (trailed r) := by
  rw [trailed_eq]
  exact .peekSpan fun start => (shows_primary hr).next fun first => .loop (blind_trailer hr start)

lemma shows_awaited (hr : r.Blind) : Shows Expr.erase (awaited r) := by
  refine .peek fun t => ?_
  split
  · refine .peekSpan fun start => .advance ((shows_trailed hr).next fun value => ?_)
    exact .spanFrom fun _ => .pure (by simp only [Seen, Expr.erase])
  · exact shows_trailed hr

lemma shows_power (hr : r.Blind) : Shows Expr.erase (power r) := by
  refine .peekSpan fun start => (shows_awaited hr).next fun base => .eat ?_ (.pure rfl)
  exact hr.factor.next fun exponent => .spanFrom fun _ => .pure (by simp only [Seen, Expr.erase])

lemma shows_factor (hr : r.Blind) : Shows Expr.erase (factor r) := by
  refine .peekSpan fun start => .peek fun t => ?_
  cases sign? t with
  | some op =>
    refine .advance (hr.factor.next fun operand => .spanFrom fun _ => .pure ?_)
    simp only [Seen, Expr.erase]
  | none => exact shows_power hr

lemma shows_arithmetic (hr : r.Blind) : Shows Expr.erase (arithmetic r) := by
  have hlevels (ops : List (Token → Option BinOp)) : ∀ operand, Shows Expr.erase operand →
      Shows Expr.erase (ops.foldl (fun operand op? => chain op? operand) operand) := by
    induction ops with
    | nil => exact fun _ h => h
    | cons op? ops ih => exact fun operand h => ih _ (shows_chain h)
  exact hlevels levels _ (shows_factor hr)

lemma shows_comparison? : Shows id comparison? := by
  refine .peek fun t => ?_
  split
  case h_8 => exact .advance (.eat (.pure rfl) (.pure rfl))
  case h_9 => exact .advance (.eat (.pure rfl) .unexpected)
  case h_10 => exact .pure rfl
  all_goals exact .advance (.pure rfl)

lemma shows_comparison (hr : r.Blind) : Shows Expr.erase (comparison r) := by
  refine .peekSpan fun start => (shows_arithmetic hr).next fun left => ?_
  refine (Blind.loop (v := List.map fun part => (part.1, part.2.erase)) (a := [])
    fun rest => shows_comparison?.next fun op => ?_).next fun rest => ?_
  · cases op with
    | some op => exact (shows_arithmetic hr).next fun right => .pure (by simp [Seen, Step.map])
    | none => exact .pure rfl
  · rw [List.isEmpty_map]
    split
    · exact .pure rfl
    · exact .spanFrom fun _ => .pure (by simp only [Seen, Expr.erase])

lemma shows_notTest (hr : r.Blind) : Shows Expr.erase (notTest r) := by
  refine .peekSpan fun start => .eat ?_ (shows_comparison hr)
  exact hr.notTest.next fun operand => .spanFrom fun _ => .pure (by simp only [Seen, Expr.erase])

lemma shows_orTest (hr : r.Blind) : Shows Expr.erase (orTest r) :=
  shows_chain (shows_chain (shows_notTest hr))

lemma shows_expr (hr : r.Blind) : Shows Expr.erase (expr r) := by
  refine .peekSpan fun start => .peek fun t => ?_
  split
  · exact shows_lambda hr
  · exact shows_yieldExpr hr
  · refine (shows_orTest hr).next fun e => .eat ?_ (.eat ?_ (.pure rfl))
    · refine hr.orTest.next fun test => .expect (hr.expr.next fun orelse => .spanFrom fun _ => ?_)
      exact .pure (by simp only [Seen, Expr.erase])
    · exact hr.expr.next fun value => .spanFrom fun _ => .pure (by simp only [Seen, Expr.erase])

lemma blind_inner : ∀ n, (inner n).Blind
  | 0 =>
    have hstop : Shows Expr.erase (do throw ⟨.stalled, ← peekSpan⟩) :=
      .peekSpan fun _ => .throw rfl
    ⟨hstop, hstop, hstop, hstop⟩
  | n + 1 =>
    have hr := blind_inner n
    ⟨shows_expr hr, shows_orTest hr, shows_notTest hr, shows_factor hr⟩

/-! ### Statements -/

section Statements

variable {stmt : Parser Stmt}

lemma shows_block (h : Shows Stmt.erase stmt) : Shows (List.map Stmt.erase) (block stmt) := by
  refine .peek fun t => ?_
  split
  · exact h.next fun s => .pure rfl
  refine .advance (.peek fun t => ?_)
  split
  · exact .unexpected_bind
  refine .advance (.skipNewlines ((Blind.loop (v := List.map Stmt.erase) (a := [])
    fun body => .peek fun t => ?_).next fun body => .eat (.pure rfl) (.pure rfl)))
  split
  · exact .pure rfl
  · exact .pure rfl
  · exact h.next fun s => .skipNewlines (.pure (by simp [Seen, Step.map]))

lemma shows_suite (h : Shows Stmt.erase stmt) : Shows (List.map Stmt.erase) (suite stmt) :=
  .expect (shows_block h)

lemma shows_clause (h : Shows Stmt.erase stmt) (word : Keyword) :
    Shows (List.map Stmt.erase) (clause word stmt) :=
  .eat (shows_suite h) (.pure rfl)

lemma shows_atLineEnd : Shows id atLineEnd := by
  refine .peek fun t => ?_
  split <;> exact .pure rfl

lemma shows_identifier : Shows id identifier := by
  refine .peek fun t => ?_
  split
  · exact .advance (.pure rfl)
  · exact .unexpected

lemma shows_endOfStatement : Shows id endOfStatement := by
  refine .peek fun t => ?_
  split
  · exact (Blind.advance (.pure rfl) : Shows id (advance >>= Pure.pure))
  · exact .pure rfl
  · exact .pure rfl
  · exact .unexpected

/-- A parser of statements that lack their spans. -/
abbrev ShowsNode (p : Parser (Span → Stmt)) : Prop := Blind (SeenNode Stmt.erase) p p

lemma showsNode_raising (hr : r.Blind) : ShowsNode (raising r) := by
  refine .advance (shows_atLineEnd.next fun ends => ?_)
  cases ends with
  | true => exact .pure fun _ => by simp [Stmt.erase]
  | false =>
    exact hr.expr.next fun exception => hr.expr.after?.next fun cause => .pure fun _ => by
      simp [Stmt.erase]

lemma shows_names (mark : Token) : Shows id (separated mark identifier) := by
  have h : Shows (List.map id) (separated mark identifier) := shows_identifier.separated
  rwa [List.map_id_fun] at h

lemma shows_asName : Shows id (after? (.keyword .kAs) identifier) := by
  have h : Shows (Option.map id) (after? (.keyword .kAs) identifier) := shows_identifier.after?
  rwa [Option.map_id] at h

lemma showsNode_importing : ShowsNode importing :=
  .advance ((shows_names _).next fun path => shows_asName.next fun asName => .pure fun _ => by
    simp [Stmt.erase])

lemma shows_importedNames (parenthesized : Bool) : Shows id (importedNames parenthesized) := by
  refine .loop fun names => .identifier fun name => shows_asName.next fun asName => ?_
  refine .eat (.peek fun t => ?_) (.pure rfl)
  split <;> exact .pure rfl

lemma showsNode_importingFrom : ShowsNode importingFrom := by
  refine .advance ((shows_names _).next fun path => .expect (.eat ?_ ?_))
  · exact (shows_importedNames true).next fun names => .expect (.pure fun _ => by simp [Stmt.erase])
  · exact (shows_importedNames false).next fun names => .pure fun _ => by simp [Stmt.erase]

lemma showsNode_exprOrAssign (hr : r.Blind) : ShowsNode (exprOrAssign r) := by
  have hlist := shows_exprList hr
  refine hlist.next fun target => .peek fun t => ?_
  cases augmented? t with
  | some op => exact .advance (hlist.next fun value => .pure fun _ => by simp [Stmt.erase])
  | none =>
    refine .eat ?_ (.eat ?_ (.pure fun _ => by simp [Stmt.erase]))
    · exact hr.expr.next fun annot => hlist.after?.next fun value => .pure fun _ => by
        simp [Stmt.erase]
    · refine hlist.next fun value => (Blind.loop (a := ([target], value))
        (v := fun parts => (parts.1.map Expr.erase, parts.2.erase)) fun parts => ?_).next
          fun parts => ?_
      · exact .eat (hlist.next fun next => .pure (by simp [Seen, Step.map])) (.pure rfl)
      · exact .pure fun _ => by simp [Stmt.erase]

lemma showsNode_simple (hr : r.Blind) : ShowsNode (simple r) := by
  refine .peek fun t => ?_
  split
  case h_4 =>
    refine .advance (shows_atLineEnd.next fun ends => ?_)
    cases ends with
    | true => exact .pure fun _ => by simp [Stmt.erase]
    | false => exact (shows_exprList hr).next fun value => .pure fun _ => by simp [Stmt.erase]
  case h_5 =>
    exact .advance ((shows_exprList hr).next fun target => .pure fun _ => by simp [Stmt.erase])
  case h_6 =>
    exact .advance (hr.expr.next fun test => hr.expr.after?.next fun message => .pure fun _ => by
      simp [Stmt.erase])
  case h_7 => exact showsNode_raising hr
  case h_8 | h_9 =>
    exact .advance ((shows_names _).next fun names => .pure fun _ => by simp [Stmt.erase])
  case h_10 => exact showsNode_importing
  case h_11 => exact showsNode_importingFrom
  case h_12 => exact showsNode_exprOrAssign hr
  all_goals exact .advance (.pure fun _ => by simp [Stmt.erase])

end Statements

section Compound

variable {stmt : Parser Stmt} (hr : r.Blind) (h : Shows Stmt.erase stmt)

include hr h

lemma showsNode_ifStmt : ShowsNode (ifStmt r stmt) := by
  refine .advance (hr.expr.next fun test => (shows_suite h).next fun body => ?_)
  refine (Blind.loop (v := List.map Branch.erase) (a := []) fun elifs => ?_).next
    fun elifs => (shows_clause h _).next fun orelse => .pure fun _ => by simp [Stmt.erase]
  refine .eat (hr.expr.next fun test => (shows_suite h).next fun body => .pure ?_) (.pure rfl)
  simp [Seen, Step.map, Branch.erase]

lemma showsNode_whileStmt : ShowsNode (whileStmt r stmt) :=
  .advance (hr.expr.next fun test => (shows_suite h).next fun body =>
    (shows_clause h _).next fun orelse => .pure fun _ => by simp [Stmt.erase])

lemma showsNode_forStmt : ShowsNode (forStmt r stmt) := by
  refine .advance ((shows_tupleOf (shows_trailed hr) (.peek fun _ => .pure rfl)).next fun target =>
    .eat ?_ .unexpected_bind)
  exact (shows_exprList hr).next fun iter => (shows_suite h).next fun body =>
    (shows_clause h _).next fun orelse => .pure fun _ => by simp [Stmt.erase]

lemma blind_funcDef (decorators : List Expr) : Blind (SeenNode Stmt.erase)
    (funcDef r stmt decorators) (funcDef r stmt (decorators.map Expr.erase)) := by
  refine .advance (.identifier fun name => .expect ?_)
  refine (shows_param hr true).listUntil.next fun params => .expect ?_
  refine hr.expr.after?.next fun returns => (shows_suite h).next fun body => .pure fun _ => ?_
  simp [Stmt.erase, FuncHeader.erase]

lemma blind_classDef (decorators : List Expr) : Blind (SeenNode Stmt.erase)
    (classDef r stmt decorators) (classDef r stmt (decorators.map Expr.erase)) := by
  have hrest (name : String) (bases : List Expr) : Blind (SeenNode Stmt.erase)
      (do let body ← suite stmt
          return fun span => Stmt.classDef span ⟨name, bases, decorators⟩ body)
      (do let body ← suite stmt
          return fun span => Stmt.classDef span
            ⟨name, bases.map Expr.erase, decorators.map Expr.erase⟩ body) :=
    (shows_suite h).next fun body => .pure fun _ => by simp [Stmt.erase, ClassHeader.erase]
  refine .advance (.identifier fun name => .eat ?_ (hrest name []))
  exact hr.expr.listUntil.next fun bases => .expect (hrest name bases)

lemma shows_handler : Shows Handler.erase (handler r stmt) := by
  refine .peek fun t => ?_
  split
  · exact (shows_suite h).next fun body => .pure (by simp [Seen, Handler.erase])
  · exact hr.expr.next fun exception => shows_asName.next fun name =>
      (shows_suite h).next fun body => .pure (by simp [Seen, Handler.erase])

lemma showsNode_tryStmt : ShowsNode (tryStmt r stmt) := by
  refine .advance ((shows_suite h).next fun body => ?_)
  refine (Blind.loop (v := List.map Handler.erase) (a := []) fun handlers => ?_).next
    fun handlers => (shows_clause h _).next fun orelse => (shows_clause h _).next fun finale => ?_
  · refine .eat ((shows_handler hr h).next fun handler => .pure ?_) (.pure rfl)
    simp [Seen, Step.map]
  · rw [List.isEmpty_map, List.isEmpty_map]
    split
    · exact .unexpected_bind
    · exact .pure fun _ => by simp [Stmt.erase]

lemma showsNode_withStmt : ShowsNode (withStmt r stmt) := by
  have hitem : Shows (fun item => (item.1.erase, item.2.map Expr.erase)) (withItem r) :=
    hr.expr.next fun context => (shows_trailed hr).after?.next fun target => .pure rfl
  exact .advance (hitem.separated.next fun items => (shows_suite h).next fun body =>
    .pure fun _ => by simp [Stmt.erase])

lemma showsNode_decorated : ShowsNode (decorated r stmt) := by
  refine (Blind.loop (v := List.map Expr.erase) (a := []) fun decorators => ?_).next
    fun decorators => .peek fun t => ?_
  · refine .eat (hr.expr.next fun decorator => .expect (.skipNewlines (.pure ?_))) (.pure rfl)
    simp [Seen, Step.map]
  · split
    · exact blind_funcDef hr h decorators
    · exact blind_classDef hr h decorators
    · exact .unexpected

lemma showsNode_compound? {t : Token} {p : Parser (Span → Stmt)}
    (hp : compound? r stmt t = some p) : ShowsNode p := by
  unfold compound? at hp
  split at hp
  case h_1 => exact Option.some.inj hp ▸ showsNode_ifStmt hr h
  case h_2 => exact Option.some.inj hp ▸ showsNode_whileStmt hr h
  case h_3 => exact Option.some.inj hp ▸ showsNode_forStmt hr h
  case h_4 => exact Option.some.inj hp ▸ blind_funcDef hr h []
  case h_5 => exact Option.some.inj hp ▸ blind_classDef hr h []
  case h_6 => exact Option.some.inj hp ▸ showsNode_tryStmt hr h
  case h_7 => exact Option.some.inj hp ▸ showsNode_withStmt hr h
  case h_8 => exact Option.some.inj hp ▸ showsNode_decorated hr h
  case h_9 => cases hp

lemma shows_statementOver : Shows Stmt.erase (statementOver r stmt) := by
  refine .peekSpan fun start => .peek fun t => ?_
  cases hp : compound? r stmt t with
  | some p =>
    refine (showsNode_compound? hr h hp).bind fun node node' hnode => ?_
    exact .spanFrom fun span => .pure (hnode span)
  | none =>
    refine (showsNode_simple hr).bind fun node node' hnode => .spanFrom fun span => ?_
    exact shows_endOfStatement.next fun _ => .pure (hnode span)

end Compound

lemma shows_statement (hr : r.Blind) : ∀ n, Shows Stmt.erase (statement r n)
  | 0 => .peekSpan fun _ => .throw rfl
  | n + 1 => shows_statementOver hr (shows_statement hr n)

lemma shows_sourceFile (hr : r.Blind) (depth : Nat) : Shows Module.erase (sourceFile r depth) := by
  refine .skipNewlines ((Blind.loop (v := List.map Stmt.erase) (a := [])
    fun body => .peek fun t => ?_).next fun body => .pure rfl)
  split
  · exact .pure rfl
  · exact (shows_statement hr depth).next fun s => .skipNewlines (.pure (by simp [Seen, Step.map]))

/-! ### Sources -/

/-- What parsing comes to, spans apart. -/
def outcome : Except ParseError Module → Except Fault Module
  | .ok m => .ok m.erase
  | .error e => .error e.fault

lemma Agree.outcome {out out' : Except ParseError (Module × State)}
    (h : Agree (Seen Module.erase) out out') : Grammar.outcome (out.map Prod.fst) =
      (out'.map Prod.fst).mapError ParseError.fault := by
  rcases out with e | out <;> rcases out' with e' | out'
  · exact congrArg Except.error h.symm
  · exact h.elim
  · exact h.elim
  · exact congrArg Except.ok h.1.symm

/-- **The parser goes by tokens**: streams of the same tokens give the same tree up to spans, or
fail for the same reason. -/
lemma outcome_parseLexemes {ls ls' : List Lexeme}
    (h : ls.map Lexeme.token = ls'.map Lexeme.token) :
    outcome (parseLexemes ls) = outcome (parseLexemes ls') := by
  have hlength : ls.length = ls'.length := by
    simpa only [List.length_map] using congrArg List.length h
  have hbare : State.bare ⟨ls, nowhere⟩ = State.bare ⟨ls', nowhere⟩ := by
    have hmap := congrArg (List.map fun t => Lexeme.mk t nowhere) h
    simp only [List.map_map] at hmap
    exact congrArg (State.mk · nowhere) hmap
  have hrun (ls : List Lexeme) := (shows_sourceFile (blind_inner (ls.length + 1))
    (ls.length + 1) ⟨ls, nowhere⟩).outcome
  rw [parseLexemes_eq, parseLexemes_eq]
  exact (hrun ls).trans (by rw [hlength, hbare]; exact (hrun ls').symm)

end AnnotatedWasm.Grammar
