import AnnotatedWasm.Lowering.Expr
import Mathlib.Data.List.Forall2

/-!
The order in which a program calls its functions.

The operands of an expression are evaluated from left to right, and a call comes after its
arguments; an assignment evaluates its value and then the operands of its targets. This is the order
that is written. The order of emission differs in three forms (`EvalOrder`), and in a statement that
is `InOrder` it makes no difference to the calls (`Stmt.calls_emitted`).
-/

namespace AnnotatedWasm

open Syntax (Expr Stmt Branch)

inductive EvalOrder where
  /-- As the language has it. -/
  | written
  /-- As the code has it: a condition after the two values it chooses from, the step of a range
  before its stop, and the operands of a single element that is assigned before the value. -/
  | emitted

namespace Syntax.Expr

/-- The operands of an expression as they are written. -/
def operands : Expr → List Expr
  | unary _ _ e => [e]
  | binary _ _ l r => [l, r]
  | compare _ l rest => l :: rest.map (·.2)
  | ifElse _ test body orelse => [test, body, orelse]
  | call _ _ args _ => args
  | subscript _ a i => [a, i]
  | list _ es => es
  | _ => []

/-- The bounds of `list(range(...))`, where `list` is not a function of the program. -/
def rangeBounds? (sigs : Signatures) : Expr → Option (List Expr)
  | call _ (name _ f) [call _ (name _ g) bounds []] _ =>
    if f = "list" ∧ g = "range" ∧ (sigs.get? f).isNone then some bounds else none
  | _ => none

/-- The start and the step come before the stop. -/
def emittedBounds : List Expr → List Expr
  | [start, stop, step] => [start, step, stop]
  | bounds => bounds

/-- The operands of an expression as they are emitted. -/
def emittedOperands (sigs : Signatures) : Expr → List Expr
  | ifElse _ test body orelse => [body, orelse, test]
  | e =>
    match e.rangeBounds? sigs with
    | some bounds => emittedBounds bounds
    | none => e.operands

def operandsIn (o : EvalOrder) (sigs : Signatures) (e : Expr) : List Expr :=
  match o with
  | .written => e.operands
  | .emitted => e.emittedOperands sigs

lemma sizeOf_lt_of_mem_operands {e x : Expr} (h : x ∈ e.operands) : sizeOf x < sizeOf e := by
  cases e
  case unary | binary | ifElse | subscript =>
    simp only [operands, List.mem_cons, List.not_mem_nil, or_false] at h
    rcases h with rfl | rfl | rfl <;> simp <;> omega
  case call | list =>
    simp only [operands] at h
    have hlt := List.sizeOf_lt_of_mem h
    simp
    omega
  case compare span l rest =>
    rcases List.mem_cons.mp h with rfl | h
    · simp
      omega
    · obtain ⟨⟨op, r⟩, hmem, rfl⟩ := List.mem_map.mp h
      have hlt := List.sizeOf_lt_of_mem hmem
      simp at hlt ⊢
      omega
  all_goals cases h

variable {sigs : Signatures} {e x : Expr} {bounds : List Expr}

lemma rangeBounds?_eq_some (h : e.rangeBounds? sigs = some bounds) :
    ∃ s s₁ s₂ s₃ keywords, sigs.get? "list" = none ∧
      e = call s (name s₁ "list") [call s₂ (name s₃ "range") bounds []] keywords := by
  unfold rangeBounds? at h
  split at h
  · next s s₁ f s₂ s₃ g bounds' keywords =>
    split at h
    · next hlist =>
      obtain ⟨rfl, rfl, hnone⟩ := hlist
      cases h
      exact ⟨_, _, _, _, _, Option.isNone_iff_eq_none.mp hnone, rfl⟩
    · cases h
  · cases h

/-- A call of anything but the unmarked `list` takes its arguments in order. -/
lemma emittedOperands_call {s s' : Span} {f : String} {args : List Expr}
    {keywords : List (String × Expr)} (h : f ≠ "list" ∨ (sigs.get? f).isSome) :
    (call s (name s' f) args keywords).emittedOperands sigs = args := by
  rcases hb : (call s (name s' f) args keywords).rangeBounds? sigs with _ | bounds
  · simp only [emittedOperands, hb, operands]
  · obtain ⟨_, _, _, _, _, hnone, heq⟩ := rangeBounds?_eq_some hb
    cases heq
    rcases h with hne | hsome
    · exact absurd rfl hne
    · rw [hnone] at hsome
      cases hsome

lemma mem_emittedBounds : x ∈ emittedBounds bounds ↔ x ∈ bounds := by
  unfold emittedBounds
  split
  · simp only [List.mem_cons, List.not_mem_nil, or_false]
    tauto
  · rfl

lemma sizeOf_lt_of_mem_emittedOperands (h : x ∈ e.emittedOperands sigs) :
    sizeOf x < sizeOf e := by
  unfold emittedOperands at h
  split at h
  · next s test body orelse =>
    refine sizeOf_lt_of_mem_operands (e := ifElse s test body orelse) ?_
    simp only [operands, List.mem_cons, List.not_mem_nil, or_false] at h ⊢
    tauto
  · split at h
    · next hbounds =>
      obtain ⟨s, s₁, s₂, s₃, keywords, -, rfl⟩ := rangeBounds?_eq_some hbounds
      -- the bounds are operands of the operand
      have hinner : x ∈ (call s₂ (name s₃ "range") _ []).operands := mem_emittedBounds.mp h
      exact Nat.lt_trans (sizeOf_lt_of_mem_operands hinner)
        (sizeOf_lt_of_mem_operands (List.mem_singleton_self _))
    · exact sizeOf_lt_of_mem_operands h

lemma sizeOf_lt_of_mem_operandsIn {o : EvalOrder} (h : x ∈ e.operandsIn o sigs) :
    sizeOf x < sizeOf e := by
  cases o
  · exact sizeOf_lt_of_mem_operands h
  · exact sizeOf_lt_of_mem_emittedOperands h

/-- The expression itself calls a function of the program. -/
def isCall (sigs : Signatures) : Expr → Bool
  | call _ (name _ f) _ _ => (sigs.get? f).isSome
  | _ => false

/-- The calls of functions of the program in an expression, in the order in which they are made. -/
def calls (o : EvalOrder) (sigs : Signatures) (e : Expr) : List Expr :=
  (e.operandsIn o sigs).attach.flatMap (fun x => x.1.calls o sigs) ++
    if e.isCall sigs then [e] else []
termination_by sizeOf e
decreasing_by exact sizeOf_lt_of_mem_operandsIn x.2

lemma calls_eq (o : EvalOrder) (sigs : Signatures) (e : Expr) :
    e.calls o sigs = (e.operandsIn o sigs).flatMap (calls o sigs) ++
      if e.isCall sigs then [e] else [] := by
  rw [calls, List.flatMap_subtype (g := calls o sigs) fun _ _ => rfl, List.unattach_attach]

/-! ### Expressions in order -/

/-- The expression is the other one or stands in it. -/
inductive Inside : Expr → Expr → Prop
  | self (e : Expr) : Inside e e
  | operand {x y e : Expr} : Inside x y → y ∈ e.operands → Inside x e

/-- The forms that are emitted in another order: conditional expressions, and ranges with calls both
in the stop and in the step. In the bounds of a range a function of the program may be called, but
not in place of `range` itself. -/
structure Uncrossed (sigs : Signatures) (e : Expr) : Prop where
  choice : ∀ s test body orelse, e ≠ ifElse s test body orelse
  range : ∀ bounds, e.rangeBounds? sigs = some bounds → sigs.get? "range" = none
  bounds : ∀ start stop step, e.rangeBounds? sigs = some [start, stop, step] →
    stop.calls .written sigs = [] ∨ step.calls .written sigs = []

/-- Nothing in the expression is emitted in another order. -/
def InOrder (sigs : Signatures) (e : Expr) : Prop := ∀ x, Inside x e → x.Uncrossed sigs

lemma InOrder.operand (h : e.InOrder sigs) (hx : x ∈ e.operands) : x.InOrder sigs :=
  fun y hy => h y (hy.operand hx)

lemma inOrder_iff : e.InOrder sigs ↔ e.Uncrossed sigs ∧ ∀ x ∈ e.operands, x.InOrder sigs := by
  constructor
  · exact fun h => ⟨h e (.self e), fun _ => h.operand⟩
  · rintro ⟨hself, hops⟩ y hy
    cases hy with
    | self => exact hself
    | operand hy hx => exact hops _ hx y hy

/-- Of most forms only the operands matter. -/
lemma InOrder.of_operands (hchoice : ∀ s test body orelse, e ≠ ifElse s test body orelse)
    (hrange : e.rangeBounds? sigs = none) (h : ∀ x ∈ e.operands, x.InOrder sigs) :
    e.InOrder sigs :=
  inOrder_iff.mpr ⟨⟨hchoice, by simp [hrange], by simp [hrange]⟩, h⟩

lemma emittedOperands_of_ne (h : ∀ s test body orelse, e ≠ ifElse s test body orelse) :
    e.emittedOperands sigs =
      match e.rangeBounds? sigs with
      | some bounds => emittedBounds bounds
      | none => e.operands := by
  unfold emittedOperands
  split
  · exact (h _ _ _ _ rfl).elim
  · rfl

/-- Then the calls are made in the order in which they are written. -/
lemma calls_emitted (e : Expr) (h : e.InOrder sigs) :
    e.calls .emitted sigs = e.calls .written sigs := by
  have ih (x : Expr) (hlt : sizeOf x < sizeOf e) (hx : x.InOrder sigs) :
      x.calls .emitted sigs = x.calls .written sigs := calls_emitted x hx
  rw [calls_eq, calls_eq .written]
  congr 1
  have hself := h e (.self e)
  simp only [operandsIn]
  rw [emittedOperands_of_ne hself.choice]
  rcases hb : e.rangeBounds? sigs with _ | bounds
  · exact List.flatMap_congr fun x hx => ih x (sizeOf_lt_of_mem_operands hx) (h.operand hx)
  · have hrange := hself.range bounds hb
    have hcross : (emittedBounds bounds).flatMap (calls .written sigs) =
        bounds.flatMap (calls .written sigs) := by
      unfold emittedBounds
      split
      · next start stop step =>
        rcases hself.bounds start stop step hb with hnone | hnone <;> simp [hnone]
      · rfl
    obtain ⟨s, s₁, s₂, s₃, keywords, -, rfl⟩ := rangeBounds?_eq_some hb
    have hinner : call s₂ (name s₃ "range") bounds [] ∈
        (call s (name s₁ "list") [call s₂ (name s₃ "range") bounds []] keywords).operands :=
      List.mem_singleton_self _
    calc (emittedBounds bounds).flatMap (calls .emitted sigs)
        = (emittedBounds bounds).flatMap (calls .written sigs) := by
          refine List.flatMap_congr fun x hx => ?_
          have hx : x ∈ (call s₂ (name s₃ "range") bounds []).operands := mem_emittedBounds.mp hx
          have hlt := Nat.lt_trans (sizeOf_lt_of_mem_operands hx) (sizeOf_lt_of_mem_operands hinner)
          exact ih x hlt ((h.operand hinner).operand hx)
      _ = bounds.flatMap (calls .written sigs) := hcross
      _ = (call s₂ (name s₃ "range") bounds []).calls .written sigs := by
          simp [calls_eq .written sigs (call _ _ _ _), operandsIn, operands, isCall, hrange]
      _ = _ := by simp [operands]
termination_by sizeOf e

end Syntax.Expr

/-! ### Statements -/

namespace Syntax.Stmt

/-- The expressions that a statement evaluates itself. -/
def operandsIn (o : EvalOrder) : Stmt → List Expr
  | expr _ e => [e]
  | assign _ targets value =>
    match o, targets with
    | .emitted, [.subscript s array index] => [.subscript s array index, value]
    | _, _ => value :: targets
  | annAssign _ _ _ value => value.toList
  | augAssign _ target _ value => [target, value]
  | ret _ value => value.toList
  | assert _ test _ => [test]
  | ifElse _ test _ _ _ | whileLoop _ test _ _ => [test]
  | _ => []

variable (o : EvalOrder) (sigs : Signatures)

mutual

/-- The calls of functions of the program in a statement, in the order in which they stand. -/
def calls (s : Stmt) : List Expr :=
  (s.operandsIn o).flatMap (Expr.calls o sigs) ++
    match s with
    | ifElse _ _ body elifs orelse => callsAll body ++ callsElifs elifs ++ callsAll orelse
    | whileLoop _ _ body orelse => callsAll body ++ callsAll orelse
    | _ => []

def callsAll : List Stmt → List Expr
  | [] => []
  | s :: ss => s.calls ++ callsAll ss

def callsElifs : List Branch → List Expr
  | [] => []
  | .mk test body :: rest => test.calls o sigs ++ callsAll body ++ callsElifs rest

end

lemma calls_ifElse (span : Span) (test : Expr) (body : List Stmt) (elifs : List Branch)
    (orelse : List Stmt) : (ifElse span test body elifs orelse).calls o sigs =
      test.calls o sigs ++ (callsAll o sigs body ++
        (callsElifs o sigs elifs ++ callsAll o sigs orelse)) := by
  rw [← List.append_assoc (callsAll o sigs body), ← List.flatMap_singleton (Expr.calls o sigs) test]
  rfl

lemma calls_whileLoop (span : Span) (test : Expr) (body orelse : List Stmt) :
    (whileLoop span test body orelse).calls o sigs =
      test.calls o sigs ++ (callsAll o sigs body ++ callsAll o sigs orelse) := by
  rw [← List.flatMap_singleton (Expr.calls o sigs) test]
  rfl

lemma callsAll_eq (ss : List Stmt) : callsAll o sigs ss = ss.flatMap (calls o sigs) := by
  induction ss with
  | nil => rfl
  | cons s ss ih => rw [callsAll, ih]; rfl

/-- An element that is assigned alone is emitted before its value; not both have calls. -/
def Uncrossed (s : Stmt) : Prop :=
  ∀ span s' array index value, s = assign span [.subscript s' array index] value →
    (Expr.subscript s' array index).calls .written sigs = [] ∨ value.calls .written sigs = []

mutual

/-- Nothing in the statement is emitted in another order than it is written in. -/
def InOrder (s : Stmt) : Prop :=
  s.Uncrossed sigs ∧ (∀ e ∈ s.operandsIn .written, e.InOrder sigs) ∧
    match s with
    | ifElse _ _ body elifs orelse => InOrderAll body ∧ InOrderElifs elifs ∧ InOrderAll orelse
    | whileLoop _ _ body orelse => InOrderAll body ∧ InOrderAll orelse
    | _ => True

def InOrderAll : List Stmt → Prop
  | [] => True
  | s :: ss => s.InOrder ∧ InOrderAll ss

def InOrderElifs : List Branch → Prop
  | [] => True
  | .mk test body :: rest => test.InOrder sigs ∧ InOrderAll body ∧ InOrderElifs rest

end

variable {sigs : Signatures}

/-- Several targets are stored to after their value. -/
lemma operandsIn_assign {o : EvalOrder} {span : Span} {targets : List Expr} {value : Expr}
    (h : targets.length ≠ 1) : (assign span targets value).operandsIn o = value :: targets := by
  simp only [operandsIn]
  split
  · exact absurd rfl h
  · rfl

lemma mem_operandsIn {o : EvalOrder} {s : Stmt} {e : Expr} :
    e ∈ s.operandsIn o ↔ e ∈ s.operandsIn .written := by
  cases s
  case assign span targets value =>
    simp only [operandsIn]
    split
    · simp only [List.mem_cons, List.not_mem_nil, or_false]
      tauto
    · rfl
  all_goals rfl

lemma operands_emitted {s : Stmt} (h : s.Uncrossed sigs)
    (hops : ∀ e ∈ s.operandsIn .written, e.InOrder sigs) :
    (s.operandsIn .emitted).flatMap (Expr.calls .emitted sigs) =
      (s.operandsIn .written).flatMap (Expr.calls .written sigs) := by
  have hwritten : (s.operandsIn .emitted).flatMap (Expr.calls .emitted sigs) =
      (s.operandsIn .emitted).flatMap (Expr.calls .written sigs) :=
    List.flatMap_congr fun e he => e.calls_emitted (hops e (mem_operandsIn.mp he))
  rw [hwritten]
  cases s
  case assign span targets value =>
    simp only [operandsIn]
    split
    · next s' array index =>
      rcases h _ _ _ _ _ rfl with hnone | hnone <;> simp [hnone]
    · rfl
  all_goals rfl

mutual

/-- Then the calls of the statement are emitted in the order in which they are written. -/
lemma calls_emitted (s : Stmt) (h : s.InOrder sigs) :
    s.calls .emitted sigs = s.calls .written sigs := by
  cases s with
  | ifElse span test body elifs orelse =>
    obtain ⟨hcross, hops, hbody, helifs, horelse⟩ := h
    have hnested : callsAll .emitted sigs body ++ callsElifs .emitted sigs elifs ++
        callsAll .emitted sigs orelse = callsAll .written sigs body ++
          callsElifs .written sigs elifs ++ callsAll .written sigs orelse := by
      rw [callsAll_emitted body hbody, callsElifs_emitted elifs helifs,
        callsAll_emitted orelse horelse]
    exact congrArg₂ (· ++ ·) (operands_emitted hcross hops) hnested
  | whileLoop span test body orelse =>
    obtain ⟨hcross, hops, hbody, horelse⟩ := h
    have hnested : callsAll .emitted sigs body ++ callsAll .emitted sigs orelse =
        callsAll .written sigs body ++ callsAll .written sigs orelse := by
      rw [callsAll_emitted body hbody, callsAll_emitted orelse horelse]
    exact congrArg₂ (· ++ ·) (operands_emitted hcross hops) hnested
  | _ =>
    obtain ⟨hcross, hops, -⟩ := h
    exact congrArg (· ++ []) (operands_emitted hcross hops)

lemma callsAll_emitted : (ss : List Stmt) → InOrderAll sigs ss →
    callsAll .emitted sigs ss = callsAll .written sigs ss
  | [], _ => rfl
  | s :: ss, h => by
    obtain ⟨hs, hss⟩ := h
    rw [callsAll, callsAll, calls_emitted s hs, callsAll_emitted ss hss]

lemma callsElifs_emitted : (bs : List Branch) → InOrderElifs sigs bs →
    callsElifs .emitted sigs bs = callsElifs .written sigs bs
  | [], _ => rfl
  | .mk test body :: rest, h => by
    obtain ⟨htest, hbody, hrest⟩ := h
    rw [callsElifs, callsElifs, test.calls_emitted htest, callsAll_emitted body hbody,
      callsElifs_emitted rest hrest]

end

end Syntax.Stmt

end AnnotatedWasm
