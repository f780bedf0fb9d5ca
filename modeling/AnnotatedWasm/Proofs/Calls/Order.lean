import AnnotatedWasm.Proofs.Calls.Emission
import AnnotatedWasm.Proofs.Calls.Evaluation
import AnnotatedWasm.Proofs.Lowering.StmtForms

/-!
The order in which lowered code calls functions.

The calls in the code of a statement are the code of the calls in the statement, one by one in the
order of emission (`LowersStmt.stmtCalls`). Where the order of emission is the one that is written
(`Stmt.InOrder`), they are made as written.
-/

namespace AnnotatedWasm.Lowering

open Ir (Node)
open Ir.Node (callsAll callsOpt callsAll_eq)
open Syntax (Expr Stmt Branch)

/-! ### Steps that call nothing -/

@[simp] lemma calls_convert (v : Node) (k : NumKind) : (convert v k).calls = v.calls := by
  unfold convert
  split
  · split <;> rfl
  · rfl

@[simp] lemma calls_slotGet (s : Slot) : (slotGet s).calls = [] := rfl

@[simp] lemma calls_zero (k : NumKind) : (zero k).calls = [] := rfl

@[simp] lemma calls_i32 (i : Int) : (Node.i32 i).calls = [] := rfl

variable {env : Env} {b b' : Body} {n v : Node} {span : Span}

lemma Adapts.calls {t : Ty} (h : Adapts v t n) : n.calls = v.calls := by
  cases h with
  | same _ => rfl
  | number _ => exact calls_convert v _

lemma calls_coerce {t : Ty} (h : Returns (coerce v t span) b n b') : n.calls = v.calls :=
  (returns_coerce h).2.calls

lemma calls_truth (h : Returns (truth v span) b n b') : n.calls = v.calls := by
  obtain ⟨-, k, -, ⟨-, rfl⟩ | ⟨-, rfl⟩⟩ := returns_truth h
  · rfl
  · simp [Node.calls]

lemma calls_unary {op : Syntax.UnaryOp} (h : Returns (unary op v span) b n b') :
    n.calls = v.calls := by
  obtain ⟨-, k, -, h⟩ := returns_unary h
  cases h <;> simp [Node.calls]

lemma calls_floorQuotient (w : Width) (x y r : Slot) (left right : Node) :
    (floorQuotient w x y r left right).calls = left.calls ++ right.calls := by
  simp [floorQuotient, Node.calls, callsAll]

lemma Combines.calls {op : Syntax.BinOp} {k : NumKind} {left right : Node}
    (h : Combines env op k left right b n b') : n.calls = left.calls ++ right.calls := by
  cases h
  case floored => exact calls_floorQuotient _ _ _ _ _ _
  all_goals simp [Node.calls]

lemma calls_binary {op : Syntax.BinOp} {left right : Node}
    (h : Returns (binary env op left right span) b n b') :
    n.calls = left.calls ++ right.calls := by
  obtain ⟨i, j, b₁, -, -, -, h⟩ := returns_binary h
  simpa using h.calls

lemma calls_choose {c x y : Node} (h : Returns (choose c x y span) b n b') :
    n.calls = x.calls ++ y.calls ++ c.calls := by
  obtain ⟨-, ⟨-, -, rfl⟩ | ⟨i, j, -, -, rfl⟩⟩ := returns_choose h <;> simp [Node.calls]

lemma calls_rangeBlock (s : RangeSlots) (label : Ir.Label) (k : NumKind) (start stop step : Node) :
    (rangeBlock s label k start stop step).calls = start.calls ++ step.calls ++ stop.calls := by
  simp [rangeBlock, rangeLength, rangeLoop, Node.calls, callsAll, callsOpt]

lemma calls_whileNode (id : Nat) (c : Node) (ns ms : List Node) :
    (whileNode id c ns ms).calls = c.calls ++ callsAll ns ++ callsAll ms := by
  have hbody : callsAll (ns ++ [.br (loopLabel id)]) = callsAll ns := by
    simp [callsAll_eq, Node.calls]
  cases ms <;> simp [whileNode, Node.calls, callsOpt, hbody, callsAll]

/-! ### Expressions -/

/-- The expression is lowered to the node. -/
def CodeOf (env : Env) (e : Expr) (n : Node) : Prop :=
  ∃ hint b b', Returns (lowerExpr env hint e) b n b'

/-- The calls in a node are the code of those in the expression, one by one. -/
def SameCalls (env : Env) (e : Expr) (n : Node) : Prop :=
  List.Forall₂ (CodeOf env) (e.calls .emitted env.signatures) n.calls

lemma forall₂_flatMap {es : List Expr} {ns : List Node} (h : List.Forall₂ (SameCalls env) es ns) :
    List.Forall₂ (CodeOf env) (es.flatMap (Expr.calls .emitted env.signatures))
      (ns.flatMap Node.calls) :=
  List.rel_flatMap h fun _ _ h => h

namespace SameCalls

variable {e : Expr} {es : List Expr} {ns : List Node}

lemma of_eq (h : SameCalls env e v) (hn : n.calls = v.calls) : SameCalls env e n := by
  unfold SameCalls
  rw [hn]
  exact h

/-- An expression that is not itself a call calls what its operands call. -/
lemma of_operands (he : e.isCall env.signatures = false)
    (hes : e.emittedOperands env.signatures = es) (h : List.Forall₂ (SameCalls env) es ns)
    (hn : n.calls = ns.flatMap Node.calls) : SameCalls env e n := by
  unfold SameCalls
  rw [Expr.calls_eq, he, hn, Expr.operandsIn, hes]
  simpa using forall₂_flatMap h

lemma nop (he : e.isCall env.signatures = false) (hes : e.emittedOperands env.signatures = []) :
    SameCalls env e .nop :=
  .of_operands he hes .nil rfl

end SameCalls

lemma RangeBounds.sameCalls {bounds : List Expr} {ns : List Node} {start stop step : Node}
    (h : RangeBounds ns start stop step) (hns : List.Forall₂ (SameCalls env) bounds ns) :
    ∃ ms, List.Forall₂ (SameCalls env) (Expr.emittedBounds bounds) ms ∧
      start.calls ++ step.calls ++ stop.calls = ms.flatMap Node.calls := by
  cases h with
  | stop =>
    obtain - | ⟨hstop, ⟨⟩⟩ := hns
    exact ⟨_, .cons hstop .nil, by simp⟩
  | startStop =>
    obtain - | ⟨hstart, - | ⟨hstop, ⟨⟩⟩⟩ := hns
    exact ⟨_, .cons hstart (.cons hstop .nil), by simp⟩
  | startStopStep =>
    obtain - | ⟨hstart, - | ⟨hstop, - | ⟨hstep, ⟨⟩⟩⟩⟩ := hns
    exact ⟨_, .cons hstart (.cons hstep (.cons hstop .nil)), by simp⟩

mutual

lemma LowersExpr.sameCalls {hint : Option Ty} {e : Expr} {b b' : Body} {n : Node} :
    LowersExpr env hint e b n b' → SameCalls env e n
  | .slot _ | .global _ _ | .number _ | .bool | .string _ => .of_operands rfl rfl .nil rfl
  | .unary he hn => .of_operands rfl rfl (.cons he.sameCalls .nil) (by simp [calls_unary hn])
  | .binary hl hr hn =>
    .of_operands rfl rfl (.cons hl.sameCalls (.cons hr.sameCalls .nil)) (by simp [calls_binary hn])
  | .compare _ hl hr hu => by
    obtain ⟨-, i, j, -, -, -, rfl, rfl⟩ := returns_unifyOperands hu
    exact .of_operands rfl rfl (.cons hl.sameCalls (.cons hr.sameCalls .nil)) (by simp [Node.calls])
  | .ifElse ht hc hx hy hn =>
    .of_operands rfl rfl (.cons hx.sameCalls (.cons hy.sameCalls (.cons ht.sameCalls .nil)))
      (by simp [calls_choose hn, calls_truth hc])
  | .call hsig hlen hs => by
    unfold SameCalls
    rw [Expr.calls_eq, Expr.operandsIn, Expr.emittedOperands_call (.inr (by simp [hsig]))]
    simp only [Expr.isCall, hsig, Option.isSome_some, if_true, Node.calls, callsAll_eq]
    exact List.rel_append (forall₂_flatMap hs.sameCalls)
      (.cons ⟨hint, _, _, (LowersExpr.call hsig hlen hs).returns⟩ .nil)
  | .range hlist _ hs hn => by
    obtain ⟨start, stop, step, hbounds, rfl, -⟩ := returns_rangeOf hn
    obtain ⟨ms, hms, hcalls⟩ := hbounds.sameCalls hs.sameCalls
    refine .of_operands ?_ ?_ hms ?_
    · simp [Expr.isCall, hlist]
    · simp [Expr.emittedOperands, Expr.rangeBounds?, hlist]
    · rw [calls_rangeBlock, hcalls]
  | .len hlen _ ha _ => by
    refine .of_operands ?_ ?_ (.cons ha.sameCalls .nil) ?_
    · simp [Expr.isCall, hlen]
    · exact Expr.emittedOperands_call (.inl (by decide))
    · simp [Node.calls]
  | .subscript _ ha _ hi hc =>
    .of_operands rfl rfl (.cons ha.sameCalls (.cons hi.sameCalls .nil))
      (by simp [Node.calls, calls_coerce hc])
  | .list _ hs => .of_operands rfl rfl hs.sameCalls (by simp [Node.calls, callsAll_eq])

lemma LowersArgs.sameCalls {tys : List Ty} {args : List Expr} {b b' : Body} {ns : List Node} :
    LowersArgs env tys args b ns b' → List.Forall₂ (SameCalls env) args ns
  | .nil => .nil
  | .cons hv hc hs => .cons (hv.sameCalls.of_eq (calls_coerce hc)) hs.sameCalls

lemma LowersEach.sameCalls {ty : Ty} {es : List Expr} {b b' : Body} {ns : List Node} :
    LowersEach env ty es b ns b' → List.Forall₂ (SameCalls env) es ns
  | .nil => .nil
  | .cons hv hc hs => .cons (hv.sameCalls.of_eq (calls_coerce hc)) hs.sameCalls

end

/-! ### Statements -/

lemma StoresName.calls {name : String} (h : StoresName name v b n b') : n.calls = v.calls := by
  cases h with
  | slot _ ha _ | global _ _ ha _ => rw [Node.calls, ha.calls]
  | fresh _ _ _ => rw [Node.calls]

/-- The operands of a target come before the value that is stored to it. -/
lemma Stores.calls {target : Expr} (h : Stores env v target b n b') :
    ∃ m, SameCalls env target m ∧ n.calls = m.calls ++ v.calls := by
  cases h with
  | name h => exact ⟨.nop, .nop rfl rfl, by simp [Node.calls, h.calls]⟩
  | @element _ _ _ k _ a _ i _ i' _ _ _ _ ha _ hi hc hv =>
    refine ⟨.arrayGet k a i', ?_, by simp [Node.calls, calls_coerce hv]⟩
    exact .of_operands rfl rfl (.cons ha.sameCalls (.cons hi.sameCalls .nil))
      (by simp [Node.calls, calls_coerce hc])

lemma StoresAll.calls {targets : List Expr} {ns : List Node}
    (h : StoresAll env v targets b ns b') (hv : v.calls = []) :
    ∃ ms, List.Forall₂ (SameCalls env) targets ms ∧
      ns.flatMap Node.calls = ms.flatMap Node.calls := by
  induction h with
  | nil => exact ⟨[], .nil, rfl⟩
  | cons hs _ ih =>
    obtain ⟨m, hm, hcalls⟩ := hs.calls
    obtain ⟨ms, hms, hrest⟩ := ih
    exact ⟨m :: ms, .cons hm hms, by simp [hcalls, hv, hrest]⟩

/-- The calls in a node are the code of those in the statement, one by one. -/
def StmtCalls (env : Env) (s : Stmt) (n : Node) : Prop :=
  List.Forall₂ (CodeOf env) (s.calls .emitted env.signatures) n.calls

/-- A statement without statements in it calls what its operands call. -/
lemma StmtCalls.of_operands {s : Stmt} {ns : List Node}
    (hs : s.calls .emitted env.signatures =
      (s.operandsIn .emitted).flatMap (Expr.calls .emitted env.signatures) ++ [])
    (h : List.Forall₂ (SameCalls env) (s.operandsIn .emitted) ns)
    (hn : n.calls = ns.flatMap Node.calls) : StmtCalls env s n := by
  unfold StmtCalls
  rw [hs, hn, List.append_nil]
  exact forall₂_flatMap h

lemma LowersSimple.stmtCalls {s : Stmt} (h : LowersSimple env s b n b') : StmtCalls env s n := by
  cases h with
  | comment =>
    exact .of_operands rfl (.cons (.nop rfl rfl) .nil) rfl
  | pass | global | importModule | importNames | declare =>
    exact .of_operands rfl .nil rfl
  | effect he _ => exact .of_operands rfl (.cons he.sameCalls .nil) (by simp)
  | drop he _ =>
    exact .of_operands rfl (.cons he.sameCalls .nil) (by simp [Node.calls])
  | assign he hstores =>
    obtain ⟨m, hm, hcalls⟩ := hstores.calls
    cases hstores with
    | name hname =>
      exact .of_operands rfl (.cons he.sameCalls (.cons (.nop rfl rfl) .nil))
        (by simp [hname.calls, Node.calls])
    | element => exact .of_operands rfl (.cons hm (.cons he.sameCalls .nil)) (by simp [hcalls])
  | assignAll hlen he _ hstores =>
    obtain ⟨ms, hms, hcalls⟩ := hstores.calls (calls_slotGet _)
    have hoperands := List.Forall₂.cons he.sameCalls hms
    rw [← Stmt.operandsIn_assign hlen] at hoperands
    exact .of_operands rfl hoperands (by simp [Node.calls, callsAll_eq, hcalls])
  | annAssign _ _ _ _ he hc hstores =>
    exact .of_operands rfl (.cons he.sameCalls .nil)
      (by simp [hstores.calls, calls_coerce hc])
  | augAssign he hstores =>
    cases he with
    | binary hl hr hn =>
      exact .of_operands rfl (.cons hl.sameCalls (.cons hr.sameCalls .nil))
        (by simp [hstores.calls, calls_binary hn])

lemma sameCalls_lowerCondition {test : Expr} (h : Returns (lowerCondition env test) b n b') :
    SameCalls env test n := by
  obtain ⟨v, hv, ht⟩ := returns_lowerCondition h
  exact hv.sameCalls.of_eq (calls_truth ht)

lemma forall₂_callsAll {ss : List Stmt} {ns : List Node} (h : List.Forall₂ (StmtCalls env) ss ns) :
    List.Forall₂ (CodeOf env) (Stmt.callsAll .emitted env.signatures ss) (callsAll ns) := by
  rw [Stmt.callsAll_eq, callsAll_eq]
  exact List.rel_flatMap h fun _ _ h => h

mutual

/-- **The calls of a statement** are those of its code, in the order of emission. -/
lemma LowersStmt.stmtCalls {s : Stmt} {b b' : Body} {n : Node} :
    LowersStmt env s b n b' → StmtCalls env s n
  | .simple h => h.stmtCalls
  | @LowersStmt.retNone _ _ none _ _ _ | .breakLoop _ | .continueLoop _ => .of_operands rfl .nil rfl
  | @LowersStmt.retNone _ _ (some e) _ _ hnone => by
    obtain ⟨s, rfl⟩ := hnone e rfl
    exact .of_operands rfl (.cons (.nop rfl rfl) .nil) rfl
  | .retSome _ he hc =>
    .of_operands rfl (.cons he.sameCalls .nil) (by simp [Node.calls, callsOpt, calls_coerce hc])
  | .assert hc =>
    .of_operands rfl (.cons (sameCalls_lowerCondition hc) .nil) (by simp [Node.calls, callsOpt])
  | .ifElse hc hns he => by
    have h := List.rel_append (sameCalls_lowerCondition hc)
      (List.rel_append (forall₂_callsAll hns.stmtCalls) he.calls)
    rw [StmtCalls, Stmt.calls_ifElse]
    simpa [Node.calls, callsOpt] using h
  | .whileLoop hc hns hms => by
    have h := List.rel_append (sameCalls_lowerCondition hc)
      (List.rel_append (forall₂_callsAll hns.stmtCalls) (forall₂_callsAll hms.stmtCalls))
    rw [StmtCalls, Stmt.calls_whileLoop]
    simpa [calls_whileNode] using h

lemma LowersStmts.stmtCalls {ss : List Stmt} {b b' : Body} {ns : List Node} :
    LowersStmts env ss b ns b' → List.Forall₂ (StmtCalls env) ss ns
  | .nil => .nil
  | .cons h hs => .cons h.stmtCalls hs.stmtCalls

lemma LowersElse.calls {orelse : List Stmt} {elifs : List Branch} {b b' : Body} {n : Node} :
    LowersElse env orelse elifs b n b' →
      List.Forall₂ (CodeOf env) (Stmt.callsElifs .emitted env.signatures elifs ++
        Stmt.callsAll .emitted env.signatures orelse) n.calls
  | .nil hns => by simpa [Stmt.callsElifs, Node.calls] using forall₂_callsAll hns.stmtCalls
  | .cons hc hns he => by
    have h := List.rel_append (sameCalls_lowerCondition hc)
      (List.rel_append (forall₂_callsAll hns.stmtCalls) he.calls)
    simpa [Stmt.callsElifs, Node.calls, callsAll, callsOpt] using h

end

/-! ### Whole bodies -/

/-- **Calls are made in order.** The calls in the code of each statement of a body that is lowered
are, each once and in the order in which they are emitted, the code of the calls in the statement,
in the order of emission. In a statement that has nothing in another order this is the order in
which the calls are written. -/
theorem lower_calls_in_order {body : List Stmt} {ns : List Node}
    (h : Returns (lowerStmts env body) b ns b') :
    List.Forall₂ (fun s n =>
      List.Forall₂ (CodeOf env) (s.calls .emitted env.signatures) n.calls ∧
      (s.InOrder env.signatures →
        List.Forall₂ (CodeOf env) (s.calls .written env.signatures) n.calls) ∧
      n.calls.Perm (n.subnodes.filter (·.callee?.isSome)) ∧
      ∀ S labels, Wasm.Ensures (Wasm.emit S labels n) (Wasm.CallsInOrder S n.calls)) body ns := by
  refine (lowersStmts_of_returns body h).stmtCalls.imp fun s n hsn => ?_
  refine ⟨hsn, fun hs => ?_, n.calls_perm, fun S labels => Wasm.emit_calls n labels⟩
  rw [← s.calls_emitted hs]
  exact hsn

/-! Calls of `f`, `g` and `add` in a function of a number `x` and an array `xs`. -/

def callsEnv : Env where
  options := { gc := true }
  signatures := {
    functions := [("f", ⟨[], .i32⟩), ("g", ⟨[], .i32⟩), ("add", ⟨[.i32, .i32], .i32⟩)] }

def callsState : Body := ⟨{}, .start "h" [("x", .i32), ("xs", .array .i32)] .i32⟩

def noSpan : Span := ⟨0, 0⟩

def callOf (f : String) (args : List Expr) : Expr := .call noSpan (.name noSpan f) args []

def elementAt (index : Expr) : Expr := .subscript noSpan (.name noSpan "xs") index

/-- `x = xs[f()] = add(f(), g())` -/
def chained : Stmt :=
  .assign noSpan [.name noSpan "x", elementAt (callOf "f" [])]
    (callOf "add" [callOf "f" [], callOf "g" []])

/-- `xs = list(range(f(), x, g()))` -/
def counted : Stmt :=
  .assign noSpan [.name noSpan "xs"] (callOf "list" [callOf "range"
    [callOf "f" [], .name noSpan "x", callOf "g" []]])

/-- `while f(): return g() + f()` -/
def looped : Stmt :=
  .whileLoop noSpan (callOf "f" [])
    [.ret noSpan (some (.binary noSpan .add (callOf "g" []) (callOf "f" [])))] []

/-- `xs[g()] = f()` -/
def crossed : Stmt := .assign noSpan [elementAt (callOf "g" [])] (callOf "f" [])

/-- `xs = list(range(x, f(), g()))` -/
def backward : Stmt :=
  .assign noSpan [.name noSpan "xs"] (callOf "list" [callOf "range"
    [.name noSpan "x", callOf "f" [], callOf "g" []]])

/-- The functions that a node calls. -/
def calledNames (n : Node) : List String := n.calls.filterMap Node.callee?

lemma inOrder_callOf {f : String} {args : List Expr} (hf : f ≠ "list")
    (h : ∀ e ∈ args, e.InOrder callsEnv.signatures) :
    (callOf f args).InOrder callsEnv.signatures := by
  refine .of_operands nofun ?_ h
  rcases hb : (callOf f args).rangeBounds? callsEnv.signatures with _ | bounds
  · rfl
  · obtain ⟨_, _, _, _, _, -, heq⟩ := Expr.rangeBounds?_eq_some hb
    cases heq
    exact absurd rfl hf

/-- Nothing in the statements is emitted in another order than it is written in. -/
lemma mixed_inOrder : ∀ s ∈ [chained, counted, looped], s.InOrder callsEnv.signatures := by
  have hf : (callOf "f" []).InOrder callsEnv.signatures :=
    inOrder_callOf (by decide) (List.forall_mem_nil _)
  have hg : (callOf "g" []).InOrder callsEnv.signatures :=
    inOrder_callOf (by decide) (List.forall_mem_nil _)
  have hname (x : String) : (Expr.name noSpan x).InOrder callsEnv.signatures :=
    .of_operands (by simp) rfl (List.forall_mem_nil _)
  have hadd : (callOf "add" [callOf "f" [], callOf "g" []]).InOrder callsEnv.signatures :=
    inOrder_callOf (by decide) (by simp [hf, hg])
  have helement : (elementAt (callOf "f" [])).InOrder callsEnv.signatures :=
    .of_operands (by simp [elementAt]) rfl (by simp [elementAt, Expr.operands, hname, hf])
  have hsum : (Expr.binary noSpan .add (callOf "g" []) (callOf "f" [])).InOrder
      callsEnv.signatures := .of_operands (by simp) rfl (by simp [Expr.operands, hf, hg])
  have hrange : (callOf "list" [callOf "range"
      [callOf "f" [], .name noSpan "x", callOf "g" []]]).InOrder callsEnv.signatures := by
    refine Expr.inOrder_iff.mpr
      ⟨⟨by simp [callOf], fun _ _ => rfl, fun start stop step h => ?_⟩, ?_⟩
    · -- nothing is called for the stop
      simp [callOf, Expr.rangeBounds?, callsEnv, Signatures.get?] at h
      obtain ⟨-, rfl, -⟩ := h
      exact .inl (by rw [Expr.calls_eq]; rfl)
    · intro e he
      obtain rfl := List.mem_singleton.mp he
      exact inOrder_callOf (by decide) (by simp [hf, hg, hname])
  have hchained : chained.InOrder callsEnv.signatures :=
    ⟨by simp [Stmt.Uncrossed, chained],
      by simp [chained, Stmt.operandsIn, hadd, hname, helement], trivial⟩
  have hcounted : counted.InOrder callsEnv.signatures :=
    ⟨by simp [Stmt.Uncrossed, counted], by simp [counted, Stmt.operandsIn, hrange, hname], trivial⟩
  have hlooped : looped.InOrder callsEnv.signatures :=
    ⟨by simp [Stmt.Uncrossed, looped], by simp [looped, Stmt.operandsIn, hf],
      ⟨⟨by simp [Stmt.Uncrossed], by simp [Stmt.operandsIn, hsum], trivial⟩, trivial⟩, trivial⟩
  simp [hchained, hcounted, hlooped]

/-- The code of statements that are lowered, with the functions that each calls. -/
lemma lower_called {ss : List Stmt} {names : List (List String)}
    (h : ((lowerStmts callsEnv ss).run.run callsState).1.toOption.map (·.map calledNames) =
      some names) :
    ∃ ns b', Returns (lowerStmts callsEnv ss) callsState ns b' ∧ ns.map calledNames = names := by
  obtain ⟨ns, hns, hnames⟩ := Option.map_eq_some_iff.mp h
  exact ⟨ns, _, .of_toOption hns, hnames⟩

theorem lower_calls_in_order_mixed : ∃ ns b',
    Returns (lowerStmts callsEnv [chained, counted, looped]) callsState ns b' ∧
    ns.map calledNames = [["f", "g", "add", "f"], ["f", "g"], ["f", "g", "f"]] ∧
    (∀ s ∈ [chained, counted, looped], s.InOrder callsEnv.signatures) ∧
    List.Forall₂ (fun s n =>
      List.Forall₂ (CodeOf callsEnv) (s.calls .written callsEnv.signatures) n.calls)
      [chained, counted, looped] ns := by
  have hcode : ∃ ns b', Returns (lowerStmts callsEnv [chained, counted, looped]) callsState ns b' ∧
      ns.map calledNames = [["f", "g", "add", "f"], ["f", "g"], ["f", "g", "f"]] :=
    lower_called (by decide +kernel)
  obtain ⟨ns, b', hns, hnames⟩ := hcode
  refine ⟨ns, b', hns, hnames, mixed_inOrder, ?_⟩
  have hall := (List.forall₂_and_left _ _).mpr ⟨mixed_inOrder, lower_calls_in_order hns⟩
  exact hall.imp fun s n h => h.2.2.1 h.1

/-- What an element needs is called before its value, and the step of a range before its stop. -/
theorem element_called_before_value : ∃ ns b',
    Returns (lowerStmts callsEnv [crossed, backward]) callsState ns b' ∧
    ns.map calledNames = [["g", "f"], ["g", "f"]] ∧
    crossed.calls .written callsEnv.signatures = [callOf "f" [], callOf "g" []] ∧
    backward.calls .written callsEnv.signatures = [callOf "f" [], callOf "g" []] := by
  have hcode : ∃ ns b', Returns (lowerStmts callsEnv [crossed, backward]) callsState ns b' ∧
      ns.map calledNames = [["g", "f"], ["g", "f"]] := lower_called (by decide +kernel)
  obtain ⟨ns, b', hns, hnames⟩ := hcode
  refine ⟨ns, b', hns, hnames, ?_, ?_⟩
  · change [callOf "f" [], elementAt (callOf "g" [])].flatMap
      (Expr.calls .written callsEnv.signatures) ++ [] = _
    simp [elementAt, callOf, Expr.calls_eq, Expr.operandsIn, Expr.operands, Expr.isCall, callsEnv,
      Signatures.get?]
  · change [callOf "list" [callOf "range" [.name noSpan "x", callOf "f" [], callOf "g" []]],
      .name noSpan "xs"].flatMap (Expr.calls .written callsEnv.signatures) ++ [] = _
    simp [callOf, Expr.calls_eq, Expr.operandsIn, Expr.operands, Expr.isCall, callsEnv,
      Signatures.get?]

end AnnotatedWasm.Lowering
