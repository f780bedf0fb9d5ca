import AnnotatedWasm.Proofs.Calls.Order
import AnnotatedWasm.Proofs.Lowering.ModuleForms
import AnnotatedWasm.Proofs.Syntax.Nodes

/-!
Every call that is written is made once.

The calls of functions of the program are counted among all nodes of the syntax tree (`callsIn`), and
the calls that are emitted among all nodes of the code. The two agree as multisets, but for a `range`
that only gives the bounds of a `list`: it is counted apart (`rangesIn`), and no code calls it.
-/

namespace AnnotatedWasm

namespace Syntax

variable (sigs : Signatures)

/-- The function of the program that an expression calls. -/
def Expr.callee? : Expr → Option String
  | call _ (name _ f) _ _ => if (sigs.get? f).isSome then some f else none
  | _ => none

/-- The `range` that is the only argument of an unmarked `list`, if it is a function of the
program. -/
def Expr.rangeCallee? : Expr → Option String
  | call _ (name _ f) [call s (name s' g) bounds keywords] [] =>
    if f = "list" ∧ g = "range" ∧ (sigs.get? f).isNone then
      (call s (name s' g) bounds keywords).callee? sigs
    else none
  | _ => none

def Node.callee? : Node → Option String
  | expr e => e.callee? sigs
  | _ => none

def Node.rangeCallee? : Node → Option String
  | expr e => e.rangeCallee? sigs
  | _ => none

/-- The functions of the program that are called at and below these nodes, each as often as a call
of it is written. -/
def callsIn (xs : List Node) : List String :=
  (xs.flatMap Node.subtree).filterMap (Node.callee? sigs)

/-- The calls among them that only give the bounds of a `list`. -/
def rangesIn (xs : List Node) : List String :=
  (xs.flatMap Node.subtree).filterMap (Node.rangeCallee? sigs)

end Syntax

namespace Lowering

open Ir (Node)
open Ir.Node (callsAll callsOpt callsAll_eq)
open Syntax (Expr Stmt Branch callsIn rangesIn exprNodes optNodes stmtNodes)

/-! ### Accounts -/

/-- The functions are those that are called at and below the nodes, but for the bounds of lists. -/
def Accounts (sigs : Signatures) (names : List String) (xs : List Syntax.Node) : Prop :=
  (names ++ rangesIn sigs xs).Perm (callsIn sigs xs)

namespace Accounts

variable {sigs : Signatures} {names names' : List String} {x : Syntax.Node}
  {xs ys : List Syntax.Node} {e : Expr}

lemma nil : Accounts sigs [] [] := .refl _

lemma append (h : Accounts sigs names xs) (h' : Accounts sigs names' ys) :
    Accounts sigs (names ++ names') (xs ++ ys) := by
  have hcalls : callsIn sigs (xs ++ ys) = callsIn sigs xs ++ callsIn sigs ys := by simp [callsIn]
  have hranges : rangesIn sigs (xs ++ ys) = rangesIn sigs xs ++ rangesIn sigs ys := by
    simp [rangesIn]
  unfold Accounts
  rw [hcalls, hranges]
  calc names ++ names' ++ (rangesIn sigs xs ++ rangesIn sigs ys)
      |>.Perm (names ++ rangesIn sigs xs ++ (names' ++ rangesIn sigs ys)) := by
        simp only [List.append_assoc]
        exact (List.perm_append_comm_assoc ..).append_left names
    _ |>.Perm _ := List.Perm.append h h'

lemma perm (h : Accounts sigs names xs) (hn : names.Perm names') : Accounts sigs names' xs :=
  (hn.symm.append_right _).trans h

/-- A node calls what is called below it, and what it calls itself. -/
lemma node {own range : Option String} (hown : x.callee? sigs = own)
    (hrange : x.rangeCallee? sigs = range) (h : Accounts sigs (names ++ range.toList) x.children) :
    Accounts sigs (names ++ own.toList) [x] := by
  have hcalls : callsIn sigs [x] = own.toList ++ callsIn sigs x.children := by
    rw [callsIn, List.flatMap_singleton, Syntax.Node.subtree_eq, List.filterMap_cons, hown]
    cases own <;> rfl
  have hranges : rangesIn sigs [x] = range.toList ++ rangesIn sigs x.children := by
    rw [rangesIn, List.flatMap_singleton, Syntax.Node.subtree_eq, List.filterMap_cons, hrange]
    cases range <;> rfl
  unfold Accounts at h ⊢
  rw [hcalls, hranges]
  refine .trans ?_ (h.append_left _)
  simp only [List.append_assoc]
  exact List.perm_append_comm_assoc ..

lemma plain (h : Accounts sigs names x.children) (hown : x.callee? sigs = none)
    (hrange : x.rangeCallee? sigs = none) : Accounts sigs names [x] := by
  have hx : Accounts sigs (names ++ []) [x] := node hown hrange (by simpa using h)
  rwa [List.append_nil] at hx

/-- A statement calls what is called below it. -/
lemma stmt {s : Stmt} (h : Accounts sigs names s.children) : Accounts sigs names [.stmt s] :=
  h.plain rfl rfl

lemma name (s : Span) (id : String) : Accounts sigs [] [.expr (.name s id)] :=
  nil.plain rfl rfl

section Calls

variable {s s' s₁ s₂ : Span} {f : String} {args : List Expr}

lemma rangeCallee?_call (h : f ≠ "list" ∨ (sigs.get? f).isSome) :
    (Expr.call s (.name s' f) args []).rangeCallee? sigs = none := by
  unfold Expr.rangeCallee?
  split
  · next heq =>
    cases heq
    rw [if_neg]
    rintro ⟨rfl, -, hnone⟩
    rcases h with hne | hsome
    · exact hne rfl
    · rw [Option.isNone_iff_eq_none.mp hnone] at hsome
      cases hsome
  · rfl

/-- A call without keyword arguments calls what its arguments call, and then itself. -/
lemma call {own range : Option String}
    (hown : (Expr.call s (.name s' f) args []).callee? sigs = own)
    (hrange : (Expr.call s (.name s' f) args []).rangeCallee? sigs = range)
    (h : Accounts sigs (names ++ range.toList) (exprNodes args)) :
    Accounts sigs (names ++ own.toList) [.expr (.call s (.name s' f) args [])] := by
  have hname : Accounts sigs [] [.expr (.name s' f)] := name s' f
  have hbelow := hname.append h
  rw [List.nil_append] at hbelow
  refine node hown hrange ?_
  simpa [Syntax.Node.children, Expr.children, exprNodes] using hbelow

lemma marked {sig : FuncSig} (hf : sigs.get? f = some sig) (h : Accounts sigs names (exprNodes args)) :
    Accounts sigs (names ++ [f]) [.expr (.call s (.name s' f) args [])] := by
  have hown : (Expr.call s (.name s' f) args []).callee? sigs = some f := by
    simp [Expr.callee?, hf]
  exact call hown (rangeCallee?_call (.inr (by simp [hf]))) (by simpa using h)

lemma len {arg : Expr} (hlen : sigs.get? "len" = none) (h : Accounts sigs names [.expr arg]) :
    Accounts sigs names [.expr (.call s (.name s' "len") [arg] [])] := by
  have hown : (Expr.call s (.name s' "len") [arg] []).callee? sigs = none := by
    simp [Expr.callee?, hlen]
  have hcall := call hown (rangeCallee?_call (.inl (by decide)))
    (by simpa [exprNodes] using h)
  simpa using hcall

/-- The bounds are called for, but not the `range` around them. -/
lemma range {bounds : List Expr} (hlist : sigs.get? "list" = none)
    (h : Accounts sigs names (exprNodes bounds)) :
    Accounts sigs names
      [.expr (.call s (.name s' "list") [.call s₁ (.name s₂ "range") bounds []] [])] := by
  have hinner : Accounts sigs
      (names ++ ((Expr.call s₁ (.name s₂ "range") bounds []).callee? sigs).toList)
      [.expr (.call s₁ (.name s₂ "range") bounds [])] :=
    call rfl (rangeCallee?_call (.inl (by decide))) (by simpa using h)
  have hown : (Expr.call s (.name s' "list") [.call s₁ (.name s₂ "range") bounds []] []).callee?
      sigs = none := by
    simp [Expr.callee?, hlist]
  have houter := call hown (by simp [Expr.rangeCallee?, hlist]) hinner
  simpa using houter

end Calls

end Accounts

/-! ### Expressions -/

variable {env : Env} {b b' : Body} {n v : Node} {span : Span}

/-- The functions that nodes call. -/
def calledAll (ns : List Node) : List String := ns.flatMap calledNames

lemma calledNames_of_calls (h : n.calls = v.calls) : calledNames n = calledNames v := by
  rw [calledNames, h, calledNames]

lemma filterMap_callsAll (ns : List Node) :
    (callsAll ns).filterMap Node.callee? = calledAll ns := by
  rw [callsAll_eq, List.filterMap_flatMap]
  rfl

lemma RangeBounds.calledNames_perm {ns : List Node} {start stop step : Node}
    (h : RangeBounds ns start stop step) :
    (calledAll ns).Perm (calledNames start ++ calledNames step ++ calledNames stop) := by
  have hnone (i : Int) : calledNames (.i32 i) = [] := rfl
  cases h with
  | stop | startStop => simp [calledAll, hnone]
  | startStopStep =>
    simp only [calledAll, List.flatMap_cons, List.flatMap_nil, List.append_nil, List.append_assoc]
    exact List.perm_append_comm.append_left _

mutual

/-- The code of an expression calls what the expression calls. -/
lemma LowersExpr.accounts {hint : Option Ty} {e : Expr} {b b' : Body} {n : Node} :
    LowersExpr env hint e b n b' → Accounts env.signatures (calledNames n) [.expr e]
  | .slot _ | .global _ _ | .number _ | .bool | .string _ => Accounts.nil.plain rfl rfl
  | .unary he hn => by
    rw [calledNames_of_calls (calls_unary hn)]
    exact he.accounts.plain rfl rfl
  | .binary hl hr hn => by
    rw [calledNames, calls_binary hn, List.filterMap_append]
    exact (hl.accounts.append hr.accounts).plain rfl rfl
  | .compare _ hl hr hu => by
    obtain ⟨-, i, j, -, -, -, rfl, rfl⟩ := returns_unifyOperands hu
    rw [calledNames, Node.calls, calls_convert, calls_convert, List.filterMap_append]
    exact (hl.accounts.append hr.accounts).plain rfl rfl
  | .ifElse ht hc hx hy hn => by
    rw [calledNames, calls_choose hn, calls_truth hc, List.filterMap_append, List.filterMap_append]
    have hall := hx.accounts.append (ht.accounts.append hy.accounts)
    refine (hall.perm ?_).plain rfl rfl
    rw [List.append_assoc]
    exact List.perm_append_comm.append_left _
  | .call hsig _ hs => by
    rw [calledNames, Node.calls, List.filterMap_append, filterMap_callsAll]
    exact hs.accounts.marked hsig
  | .range hlist _ hs hn => by
    obtain ⟨start, stop, step, hbounds, rfl, -⟩ := returns_rangeOf hn
    rw [calledNames, calls_rangeBlock, List.filterMap_append, List.filterMap_append]
    exact (hs.accounts.perm hbounds.calledNames_perm).range hlist
  | .len hlen _ ha _ => ha.accounts.len hlen
  | .subscript _ ha _ hi hc => by
    rw [calledNames, Node.calls, calls_coerce hc, List.filterMap_append]
    exact (ha.accounts.append hi.accounts).plain rfl rfl
  | .list _ hs => by
    rw [calledNames, Node.calls, filterMap_callsAll]
    exact hs.accounts.plain rfl rfl

lemma LowersArgs.accounts {tys : List Ty} {args : List Expr} {b b' : Body} {ns : List Node} :
    LowersArgs env tys args b ns b' → Accounts env.signatures (calledAll ns) (exprNodes args)
  | .nil => .nil
  | .cons hv hc hs => by
    have hall := hv.accounts.append hs.accounts
    rw [← calledNames_of_calls (calls_coerce hc)] at hall
    exact hall

lemma LowersEach.accounts {ty : Ty} {es : List Expr} {b b' : Body} {ns : List Node} :
    LowersEach env ty es b ns b' → Accounts env.signatures (calledAll ns) (exprNodes es)
  | .nil => .nil
  | .cons hv hc hs => by
    have hall := hv.accounts.append hs.accounts
    rw [← calledNames_of_calls (calls_coerce hc)] at hall
    exact hall

end

/-! ### Statements -/

@[simp] lemma calledNames_block (label : Option Ir.Label) (ns : List Node) (ty : Ty) :
    calledNames (.block label ns ty) = calledAll ns := by
  rw [calledNames, Node.calls, filterMap_callsAll]

@[simp] lemma calledNames_ifElse (c t e : Node) :
    calledNames (.ifElse c t (some e)) = calledNames c ++ calledNames t ++ calledNames e := by
  simp [calledNames, Node.calls, callsOpt]

lemma calledNames_whileNode (id : Nat) (c : Node) (ns ms : List Node) :
    calledNames (whileNode id c ns ms) = calledNames c ++ calledAll ns ++ calledAll ms := by
  rw [calledNames, calls_whileNode, List.filterMap_append, List.filterMap_append,
    filterMap_callsAll, filterMap_callsAll, calledNames]

lemma accounts_names {a : Signature.Aliases} {symbol : String} {e : Expr} (sigs : Signatures)
    (h : a.names symbol e = true) : Accounts sigs [] [.expr e] := by
  unfold Signature.Aliases.names at h
  split at h
  · exact .name _ _
  · exact (Accounts.name _ _).plain rfl rfl
  · cases h

/-- Nothing is called in an annotation that stands for a type. -/
lemma accounts_annotated {a : Signature.Aliases} {annot : Expr} {ty : Ty} (sigs : Signatures)
    (h : Signature.resolve a annot = .ok ty) : Accounts sigs [] [.expr annot] := by
  induction annot using Signature.resolve.induct a generalizing ty with
  | case1 => exact Accounts.nil.plain rfl rfl
  | case2 | case3 => exact .name _ _
  | case4 | case5 | case6 => exact (Accounts.name _ _).plain rfl rfl
  | case7 span value index harray ih =>
    have hindex : ∃ ty, Signature.resolve a index = .ok ty := by
      rw [Signature.resolve, if_pos harray] at h
      rcases hr : Signature.resolve a index with e | t
      · rw [hr] at h
        cases h
      · exact ⟨t, rfl⟩
    obtain ⟨t, ht⟩ := hindex
    exact ((accounts_names sigs harray).append (ih ht)).plain rfl rfl
  | case8 span value index harray =>
    rw [Signature.resolve, if_neg harray] at h
    cases h
  | case9 e hnone hname hattr hsub =>
    rw [Signature.resolve] at h
    · cases h
    all_goals assumption

lemma StoresName.calledNames {name : String} (h : StoresName name v b n b') :
    calledNames n = calledNames v :=
  calledNames_of_calls h.calls

/-- Storing to a target calls what the target calls, and the code of the value. -/
lemma Stores.accounts {target : Expr} (h : Stores env v target b n b') :
    ∃ names, Accounts env.signatures names [.expr target] ∧
      calledNames n = names ++ calledNames v := by
  cases h with
  | name h => exact ⟨[], .name _ _, h.calledNames⟩
  | element _ ha _ hi hc hv =>
    refine ⟨_, (ha.accounts.append hi.accounts).plain rfl rfl, ?_⟩
    simp [calledNames, Node.calls, calls_coerce hc, calls_coerce hv]

/-- The copies of a value call nothing. -/
lemma StoresAll.accounts {targets : List Expr} {ns : List Node}
    (h : StoresAll env v targets b ns b') (hv : calledNames v = []) :
    Accounts env.signatures (calledAll ns) (exprNodes targets) := by
  induction h with
  | nil => exact .nil
  | cons hs _ ih =>
    obtain ⟨names, hnames, hcalled⟩ := hs.accounts
    rw [hv, List.append_nil] at hcalled
    subst hcalled
    exact hnames.append ih

lemma LowersSimple.accounts {s : Stmt} (h : LowersSimple env s b n b') :
    Accounts env.signatures (calledNames n) s.children := by
  cases h with
  | comment => exact Accounts.nil.plain rfl rfl
  | pass | global | importModule | importNames => exact .nil
  | effect he _ => exact he.accounts
  | drop he _ => exact he.accounts
  | assign he hs =>
    obtain ⟨names, hnames, hcalled⟩ := hs.accounts
    rw [hcalled]
    exact hnames.append he.accounts
  | assignAll _ he _ hs =>
    refine ((hs.accounts rfl).append he.accounts).perm ?_
    rw [calledNames_block]
    exact List.perm_append_comm
  | declare hannot => exact (Accounts.name _ _).append (accounts_annotated _ hannot)
  | annAssign hannot _ _ _ he hc hs =>
    rw [hs.calledNames, calledNames_of_calls (calls_coerce hc)]
    exact (Accounts.name _ _).append ((accounts_annotated _ hannot).append he.accounts)
  | augAssign he hs =>
    cases he with
    | binary hl hr hn =>
      rw [hs.calledNames, calledNames, calls_binary hn, List.filterMap_append]
      exact hl.accounts.append hr.accounts

lemma accounts_lowerCondition {test : Expr} (h : Returns (lowerCondition env test) b n b') :
    Accounts env.signatures (calledNames n) [.expr test] := by
  obtain ⟨v, hv, ht⟩ := returns_lowerCondition h
  rw [calledNames_of_calls (calls_truth ht)]
  exact hv.accounts

mutual

/-- The code of a statement calls what the statement calls. -/
lemma LowersStmt.accounts {s : Stmt} {b b' : Body} {n : Node} :
    LowersStmt env s b n b' → Accounts env.signatures (calledNames n) [.stmt s]
  | .simple h => h.accounts.stmt
  | @LowersStmt.retNone _ _ value _ _ hnone => by
    refine Accounts.stmt ?_
    rcases value with _ | e
    · exact .nil
    · obtain ⟨s, rfl⟩ := hnone e rfl
      exact Accounts.nil.plain rfl rfl
  | .retSome _ he hc => by
    refine Accounts.stmt ?_
    have hvalue := he.accounts
    rw [← calledNames_of_calls (calls_coerce hc)] at hvalue
    exact hvalue
  | .breakLoop _ | .continueLoop _ => Accounts.nil.stmt
  | .assert hc => by
    refine Accounts.stmt ?_
    rw [calledNames_ifElse, List.append_assoc]
    exact (accounts_lowerCondition hc).append .nil
  | .ifElse hc hs he => by
    refine Accounts.stmt ?_
    rw [calledNames_ifElse, calledNames_block, List.append_assoc]
    exact (accounts_lowerCondition hc).append (hs.accounts.append he.accounts)
  | .whileLoop hc hs ho => by
    refine Accounts.stmt ?_
    rw [calledNames_whileNode, List.append_assoc]
    exact (accounts_lowerCondition hc).append (hs.accounts.append ho.accounts)

lemma LowersStmts.accounts {ss : List Stmt} {b b' : Body} {ns : List Node} :
    LowersStmts env ss b ns b' → Accounts env.signatures (calledAll ns) (stmtNodes ss)
  | .nil => .nil
  | .cons h hs => h.accounts.append hs.accounts

lemma LowersElse.accounts {orelse : List Stmt} {elifs : List Branch} {b b' : Body} {n : Node} :
    LowersElse env orelse elifs b n b' →
      Accounts env.signatures (calledNames n)
        (elifs.flatMap Branch.children ++ stmtNodes orelse)
  | .nil ho => by
    rw [calledNames_block]
    exact ho.accounts
  | .cons hc hs he => by
    have hall := (accounts_lowerCondition hc).append (hs.accounts.append he.accounts)
    simpa [calledAll, Branch.children] using hall

end

/-! ### Whole bodies -/

lemma filterMap_subnodes_perm (n : Node) :
    (n.subnodes.filterMap Node.callee?).Perm (calledNames n) := by
  have hperm := n.calls_perm.symm.filterMap Node.callee?
  rw [List.filterMap_filter] at hperm
  refine .trans (.of_eq (List.filterMap_congr fun m _ => ?_)) hperm
  cases m.callee? <;> rfl

/-- **No call is lost and none is made twice.** The calls in the code of a function are, each as
often as it is written, those of functions of the program in the body, but for each `range` that is
the only argument of an unmarked `list`. -/
theorem lowerBody_callees_perm {start : Frame} {body : List Stmt} {s s' : Session}
    {f : Ir.Function} (h : Returns (lowerBody env start body) s f s') :
    (f.subnodes.filterMap Node.callee? ++ rangesIn env.signatures (stmtNodes body)).Perm
      (callsIn env.signatures (stmtNodes body)) := by
  obtain ⟨ns, b, hns, rfl, -⟩ := returns_lowerBody h
  have hcode : ((b.frame.finish ns).subnodes.filterMap Node.callee?).Perm (calledAll ns) := by
    change ((Node.subnodesAll ns).filterMap Node.callee?).Perm (calledAll ns)
    rw [Node.subnodesAll_eq, List.filterMap_flatMap]
    exact List.Perm.flatMap_left ns fun n _ => filterMap_subnodes_perm n
  exact (hcode.append_right _).trans (lowersStmts_of_returns body hns).accounts

/-- The functions `f`, `g` and `add`, and one that is named `range`. -/
def rangeEnv : Env where
  options := { gc := true, floorDivision := .floor }
  signatures := { functions := ("range", ⟨[.i32], .i32⟩) :: callsEnv.signatures.functions }

/-- `x = range(f()) // g()` -/
def divided : Stmt :=
  .assign noSpan [.name noSpan "x"]
    (.binary noSpan .floorDiv (callOf "range" [callOf "f" []]) (callOf "g" []))

/-- `if f(): pass elif g(): pass` -/
def tested : Stmt :=
  .ifElse noSpan (callOf "f" []) [.pass noSpan] [.mk (callOf "g" []) [.pass noSpan]] []

theorem lowerBody_callees_perm_range : ∃ f s',
    Returns (lowerBody rangeEnv callsState.frame [chained, counted, looped, divided, tested]) {}
      f s' ∧
    f.subnodes.filterMap Node.callee? =
      ["add", "f", "g", "f", "f", "g", "f", "g", "f", "range", "f", "g", "f", "g"] ∧
    rangesIn rangeEnv.signatures (stmtNodes [chained, counted, looped, divided, tested]) =
      ["range"] ∧
    (f.subnodes.filterMap Node.callee? ++ ["range"]).Perm
      (callsIn rangeEnv.signatures (stmtNodes [chained, counted, looped, divided, tested])) := by
  have hcode : ((lowerBody rangeEnv callsState.frame [chained, counted, looped, divided,
      tested]).run.run {}).1.toOption.map (fun f => f.subnodes.filterMap Node.callee?) =
      some ["add", "f", "g", "f", "f", "g", "f", "g", "f", "range", "f", "g", "f", "g"] := by
    decide +kernel
  have hranges : rangesIn rangeEnv.signatures
      (stmtNodes [chained, counted, looped, divided, tested]) = ["range"] := by
    simp only [rangesIn, chained, counted, looped, divided, tested, callOf, elementAt, stmtNodes,
      exprNodes, optNodes, Option.toList, Syntax.Node.subtree_eq, Syntax.Node.children,
      Stmt.children, Branch.children, Expr.children, List.map_cons, List.map_nil,
      List.flatMap_cons, List.flatMap_nil, List.flatMap_append]
    rfl
  obtain ⟨f, hf, hnames⟩ := Option.map_eq_some_iff.mp hcode
  have hreturns := Returns.of_toOption hf
  refine ⟨f, _, hreturns, hnames, hranges, ?_⟩
  have hperm := lowerBody_callees_perm hreturns
  rwa [hranges] at hperm

end Lowering

end AnnotatedWasm
