import AnnotatedWasm.Proofs.Control.Flow
import AnnotatedWasm.Proofs.Lowering.ModuleForms
import AnnotatedWasm.Proofs.Lowering.Numbering

/-!
Lowering keeps the control flow of the source.

`Compiles` says which node stands for which statement under which loops. What lowering gives is
related in this way (`compiles_stmts`), and related code runs alike (`Compiles.run_eq`): where
the source jumps behind or back to the test of the innermost loop, the code branches to the label
of its body or of the loop itself.
-/

namespace AnnotatedWasm

open Ir (Node)
open Syntax (Stmt Branch)
open Lowering

/-! ### Leaves -/

namespace Ir.Node

/-- Nodes that decide what runs next are no leaves. -/
def isLeaf : Node → Bool
  | nop | unreachable | block .. | loop .. | ifElse .. | br _ | brIf .. | ret _ => false
  | _ => true

/-- The node runs its parts from top to bottom. -/
def Straight (n : Node) : Prop := ∀ m ∈ n.parts, m.isLeaf = true

lemma straight_of_isLeaf {n : Node} (h : n.isLeaf = true) : n.Straight := by
  cases n <;> simp_all [Straight, parts, isLeaf]

variable {S V : Type} (I : Leaves S V) (fuel : Nat)

lemma run_leaf {n : Node} (h : n.isLeaf = true) :
    n.run I fuel = (do let _ ← I.exec n) := by
  cases n <;> first | rfl | cases h

lemma runAll_leaves : ∀ {ns : List Node}, (∀ n ∈ ns, n.isLeaf = true) →
    runAll I fuel ns = I.execAll ns
  | [], _ => rfl
  | n :: ns, h => by
    rw [List.forall_mem_cons] at h
    rw [runAll, run_leaf I fuel h.1, runAll_leaves h.2, Leaves.execAll, bind_assoc]
    rfl

lemma run_straight {n : Node} (h : n.Straight) : n.run I fuel = I.execAll n.parts := by
  cases n
  case nop => rfl
  case block l ns t =>
    rcases l with _ | l
    · exact runAll_leaves I fuel h
    · exact absurd (h _ (List.mem_singleton_self _)) Bool.false_ne_true
  all_goals exact run_leaf I fuel (h _ (List.mem_singleton_self _))

end Ir.Node

lemma Lowering.Combines.isLeaf {env : Env} {op : Syntax.BinOp} {k : NumKind} {l r n : Node}
    {b b' : Body} (h : Combines env op k l r b n b') (hn : n.ty = .void) : n.isLeaf = true := by
  cases h with
  | floored _ => cases hn
  | _ => rfl

/-- A lowered expression without a value is a leaf: all others that hold control nodes leave a
value. -/
lemma Lowering.LowersExpr.isLeaf {env : Env} {hint : Option Ty} {e : Syntax.Expr} {b b' : Body}
    {n : Node} (h : LowersExpr env hint e b n b') (hn : n.ty = .void) : n.isLeaf = true := by
  cases h with
  | unary _ hu =>
    obtain ⟨-, k, hk, hs⟩ := returns_unary hu
    cases hs with
    | pos => rw [hk] at hn; cases hn
    | _ => rfl
  | binary _ _ hb =>
    obtain ⟨_, _, _, -, -, -, hc⟩ := returns_binary hb
    exact hc.isLeaf hn
  | ifElse _ _ _ _ hc =>
    obtain ⟨-, ⟨-, -, rfl⟩ | ⟨_, _, -, -, rfl⟩⟩ := returns_choose hc <;> rfl
  | range _ _ _ hr =>
    obtain ⟨_, _, _, -, rfl, -⟩ := returns_rangeOf hr
    cases hn
  | _ => rfl

lemma Lowering.StoresName.isLeaf {name : String} {value n : Node} {b b' : Body}
    (h : StoresName name value b n b') : n.isLeaf = true := by
  cases h <;> rfl

lemma Lowering.Stores.isLeaf {env : Env} {value n : Node} {target : Syntax.Expr} {b b' : Body}
    (h : Stores env value target b n b') : n.isLeaf = true := by
  cases h with
  | name h => exact h.isLeaf
  | element => rfl

lemma Lowering.StoresAll.isLeaf {env : Env} {value : Node} {targets : List Syntax.Expr}
    {b b' : Body} {ns : List Node} (h : StoresAll env value targets b ns b') :
    ∀ n ∈ ns, n.isLeaf = true := by
  induction h with
  | nil => simp
  | cons h _ ih => exact List.forall_mem_cons.mpr ⟨h.isLeaf, ih⟩

lemma Lowering.LowersSimple.straight {env : Env} {s : Stmt} {b b' : Body} {n : Node}
    (h : LowersSimple env s b n b') : n.Straight := by
  cases h with
  | comment | declare | pass | global | importModule | importNames =>
    simp [Node.Straight, Node.parts]
  | effect he hv => exact Node.straight_of_isLeaf (he.isLeaf hv)
  | drop => exact Node.straight_of_isLeaf rfl
  | assign _ hs => exact Node.straight_of_isLeaf hs.isLeaf
  | assignAll _ _ _ hs => exact List.forall_mem_cons.mpr ⟨rfl, hs.isLeaf⟩
  | annAssign _ _ _ _ _ _ hs => exact Node.straight_of_isLeaf hs.isLeaf
  | augAssign _ hs => exact Node.straight_of_isLeaf hs.isLeaf

/-! ### Statements and their nodes -/

mutual

/-- Under these loops, the innermost first, the node stands for the statement. -/
inductive Compiles : List Nat → Flow → Node → Prop
  | simple {loops n} : n.Straight → Compiles loops (.simple n.parts) n
  | ret {loops v} : Compiles loops (.ret v) (.ret v)
  | breakLoop {id loops} : Compiles (id :: loops) .breakLoop (.br (loopBodyLabel id))
  | continueLoop {id loops} : Compiles (id :: loops) .continueLoop (.br (loopLabel id))
  | assert {loops c} : Compiles loops (.assert c) (.ifElse c .nop (some .unreachable))
  | cond {loops c fs ns arms orelse e} : CompilesAll loops fs ns →
      CompilesElse loops orelse arms e →
      Compiles loops (.cond (.mk c fs :: arms) orelse) (.ifElse c (.block none ns .void) (some e))
  | whileLoop {loops id c fs ns gs ms} : id ∉ loops → CompilesAll (id :: loops) fs ns →
      CompilesAll loops gs ms → Compiles loops (.whileLoop c fs gs) (whileNode id c ns ms)

inductive CompilesAll : List Nat → List Flow → List Node → Prop
  | nil {loops} : CompilesAll loops [] []
  | cons {loops f n fs ns} : Compiles loops f n → CompilesAll loops fs ns →
      CompilesAll loops (f :: fs) (n :: ns)

/-- The node stands for the clauses after the first. -/
inductive CompilesElse : List Nat → List Flow → List Arm → Node → Prop
  | nil {loops orelse ns} : CompilesAll loops orelse ns →
      CompilesElse loops orelse [] (.block none ns .void)
  | cons {loops orelse c fs ns arms e} : CompilesAll loops fs ns →
      CompilesElse loops orelse arms e →
      CompilesElse loops orelse (.mk c fs :: arms)
        (.block none [.ifElse c (.block none ns .void) (some e)] .void)

end

/-- The loops around are older than the next label. -/
def Lowering.Body.LoopsOld (b : Body) : Prop := ∀ id ∈ b.frame.loops, id < b.session.nextLabel

lemma Lowering.Body.LoopsOld.extends {b b' : Body} (hb : b.LoopsOld) (h : b.Extends b') :
    b'.LoopsOld := by
  intro id hid
  rw [h.loops] at hid
  exact (hb id hid).trans_le h.nextLabel

/-- A loop that is entered is numbered by a label taken before. -/
lemma Lowering.Body.LoopsOld.enterLoop {b b' : Body} (hb : b.LoopsOld) (h : b.Grows b')
    (hlt : b.session.nextLabel + 1 ≤ b'.session.nextLabel) :
    (b'.enterLoop b.session.nextLabel).LoopsOld := by
  intro id hid
  have hid' : id ∈ b.session.nextLabel :: b.frame.loops := h.loops ▸ hid
  have hnext : (b'.enterLoop b.session.nextLabel).session.nextLabel = b'.session.nextLabel := rfl
  rcases List.mem_cons.mp hid' with rfl | hid'
  · omega
  · have := hb id hid'
    omega

lemma returned?_of_lowerReturn {env : Env} {value : Option Syntax.Expr} {span : Span}
    {b b' : Body} {n : Node} (h : LowersStmt env (.ret span value) b n b') :
    n = .ret n.returned? := by
  cases h with
  | simple h => cases h
  | retNone => rfl
  | retSome => rfl

section

variable {env : Env}

/-- A statement that only runs from top to bottom. -/
lemma compiles_simple {s : Stmt} {b b' : Body} {n : Node}
    (h : Returns (lowerStmt env s) b n b')
    (hs : LowersStmt env s b n b' → LowersSimple env s b n b')
    (hf : Flow.ofStmt env s = do return .simple (← lowerStmt env s).parts) :
    ∃ f, Returns (Flow.ofStmt env s) b f b' ∧ Compiles b.frame.loops f n := by
  refine ⟨.simple n.parts, ?_, .simple (hs (lowersStmt_of_returns s h)).straight⟩
  rw [hf, Returns.bind_iff]
  exact ⟨n, b', h, Returns.pure_iff.mpr ⟨rfl, rfl⟩⟩

lemma loopsOld_condition {test : Syntax.Expr} {c : Node} {b b' : Body}
    (h : Returns (lowerCondition env test) b c b') (hb : b.LoopsOld) :
    b'.LoopsOld ∧ b'.frame.loops = b.frame.loops :=
  ⟨hb.extends (.of_grows (grows_of_lowerCondition h)), (grows_of_lowerCondition h).loops⟩

lemma loopsOld_stmts {ss : List Stmt} {ns : List Node} {b b' : Body}
    (h : Returns (lowerStmts env ss) b ns b') (hb : b.LoopsOld) :
    b'.LoopsOld ∧ b'.frame.loops = b.frame.loops :=
  ⟨hb.extends (lowersStmts_of_returns ss h).extends, (lowersStmts_of_returns ss h).extends.loops⟩

mutual

/-- **Lowering is compilation**: the node of a statement stands for the statement. -/
lemma compiles_stmt : (s : Stmt) → ∀ {b n b'}, Returns (lowerStmt env s) b n b' → b.LoopsOld →
    ∃ f, Returns (Flow.ofStmt env s) b f b' ∧ Compiles b.frame.loops f n
  | .expr .., _, _, _, h, _ | .assign .., _, _, _, h, _ | .annAssign .., _, _, _, h, _
  | .augAssign .., _, _, _, h, _ | .pass _, _, _, _, h, _ | .global .., _, _, _, h, _
  | .importModule .., _, _, _, h, _ | .importNames .., _, _, _, h, _ =>
    compiles_simple h (fun | .simple hs => hs) rfl
  | .ret span value, b, n, b', h, _ => by
    have hn := returned?_of_lowerReturn (lowersStmt_of_returns _ h)
    refine ⟨.ret n.returned?, ?_, by rw [hn]; exact .ret⟩
    rw [Flow.ofStmt, Returns.bind_iff]
    exact ⟨n, b', h, Returns.pure_iff.mpr ⟨rfl, rfl⟩⟩
  | .breakLoop span, b, n, b', h, _ => by
    refine ⟨.breakLoop, ?_, ?_⟩
    · rw [Flow.ofStmt, Returns.bind_iff]
      exact ⟨n, b', h, Returns.pure_iff.mpr ⟨rfl, rfl⟩⟩
    · cases lowersStmt_of_returns _ h with
      | simple hs => cases hs
      | breakLoop hl => rw [hl]; exact .breakLoop
  | .continueLoop span, b, n, b', h, _ => by
    refine ⟨.continueLoop, ?_, ?_⟩
    · rw [Flow.ofStmt, Returns.bind_iff]
      exact ⟨n, b', h, Returns.pure_iff.mpr ⟨rfl, rfl⟩⟩
    · cases lowersStmt_of_returns _ h with
      | simple hs => cases hs
      | continueLoop hl => rw [hl]; exact .continueLoop
  | .assert span test message, b, n, b', h, _ => by
    cases lowersStmt_of_returns _ h with
    | simple hs => cases hs
    | @assert _ _ _ c _ hc =>
      refine ⟨.assert c, ?_, .assert⟩
      rw [Flow.ofStmt, Returns.bind_iff]
      exact ⟨c, b', hc, Returns.pure_iff.mpr ⟨rfl, rfl⟩⟩
  | .ifElse _ _ body elifs orelse, b, n, b', h, hb => by
    simp only [lowerStmt, Returns.bind_iff, Returns.pure_iff] at h
    obtain ⟨c, b₁, hc, ns, b₂, hns, e, b₃, he, rfl, rfl⟩ := h
    obtain ⟨hb₁, hl₁⟩ := loopsOld_condition hc hb
    obtain ⟨hb₂, hl₂⟩ := loopsOld_stmts hns hb₁
    obtain ⟨fs, hfs, hcfs⟩ := compiles_stmts body hns hb₁
    obtain ⟨arms, b₄, gs, harms, hgs, hce⟩ := compiles_else (compiles_stmts orelse) elifs he hb₂
    rw [hl₂, hl₁] at hce
    rw [hl₁] at hcfs
    refine ⟨.cond (.mk c fs :: arms) gs, ?_, .cond hcfs hce⟩
    simp only [Flow.ofStmt, Returns.bind_iff, Returns.pure_iff]
    exact ⟨c, b₁, hc, fs, b₂, hfs, arms, b₄, harms, gs, _, hgs, rfl, rfl⟩
  | .whileLoop _ _ body orelse, b, n, b', h, hb => by
    simp only [lowerStmt, Returns.bind_iff, Returns.pure_iff, returns_freshLabel,
      returns_insideLoop] at h
    obtain ⟨_, _, ⟨rfl, rfl⟩, c, b₁, hc, ns, _, ⟨b₂, hns, rfl⟩, ms, b₃, hms, rfl, rfl⟩ := h
    have hg := (Body.Grows.trans ⟨[], 1, [], rfl⟩ (grows_of_lowerCondition hc) : b.Grows b₁)
    have hb₁ := hb.enterLoop hg (grows_of_lowerCondition hc).nextLabel
    have hext := (lowersStmts_of_returns body hns).extends
    have hb₂ := (hb.extends (.of_grows hg)).extends hext.leaveLoop
    obtain ⟨fs, hfs, hcfs⟩ := compiles_stmts body hns hb₁
    obtain ⟨gs, hgs, hcgs⟩ := compiles_stmts orelse hms hb₂
    rw [hext.leaveLoop.loops, hg.loops] at hcgs
    have hloops : (b₁.enterLoop b.session.nextLabel).frame.loops =
      b.session.nextLabel :: b.frame.loops := congrArg _ hg.loops
    rw [hloops] at hcfs
    refine ⟨.whileLoop c fs gs, ?_, .whileLoop (fun hid => (hb _ hid).false) hcfs hcgs⟩
    simp only [Flow.ofStmt, Returns.bind_iff, Returns.pure_iff, returns_freshLabel, returns_frame,
      returns_setFrame]
    exact ⟨_, _, ⟨rfl, rfl⟩, c, b₁, hc, _, _, ⟨rfl, rfl⟩, (), _, rfl, fs, b₂, hfs, _, _,
      ⟨rfl, rfl⟩, (), _, rfl, gs, _, hgs, rfl, rfl⟩
  | .funcDef .., _, _, _, h, _ => by simp [lowerStmt] at h
  | .del .., _, _, _, h, _ | .raise .., _, _, _, h, _ | .nonlocal .., _, _, _, h, _
  | .forLoop .., _, _, _, h, _ | .classDef .., _, _, _, h, _ | .tryExcept .., _, _, _, h, _
  | .withItems .., _, _, _, h, _ => by simp [lowerStmt] at h

lemma compiles_stmts : (ss : List Stmt) → ∀ {b ns b'}, Returns (lowerStmts env ss) b ns b' →
    b.LoopsOld → ∃ fs, Returns (Flow.ofStmts env ss) b fs b' ∧ CompilesAll b.frame.loops fs ns
  | [], b, ns, b', h, _ => by
    simp [lowerStmts] at h
    obtain ⟨rfl, rfl⟩ := h
    exact ⟨[], Returns.pure_iff.mpr ⟨rfl, rfl⟩, .nil⟩
  | s :: ss, b, ns, b', h, hb => by
    simp only [lowerStmts, Returns.bind_iff, Returns.pure_iff] at h
    obtain ⟨n, b₁, hn, ns, b₂, hns, rfl, rfl⟩ := h
    have hext := (lowersStmt_of_returns s hn).extends
    obtain ⟨f, hf, hcf⟩ := compiles_stmt s hn hb
    obtain ⟨fs, hfs, hcfs⟩ := compiles_stmts ss hns (hb.extends hext)
    rw [hext.loops] at hcfs
    refine ⟨f :: fs, ?_, .cons hcf hcfs⟩
    simp only [Flow.ofStmts, Returns.bind_iff, Returns.pure_iff]
    exact ⟨f, b₁, hf, fs, _, hfs, rfl, rfl⟩

lemma compiles_else {orelse : List Stmt}
    (ho : ∀ {b ns b'}, Returns (lowerStmts env orelse) b ns b' → b.LoopsOld →
      ∃ fs, Returns (Flow.ofStmts env orelse) b fs b' ∧ CompilesAll b.frame.loops fs ns) :
    (elifs : List Branch) → ∀ {b n b'},
      Returns (lowerElse env (lowerStmts env orelse) elifs) b n b' → b.LoopsOld →
      ∃ arms b₁ gs, Returns (Flow.ofBranches env elifs) b arms b₁ ∧
        Returns (Flow.ofStmts env orelse) b₁ gs b' ∧ CompilesElse b.frame.loops gs arms n
  | [], b, n, b', h, hb => by
    simp only [lowerElse, Returns.bind_iff, Returns.pure_iff] at h
    obtain ⟨ns, b₁, hns, rfl, rfl⟩ := h
    obtain ⟨gs, hgs, hcgs⟩ := ho hns hb
    exact ⟨[], b, gs, Returns.pure_iff.mpr ⟨rfl, rfl⟩, hgs, .nil hcgs⟩
  | .mk _ body :: rest, b, n, b', h, hb => by
    simp only [lowerElse, Returns.bind_iff, Returns.pure_iff] at h
    obtain ⟨c, b₁, hc, ns, b₂, hns, e, b₃, he, rfl, rfl⟩ := h
    obtain ⟨hb₁, hl₁⟩ := loopsOld_condition hc hb
    obtain ⟨hb₂, hl₂⟩ := loopsOld_stmts hns hb₁
    obtain ⟨fs, hfs, hcfs⟩ := compiles_stmts body hns hb₁
    obtain ⟨arms, b₄, gs, harms, hgs, hce⟩ := compiles_else ho rest he hb₂
    rw [hl₂, hl₁] at hce
    rw [hl₁] at hcfs
    refine ⟨.mk c fs :: arms, b₄, gs, ?_, hgs, .cons hcfs hce⟩
    simp only [Flow.ofBranches, Returns.bind_iff, Returns.pure_iff]
    exact ⟨c, b₁, hc, fs, b₂, hfs, arms, _, harms, rfl, rfl⟩

end

end

/-! ### Related code runs alike -/

/-- The label that the code of a loop has for a jump of the source. -/
def jumpLabel (id : Nat) : LoopJump → Ir.Label
  | .leave => loopBodyLabel id
  | .again => loopLabel id

/-- The labels for jumps under these loops. Where there is no loop, nothing jumps, and any labels
do that no loop has. -/
def Targets (f : LoopJump → Ir.Label) : List Nat → Prop
  | [] => ∀ j id, f j ≠ loopLabel id ∧ f j ≠ loopElseLabel id
  | id :: _ => f = jumpLabel id

lemma Targets.ne {f : LoopJump → Ir.Label} {loops : List Nat} {id : Nat} (h : Targets f loops)
    (hid : id ∉ loops) (j : LoopJump) : f j ≠ loopLabel id ∧ f j ≠ loopElseLabel id := by
  rcases loops with _ | ⟨id', loops⟩
  · exact h j id
  · have hne : id' ≠ id := fun heq => hid (heq ▸ List.mem_cons_self)
    rw [h]
    cases j
    · exact ⟨loopLabel_ne_body _ _, loopBodyLabel_ne_else _ _⟩
    · exact ⟨fun heq => hne (loopLabel_inj heq), loopLabel_ne_else _ _⟩

section

variable {V σ : Type} {f : LoopJump → Ir.Label} {id : Nat}

/-- The block of a loop's body, followed by a branch to the loop, goes on as the body does. -/
lemma goesOn_eq (x : Run LoopJump V σ Unit) :
    Run.jumpsTo (loopLabel id) (do
      let _ ← Run.jumpsTo (loopBodyLabel id) (do
        x.relabel (jumpLabel id)
        throw (.jump (loopLabel id)))) = x.goesOn.relabel f := by
  have hne := (loopLabel_ne_body id id).symm
  refine Run.ext fun s => ?_
  rw [Run.run_jumpsTo, Run.run_bind, Run.run_jumpsTo, Run.run_bind, Run.run_relabel,
    Run.run_relabel, Run.run_goesOn]
  rcases x.run.run s with ⟨((_ | _) | _ | _ | _) | _, t⟩
  all_goals simp only [Run.run_pure, Run.run_throw, Stop.map, jumpLabel, if_neg hne, if_true]

/-- The block of an `else` part does nothing to the jumps of that part. -/
lemma orelse_eq (hf : ∀ j, f j ≠ loopLabel id ∧ f j ≠ loopElseLabel id)
    (x : Run LoopJump V σ Unit) :
    Run.jumpsTo (loopLabel id) (do let _ ← (x.relabel f).jumpsTo (loopElseLabel id)) =
      Run.relabel f (do x; return false) := by
  refine Run.ext fun s => ?_
  rw [Run.run_jumpsTo, Run.run_bind, Run.run_jumpsTo, Run.run_relabel, Run.run_relabel,
    Run.run_bind]
  rcases x.run.run s with ⟨(j | _ | _ | _) | _, t⟩
  · simp only [Stop.map, if_neg (hf j).1, if_neg (hf j).2]
  all_goals simp only [Run.run_pure, Stop.map]

end

section

variable {S V : Type} {I : Leaves S V} {fuel : Nat} {f : LoopJump → Ir.Label}

/-- A condition does not jump. -/
lemma jumpsTo_test (l : Ir.Label) (c : Node) (k : Bool → Run Ir.Label V (S × List Node) Unit) :
    (I.test c >>= k).jumpsTo l = I.test c >>= fun t => (k t).jumpsTo l := by
  refine Run.ext fun ⟨s, done⟩ => ?_
  rw [Run.run_jumpsTo, Leaves.test, bind_assoc, bind_assoc, Run.run_bind, Run.run_bind,
    Leaves.run_exec]
  rcases I.step c s with _ | ⟨v, s'⟩
  · rfl
  · simp only [pure_bind, Run.run_jumpsTo]

lemma runAll_snoc_br (ns : List Node) (l : Ir.Label) :
    Node.runAll I fuel (ns ++ [.br l]) = (do Node.runAll I fuel ns; throw (.jump l)) := by
  induction ns with
  | nil => rfl
  | cons n ns ih => rw [List.cons_append, Node.runAll, ih, Node.runAll, bind_assoc]

/-- The node of a loop runs as the loop, if its body and its `else` part do. -/
lemma run_whileNode {id : Nat} {c : Node} {fs gs : List Flow} {ns ms : List Node}
    (hf : ∀ j, f j ≠ loopLabel id ∧ f j ≠ loopElseLabel id)
    (hbody : Node.runAll I fuel ns = (Flow.runAll I fuel fs).relabel (jumpLabel id))
    (helse : Node.runAll I fuel ms = (Flow.runAll I fuel gs).relabel f) :
    (whileNode id c ns ms).run I fuel = ((Flow.whileLoop c fs gs).run I fuel).relabel f := by
  rw [Flow.run, Run.relabel_rounds, whileNode, Node.run]
  congr 1
  rw [Node.run, jumpsTo_test, Run.relabel_bind, Leaves.relabel_test]
  congr 1
  funext holds
  cases holds
  · -- the test fails: the `else` part, which the code leaves out when it is empty
    rw [if_neg Bool.false_ne_true, if_neg Bool.false_ne_true, ← orelse_eq hf, ← helse]
    cases ms <;> rfl
  · -- the test holds: the body
    rw [if_pos rfl, if_pos rfl, ← goesOn_eq, ← hbody, Node.run, runAll_snoc_br]

/-- The node of a conditional runs as the conditional, if its clauses do. -/
lemma run_ifElse {c e : Node} {fs : List Flow} {ns : List Node}
    {rest : Run LoopJump V (S × List Node) Unit}
    (hbody : Node.runAll I fuel ns = (Flow.runAll I fuel fs).relabel f)
    (hrest : e.run I fuel = rest.relabel f) :
    (Node.ifElse c (.block none ns .void) (some e)).run I fuel =
      Run.relabel f (do if ← I.test c then Flow.runAll I fuel fs else rest) := by
  rw [Node.run, Run.relabel_bind, Leaves.relabel_test]
  congr 1
  funext holds
  cases holds
  · exact hrest
  · exact hbody

mutual

/-- **Related code runs alike**, with the jumps of the source as branches. -/
lemma Compiles.run_eq {loops : List Nat} {flow : Flow} {n : Node} :
    Compiles loops flow n → ∀ {f}, Targets f loops → n.run I fuel = (flow.run I fuel).relabel f
  | .simple h, f, _ => by
    rw [Node.run_straight I fuel h, Flow.run, Leaves.relabel_execAll]
  | @Compiles.ret _ v, f, _ => by
    rcases v with _ | v
    · rfl
    · rw [Node.run, Flow.run, Run.relabel_bind, Leaves.relabel_exec]
      rfl
  | .breakLoop, f, hf => by
    rw [Node.run, Flow.run, hf]
    rfl
  | .continueLoop, f, hf => by
    rw [Node.run, Flow.run, hf]
    rfl
  | .assert, f, _ => by
    rw [Node.run, Flow.run, Run.relabel_bind, Leaves.relabel_test]
    congr 1
    funext holds
    cases holds <;> rfl
  | .cond hfs he, f, hf => by
    rw [Flow.run, Flow.runArms]
    exact run_ifElse (hfs.run_eq hf) (he.run_eq hf)
  | .whileLoop hid hfs hgs, f, hf =>
    run_whileNode (hf.ne hid) (hfs.run_eq rfl) (hgs.run_eq hf)

lemma CompilesAll.run_eq {loops : List Nat} {flows : List Flow} {ns : List Node} :
    CompilesAll loops flows ns → ∀ {f}, Targets f loops →
      Node.runAll I fuel ns = (Flow.runAll I fuel flows).relabel f
  | .nil, f, _ => rfl
  | .cons h hs, f, hf => by
    rw [Node.runAll, Flow.runAll, Run.relabel_bind, h.run_eq hf, hs.run_eq hf]

lemma CompilesElse.run_eq {loops : List Nat} {orelse : List Flow} {arms : List Arm} {n : Node} :
    CompilesElse loops orelse arms n → ∀ {f}, Targets f loops →
      n.run I fuel = (Flow.runArms I fuel (Flow.runAll I fuel orelse) arms).relabel f
  | .nil h, f, hf => by
    rw [Node.run, Flow.runArms]
    exact h.run_eq hf
  | .cons hfs he, f, hf => by
    rw [Node.run, Node.runAll, Node.runAll, Flow.runArms, run_ifElse (hfs.run_eq hf) (he.run_eq hf)]
    exact bind_pure _

end

/-- A label that does not begin as those of loops do. -/
lemma targets_nil {l : Ir.Label} (h : l.toList.head? ≠ some 'l') : Targets (fun _ => l) [] := by
  intro j id
  constructor
  · rintro rfl
    exact h (by rw [loopLabel_eq, LabelKind.toList_label]; rfl)
  · rintro rfl
    exact h (by rw [loopElseLabel_eq, LabelKind.toList_label]; rfl)

end

/-- How the run of a function body ends. -/
inductive Outcome (V : Type) where
  /-- After the last statement. -/
  | finished
  | returned (value : Option V)
  | trapped
  | outOfFuel

/-- The outcome as the result of a run; there is no jump among them. -/
def Outcome.result {J V : Type} : Outcome V → Except (Stop J V) Unit
  | finished => .ok ()
  | returned v => .error (.returned v)
  | trapped => .error .trapped
  | outOfFuel => .error .outOfFuel

/-- Outside all loops, related code ends in the same way and in the same state. -/
lemma CompilesAll.same_outcome {S V : Type} {flows : List Flow} {ns : List Node}
    (h : CompilesAll [] flows ns) (I : Leaves S V) (fuel : Nat) (s : S × List Node) :
    ∃ (o : Outcome V) (t : S × List Node),
      (Node.runAll I fuel ns).run.run s = (o.result, t) ∧
      (Flow.runAll I fuel flows).run.run s = (o.result, t) := by
  -- no loop is around, so the label of a jump would be both of these
  have h₁ : Node.runAll I fuel ns = (Flow.runAll I fuel flows).relabel fun _ => "" :=
    h.run_eq (targets_nil (by decide))
  have h₂ : Node.runAll I fuel ns = (Flow.runAll I fuel flows).relabel fun _ => "x" :=
    h.run_eq (targets_nil (by decide))
  rcases hs : (Flow.runAll I fuel flows).run.run s with ⟨(j | v | _ | _) | _, t⟩
  · have he := congrArg (fun x => x.run.run s) (h₁.symm.trans h₂)
    simp only [Run.run_relabel, hs, Stop.map] at he
    injection he with he
    injection he with he
    injection he with he
    exact absurd he (by decide)
  · exact ⟨.returned v, t, by rw [h₁, Run.run_relabel, hs]; rfl, rfl⟩
  · exact ⟨.trapped, t, by rw [h₁, Run.run_relabel, hs]; rfl, rfl⟩
  · exact ⟨.outOfFuel, t, by rw [h₁, Run.run_relabel, hs]; rfl, rfl⟩
  · exact ⟨.finished, t, by rw [h₁, Run.run_relabel, hs]; rfl, rfl⟩

/-- **Control flow is kept**: whatever the leaves of a function do, its code executes the same
leaves in the same order as the source statements do, within every number of rounds for the
loops, and ends in the same way and in the same state. -/
theorem lowerBody_same_runs (env : Env) (name : String) (params : List (String × Ty))
    (returns : Ty) (body : List Stmt) (s s' : Session) (f : Ir.Function)
    (h : Returns (lowerBody env (.start name params returns) body) s f s') :
    ∃ flows b, Returns (Flow.ofStmts env body) ⟨s, .start name params returns⟩ flows b ∧
      ∀ (S V : Type) (I : Leaves S V) (fuel : Nat) (init : S),
        ∃ (o : Outcome V) (final : S) (trace : List Node),
          (Node.runAll I fuel f.body).run.run (init, []) = (o.result, (final, trace)) ∧
          (Flow.runAll I fuel flows).run.run (init, []) = (o.result, (final, trace)) := by
  obtain ⟨ns, b, hns, rfl, -⟩ := returns_lowerBody h
  have hold : Body.LoopsOld ⟨s, .start name params returns⟩ := by
    intro id hid
    cases hid
  obtain ⟨flows, hflows, hall⟩ := compiles_stmts body hns hold
  refine ⟨flows, b, hflows, fun S V I fuel init => ?_⟩
  obtain ⟨o, ⟨final, trace⟩, hcode, hsource⟩ := hall.same_outcome I fuel (init, [])
  exact ⟨o, final, trace, hcode, hsource⟩

/-- Two loops, where the `else` part of the inner one leaves the outer one. -/
def nestedLoops : List Stmt :=
  let p : Span := ⟨0, 0⟩
  let n : Syntax.Expr := .name p "n"
  [.whileLoop p n [
      .whileLoop p n [
        .augAssign p n .sub (.number p "1"),
        .ifElse p n [.continueLoop p] [] [.pass p],
        .breakLoop p] [
        .breakLoop p],
      .assert p n none] [],
    .ret p (some n)]

theorem lowerBody_same_runs_nested : ∃ f s' flows b,
    Returns (lowerBody ⟨{}, {}⟩ (.start "drain" [("n", .i32)] .i32) nestedLoops) {} f s' ∧
    f.body.length = 2 ∧
    Returns (Flow.ofStmts ⟨{}, {}⟩ nestedLoops) ⟨{}, .start "drain" [("n", .i32)] .i32⟩ flows b ∧
    ∀ (S V : Type) (I : Leaves S V) (fuel : Nat) (init : S),
      ∃ (o : Outcome V) (final : S) (trace : List Node),
        (Node.runAll I fuel f.body).run.run (init, []) = (o.result, (final, trace)) ∧
        (Flow.runAll I fuel flows).run.run (init, []) = (o.result, (final, trace)) := by
  have hrun : ((lowerBody ⟨{}, {}⟩ (.start "drain" [("n", .i32)] .i32) nestedLoops).run.run
      {}).1.toOption.map (·.body.length) = some 2 := by decide +kernel
  obtain ⟨f, hf, hlen⟩ := Option.map_eq_some_iff.mp hrun
  have h := Returns.of_toOption hf
  obtain ⟨flows, b, hflows, hsame⟩ := lowerBody_same_runs _ _ _ _ _ _ _ _ h
  exact ⟨f, _, flows, b, h, hlen, hflows, hsame⟩

end AnnotatedWasm
