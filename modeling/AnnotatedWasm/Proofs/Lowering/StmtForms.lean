import AnnotatedWasm.Proofs.Lowering.ExprForms
import AnnotatedWasm.Proofs.Syntax.Nodes

/-!
How the lowering of statements succeeds, as derivations over those of expressions.

A simple statement (`LowersSimple`) runs from top to bottom: it stores, drops or declares. The
rules of `LowersStmt` follow the control structure. Every successful run has a derivation
(`lowersStmts_of_returns`), and what it leaves of the state is `Body.Extends`.
-/

namespace AnnotatedWasm

namespace Syntax

mutual

/-- The names that `global` statements list in a statement, at any depth, in source order. -/
def Stmt.globalNames : Stmt → List String
  | .global _ names => names
  | .ifElse _ _ body elifs orelse =>
    globalNamesAll body ++ (globalNamesBranches elifs ++ globalNamesAll orelse)
  | .whileLoop _ _ body orelse | .forLoop _ _ _ body orelse =>
    globalNamesAll body ++ globalNamesAll orelse
  | .funcDef _ _ body | .classDef _ _ body | .withItems _ _ body => globalNamesAll body
  | .tryExcept _ body handlers orelse finale =>
    globalNamesAll body ++ (globalNamesHandlers handlers ++
      (globalNamesAll orelse ++ globalNamesAll finale))
  | _ => []

def globalNamesAll : List Stmt → List String
  | [] => []
  | s :: ss => s.globalNames ++ globalNamesAll ss

def globalNamesBranches : List Branch → List String
  | [] => []
  | .mk _ body :: rest => globalNamesAll body ++ globalNamesBranches rest

def globalNamesHandlers : List Handler → List String
  | [] => []
  | .mk _ _ body :: rest => globalNamesAll body ++ globalNamesHandlers rest

end

end Syntax

namespace Lowering

open Ir (Node)
open Syntax (Expr Stmt Branch globalNamesAll globalNamesBranches)

/-- The state with the global in the module, where it is put unless it is there already. -/
def Body.promote (b : Body) (name : String) (d : Declared) : Body :=
  let m := b.session.module
  if (m.global? name).isNone then
    let module := { m with globals := m.globals ++ [⟨name, d.kind, true, d.init⟩] }
    ({ b with session := { b.session with module } }).grow [] 0 [.globalPromoted name b.frame.name]
  else b

def Body.enterLoop (b : Body) (id : Nat) : Body := { b with frame := b.frame.enterLoop id }

def Body.leaveLoop (b : Body) : Body := { b with frame := b.frame.leaveLoop }

def Body.declare (b : Body) (name : String) (ty : Ty) : Body :=
  { b with frame := (b.frame.declare name ty).2 }

def Body.openGlobal (b : Body) (name : String) (ty : Ty) : Body :=
  { b with frame := b.frame.openGlobal name ty }

/-! ### Derivations -/

/-- A value goes to a name: its slot, its global, or a new slot. -/
inductive StoresName (name : String) (value : Node) : Body → Node → Body → Prop
  | slot {slot v b b'} : b.frame.slot? name = some slot → Adapts value slot.ty v → b.Notes b' →
      StoresName name value b (.localSet slot.index v) b'
  | global {ty v b b'} : b.frame.slot? name = none → b.frame.global? name = some ty →
      Adapts value ty v → b.Notes b' → StoresName name value b (.globalSet name v) b'
  | fresh {b} : b.frame.slot? name = none → b.frame.global? name = none → value.ty ≠ .void →
      StoresName name value b (.localSet b.frame.nextIndex value) (b.declare name value.ty)

/-- A value goes to a target. -/
inductive Stores (env : Env) (value : Node) : Expr → Body → Node → Body → Prop
  | name {span id b n b'} : StoresName id value b n b' →
      Stores env value (.name span id) b n b'
  | element {span array index k b a b₁ i b₂ i' b₃ v b'} : env.options.gc = true →
      LowersExpr env none array b a b₁ → a.ty = .array k → LowersExpr env none index b₁ i b₂ →
      Returns (coerce i .i32 index.span) b₂ i' b₃ → Returns (coerce value (.num k) span) b₃ v b' →
      Stores env value (.subscript span array index) b (.arraySet k a i' v) b'

/-- A value goes to several targets, from left to right. -/
inductive StoresAll (env : Env) (value : Node) : List Expr → Body → List Node → Body → Prop
  | nil {b} : StoresAll env value [] b [] b
  | cons {target targets b n b₁ ns b'} : Stores env value target b n b₁ →
      StoresAll env value targets b₁ ns b' → StoresAll env value (target :: targets) b (n :: ns) b'

/-- Declared globals become visible. -/
inductive OpensGlobals : List String → Body → Body → Prop
  | nil {b} : OpensGlobals [] b b
  | cons {name names d b b'} : b.frame.slot? name = none →
      b.session.declared.lookup name = some d →
      OpensGlobals names ((b.promote name d).openGlobal name (.num d.kind)) b' →
      OpensGlobals (name :: names) b b'

/-- A statement without control structure. -/
inductive LowersSimple (env : Env) : Stmt → Body → Node → Body → Prop
  | comment {span s text b} : LowersSimple env (.expr span (.string s text)) b .nop b
  | effect {span e b n b'} : LowersExpr env none e b n b' → n.ty = .void →
      LowersSimple env (.expr span e) b n b'
  | drop {span e b v b'} : LowersExpr env none e b v b' → v.ty ≠ .void →
      LowersSimple env (.expr span e) b (.drop v) b'
  | assign {span target value b v b₁ n b'} :
      LowersExpr env (targetType? b.frame target) value b v b₁ → Stores env v target b₁ n b' →
      LowersSimple env (.assign span [target] value) b n b'
  | assignAll {span targets value b v b₁ ns b'} : targets.length ≠ 1 →
      LowersExpr env (targets.head? >>= targetType? b.frame) value b v b₁ → v.ty ≠ .void →
      StoresAll env (slotGet ⟨b₁.frame.nextIndex, v.ty⟩) targets (b₁.grow [v.ty] 0 []) ns b' →
      LowersSimple env (.assign span targets value) b
        (.block none (.localSet b₁.frame.nextIndex v :: ns) .void) b'
  | declare {span s name annot ty b} : Signature.resolve env.signatures.aliases annot = .ok ty →
      ty ≠ .void → env.options.missing? ty = none → recordedType? b.frame name = none →
      LowersSimple env (.annAssign span (.name s name) annot none) b .nop (b.declare name ty)
  | annAssign {span s name annot ty e b v b₁ v' b₂ n b'} :
      Signature.resolve env.signatures.aliases annot = .ok ty → ty ≠ .void →
      env.options.missing? ty = none → (∀ old ∈ recordedType? b.frame name, old = ty) →
      LowersExpr env (some ty) e b v b₁ → Returns (coerce v ty e.span) b₁ v' b₂ →
      StoresName name v' b₂ n b' →
      LowersSimple env (.annAssign span (.name s name) annot (some e)) b n b'
  | augAssign {span s name op value b v b₁ n b'} :
      LowersExpr env none (.binary span op (.name s name) value) b v b₁ →
      StoresName name v b₁ n b' →
      LowersSimple env (.augAssign span (.name s name) op value) b n b'
  | pass {span b} : LowersSimple env (.pass span) b .nop b
  | global {span names b b'} : OpensGlobals names b b' →
      LowersSimple env (.global span names) b .nop b'
  | importModule {span path asName b} : LowersSimple env (.importModule span path asName) b .nop b
  | importNames {span path names b} : LowersSimple env (.importNames span path names) b .nop b

mutual

/-- The statement is lowered to this node, from one state to another. -/
inductive LowersStmt (env : Env) : Stmt → Body → Node → Body → Prop
  | simple {s b n b'} : LowersSimple env s b n b' → LowersStmt env s b n b'
  | retNone {span value b} : b.frame.returns = .void → (∀ e ∈ value, ∃ s, e = .noneLit s) →
      LowersStmt env (.ret span value) b (.ret none) b
  | retSome {span e b v b₁ v' b'} : b.frame.returns ≠ .void →
      LowersExpr env (some b.frame.returns) e b v b₁ →
      Returns (coerce v b.frame.returns e.span) b₁ v' b' →
      LowersStmt env (.ret span (some e)) b (.ret (some v')) b'
  | breakLoop {span id rest b} : b.frame.loops = id :: rest →
      LowersStmt env (.breakLoop span) b (.br (loopBodyLabel id)) b
  | continueLoop {span id rest b} : b.frame.loops = id :: rest →
      LowersStmt env (.continueLoop span) b (.br (loopLabel id)) b
  | assert {span test b c b'} : Returns (lowerCondition env test) b c b' →
      LowersStmt env (.assert span test none) b (.ifElse c .nop (some .unreachable)) b'
  | ifElse {span test body elifs orelse b c b₁ ns b₂ e b'} :
      Returns (lowerCondition env test) b c b₁ → LowersStmts env body b₁ ns b₂ →
      LowersElse env orelse elifs b₂ e b' →
      LowersStmt env (.ifElse span test body elifs orelse) b
        (.ifElse c (.block none ns .void) (some e)) b'
  | whileLoop {span test body orelse b c b₁ ns b₂ ms b'} :
      Returns (lowerCondition env test) (b.grow [] 1 []) c b₁ →
      LowersStmts env body (b₁.enterLoop b.session.nextLabel) ns b₂ →
      LowersStmts env orelse b₂.leaveLoop ms b' →
      LowersStmt env (.whileLoop span test body orelse) b
        (whileNode b.session.nextLabel c ns ms) b'

inductive LowersStmts (env : Env) : List Stmt → Body → List Node → Body → Prop
  | nil {b} : LowersStmts env [] b [] b
  | cons {s ss b n b₁ ns b'} : LowersStmt env s b n b₁ → LowersStmts env ss b₁ ns b' →
      LowersStmts env (s :: ss) b (n :: ns) b'

/-- The `else` arm of a conditional. -/
inductive LowersElse (env : Env) : List Stmt → List Branch → Body → Node → Body → Prop
  | nil {orelse b ns b'} : LowersStmts env orelse b ns b' →
      LowersElse env orelse [] b (.block none ns .void) b'
  | cons {orelse test body rest b c b₁ ns b₂ e b'} : Returns (lowerCondition env test) b c b₁ →
      LowersStmts env body b₁ ns b₂ → LowersElse env orelse rest b₂ e b' →
      LowersElse env orelse (.mk test body :: rest) b
        (.block none [.ifElse c (.block none ns .void) (some e)] .void) b'

end

/-- How the state changes, with the globals that are opened on the way: it grows, a new name gets a
slot, a global is opened, and a loop is gone through. The names are among `D`. -/
inductive Body.Moves (D : String → Prop) : List String → Body → Body → Prop
  | grows {b b'} : b.Grows b' → Moves D [] b b'
  | declare {b name ty} : D name → b.frame.slot? name = none → b.frame.global? name = none →
      Moves D [] b (b.declare name ty)
  | openGlobal {b name d} : D name → b.frame.slot? name = none →
      b.session.declared.lookup name = some d →
      Moves D [name] b ((b.promote name d).openGlobal name (.num d.kind))
  | loop {names id b b'} : Moves D names (b.enterLoop id) b' → Moves D names b b'.leaveLoop
  | trans {names names' b b₁ b'} : Moves D names b b₁ → Moves D names' b₁ b' →
      Moves D (names ++ names') b b'

/-! ### Every successful run has a derivation -/

variable {env : Env} {b b' : Body} {n : Node} {span : Span}

lemma returns_reassigned {name : String} {recorded : Ty} {value : Node}
    (h : Returns (reassigned name recorded value span) b n b') :
    b.Notes b' ∧ Adapts value recorded n := by
  unfold reassigned at h
  split at h
  · exact returns_coerce h
  · simp at h
    obtain ⟨hty, rfl, rfl⟩ := h
    exact ⟨.refl _, .same hty⟩

lemma returns_assignName {name : String} {value : Node}
    (h : Returns (assignName name value span) b n b') : StoresName name value b n b' := by
  simp only [assignName, Returns.bind_iff, returns_frame] at h
  obtain ⟨f, b₁, ⟨rfl, rfl⟩, h⟩ := h
  split at h
  · next slot hs =>
    simp only [Returns.bind_iff, Returns.pure_iff] at h
    obtain ⟨v, b₂, hv, rfl, rfl⟩ := h
    obtain ⟨hg, ha⟩ := returns_reassigned hv
    exact .slot hs ha hg
  · next ty hs hg =>
    simp only [Returns.bind_iff, Returns.pure_iff] at h
    obtain ⟨v, b₂, hv, rfl, rfl⟩ := h
    obtain ⟨hgr, ha⟩ := returns_reassigned hv
    exact .global hs hg ha hgr
  · next hs hg =>
    simp [isVoid_iff] at h
    obtain ⟨hv, rfl, rfl⟩ := h
    exact .fresh hs hg hv

lemma returns_assignTo {value : Node} {target : Expr}
    (h : Returns (assignTo env value target) b n b') : Stores env value target b n b' := by
  cases target
  case name => exact .name (returns_assignName h)
  case subscript =>
    simp only [assignTo, assignElement, Returns.bind_iff, returns_requireArrays] at h
    obtain ⟨_, _, ⟨hgc, rfl⟩, a, b₁, ha, h⟩ := h
    split at h
    · next k hk =>
      simp only [Returns.bind_iff, Returns.pure_iff] at h
      obtain ⟨i, b₂, hi, i', b₃, hc, v, b₄, hv, rfl, rfl⟩ := h
      exact .element hgc (lowersExpr_of_returns ha) hk (lowersExpr_of_returns hi) hc hv
    · simp at h
  all_goals simp [assignTo] at h

lemma returns_assignCopies {scratch : Slot} :
    ∀ {targets : List Expr} {b : Body} {ns : List Node},
      Returns (assignCopies env scratch targets) b ns b' →
        StoresAll env (slotGet scratch) targets b ns b'
  | [], b, ns, h => by
    simp [assignCopies] at h
    obtain ⟨rfl, rfl⟩ := h
    exact .nil
  | target :: targets, b, ns, h => by
    simp only [assignCopies, Returns.bind_iff, Returns.pure_iff] at h
    obtain ⟨n, b₁, hn, ns, b₂, hns, rfl, rfl⟩ := h
    exact .cons (returns_assignTo hn) (returns_assignCopies hns)

lemma returns_lowerAssign {targets : List Expr} {value : Expr}
    (h : Returns (lowerAssign env targets value span) b n b') :
    LowersSimple env (.assign span targets value) b n b' := by
  simp only [lowerAssign, Returns.bind_iff, returns_frame] at h
  obtain ⟨f, b₀, ⟨rfl, rfl⟩, v, b₁, hv, h⟩ := h
  have hv := lowersExpr_of_returns hv
  unfold assignAll at h
  split at h
  · exact .assign hv (returns_assignTo h)
  · next hlen =>
    simp [isVoid_iff] at h
    obtain ⟨hvoid, ns, hns, rfl⟩ := h
    refine .assignAll (fun hone => ?_) hv hvoid (returns_assignCopies hns)
    obtain ⟨target, rfl⟩ := List.length_eq_one_iff.mp hone
    exact hlen target rfl

/-- A target that is a known name is a name. -/
lemma eq_name_of_name? {e : Expr} {name : String} (h : e.name? = some name) :
    ∃ s, e = .name s name := by
  cases e <;> simp [Expr.name?] at h
  exact ⟨_, by rw [h]⟩

lemma returns_lowerAugAssign {target value : Expr} {op : Syntax.BinOp}
    (h : Returns (lowerAugAssign env target op value span) b n b') :
    LowersSimple env (.augAssign span target op value) b n b' := by
  simp only [lowerAugAssign] at h
  rcases ht : target.name? with _ | name
  · simp [ht] at h
  · obtain ⟨s, rfl⟩ := eq_name_of_name? ht
    simp only [ht, Option.isNone_some, Bool.false_eq_true, if_false, Returns.bind_iff] at h
    obtain ⟨_, b₀, ho, l, b₁, hl, r, b₂, hr, v, b₃, hv, h⟩ := h
    cases returns_requireOperator ho
    refine .augAssign (.binary (lowersExpr_of_returns hl) (lowersExpr_of_returns hr) hv) ?_
    exact returns_assignName h

/-- A name that has a type keeps it, and a new one gets the type of its first value. -/
lemma returns_storeTyped {name : String} {ty : Ty} {value : Node}
    (h : Returns (storeTyped name ty value) b n b') (hty : value.ty = ty) (hv : ty ≠ .void)
    (hold : ∀ old ∈ recordedType? b.frame name, old = ty) : StoresName name value b n b' := by
  simp only [storeTyped, Returns.bind_iff, returns_frame] at h
  obtain ⟨f, b₁, ⟨rfl, rfl⟩, h⟩ := h
  split at h
  · next slot hs =>
    simp at h
    obtain ⟨rfl, rfl⟩ := h
    have hslot : slot.ty = ty := hold _ (by simp [recordedType?, hs])
    exact .slot hs (.same (by rw [hty, hslot])) (.refl _)
  · next t hs hg =>
    simp at h
    obtain ⟨rfl, rfl⟩ := h
    have ht : t = ty := hold _ (by simp [recordedType?, hs, hg])
    exact .global hs hg (.same (by rw [hty, ht])) (.refl _)
  · next hs hg =>
    simp at h
    obtain ⟨rfl, rfl⟩ := h
    subst hty
    exact .fresh hs hg hv

lemma Body.Grows.recordedType? (h : b.Grows b') (name : String) :
    Lowering.recordedType? b'.frame name = Lowering.recordedType? b.frame name := by
  simp [Lowering.recordedType?, h.slot?, h.global?]

lemma returns_lowerAnnAssign {target annot : Expr} {value : Option Expr}
    (h : Returns (lowerAnnAssign env target annot value span) b n b') :
    LowersSimple env (.annAssign span target annot value) b n b' := by
  unfold lowerAnnAssign at h
  rcases ht : target.name? with _ | name
  · simp [ht] at h
  obtain ⟨s, rfl⟩ := eq_name_of_name? ht
  rcases hty : Signature.resolve env.signatures.aliases annot with e | ty
  · cases value <;> simp [ht, hty] at h
  -- with a value the steps are the same whether the name is known or not
  have store {e : Expr} (hv : ty ≠ .void) (hm : env.options.missing? ty = none)
      (hold : ∀ old ∈ recordedType? b.frame name, old = ty)
      (h : ∃ v b₁, Returns (lowerExpr env (some ty) e) b v b₁ ∧
        ∃ v' b₂, Returns (coerce v ty e.span) b₁ v' b₂ ∧ Returns (storeTyped name ty v') b₂ n b') :
      LowersSimple env (.annAssign span (.name s name) annot (some e)) b n b' := by
    obtain ⟨v, b₁, he, v', b₂, hc, hst⟩ := h
    have hl := lowersExpr_of_returns he
    have hg := hl.grows.trans (returns_coerce hc).1.grows
    refine .annAssign hty hv hm hold hl hc (returns_storeTyped hst (ty_of_coerce hc) hv ?_)
    rwa [hg.recordedType?]
  rcases hr : recordedType? b.frame name with _ | old
  · rcases value with _ | e <;> simp [ht, hty, isVoid_iff, hr] at h
    · obtain ⟨hv, hm, rfl, rfl⟩ := h
      exact .declare hty hv hm hr
    · obtain ⟨hv, hm, h⟩ := h
      exact store hv hm (by simp [hr]) h
  · rcases value with _ | e <;> simp [ht, hty, isVoid_iff, hr] at h
    obtain ⟨hv, hm, rfl, h⟩ := h
    exact store hv hm (by simp [hr]) h

lemma returns_promote {name : String} {d : Declared} {u : Unit}
    (h : Returns (promote name d) b u b') : b' = b.promote name d := by
  simp only [promote, Returns.bind_iff, Returns.get_iff] at h
  obtain ⟨_, _, ⟨rfl, rfl⟩, h⟩ := h
  unfold Body.promote
  split at h
  · next hn =>
    simp [Body.grow] at h
    simp [hn, Body.grow, h]
  · next hn =>
    simp at h
    simp [hn, h]

@[simp] lemma frame_promote (b : Body) (name : String) (d : Declared) :
    (b.promote name d).frame = b.frame := by
  simp only [Body.promote]
  split
  · simp [Body.grow]
  · rfl

lemma returns_lowerGlobal : ∀ {names : List String} {b : Body},
    Returns (lowerGlobal span names) b n b' → n = .nop ∧ OpensGlobals names b b'
  | [], b, h => by
    simp [lowerGlobal] at h
    obtain ⟨rfl, rfl⟩ := h
    exact ⟨rfl, .nil⟩
  | name :: names, b, h => by
    simp only [lowerGlobal, Returns.bind_iff, Returns.get_iff] at h
    obtain ⟨_, b, ⟨rfl, rfl⟩, h⟩ := h
    rcases hd : b.session.declared.lookup name with _ | d
    · simp [hd] at h
    · simp [hd] at h
      obtain ⟨hs, _, b₁, hp, h⟩ := h
      cases returns_promote hp
      obtain ⟨rfl, hrest⟩ := returns_lowerGlobal h
      refine ⟨rfl, .cons hs hd ?_⟩
      simpa only [Body.openGlobal, frame_promote] using hrest

lemma returns_lowerExprStmt {e : Expr} (h : Returns (lowerExprStmt env e) b n b') :
    LowersSimple env (.expr span e) b n b' := by
  unfold lowerExprStmt at h
  split at h
  · simp at h
    obtain ⟨rfl, rfl⟩ := h
    exact .comment
  · simp [isVoid_iff] at h
    obtain ⟨v, b₁, hv, ⟨hty, rfl, rfl⟩ | ⟨hty, rfl, rfl⟩⟩ := h
    · exact .effect (lowersExpr_of_returns hv) hty
    · exact .drop (lowersExpr_of_returns hv) hty

lemma returns_lowerReturn {value : Option Expr} (h : Returns (lowerReturn env value span) b n b') :
    LowersStmt env (.ret span value) b n b' := by
  simp only [lowerReturn, Returns.bind_iff, returns_frame] at h
  obtain ⟨_, b, ⟨rfl, rfl⟩, h⟩ := h
  split at h
  · next hr =>
    simp at h
    obtain ⟨rfl, rfl⟩ := h
    exact .retNone hr (by simp)
  · next hr =>
    simp at h
    obtain ⟨rfl, rfl⟩ := h
    exact .retNone hr (by simp)
  · simp at h
  · simp at h
  · next hr =>
    simp only [Returns.bind_iff, Returns.pure_iff] at h
    obtain ⟨v, b₁, hv, v', b₂, hc, rfl, rfl⟩ := h
    exact .retSome hr (lowersExpr_of_returns hv) hc

lemma returns_lowerBreak (h : Returns (lowerBreak span) b n b') :
    LowersStmt env (.breakLoop span) b n b' := by
  simp only [lowerBreak, Returns.bind_iff, returns_frame, Frame.currentLoop?] at h
  obtain ⟨_, b, ⟨rfl, rfl⟩, h⟩ := h
  rcases hl : b.frame.loops with _ | ⟨id, rest⟩ <;> simp [hl] at h
  obtain ⟨rfl, rfl⟩ := h
  exact .breakLoop hl

lemma returns_lowerContinue (h : Returns (lowerContinue span) b n b') :
    LowersStmt env (.continueLoop span) b n b' := by
  simp only [lowerContinue, Returns.bind_iff, returns_frame, Frame.currentLoop?] at h
  obtain ⟨_, b, ⟨rfl, rfl⟩, h⟩ := h
  rcases hl : b.frame.loops with _ | ⟨id, rest⟩ <;> simp [hl] at h
  obtain ⟨rfl, rfl⟩ := h
  exact .continueLoop hl

lemma returns_lowerAssert {test : Expr} {message : Option Expr}
    (h : Returns (lowerAssert env test message) b n b') :
    LowersStmt env (.assert span test message) b n b' := by
  rcases message with _ | m
  · simp [lowerAssert] at h
    obtain ⟨c, hc, rfl⟩ := h
    exact .assert hc
  · simp [lowerAssert] at h

@[simp] lemma returns_insideLoop {id : Nat} {body : Lower (List Node)} {ns : List Node} :
    Returns (insideLoop id body) b ns b' ↔
      ∃ b₁, Returns body (b.enterLoop id) ns b₁ ∧ b' = b₁.leaveLoop := by
  simp [insideLoop, Body.enterLoop, Body.leaveLoop]

mutual

lemma lowersStmt_of_returns : (s : Stmt) → ∀ {b n b'}, Returns (lowerStmt env s) b n b' →
    LowersStmt env s b n b'
  | .expr .., _, _, _, h => .simple (returns_lowerExprStmt h)
  | .assign .., _, _, _, h => .simple (returns_lowerAssign h)
  | .annAssign .., _, _, _, h => .simple (returns_lowerAnnAssign h)
  | .augAssign .., _, _, _, h => .simple (returns_lowerAugAssign h)
  | .ret .., _, _, _, h => returns_lowerReturn h
  | .pass _, _, _, _, h => by
    simp [lowerStmt] at h
    obtain ⟨rfl, rfl⟩ := h
    exact .simple .pass
  | .breakLoop _, _, _, _, h => returns_lowerBreak h
  | .continueLoop _, _, _, _, h => returns_lowerContinue h
  | .assert .., _, _, _, h => returns_lowerAssert h
  | .global .., _, _, _, h => by
    obtain ⟨rfl, hg⟩ := returns_lowerGlobal h
    exact .simple (.global hg)
  | .importModule .., _, _, _, h => by
    simp [lowerStmt] at h
    obtain ⟨rfl, rfl⟩ := h
    exact .simple .importModule
  | .importNames .., _, _, _, h => by
    simp [lowerStmt] at h
    obtain ⟨rfl, rfl⟩ := h
    exact .simple .importNames
  | .ifElse _ _ body elifs orelse, _, _, _, h => by
    simp only [lowerStmt, Returns.bind_iff, Returns.pure_iff] at h
    obtain ⟨c, b₁, hc, ns, b₂, hns, e, b₃, he, rfl, rfl⟩ := h
    exact .ifElse hc (lowersStmts_of_returns body hns)
      (lowersElse_of_returns (lowersStmts_of_returns orelse) elifs he)
  | .whileLoop _ _ body orelse, _, _, _, h => by
    simp only [lowerStmt, Returns.bind_iff, Returns.pure_iff, returns_freshLabel,
      returns_insideLoop] at h
    obtain ⟨_, _, ⟨rfl, rfl⟩, c, b₁, hc, ns, _, ⟨b₂, hns, rfl⟩, ms, b₃, hms, rfl, rfl⟩ := h
    exact .whileLoop hc (lowersStmts_of_returns body hns) (lowersStmts_of_returns orelse hms)
  | .funcDef .., _, _, _, h => by simp [lowerStmt] at h
  | .del .., _, _, _, h | .raise .., _, _, _, h | .nonlocal .., _, _, _, h
  | .forLoop .., _, _, _, h | .classDef .., _, _, _, h | .tryExcept .., _, _, _, h
  | .withItems .., _, _, _, h => by simp [lowerStmt] at h

lemma lowersStmts_of_returns : (ss : List Stmt) → ∀ {b ns b'},
    Returns (lowerStmts env ss) b ns b' → LowersStmts env ss b ns b'
  | [], _, _, _, h => by
    simp [lowerStmts] at h
    obtain ⟨rfl, rfl⟩ := h
    exact .nil
  | s :: ss, _, _, _, h => by
    simp only [lowerStmts, Returns.bind_iff, Returns.pure_iff] at h
    obtain ⟨n, b₁, hn, ns, b₂, hns, rfl, rfl⟩ := h
    exact .cons (lowersStmt_of_returns s hn) (lowersStmts_of_returns ss hns)

lemma lowersElse_of_returns {orelse : List Stmt}
    (ho : ∀ {b ns b'}, Returns (lowerStmts env orelse) b ns b' → LowersStmts env orelse b ns b') :
    (elifs : List Branch) → ∀ {b n b'},
      Returns (lowerElse env (lowerStmts env orelse) elifs) b n b' →
        LowersElse env orelse elifs b n b'
  | [], _, _, _, h => by
    simp only [lowerElse, Returns.bind_iff, Returns.pure_iff] at h
    obtain ⟨ns, b₁, hns, rfl, rfl⟩ := h
    exact .nil (ho hns)
  | .mk _ body :: rest, _, _, _, h => by
    simp only [lowerElse, Returns.bind_iff, Returns.pure_iff] at h
    obtain ⟨c, b₁, hc, ns, b₂, hns, e, b₃, he, rfl, rfl⟩ := h
    exact .cons hc (lowersStmts_of_returns body hns) (lowersElse_of_returns ho rest he)

end

/-! ### What statements do to the state -/

/-- What a statement leaves of the state: slots, globals and labels only get more, and the
function, its loops, and the declarations of the module stay. -/
structure Body.Extends (b b' : Body) : Prop where
  name : b'.frame.name = b.frame.name
  params : b'.frame.params = b.frame.params
  extra : b.frame.extra <+: b'.frame.extra
  returns : b'.frame.returns = b.frame.returns
  loops : b'.frame.loops = b.frame.loops
  functions : b'.session.module.functions = b.session.module.functions
  globals : b.session.module.globals <+: b'.session.module.globals
  declared : b'.session.declared = b.session.declared
  nextLabel : b.session.nextLabel ≤ b'.session.nextLabel

namespace Body.Extends

lemma refl (b : Body) : b.Extends b :=
  ⟨rfl, rfl, List.prefix_rfl, rfl, rfl, rfl, List.prefix_rfl, rfl, le_rfl⟩

lemma trans {a b c : Body} (h : a.Extends b) (h' : b.Extends c) : a.Extends c where
  name := h'.name.trans h.name
  params := h'.params.trans h.params
  extra := h.extra.trans h'.extra
  returns := h'.returns.trans h.returns
  loops := h'.loops.trans h.loops
  functions := h'.functions.trans h.functions
  globals := h.globals.trans h'.globals
  declared := h'.declared.trans h.declared
  nextLabel := h.nextLabel.trans h'.nextLabel

lemma slotTypes (h : b.Extends b') : b.frame.slotTypes <+: b'.frame.slotTypes := by
  unfold Frame.slotTypes
  rw [h.params]
  exact (List.prefix_append_right_inj _).mpr h.extra

lemma of_grows (h : b.Grows b') : b.Extends b' := by
  obtain ⟨ts, k, es, rfl⟩ := h
  exact ⟨rfl, rfl, List.prefix_append _ _, rfl, rfl, rfl, List.prefix_rfl, rfl,
    Nat.le_add_right _ _⟩

lemma declare (b : Body) (name : String) (ty : Ty) : b.Extends (b.declare name ty) :=
  ⟨rfl, rfl, List.prefix_append _ _, rfl, rfl, rfl, List.prefix_rfl, rfl, le_rfl⟩

lemma openGlobal (b : Body) (name : String) (ty : Ty) : b.Extends (b.openGlobal name ty) :=
  ⟨rfl, rfl, List.prefix_rfl, rfl, rfl, rfl, List.prefix_rfl, rfl, le_rfl⟩

lemma promote (b : Body) (name : String) (d : Declared) : b.Extends (b.promote name d) := by
  simp only [Body.promote]
  split
  · refine .trans ?_ (of_grows ⟨_, _, _, rfl⟩)
    exact ⟨rfl, rfl, List.prefix_rfl, rfl, rfl, rfl, List.prefix_append _ _, rfl, le_rfl⟩
  · exact .refl b

/-- The body of a loop leaves the loops around it as they are. -/
lemma leaveLoop {id : Nat} (h : (b.enterLoop id).Extends b') : b.Extends b'.leaveLoop where
  name := h.name
  params := h.params
  extra := h.extra
  returns := h.returns
  loops := by
    have hl : b'.frame.loops = id :: b.frame.loops := h.loops
    simp [Body.leaveLoop, Frame.leaveLoop, hl]
  functions := h.functions
  globals := h.globals
  declared := h.declared
  nextLabel := h.nextLabel

end Body.Extends

variable {D : String → Prop}

lemma Body.Moves.extends {names : List String} (h : b.Moves D names b') : b.Extends b' := by
  induction h with
  | grows h => exact .of_grows h
  | declare => exact .declare _ _ _
  | openGlobal => exact (Body.Extends.promote _ _ _).trans (.openGlobal _ _ _)
  | loop _ ih => exact ih.leaveLoop
  | trans _ _ ih ih' => exact ih.trans ih'

lemma Body.Grows.then {names : List String} {b₁ : Body} (h : b.Grows b₁)
    (h' : b₁.Moves D names b') : b.Moves D names b' := (Body.Moves.grows h).trans h'

lemma StoresName.moves {name : String} {value : Node} (h : StoresName name value b n b')
    (hD : D name) : b.Moves D [] b' := by
  cases h with
  | slot _ _ hg => exact .grows hg.grows
  | global _ _ _ hg => exact .grows hg.grows
  | fresh hs hg _ => exact .declare hD hs hg

lemma Stores.moves {value : Node} {target : Expr} (h : Stores env value target b n b')
    (hD : (Syntax.Node.expr target).Names D) : b.Moves D [] b' := by
  cases h with
  | name hs => exact hs.moves hD.name
  | element _ ha _ hi hc hv =>
    exact .grows (ha.grows.trans (hi.grows.trans ((returns_coerce hc).1.grows.trans
      (returns_coerce hv).1.grows)))

lemma StoresAll.moves {value : Node} {targets : List Expr} {ns : List Node}
    (h : StoresAll env value targets b ns b')
    (hD : ∀ target ∈ targets, (Syntax.Node.expr target).Names D) : b.Moves D [] b' := by
  induction h with
  | nil => exact .grows (.refl _)
  | cons hs _ ih =>
    rw [List.forall_mem_cons] at hD
    exact (hs.moves hD.1).trans (ih hD.2)

lemma OpensGlobals.moves {names : List String} (h : OpensGlobals names b b')
    (hD : ∀ name ∈ names, D name) : b.Moves D names b' := by
  induction h with
  | nil => exact .grows (.refl _)
  | cons hs hd _ ih =>
    rw [List.forall_mem_cons] at hD
    exact (Body.Moves.openGlobal hD.1 hs hd).trans (ih hD.2)

lemma LowersSimple.moves {s : Stmt} (h : LowersSimple env s b n b')
    (hD : (Syntax.Node.stmt s).Names D) : b.Moves D s.globalNames b' := by
  obtain ⟨hnames, hD⟩ := Syntax.Node.names_iff.mp hD
  cases h with
  | comment | pass | importModule | importNames => exact .grows (.refl _)
  | effect he _ | drop he _ => exact .grows he.grows
  | assign he hs => exact he.grows.then (hs.moves (hD _ (List.mem_cons_self ..)))
  | assignAll _ he _ hs =>
    refine (he.grows.trans ⟨_, _, _, rfl⟩).then (hs.moves fun target ht => hD _ ?_)
    exact List.mem_append_left _ (List.mem_map_of_mem ht)
  | declare _ _ _ hr =>
    simp only [recordedType?, Option.orElse_eq_none, Option.map_eq_none_iff] at hr
    exact .declare (hD _ (List.mem_cons_self ..)).name hr.1 hr.2
  | annAssign _ _ _ _ he hc hs =>
    exact (he.grows.trans (returns_coerce hc).1.grows).then
      (hs.moves (hD _ (List.mem_cons_self ..)).name)
  | augAssign he hs => exact he.grows.then (hs.moves (hD _ (List.mem_cons_self ..)).name)
  | global h => exact h.moves hnames

lemma grows_of_lowerCondition {test : Expr} (h : Returns (lowerCondition env test) b n b') :
    b.Grows b' := by
  obtain ⟨v, hv, -⟩ := returns_lowerCondition h
  exact hv.grows

mutual

lemma LowersStmt.moves {s : Stmt} {b b' : Body} {n : Node} :
    LowersStmt env s b n b' → (Syntax.Node.stmt s).Names D → b.Moves D s.globalNames b'
  | .simple h, hD => h.moves hD
  | .retNone _ _, _ | .breakLoop _, _ | .continueLoop _, _ => .grows (.refl _)
  | .retSome _ he hc, _ => .grows (he.grows.trans (returns_coerce hc).1.grows)
  | .assert hc, _ => .grows (grows_of_lowerCondition hc)
  | .ifElse hc hns he, hD => by
    have hparts := (Syntax.Node.names_iff.mp hD).2
    simp only [Syntax.Node.children, Stmt.children, List.forall_mem_cons, List.forall_mem_append]
      at hparts
    obtain ⟨-, hbody, helse⟩ := hparts
    exact (grows_of_lowerCondition hc).then ((hns.moves hbody).trans (he.moves helse.1 helse.2))
  | .whileLoop hc hns hms, hD => by
    have hparts := (Syntax.Node.names_iff.mp hD).2
    simp only [Syntax.Node.children, Stmt.children, List.forall_mem_cons, List.forall_mem_append]
      at hparts
    obtain ⟨-, hbody, helse⟩ := hparts
    have h1 : Body.Grows _ _ := .trans ⟨_, _, _, rfl⟩ (grows_of_lowerCondition hc)
    exact h1.then ((Body.Moves.loop (hns.moves hbody)).trans (hms.moves helse))

lemma LowersStmts.moves {ss : List Stmt} {b b' : Body} {ns : List Node} :
    LowersStmts env ss b ns b' → (∀ c ∈ Syntax.stmtNodes ss, c.Names D) →
      b.Moves D (globalNamesAll ss) b'
  | .nil, _ => .grows (.refl _)
  | .cons h hs, hD =>
    (h.moves (List.forall_mem_cons.mp hD).1).trans (hs.moves (List.forall_mem_cons.mp hD).2)

lemma LowersElse.moves {orelse : List Stmt} {elifs : List Branch} {b b' : Body} {n : Node} :
    LowersElse env orelse elifs b n b' → (∀ c ∈ elifs.flatMap Branch.children, c.Names D) →
      (∀ c ∈ Syntax.stmtNodes orelse, c.Names D) →
      b.Moves D (globalNamesBranches elifs ++ globalNamesAll orelse) b'
  | .nil h, _, hD => h.moves hD
  | .cons hc hns he, helifs, hD => by
    simp only [List.flatMap_cons, Branch.children, List.forall_mem_append, List.forall_mem_cons]
      at helifs
    obtain ⟨⟨-, hbody⟩, hrest⟩ := helifs
    have h := (grows_of_lowerCondition hc).then ((hns.moves hbody).trans (he.moves hrest hD))
    rwa [← List.append_assoc] at h

end

/-! Without a condition on the names. -/

lemma StoresName.extends {name : String} {value : Node} (h : StoresName name value b n b') :
    b.Extends b' :=
  (h.moves (D := fun _ => True) trivial).extends

lemma Stores.extends {value : Node} {target : Expr} (h : Stores env value target b n b') :
    b.Extends b' :=
  (h.moves fun _ _ _ _ => trivial).extends

lemma StoresAll.extends {value : Node} {targets : List Expr} {ns : List Node}
    (h : StoresAll env value targets b ns b') : b.Extends b' :=
  (h.moves fun _ _ _ _ _ _ => trivial).extends

lemma LowersSimple.extends {s : Stmt} (h : LowersSimple env s b n b') : b.Extends b' :=
  (h.moves fun _ _ _ _ => trivial).extends

lemma LowersStmt.extends {s : Stmt} (h : LowersStmt env s b n b') : b.Extends b' :=
  (h.moves fun _ _ _ _ => trivial).extends

lemma LowersStmts.extends {ss : List Stmt} {ns : List Node} (h : LowersStmts env ss b ns b') :
    b.Extends b' :=
  (h.moves fun _ _ _ _ _ _ => trivial).extends

lemma LowersElse.extends {orelse : List Stmt} {elifs : List Branch}
    (h : LowersElse env orelse elifs b n b') : b.Extends b' :=
  (h.moves (fun _ _ _ _ _ _ => trivial) fun _ _ _ _ _ _ => trivial).extends

end Lowering

end AnnotatedWasm
