import AnnotatedWasm.Signature.Table
import Mathlib

/-!
Well-typed intermediate code.

`Fits` looks at one node and the types of its operands, and a function is well typed when all of
its nodes fit. A scope that says more keeps what fits, so nodes stay well typed while a function
makes new slots and a module gets new globals.
-/

namespace AnnotatedWasm.Ir

/-- What the nodes of a function may refer to. -/
structure Scope where
  /-- The types of the parameters and then of the other slots. -/
  slots : List Ty
  globals : List Global
  signature? : String → Option FuncSig
  result : Ty

namespace Scope

/-- The type of a global. -/
def globalTy? (Γ : Scope) (name : String) : Option Ty :=
  (Γ.globals.find? (·.name = name)).map fun g => .num g.kind

/-- The scope with at least the slots and globals of another. -/
structure Le (Γ Δ : Scope) : Prop where
  slots : Γ.slots <+: Δ.slots
  globals : Γ.globals <+: Δ.globals
  signature? : Δ.signature? = Γ.signature?
  result : Δ.result = Γ.result

lemma Le.slot {Γ Δ : Scope} (h : Γ.Le Δ) {i : Nat} {t : Ty} (ht : Γ.slots[i]? = some t) :
    Δ.slots[i]? = some t := by
  obtain ⟨more, hmore⟩ := h.slots
  rw [← hmore, List.getElem?_append_left (List.getElem?_eq_some_iff.mp ht).1]
  exact ht

lemma Le.globalTy {Γ Δ : Scope} (h : Γ.Le Δ) {name : String} {t : Ty}
    (ht : Γ.globalTy? name = some t) : Δ.globalTy? name = some t := by
  obtain ⟨more, hmore⟩ := h.globals
  obtain ⟨g, hg, rfl⟩ := Option.map_eq_some_iff.mp ht
  simp [globalTy?, ← hmore, List.find?_append, hg]

end Scope

namespace Node

/-- The nodes leave no value but the last, which leaves one of this type. -/
def Ends (t : Ty) : List Node → Prop
  | [] => t = .void
  | [n] => n.ty = t
  | n :: m :: ns => n.ty = .void ∧ Ends t (m :: ns)

lemma ends_void {ns : List Node} : Ends .void ns ↔ ∀ n ∈ ns, n.ty = .void := by
  induction ns with
  | nil => simp [Ends]
  | cons n ns ih =>
    rcases ns with _ | ⟨m, ns⟩
    · simp [Ends]
    · rw [Ends, ih]; simp

/-- The node agrees with the scope and with the types of its operands. -/
def Fits (Γ : Scope) : Node → Prop
  | nop | unreachable | const _ | string _ | br _ => True
  | localGet i t => Γ.slots[i]? = some t
  | localSet i v => Γ.slots[i]? = some v.ty
  | globalGet g t => Γ.globalTy? g = some t
  | globalSet g v => Γ.globalTy? g = some v.ty
  | unary op v => v.ty = .num op.operandKind
  | binary op a b => a.ty = .num op.operandKind ∧ b.ty = .num op.operandKind
  | select c a b => c.ty = .i32 ∧ a.ty = b.ty ∧ a.ty ≠ .void
  | block _ body t => Ends t body
  | loop _ body => body.ty = .void
  | ifElse c a b => c.ty = .i32 ∧ a.ty = .void ∧ ∀ e ∈ b, e.ty = .void
  | brIf _ c => c.ty = .i32
  | call f args t => Γ.signature? f = some ⟨args.map ty, t⟩
  | ret none => Γ.result = .void
  | ret (some v) => Γ.result ≠ .void ∧ v.ty = Γ.result
  | drop v => v.ty ≠ .void
  | arrayNew k init size => init.ty = .num k ∧ size.ty = .i32
  | arrayNewFixed k values => ∀ v ∈ values, v.ty = .num k
  | arrayGet k a i => a.ty = .array k ∧ i.ty = .i32
  | arraySet k a i v => a.ty = .array k ∧ i.ty = .i32 ∧ v.ty = .num k
  | arrayLen a => ∃ k, a.ty = .array k

lemma Fits.mono {Γ Δ : Scope} (h : Γ.Le Δ) {n : Node} (hn : n.Fits Γ) : n.Fits Δ := by
  cases n with
  | localGet i t => exact h.slot hn
  | localSet i v => exact h.slot hn
  | globalGet g t => exact h.globalTy hn
  | globalSet g v => exact h.globalTy hn
  | call f args t => simpa only [Fits, h.signature?] using hn
  | ret v => cases v <;> simpa only [Fits, h.result] using hn
  | _ => exact hn

/-- The node and all nodes below it fit. -/
def Typed (Γ : Scope) (n : Node) : Prop := ∀ m ∈ n.subnodes, m.Fits Γ

lemma Typed.mono {Γ Δ : Scope} (h : Γ.Le Δ) {n : Node} (hn : n.Typed Γ) : n.Typed Δ :=
  fun m hm => (hn m hm).mono h

/-- The nodes right below a node, in order. -/
def children : Node → List Node
  | nop | unreachable | const _ | string _ | localGet _ _ | globalGet _ _ | br _ => []
  | localSet _ v | globalSet _ v | unary _ v | drop v | arrayLen v | loop _ v | brIf _ v => [v]
  | binary _ a b | arrayNew _ a b | arrayGet _ a b => [a, b]
  | select a b c | arraySet _ a b c => [a, b, c]
  | block _ ns _ | call _ ns _ | arrayNewFixed _ ns => ns
  | ifElse c t e => c :: t :: e.toList
  | ret v => v.toList

lemma subnodesAll_eq (ns : List Node) : subnodesAll ns = ns.flatMap subnodes := by
  induction ns with
  | nil => rfl
  | cons n ns ih => rw [subnodesAll, ih]; rfl

lemma subnodesOpt_eq (e : Option Node) : subnodesOpt e = e.toList.flatMap subnodes := by
  cases e <;> simp [subnodesOpt]

lemma subnodes_eq (n : Node) : n.subnodes = n :: n.children.flatMap subnodes := by
  cases n <;> simp [subnodes, children, subnodesAll_eq, subnodesOpt_eq]

/-- A node has more nodes in it than a node right below it. -/
lemma length_subnodes_lt {n m : Node} (h : m ∈ n.children) :
    m.subnodes.length < n.subnodes.length := by
  have hsub : m.subnodes.Sublist (n.children.flatMap subnodes) :=
    List.sublist_flatten_of_mem (List.mem_map_of_mem h)
  rw [subnodes_eq n, List.length_cons]
  exact Nat.lt_succ_of_le hsub.length_le

lemma forall_subnodes {P : Node → Prop} {n : Node} :
    (∀ m ∈ n.subnodes, P m) ↔ P n ∧ ∀ c ∈ n.children, ∀ m ∈ c.subnodes, P m := by
  rw [subnodes_eq, List.forall_mem_cons, List.forall_mem_flatMap]

/-- A node is well typed when it fits and its operands are well typed. -/
lemma typed_iff {Γ : Scope} {n : Node} :
    n.Typed Γ ↔ n.Fits Γ ∧ ∀ m ∈ n.children, m.Typed Γ := forall_subnodes

section

variable {Γ : Scope} {v a b c : Node}

/-- A node with no nodes below it. -/
lemma typed_leaf {n : Node} (hn : n.children = []) : n.Typed Γ ↔ n.Fits Γ := by
  rw [typed_iff, hn]
  simp

@[simp] lemma typed_nop : nop.Typed Γ := (typed_leaf rfl).mpr trivial

@[simp] lemma typed_unreachable : unreachable.Typed Γ := (typed_leaf rfl).mpr trivial

@[simp] lemma typed_const {l : Literal} : (const l).Typed Γ := (typed_leaf rfl).mpr trivial

@[simp] lemma typed_string {s : String} : (string s).Typed Γ := (typed_leaf rfl).mpr trivial

@[simp] lemma typed_br {l : Label} : (br l).Typed Γ := (typed_leaf rfl).mpr trivial

@[simp] lemma typed_localGet {i : Nat} {t : Ty} :
    (localGet i t).Typed Γ ↔ Γ.slots[i]? = some t :=
  typed_leaf rfl

@[simp] lemma typed_globalGet {g : String} {t : Ty} :
    (globalGet g t).Typed Γ ↔ Γ.globalTy? g = some t :=
  typed_leaf rfl

@[simp] lemma typed_localSet {i : Nat} :
    (localSet i v).Typed Γ ↔ Γ.slots[i]? = some v.ty ∧ v.Typed Γ :=
  typed_iff.trans (and_congr_right fun _ => List.forall_mem_singleton)

@[simp] lemma typed_globalSet {g : String} :
    (globalSet g v).Typed Γ ↔ Γ.globalTy? g = some v.ty ∧ v.Typed Γ :=
  typed_iff.trans (and_congr_right fun _ => List.forall_mem_singleton)

@[simp] lemma typed_unary {op : UnaryOp} :
    (unary op v).Typed Γ ↔ v.ty = .num op.operandKind ∧ v.Typed Γ :=
  typed_iff.trans (and_congr_right fun _ => List.forall_mem_singleton)

@[simp] lemma typed_loop {l : Label} : (loop l v).Typed Γ ↔ v.ty = .void ∧ v.Typed Γ :=
  typed_iff.trans (and_congr_right fun _ => List.forall_mem_singleton)

@[simp] lemma typed_drop : (drop v).Typed Γ ↔ v.ty ≠ .void ∧ v.Typed Γ :=
  typed_iff.trans (and_congr_right fun _ => List.forall_mem_singleton)

@[simp] lemma typed_arrayLen : (arrayLen v).Typed Γ ↔ (∃ k, v.ty = .array k) ∧ v.Typed Γ :=
  typed_iff.trans (and_congr_right fun _ => List.forall_mem_singleton)

lemma forall_mem_pair {p : Node → Prop} : (∀ m ∈ [a, b], p m) ↔ p a ∧ p b := by simp

lemma forall_mem_triple {p : Node → Prop} : (∀ m ∈ [a, b, c], p m) ↔ p a ∧ p b ∧ p c := by simp

@[simp] lemma typed_binary {op : BinaryOp} :
    (binary op a b).Typed Γ ↔
      (a.ty = .num op.operandKind ∧ b.ty = .num op.operandKind) ∧ a.Typed Γ ∧ b.Typed Γ :=
  typed_iff.trans (and_congr_right fun _ => forall_mem_pair)

@[simp] lemma typed_arrayNew {k : NumKind} :
    (arrayNew k a b).Typed Γ ↔ (a.ty = .num k ∧ b.ty = .i32) ∧ a.Typed Γ ∧ b.Typed Γ :=
  typed_iff.trans (and_congr_right fun _ => forall_mem_pair)

@[simp] lemma typed_arrayGet {k : NumKind} :
    (arrayGet k a b).Typed Γ ↔ (a.ty = .array k ∧ b.ty = .i32) ∧ a.Typed Γ ∧ b.Typed Γ :=
  typed_iff.trans (and_congr_right fun _ => forall_mem_pair)

@[simp] lemma typed_select :
    (select c a b).Typed Γ ↔
      (c.ty = .i32 ∧ a.ty = b.ty ∧ a.ty ≠ .void) ∧ c.Typed Γ ∧ a.Typed Γ ∧ b.Typed Γ :=
  typed_iff.trans (and_congr_right fun _ => forall_mem_triple)

@[simp] lemma typed_arraySet {k : NumKind} :
    (arraySet k a b c).Typed Γ ↔
      (a.ty = .array k ∧ b.ty = .i32 ∧ c.ty = .num k) ∧ a.Typed Γ ∧ b.Typed Γ ∧ c.Typed Γ :=
  typed_iff.trans (and_congr_right fun _ => forall_mem_triple)

@[simp] lemma typed_block {l : Option Label} {body : List Node} {t : Ty} :
    (block l body t).Typed Γ ↔ Ends t body ∧ ∀ n ∈ body, n.Typed Γ :=
  typed_iff

@[simp] lemma typed_call {f : String} {args : List Node} {t : Ty} :
    (call f args t).Typed Γ ↔
      Γ.signature? f = some ⟨args.map ty, t⟩ ∧ ∀ n ∈ args, n.Typed Γ :=
  typed_iff

@[simp] lemma typed_arrayNewFixed {k : NumKind} {ns : List Node} :
    (arrayNewFixed k ns).Typed Γ ↔ (∀ n ∈ ns, n.ty = .num k) ∧ ∀ n ∈ ns, n.Typed Γ :=
  typed_iff

@[simp] lemma typed_ifElse_none :
    (ifElse c a none).Typed Γ ↔ (c.ty = .i32 ∧ a.ty = .void) ∧ c.Typed Γ ∧ a.Typed Γ :=
  typed_iff.trans (and_congr (by simp [Fits]) forall_mem_pair)

@[simp] lemma typed_ifElse_some :
    (ifElse c a (some b)).Typed Γ ↔ (c.ty = .i32 ∧ a.ty = .void ∧ b.ty = .void) ∧
      c.Typed Γ ∧ a.Typed Γ ∧ b.Typed Γ :=
  typed_iff.trans (and_congr (by simp [Fits]) forall_mem_triple)

@[simp] lemma typed_ret_none : (ret none).Typed Γ ↔ Γ.result = .void :=
  typed_leaf rfl

@[simp] lemma typed_ret_some :
    (ret (some v)).Typed Γ ↔ (Γ.result ≠ .void ∧ v.ty = Γ.result) ∧ v.Typed Γ :=
  typed_iff.trans (and_congr_right fun _ => List.forall_mem_singleton)

end

end Node

namespace Function

/-- What the nodes of a function may refer to, in a module with these globals. -/
def scope (f : Function) (globals : List Global) (signature? : String → Option FuncSig) :
    Scope where
  slots := f.params ++ f.locals
  globals
  signature?
  result := f.result

/-- All nodes of the function fit, and those at the top leave no value. -/
def Typed (f : Function) (globals : List Global) (signature? : String → Option FuncSig) : Prop :=
  (∀ n ∈ f.subnodes, n.Fits (f.scope globals signature?)) ∧ ∀ n ∈ f.body, n.ty = .void

lemma Typed.mono {f : Function} {globals globals' : List Global}
    {signature? : String → Option FuncSig} (h : globals <+: globals')
    (hf : f.Typed globals signature?) : f.Typed globals' signature? := by
  have hle : (f.scope globals signature?).Le (f.scope globals' signature?) :=
    ⟨List.prefix_rfl, h, rfl, rfl⟩
  exact ⟨fun n hn => (hf.1 n hn).mono hle, hf.2⟩

end Function

end AnnotatedWasm.Ir
