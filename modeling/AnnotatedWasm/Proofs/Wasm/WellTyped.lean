import AnnotatedWasm.Proofs.Ir.Typing
import AnnotatedWasm.Proofs.Wasm.Emission

/-!
Well-typed intermediate code becomes well-typed WebAssembly code.

The code that is emitted for a node leaves on the stack just the value of the node's type, in every
context that suits the scope of the node. The body of a function is put together from this.
-/

namespace AnnotatedWasm

/-! ### Branches -/

namespace Ir

/-- The constructs around a place, the innermost first, with the types of the values they leave;
a loop, and an arm of a conditional, leaves none. -/
abbrev Enclosing := List (Option Label × Ty)

/-- The innermost construct with this label is there and leaves no value. -/
def Enclosing.Reaches (env : Enclosing) (l : Label) : Prop :=
  ∃ c, env.find? (·.1 = some l) = some c ∧ c.2 = .void

namespace Node

mutual

/-- Every branch reaches a loop or a block without a value. -/
def BranchesIn (env : Enclosing) : Node → Prop
  | br l => env.Reaches l
  | brIf l c => env.Reaches l ∧ c.BranchesIn env
  | block l body t => BranchAllIn ((l, t) :: env) body
  | loop l body => body.BranchesIn ((some l, .void) :: env)
  | ifElse c a e =>
    c.BranchesIn env ∧ a.BranchesIn ((none, .void) :: env) ∧ BranchOptIn ((none, .void) :: env) e
  | nop | unreachable | const _ | string _ | localGet _ _ | globalGet _ _ => True
  | localSet _ v | globalSet _ v | unary _ v | drop v | arrayLen v => v.BranchesIn env
  | binary _ a b | arrayNew _ a b | arrayGet _ a b => a.BranchesIn env ∧ b.BranchesIn env
  | select a b c | arraySet _ a b c => a.BranchesIn env ∧ b.BranchesIn env ∧ c.BranchesIn env
  | call _ ns _ | arrayNewFixed _ ns => BranchAllIn env ns
  | ret v => BranchOptIn env v

def BranchAllIn (env : Enclosing) : List Node → Prop
  | [] => True
  | n :: ns => n.BranchesIn env ∧ BranchAllIn env ns

def BranchOptIn (env : Enclosing) : Option Node → Prop
  | none => True
  | some n => n.BranchesIn env

end

lemma branchAllIn_iff {E : Enclosing} {ns : List Node} :
    BranchAllIn E ns ↔ ∀ n ∈ ns, n.BranchesIn E := by
  induction ns with
  | nil => simp [BranchAllIn]
  | cons n ns ih => simp [BranchAllIn, ih]

/-- A global that is set is mutable. -/
def SetsMutable (globals : List Global) : Node → Prop
  | globalSet g _ => ∀ x, globals.find? (·.name = g) = some x → x.isMutable
  | _ => True

end Node

/-- The function is well typed, its slots have values, and its branches reach their targets. A
function without a result has nothing left on the stack. -/
structure Function.Encodable (f : Function) (globals : List Global)
    (signature? : String → Option FuncSig) : Prop where
  typed : ∀ n ∈ f.subnodes, n.Fits (f.scope globals signature?)
  ends : f.result = .void → ∀ n ∈ f.body, n.ty = .void
  params : ∀ t ∈ f.params, t ≠ .void
  locals : ∀ t ∈ f.locals, t ≠ .void
  branches : Node.BranchAllIn [] f.body

/-- The signature of the function with a name. -/
def Module.signature? (m : Module) (name : String) : Option FuncSig :=
  (m.function? name).map fun f => ⟨f.params, f.result⟩

structure Module.Encodable (m : Module) : Prop where
  functions : ∀ f ∈ m.functions, f.Encodable m.globals m.signature?
  functionNames : (m.functions.map (·.name)).Nodup
  globalNames : (m.globals.map (·.name)).Nodup

/-- Only mutable globals are set. -/
def Module.SetsMutable (m : Module) : Prop :=
  ∀ f ∈ m.functions, ∀ n ∈ f.subnodes, n.SetsMutable m.globals

end Ir

namespace Wasm

open Ir (Node Scope Enclosing)

/-- A label stands as deep as the construct it reaches. -/
lemma idxOf?_of_find? {env : Enclosing} {l : Ir.Label} {c : Option Ir.Label × Ty}
    (h : env.find? (·.1 = some l) = some c) :
    ∃ d, (env.map (·.1)).idxOf? (some l) = some d ∧ env[d]? = some c := by
  induction env with
  | nil => cases h
  | cons e env ih =>
    rw [List.find?_cons] at h
    rw [List.map_cons, List.idxOf?_cons]
    by_cases he : e.1 = some l
    · simp only [he, decide_true] at h
      cases h
      exact ⟨0, by simp [he], rfl⟩
    · simp only [he, decide_false] at h
      obtain ⟨d, hd, hc⟩ := ih h
      exact ⟨d + 1, by simp [he, hd], hc⟩

/-- A branch that reaches its target has the depth of a construct without a value. -/
lemma depth_of_reaches {env : Enclosing} {l : Ir.Label} {d : Nat} (h : env.Reaches l)
    (hd : (env.map (·.1)).idxOf? (some l) = some d) : ∃ c, env[d]? = some c ∧ c.2 = .void := by
  obtain ⟨c, hc, hvoid⟩ := h
  obtain ⟨e, he, hget⟩ := idxOf?_of_find? hc
  obtain rfl : e = d := Option.some.inj (he.symm.trans hd)
  exact ⟨c, hget, hvoid⟩

/-! ### Contexts -/

/-- What the scope says is true of the indices of the context, once the pool is this one. -/
structure Context.Suits (C : Context) (Γ : Scope) (S : Symbols) (strict : Bool) (env : Enclosing)
    (r : Pool) : Prop where
  strict : C.strict = strict
  types : C.types = r.types.entries
  segments : C.segments = r.data.length
  locals : ∀ (i : Nat) t, Γ.slots[i]? = some t →
    Entered C.types t ∧ ∃ v, valuesOf C.types t = [v] ∧ C.locals[i]? = some v
  globals : ∀ name x i, Γ.globals.find? (·.name = name) = some x →
    lastIndexOf? name S.globals = some i → C.globals[i]? = some ⟨x.kind, x.isMutable, x.init⟩
  functions : ∀ name sig i, Γ.signature? name = some sig → lastIndexOf? name S.functions = some i →
    Entered C.types sig.returns ∧ ∃ j, C.functions[i]? = some j ∧
      C.types[j]? =
        some (.func (sig.params.flatMap (valuesOf C.types)) (valuesOf C.types sig.returns))
  labels : env.map (fun c => valuesOf C.types c.2) <+: C.labels
  result : C.result = valuesOf C.types Γ.result

variable {Γ : Scope} {S : Symbols} {strict : Bool} {env : Enclosing} {C : Context} {r : Pool}

namespace Context.Suits

lemma enter (h : C.Suits Γ S strict env r) (l : Option Ir.Label) (t : Ty) :
    (C.enter (valuesOf C.types t)).Suits Γ S strict ((l, t) :: env) r where
  strict := h.strict
  types := h.types
  segments := h.segments
  locals := h.locals
  globals := h.globals
  functions := h.functions
  labels := (List.prefix_cons_inj _).mpr h.labels
  result := h.result

lemma label (h : C.Suits Γ S strict env r) {l : Ir.Label} {d : Nat} (hl : env.Reaches l)
    (hd : (env.map (·.1)).idxOf? (some l) = some d) : C.labels[d]? = some [] := by
  obtain ⟨c, hget, hvoid⟩ := depth_of_reaches hl hd
  obtain ⟨rest, hrest⟩ := h.labels
  have hmap : (env.map fun c => valuesOf C.types c.2)[d]? = some [] := by
    simp [hget, hvoid, valuesOf]
  rw [← hrest, List.getElem?_append_left (List.getElem?_eq_some_iff.mp hmap).1, hmap]

end Context.Suits

/-! ### Nodes -/

/-- The node fits, and if need be it sets only what is mutable. -/
def Checks (Γ : Scope) (strict : Bool) (n : Node) : Prop :=
  n.Fits Γ ∧ (strict → n.SetsMutable Γ.globals)

/-- All nodes of a tree pass, and all branches in it reach their targets. -/
structure ChecksAll (Γ : Scope) (strict : Bool) (env : Enclosing) (n : Node) : Prop where
  nodes : ∀ m ∈ n.subnodes, Checks Γ strict m
  branches : n.BranchesIn env

namespace ChecksAll

variable {n m : Node}

lemma self (h : ChecksAll Γ strict env n) : Checks Γ strict n :=
  h.nodes n (by rw [Node.subnodes_eq]; exact List.mem_cons_self)

lemma child {env' : Enclosing} (h : ChecksAll Γ strict env n) (hm : m ∈ n.children)
    (hb : m.BranchesIn env') : ChecksAll Γ strict env' m := by
  refine ⟨fun x hx => h.nodes x ?_, hb⟩
  rw [Node.subnodes_eq]
  exact List.mem_cons_of_mem _ (List.mem_flatMap.mpr ⟨m, hm, hx⟩)

lemma operands {T : List TypeDef} {L : Labels} {ops : List Node} {i : Instr}
    (h : ChecksAll Γ strict env n) (hn : Applies S T L n ops i) :
    ∀ m ∈ ops, ChecksAll Γ strict env m := by
  intro m hm
  have hb := h.branches
  have hmem : m ∈ n.children ∧ m.BranchesIn env := by
    cases hn <;> grind [Node.children, Node.BranchesIn, Node.BranchOptIn, Node.branchAllIn_iff]
  exact h.child hmem.1 hmem.2

end ChecksAll

/-- In every context that suits the scope the code leaves the values of the nodes. -/
def Pushes (Γ : Scope) (S : Symbols) (strict : Bool) (env : Enclosing) (ns : List Node) (r : Pool)
    (is : List Instr) : Prop :=
  ∀ C : Context, C.Suits Γ S strict env r →
    SeqHasType C is [] (ns.flatMap fun n => valuesOf C.types n.ty) ∧ ∀ n ∈ ns, Entered C.types n.ty

/-- A construct without a value may be around code that leaves none. -/
lemma Pushes.arm {l : Option Ir.Label} {n : Node} {is : List Instr}
    (h : Pushes Γ S strict ((l, .void) :: env) [n] r is) (hty : n.ty = .void)
    (hC : C.Suits Γ S strict env r) : SeqHasType (C.enter []) is [] [] := by
  have hseq := (h _ (hC.enter l .void)).1
  rwa [List.flatMap_singleton, hty] at hseq

lemma Pushes.test {n : Node} {is : List Instr} (h : Pushes Γ S strict env [n] r is)
    (hty : n.ty = .i32) (hC : C.Suits Γ S strict env r) : SeqHasType C is [] [.num .i32] := by
  have hseq := (h C hC).1
  rwa [List.flatMap_singleton, hty] at hseq

/-- Every type but one has a value. -/
lemma valuesOf_of_ne_void (T : List TypeDef) {t : Ty} (h : t ≠ .void) :
    ∃ v, valuesOf T t = [v] := by
  cases t with
  | void => exact (h rfl).elim
  | num _ | array _ | str => exact ⟨_, rfl⟩

/-- The nodes of a block leave the value of its last one. -/
lemma flatMap_of_ends (T : List TypeDef) {t : Ty} {ns : List Node} (h : Node.Ends t ns) :
    (ns.flatMap fun n => valuesOf T n.ty) = valuesOf T t := by
  induction ns with
  | nil => cases h; rfl
  | cons n ns ih =>
    rcases ns with _ | ⟨m, ns⟩
    · cases h
      simp
    · rw [List.flatMap_cons, h.1, ih h.2]
      rfl

lemma flatMap_of_all_num (T : List TypeDef) {k : NumKind} {ns : List Node}
    (h : ∀ n ∈ ns, n.ty = .num k) :
    (ns.flatMap fun n => valuesOf T n.ty) = List.replicate ns.length (.num k) := by
  induction ns with
  | nil => rfl
  | cons n ns ih =>
    obtain ⟨hn, hns⟩ := List.forall_mem_cons.mp h
    rw [List.flatMap_cons, hn, ih hns, List.length_cons, List.replicate_succ]
    rfl

/-- The instruction after the operands takes their values and leaves that of the node. -/
lemma Applies.hasType {n : Node} {ops : List Node} {i : Instr}
    (h : Applies S C.types (env.map (·.1)) n ops i) (hC : C.Suits Γ S strict env r)
    (hn : ChecksAll Γ strict env n) (hent : ∀ m ∈ ops, Entered C.types m.ty) :
    HasType C i (ops.flatMap fun m => valuesOf C.types m.ty) (valuesOf C.types n.ty) ∧
      Entered C.types n.ty := by
  have hfits := hn.self.1
  have hb := hn.branches
  cases h with
  | nop => exact ⟨.nop, entered_of_not_reference rfl⟩
  | unreachable => exact ⟨.unreachable, entered_of_not_reference rfl⟩
  | const => exact ⟨.const, entered_of_not_reference rfl⟩
  | @localGet i t =>
    obtain ⟨ht, v, hv, hl⟩ := hC.locals i t hfits
    rw [Node.ty, hv]
    exact ⟨.localGet hl, ht⟩
  | @localSet i v =>
    obtain ⟨-, t, ht, hl⟩ := hC.locals i v.ty hfits
    rw [List.flatMap_singleton, ht]
    exact ⟨.localSet hl, entered_of_not_reference rfl⟩
  | @globalGet g _ i hi =>
    obtain ⟨x, hx, rfl⟩ := Option.map_eq_some_iff.mp hfits
    exact ⟨.globalGet (hC.globals g x i hx hi), entered_of_not_reference rfl⟩
  | @globalSet g _ i hi =>
    obtain ⟨x, hx, hty⟩ := Option.map_eq_some_iff.mp hfits
    rw [List.flatMap_singleton, ← hty]
    exact ⟨.globalSet (hC.globals g x i hx hi) fun hs => hn.self.2 (by rwa [← hC.strict]) x hx,
      entered_of_not_reference rfl⟩
  | unary =>
    rw [List.flatMap_singleton, show Node.ty _ = _ from hfits]
    exact ⟨.unary, entered_of_not_reference rfl⟩
  | binary =>
    rw [List.flatMap_cons, List.flatMap_singleton, hfits.1, hfits.2]
    exact ⟨.binary, entered_of_not_reference rfl⟩
  | @select c a b i hi =>
    obtain ⟨hc, hab, hv⟩ := hfits
    refine ⟨?_, hent a List.mem_cons_self⟩
    simp only [List.flatMap_cons, List.flatMap_nil, ← hab, hc, Node.ty]
    cases hi with
    | typed hvalue hvalid =>
      rw [hvalue]
      exact .selectTyped (hvalid _ (hvalue ▸ List.mem_singleton_self _))
    | plain hplain =>
      cases hty : a.ty with
      | num k => exact .select
      | void => exact absurd hty hv
      | array _ | str => rw [hty] at hplain; cases hplain
  | @br l d hd =>
    refine ⟨?_, entered_of_not_reference rfl⟩
    show HasType C (.br d) ([] ++ []) []
    exact .br (hC.label hb hd)
  | brIf hd =>
    rw [List.flatMap_singleton, show Node.ty _ = _ from hfits]
    exact ⟨.brIf (hC.label hb.1 hd), entered_of_not_reference rfl⟩
  | @call f args t i hi =>
    obtain ⟨hret, j, hj, hty⟩ := hC.functions f _ i hfits hi
    rw [List.flatMap_map] at hty
    exact ⟨.call hj hty, hret⟩
  | retNone =>
    have hret : HasType C .ret ([] ++ C.result) [] := .ret
    rw [hC.result, show Γ.result = .void from hfits] at hret
    exact ⟨hret, entered_of_not_reference rfl⟩
  | ret =>
    have hret : HasType C .ret ([] ++ C.result) [] := .ret
    rw [hC.result, ← hfits.2] at hret
    exact ⟨by simpa [Node.ty, valuesOf] using hret, entered_of_not_reference rfl⟩
  | drop =>
    obtain ⟨t, ht⟩ := valuesOf_of_ne_void C.types hfits
    rw [List.flatMap_singleton, ht]
    exact ⟨.drop, entered_of_not_reference rfl⟩
  | arrayNew ht =>
    simp only [List.flatMap_cons, List.flatMap_nil, hfits.1, hfits.2, Node.ty, Entered, valuesOf,
      ht.1, List.forall_mem_singleton]
    exact ⟨.arrayNew ht.2, _, ht.2⟩
  | arrayNewFixed ht =>
    rw [flatMap_of_all_num _ hfits]
    simp only [Node.ty, Entered, valuesOf, ht.1, List.forall_mem_singleton]
    exact ⟨.arrayNewFixed ht.2, _, ht.2⟩
  | arrayGet ht =>
    simp only [List.flatMap_cons, List.flatMap_nil, hfits.1, hfits.2, valuesOf, ht.1]
    exact ⟨.arrayGet ht.2, entered_of_not_reference rfl⟩
  | arraySet ht =>
    simp only [List.flatMap_cons, List.flatMap_nil, hfits.1, hfits.2.1, hfits.2.2, valuesOf, ht.1]
    exact ⟨.arraySet ht.2, entered_of_not_reference rfl⟩
  | arrayLen =>
    obtain ⟨k, hk⟩ := hfits
    obtain ⟨s, hs⟩ := hent _ List.mem_cons_self _ (by rw [hk]; exact List.mem_cons_self)
    rw [List.flatMap_singleton, hk]
    exact ⟨.arrayLen hs, entered_of_not_reference rfl⟩

mutual

/-- **Nodes**: the code of a node leaves a value of its type. -/
lemma Emits.pushes {k : Nat} {L : Labels} {n : Node} {is : List Instr} : Emits S r k L n is →
    ∀ {env}, L = env.map (·.1) → ChecksAll Γ strict env n → Pushes Γ S strict env [n] r is
  | .applies hn hops, env, hL, h => by
    intro C hC
    obtain ⟨hseq, hent⟩ := hops.pushes hL (h.operands hn) C hC
    rw [hL, ← hC.types] at hn
    obtain ⟨hty, ht⟩ := hn.hasType hC h hent
    exact ⟨hseq.snoc (by rwa [List.flatMap_singleton]), List.forall_mem_singleton.mpr ht⟩
  | .string ht hdata, env, hL, h => by
    intro C hC
    rw [← hC.types] at ht
    have hlt := (List.getElem?_eq_some_iff.mp hdata).1
    rw [← hC.segments] at hlt
    simp only [List.flatMap_singleton, Node.ty, List.forall_mem_singleton, Entered, valuesOf, ht.1]
    exact ⟨(HasType.const.seq.both HasType.const.seq).snoc (.arrayNewData ht.2 hlt), _, ht.2⟩
  | @Emits.block _ _ k L l body t v is hv hent hbody, env, hL, h => by
    intro C hC
    rw [← hC.types] at hv hent
    have hops : ∀ m ∈ body, ChecksAll Γ strict ((l, t) :: env) m :=
      fun m hm => h.child hm (Node.branchAllIn_iff.mp h.branches m hm)
    have hseq : SeqHasType (C.enter (valuesOf C.types t)) is [] (valuesOf C.types t) :=
      flatMap_of_ends C.types h.self.1 ▸ (hbody.pushes (by rw [hL]; rfl) hops _ (hC.enter l t)).1
    simp only [List.flatMap_singleton, List.forall_mem_singleton, Node.ty]
    refine ⟨?_, hent⟩
    rw [← hv] at hseq ⊢
    exact (HasType.block (fun u hu => hent u (hv ▸ by simpa using hu)) hseq).seq
  | .loop hbody, env, hL, h => by
    have hpushes := hbody.pushes (by rw [hL]; rfl) (h.child (by simp [Node.children]) h.branches)
    exact fun C hC => ⟨(HasType.loop (hpushes.arm h.self.1 hC)).seq,
      List.forall_mem_singleton.mpr (entered_of_not_reference rfl)⟩
  | .ifThen hc ha, env, hL, h => by
    obtain ⟨htest, harm, -⟩ := h.self.1
    have hpc := hc.pushes hL (h.child (by simp [Node.children]) h.branches.1)
    have hpa := ha.pushes (by rw [hL]; rfl) (h.child (by simp [Node.children]) h.branches.2.1)
    exact fun C hC => ⟨(hpc.test htest hC).snoc (.ifThen (hpa.arm harm hC)),
      List.forall_mem_singleton.mpr (entered_of_not_reference rfl)⟩
  | @Emits.ifElse _ _ _ _ _ _ e _ _ _ hc ha he, env, hL, h => by
    obtain ⟨htest, harm, harm'⟩ := h.self.1
    have hpc := hc.pushes hL (h.child (by simp [Node.children]) h.branches.1)
    have hpa := ha.pushes (by rw [hL]; rfl) (h.child (by simp [Node.children]) h.branches.2.1)
    have hpe := he.pushes (by rw [hL]; rfl) (h.child (by simp [Node.children]) h.branches.2.2)
    exact fun C hC => ⟨(hpc.test htest hC).snoc
        (.ifElse (hpa.arm harm hC) (hpe.arm (harm' e rfl) hC)),
      List.forall_mem_singleton.mpr (entered_of_not_reference rfl)⟩

lemma EmitsAll.pushes {k : Nat} {L : Labels} {ns : List Node} {is : List Instr} :
    EmitsAll S r k L ns is → ∀ {env}, L = env.map (·.1) → (∀ n ∈ ns, ChecksAll Γ strict env n) →
      Pushes Γ S strict env ns r is
  | .nil, _, _, _ => fun _ _ => ⟨.nil, nofun⟩
  | .cons hn hns, env, hL, h => by
    intro C hC
    obtain ⟨hfirst, hrest⟩ := List.forall_mem_cons.mp h
    obtain ⟨hseq, hent⟩ := hn.pushes hL hfirst C hC
    obtain ⟨hseq', hent'⟩ := hns.pushes hL hrest C hC
    rw [List.flatMap_singleton] at hseq
    exact ⟨hseq.both hseq', List.forall_mem_cons.mpr ⟨hent _ List.mem_cons_self, hent'⟩⟩

end


/-! ### Functions -/

lemma checksAll_body {f : Ir.Function} {globals : List Ir.Global}
    {signature? : String → Option FuncSig} (h : f.Encodable globals signature?)
    (hset : strict → ∀ n ∈ f.subnodes, n.SetsMutable globals) :
    ∀ n ∈ f.body, ChecksAll (f.scope globals signature?) strict [] n := by
  refine fun n hn => ⟨fun m hm => ?_, Node.branchAllIn_iff.mp h.branches n hn⟩
  have hmem : m ∈ f.subnodes := by
    rw [Ir.Function.subnodes, Node.subnodesAll_eq]
    exact List.mem_flatMap.mpr ⟨n, hn, hm⟩
  exact ⟨h.typed m hmem, fun hs => hset hs m hmem⟩

/-- What is emitted for a function: its locals, and a body that leaves its result. -/
structure FunctionCode (Γ : Scope) (S : Symbols) (strict : Bool) (f : Ir.Function) (r : Pool)
    (code : Code) : Prop where
  locals : expand code.locals = f.locals.flatMap (valuesOf r.types.entries)
  entered : ∀ t ∈ f.locals, Entered r.types.entries t
  body : ∀ C : Context, C.Suits Γ S strict [] r →
    SeqHasType C code.body [] (valuesOf C.types f.result)

end Wasm

end AnnotatedWasm
