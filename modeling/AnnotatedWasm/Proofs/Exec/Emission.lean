import AnnotatedWasm.Proofs.Exec.Simulation

/-!
Emitted code does what the nodes do that it is emitted for.

The code of a node runs on any stack and leaves the value of the node on top of it. Most nodes
evaluate their operands and then make one step, as their code does (`applies_performs`).
-/

namespace AnnotatedWasm.Exec

open Ir (Node Scope Label Enclosing)
open Wasm (Instr Stack StackCode Symbols Pool ChecksAll Applies Emits EmitsAll)

/-- The two machines on which a node and its code run. -/
structure Twins where
  module : Wasm.Module
  arithmetic : Arithmetic
  fuel : Nat
  byName : Calls String
  byIndex : Calls Nat

namespace Twins

variable (K : Twins)

def node (n : Node) : Routine Label Datum String (Option Datum) :=
  n.exec K.arithmetic K.byName K.fuel

def code (is : List Instr) (st : Stack) : StackCode Stack :=
  Wasm.execAll K.module K.arithmetic K.byIndex K.fuel is st

def instr (i : Instr) (st : Stack) : StackCode Stack :=
  i.exec K.module K.arithmetic K.byIndex K.fuel st

@[simp] lemma code_nil (st : Stack) : K.code [] st = pure st := by
  rw [code, Wasm.execAll]

lemma code_cons (i : Instr) (is : List Instr) (st : Stack) :
    K.code (i :: is) st = K.instr i st >>= K.code is := by
  rw [code, Wasm.execAll]
  rfl

lemma code_append (is js : List Instr) (st : Stack) :
    K.code (is ++ js) st = K.code is st >>= K.code js := by
  induction is generalizing st with
  | nil => rw [code_nil, pure_bind, List.nil_append]
  | cons i is ih =>
    rw [List.cons_append, code_cons, code_cons, bind_assoc]
    exact bind_congr ih

lemma code_single (i : Instr) (st : Stack) : K.code [i] st = K.instr i st := by
  rw [code_cons]
  exact (bind_congr K.code_nil).trans (bind_pure _)

lemma code_snoc (is : List Instr) (i : Instr) (st : Stack) :
    K.code (is ++ [i]) st = K.code is st >>= K.instr i := by
  rw [code_append]
  exact bind_congr (K.code_single i)

/-- The tables of the module are those of the pool, and functions that a node may call do the same
on both machines. -/
structure Suits (Γ : Scope) (S : Symbols) (r : Pool) : Prop where
  types : K.module.types = r.types.entries
  data : K.module.data = r.data
  names : S.globals.Nodup
  functions : ∀ name sig i, Γ.signature? name = some sig →
    Wasm.lastIndexOf? name S.functions = some i →
      (∀ t ∈ sig.params, t ≠ .void) ∧
      (∃ ps rs, K.module.funcType? i = some (ps, rs) ∧ ps.length = sig.params.length) ∧
      SameCall S.globals sig.params.length sig.returns (K.byName name) (K.byIndex i)

variable {K} {Γ : Scope} {S : Symbols} {r : Pool}

lemma Suits.elementKind (h : K.Suits Γ S r) {k : NumKind} {t : Nat}
    (ht : Wasm.ArrayAt r.types.entries (.num k) t) : K.module.elementKind? t = some k := by
  rw [Wasm.Module.elementKind?, h.types, ht.2]

end Twins

/-- What is on the stack after a value has been left on it. -/
def Adds (t : Ty) (st : Stack) (v : Option Datum) (st' : Stack) : Prop :=
  st' = v.toList ++ st ∧ v.toList.length = arity t

/-- On every two machines that suit, the code does what the node does and leaves its value. -/
def Performs (Γ : Scope) (S : Symbols) (env : Enclosing) (n : Node) (r : Pool) (is : List Instr) :
    Prop :=
  ∀ K : Twins, K.Suits Γ S r → ∀ st,
    Simulates S.globals env Γ.result (Adds n.ty st) (K.node n) (K.code is st)

/-- The code is that of the nodes, one after the other. -/
def PerformsAll (Γ : Scope) (S : Symbols) (env : Enclosing) (ns : List Node) (r : Pool)
    (is : List Instr) : Prop :=
  ∃ parts, is = parts.flatten ∧ List.Forall₂ (fun n is => Performs Γ S env n r is) ns parts

section

variable {Γ : Scope} {S : Symbols} {env : Enclosing} {r : Pool} {n : Node} {is : List Instr}
  {K : Twins} {st : Stack}

/-- The value of an operand is on top of the stack. -/
lemma Performs.operand (h : Performs Γ S env n r is) (hK : K.Suits Γ S r) (hty : n.ty ≠ .void)
    (st : Stack) : Simulates S.globals env Γ.result (fun v st' => st' = v :: st)
      (Node.operand (K.node n)) (K.code is st) := by
  have hbind : Simulates S.globals env Γ.result (fun v st' => st' = v :: st)
      (K.node n >>= fun o => Run.orTrap o) (K.code is st >>= pure) := by
    refine (h K hK st).bind ?_
    rintro v _ ⟨rfl, hv⟩
    rw [arity_of_ne_void hty] at hv
    cases v with
    | none => cases hv
    | some v => exact .pure rfl
  rwa [bind_pure] at hbind

/-- A node without a value leaves the stack as it is. -/
lemma Performs.effect (h : Performs Γ S env n r is) (hK : K.Suits Γ S r) (hty : n.ty = .void)
    (st : Stack) : Simulates S.globals env Γ.result (fun v st' => v = none ∧ st' = st)
      (K.node n) (K.code is st) := by
  refine (h K hK st).mono ?_
  rintro v _ ⟨rfl, hv⟩
  rw [hty] at hv
  cases v with
  | none => exact ⟨rfl, rfl⟩
  | some v => cases hv

/-- An arm of a conditional is a construct without a label and without a value. -/
lemma Performs.arm (h : Performs Γ S ((none, .void) :: env) n r is) (hK : K.Suits Γ S r)
    (hty : n.ty = .void) : Simulates S.globals env Γ.result (fun _ st => st = [])
      (K.node n) (Wasm.leave 0 (K.code is [])) := by
  have hleaves : Simulates S.globals ((none, .void) :: env) Γ.result (Leaves .void)
      (K.node n) (K.code is []) :=
    (h.effect hK hty []).mono (by rintro _ _ ⟨rfl, rfl⟩; exact ⟨rfl, rfl⟩)
  refine Simulates.mono (Simulates.leave hleaves) ?_
  rintro v _ ⟨rfl, hv⟩
  exact List.length_eq_zero_iff.mp hv

/-- The values of arguments are on the stack, the last on top. -/
lemma performs_args {ns : List Node} {parts : List (List Instr)} (hK : K.Suits Γ S r)
    (h : List.Forall₂ (fun n is => Performs Γ S env n r is) ns parts)
    (hty : ∀ n ∈ ns, n.ty ≠ .void) (st : Stack) :
    Simulates S.globals env Γ.result (fun vs st' => st' = vs.reverse ++ st ∧ vs.length = ns.length)
      (Node.execArgs K.arithmetic K.byName K.fuel ns) (K.code parts.flatten st) := by
  induction h generalizing st with
  | nil =>
    rw [Node.execArgs, List.flatten_nil, Twins.code_nil]
    exact .pure ⟨rfl, rfl⟩
  | @cons n is ns parts hn hns ih =>
    obtain ⟨hn', hns'⟩ := List.forall_mem_cons.mp hty
    rw [Node.execArgs, List.flatten_cons, Twins.code_append]
    refine (hn.operand hK hn' st).bind ?_
    rintro v _ rfl
    have hrest : Simulates S.globals env Γ.result
        (fun vs st' => st' = vs.reverse ++ st ∧ vs.length = (n :: ns).length)
        (Node.execArgs K.arithmetic K.byName K.fuel ns >>= fun vs => pure (v :: vs))
        (K.code parts.flatten (v :: st) >>= pure) := by
      refine (ih hns' (v :: st)).bind ?_
      rintro vs _ ⟨rfl, hlen⟩
      exact .pure ⟨by simp, by simp [hlen]⟩
    rwa [bind_pure] at hrest

/-- The nodes of a block leave the value of the last. -/
lemma performs_block {ns : List Node} {parts : List (List Instr)} {t : Ty} (hK : K.Suits Γ S r)
    (h : List.Forall₂ (fun n is => Performs Γ S env n r is) ns parts) (hends : Node.Ends t ns)
    (st : Stack) : Simulates S.globals env Γ.result (Adds t st)
      (Node.execAll K.arithmetic K.byName K.fuel ns) (K.code parts.flatten st) := by
  induction h with
  | nil =>
    cases hends
    rw [Node.execAll, List.flatten_nil, Twins.code_nil]
    exact .pure ⟨rfl, rfl⟩
  | @cons n is ns parts hn hns ih =>
    rw [List.flatten_cons]
    rcases ns with _ | ⟨m, ns⟩
    · cases hns
      cases hends
      rw [Node.execAll, List.flatten_nil, List.append_nil]
      exact hn K hK st
    · rw [Node.execAll, Twins.code_append]
      refine (hn.effect hK hends.1 st).bind ?_
      rintro _ _ ⟨-, rfl⟩
      exact ih hends.2

/-- Nodes whose values nobody asks for. -/
lemma performs_body {ns : List Node} {parts : List (List Instr)} (hK : K.Suits Γ S r)
    (h : List.Forall₂ (fun n is => Performs Γ S env n r is) ns parts) (st : Stack) :
    Simulates S.globals env Γ.result (fun _ _ => True)
      (Node.execAll K.arithmetic K.byName K.fuel ns) (K.code parts.flatten st) := by
  induction h generalizing st with
  | nil =>
    rw [Node.execAll, List.flatten_nil, Twins.code_nil]
    exact .pure trivial
  | @cons n is ns parts hn hns ih =>
    rw [List.flatten_cons]
    rcases ns with _ | ⟨m, ns⟩
    · cases hns
      rw [Node.execAll, List.flatten_nil, List.append_nil]
      exact (hn K hK st).mono fun _ _ _ => trivial
    · rw [Node.execAll, Twins.code_append]
      exact (hn K hK st).bind fun _ st' _ => ih st'

end

/-! ### Instructions on their operands -/

section

variable (K : Twins) (st : Stack) (x y z : Datum)

lemma popTest_cons : Wasm.popTest (x :: st) = Node.holds x >>= fun b => pure (b, st) := by
  simp only [Wasm.popTest, Wasm.pop, Node.holds, pure_bind, bind_assoc]

lemma popMany_reverse (xs : List Datum) :
    Wasm.popMany xs.length (xs.reverse ++ st) = pure (xs, st) := by
  have hle : xs.length ≤ (xs.reverse ++ st).length := by simp
  rw [Wasm.popMany, if_pos hle, List.take_append_of_le_length (by simp),
    List.drop_append_of_le_length (by simp)]
  simp [List.take_of_length_le, List.drop_of_length_le]

lemma instr_select (i : Instr) (hi : i = .select ∨ ∃ t, i = .selectTyped t) :
    K.instr i (z :: y :: x :: st) = Node.holds z >>= fun b => pure ((if b then x else y) :: st) := by
  rcases hi with rfl | ⟨t, rfl⟩ <;>
    simp only [Twins.instr, Instr.exec, popTest_cons, Wasm.pop, pure_bind, bind_assoc]

lemma instr_ifThen (body : List Instr) :
    K.instr (.ifThen body) (x :: st) = Node.holds x >>= fun b => do
      let values ← if b then Wasm.leave 0 (K.code body []) else pure []
      return values ++ st := by
  simp only [Twins.instr, Instr.exec, popTest_cons, pure_bind, bind_assoc]
  rfl

lemma instr_ifElse (a b : List Instr) :
    K.instr (.ifElse a b) (x :: st) = Node.holds x >>= fun c => do
      let values ← if c then Wasm.leave 0 (K.code a []) else Wasm.leave 0 (K.code b [])
      return values ++ st := by
  simp only [Twins.instr, Instr.exec, popTest_cons, pure_bind, bind_assoc]
  rfl

lemma instr_brIf (d : Nat) :
    K.instr (.brIf d) (x :: st) =
      Node.holds x >>= fun b => if b then throw (.jump ⟨d, st⟩) else pure st := by
  simp only [Twins.instr, Instr.exec, popTest_cons, pure_bind, bind_assoc]

end

lemma unsigned_i32 (n : Nat) : (Literal.i32 n).unsigned = n % 2 ^ 32 := by
  show (BitVec.ofInt 32 (n : Int)).toNat = _
  rw [BitVec.ofInt_natCast, BitVec.toNat_ofNat]

/-- A text is copied whole from its segment. -/
lemma addCopied?_text (s : String) :
    Heap.addCopied? s.toUTF8.toList (.num (.i32 0)) (.num (.i32 s.toUTF8.toList.length)) =
      fun h => some (h.add (.ofText s)) := by
  funext h
  have hzero : (Literal.i32 0).unsigned = 0 := rfl
  have hle : 0 + s.toUTF8.toList.length % 2 ^ 32 ≤ s.toUTF8.toList.length := by
    rw [Nat.zero_add]
    exact Nat.mod_le _ _
  simp only [Heap.addCopied?, Datum.num?, Option.bind_eq_bind, Option.bind_some, hzero,
    unsigned_i32, hle, if_true, List.drop_zero, Cells.ofText]
  rfl

/-! ### Nodes -/

variable {Γ : Scope} {S : Symbols} {env : Enclosing} {r : Pool} {K : Twins} {st : Stack}

lemma ne_void_of_num {t : Ty} {k : NumKind} (h : t = .num k) : t ≠ .void := by
  rw [h]
  exact nofun

lemma ne_void_of_array {t : Ty} {k : NumKind} (h : t = .array k) : t ≠ .void := by
  rw [h]
  exact nofun

/-- A step that leaves its result on the stack. -/
lemma Simulates.push {x : Routine Label Datum String Datum} {y : StackCode Datum} {t : Ty}
    (h : Simulates S.globals env Γ.result Eq x y) (ht : t ≠ .void) :
    Simulates S.globals env Γ.result (Adds t st) (do return some (← x)) (do return (← y) :: st) := by
  refine h.bind ?_
  rintro v _ rfl
  exact .pure ⟨rfl, (arity_of_ne_void ht).symm⟩

section

variable {is : List Instr} {i : Instr} {R : Option Datum → Stack → Prop} {a b c : Node}

lemma performs_none {x : Routine Label Datum String (Option Datum)}
    (h : PerformsAll Γ S env [] r is) (hx : Simulates S.globals env Γ.result R x (K.instr i st)) :
    Simulates S.globals env Γ.result R x (K.code (is ++ [i]) st) := by
  obtain ⟨_, rfl, _ | _⟩ := h
  rwa [List.flatten_nil, List.nil_append, Twins.code_single]

lemma performs_one {f : Datum → Routine Label Datum String (Option Datum)} (hK : K.Suits Γ S r)
    (h : PerformsAll Γ S env [a] r is) (ha : a.ty ≠ .void)
    (hf : ∀ x, Simulates S.globals env Γ.result R (f x) (K.instr i (x :: st))) :
    Simulates S.globals env Γ.result R (Node.operand (K.node a) >>= f) (K.code (is ++ [i]) st) := by
  obtain ⟨_, rfl, _ | ⟨hpa, _ | _⟩⟩ := h
  rw [List.flatten_cons, List.flatten_nil, List.append_nil, Twins.code_snoc]
  refine (hpa.operand hK ha st).bind ?_
  rintro x _ rfl
  exact hf x

lemma performs_two {f : Datum → Datum → Routine Label Datum String (Option Datum)}
    (hK : K.Suits Γ S r) (h : PerformsAll Γ S env [a, b] r is) (ha : a.ty ≠ .void)
    (hb : b.ty ≠ .void)
    (hf : ∀ x y, Simulates S.globals env Γ.result R (f x y) (K.instr i (y :: x :: st))) :
    Simulates S.globals env Γ.result R
      (do f (← Node.operand (K.node a)) (← Node.operand (K.node b))) (K.code (is ++ [i]) st) := by
  obtain ⟨_, rfl, _ | ⟨hpa, hrest⟩⟩ := h
  rw [List.flatten_cons, List.append_assoc, Twins.code_append]
  refine (hpa.operand hK ha st).bind ?_
  rintro x _ rfl
  exact performs_one hK ⟨_, rfl, hrest⟩ hb (hf x)

lemma performs_three {f : Datum → Datum → Datum → Routine Label Datum String (Option Datum)}
    (hK : K.Suits Γ S r) (h : PerformsAll Γ S env [a, b, c] r is) (ha : a.ty ≠ .void)
    (hb : b.ty ≠ .void) (hc : c.ty ≠ .void)
    (hf : ∀ x y z, Simulates S.globals env Γ.result R (f x y z) (K.instr i (z :: y :: x :: st))) :
    Simulates S.globals env Γ.result R
      (do f (← Node.operand (K.node a)) (← Node.operand (K.node b)) (← Node.operand (K.node c)))
      (K.code (is ++ [i]) st) := by
  obtain ⟨_, rfl, _ | ⟨hpa, hrest⟩⟩ := h
  rw [List.flatten_cons, List.append_assoc, Twins.code_append]
  refine (hpa.operand hK ha st).bind ?_
  rintro x _ rfl
  exact performs_two hK ⟨_, rfl, hrest⟩ hb hc (hf x)

end

/-- Operands, and then the instruction of the node. -/
lemma applies_performs {n : Node} {ops : List Node} {is : List Instr} {i : Instr}
    (h : Applies S r.types.entries (env.map (·.1)) n ops i) (hn : ChecksAll Γ false env n)
    (hslots : ∀ t ∈ Γ.slots, t ≠ .void) (hops : PerformsAll Γ S env ops r is) :
    Performs Γ S env n r (is ++ [i]) := by
  intro K hK st
  have hfits := hn.self.1
  have hb := hn.branches
  rw [Twins.node]
  cases h with
  | nop | const =>
    rw [Node.exec]
    refine performs_none hops ?_
    rw [Twins.instr, Instr.exec]
    exact .pure ⟨rfl, rfl⟩
  | unreachable =>
    rw [Node.exec]
    refine performs_none hops ?_
    rw [Twins.instr, Instr.exec]
    exact .stop .trapped
  | @localGet j t =>
    rw [Node.exec]
    refine performs_none hops ?_
    rw [Twins.instr, Instr.exec]
    exact (simulates_getLocal j).push (hslots t (List.mem_of_getElem? hfits))
  | @localSet j v =>
    rw [Node.exec]
    refine performs_one hK hops (hslots v.ty (List.mem_of_getElem? hfits)) fun x => ?_
    rw [Twins.instr, Instr.exec, Wasm.pop, pure_bind]
    exact (simulates_setLocal j x).bind fun _ _ _ => .pure ⟨rfl, rfl⟩
  | @globalGet g t j hi =>
    obtain ⟨x, hx, rfl⟩ := Option.map_eq_some_iff.mp hfits
    rw [Node.exec]
    refine performs_none hops ?_
    rw [Twins.instr, Instr.exec]
    exact (simulates_getGlobal (Wasm.getElem?_of_lastIndexOf? hi)).push (ne_void_of_num rfl)
  | globalSet hi =>
    obtain ⟨x, hx, hty⟩ := Option.map_eq_some_iff.mp hfits
    rw [Node.exec]
    refine performs_one hK hops (ne_void_of_num hty.symm) fun y => ?_
    rw [Twins.instr, Instr.exec, Wasm.pop, pure_bind]
    exact (simulates_setGlobal hK.names (Wasm.getElem?_of_lastIndexOf? hi) y).bind
      fun _ _ _ => .pure ⟨rfl, rfl⟩
  | unary =>
    rw [Node.exec]
    refine performs_one hK hops (ne_void_of_num hfits) fun x => ?_
    rw [Twins.instr, Instr.exec, Wasm.pop, pure_bind]
    exact (simulates_orTrap _).push (ne_void_of_num rfl)
  | binary =>
    rw [Node.exec]
    refine performs_two hK hops (ne_void_of_num hfits.1) (ne_void_of_num hfits.2) fun x y => ?_
    simp only [Twins.instr, Instr.exec, Wasm.pop, pure_bind]
    exact (simulates_orTrap _).push (ne_void_of_num rfl)
  | select hi =>
    obtain ⟨hc, hab, hv⟩ := hfits
    rw [Node.exec]
    refine performs_three hK hops hv (hab ▸ hv) (ne_void_of_num hc) fun x y z => ?_
    rw [instr_select K st x y z i (by cases hi; exacts [.inl rfl, .inr ⟨_, rfl⟩])]
    refine (simulates_holds z).bind ?_
    rintro t _ rfl
    exact .pure ⟨rfl, (arity_of_ne_void hv).symm⟩
  | br hd =>
    obtain ⟨c, hget, hvoid⟩ := Wasm.depth_of_reaches hb hd
    rw [Node.exec]
    refine performs_none hops ?_
    rw [Twins.instr, Instr.exec]
    exact .stop (.jump hd hget hvoid)
  | brIf hd =>
    obtain ⟨c, hget, hvoid⟩ := Wasm.depth_of_reaches hb.1 hd
    rw [Node.exec]
    refine performs_one hK hops (ne_void_of_num hfits) fun x => ?_
    rw [instr_brIf]
    refine (simulates_holds x).bind ?_
    rintro t _ rfl
    cases t
    · exact .pure ⟨rfl, rfl⟩
    · exact .stop (.jump hd hget hvoid)
  | @call f args t j hi =>
    obtain ⟨parts, rfl, hparts⟩ := hops
    obtain ⟨hparams, ⟨ps, rs, htype, hps⟩, hcall⟩ := hK.functions f _ j hfits hi
    have hargs : ∀ n ∈ ops, n.ty ≠ .void := fun n hn => hparams n.ty (List.mem_map_of_mem hn)
    rw [Node.exec, Twins.code_snoc]
    refine (performs_args hK hparts hargs st).bind ?_
    rintro vs _ ⟨rfl, hvs⟩
    have hlen : vs.length = ps.length := by rw [hps, hvs, List.length_map]
    simp only [Twins.instr, Instr.exec, htype, Run.orTrap, pure_bind]
    rw [← hlen, popMany_reverse, pure_bind]
    refine (simulates_invoke hcall (by rw [hlen, hps])).bind ?_
    rintro ws _ ⟨rfl, hws⟩
    refine .pure ?_
    -- at most one value comes back
    have hone : ws.length ≤ 1 := by
      rw [hws, arity]
      split <;> omega
    rcases ws with _ | ⟨v, _ | ⟨w, ws⟩⟩
    · exact ⟨rfl, hws⟩
    · exact ⟨rfl, hws⟩
    · simp at hone
  | retNone =>
    have hres : arity Γ.result = 0 := by rw [show Γ.result = .void from hfits]; rfl
    rw [Node.exec]
    refine performs_none hops ?_
    rw [Twins.instr, Instr.exec]
    exact .stop (.returned (by rw [hres]; rfl) hres.symm)
  | ret =>
    have hres : arity Γ.result = 1 := arity_of_ne_void hfits.1
    rw [Node.exec]
    refine performs_one hK hops (hfits.2 ▸ hfits.1) fun x => ?_
    rw [Twins.instr, Instr.exec]
    exact .stop (.returned (by rw [hres]; rfl) hres.symm)
  | drop =>
    rw [Node.exec]
    refine performs_one hK hops hfits fun x => ?_
    rw [Twins.instr, Instr.exec, Wasm.pop, pure_bind]
    exact .pure ⟨rfl, rfl⟩
  | arrayNew ht =>
    rw [Node.exec]
    refine performs_two hK hops (ne_void_of_num hfits.1) (ne_void_of_num hfits.2) fun x y => ?_
    simp only [Twins.instr, Instr.exec, hK.elementKind ht, Run.orTrap, Wasm.pop, pure_bind]
    exact (simulates_onHeap _).push (ne_void_of_array rfl)
  | arrayNewFixed ht =>
    obtain ⟨parts, rfl, hparts⟩ := hops
    rw [Node.exec, Twins.code_snoc]
    refine (performs_args hK hparts (fun n hn => ne_void_of_num (hfits n hn)) st).bind ?_
    rintro vs _ ⟨rfl, hvs⟩
    simp only [Twins.instr, Instr.exec, hK.elementKind ht, Run.orTrap, pure_bind]
    rw [← hvs, popMany_reverse, pure_bind]
    exact (simulates_onHeap _).push (ne_void_of_array rfl)
  | arrayGet ht =>
    rw [Node.exec]
    refine performs_two hK hops (ne_void_of_array hfits.1) (ne_void_of_num hfits.2) fun x y => ?_
    simp only [Twins.instr, Instr.exec, hK.elementKind ht, Run.orTrap, Wasm.pop, pure_bind]
    exact (simulates_onHeap _).push (ne_void_of_num rfl)
  | arraySet ht =>
    rw [Node.exec]
    refine performs_three hK hops (ne_void_of_array hfits.1) (ne_void_of_num hfits.2.1)
      (ne_void_of_num hfits.2.2) fun x y z => ?_
    simp only [Twins.instr, Instr.exec, hK.elementKind ht, Run.orTrap, Wasm.pop, pure_bind]
    exact (simulates_onHeap _).bind fun _ _ _ => .pure ⟨rfl, rfl⟩
  | arrayLen =>
    obtain ⟨k, hk⟩ := hfits
    rw [Node.exec]
    refine performs_one hK hops (ne_void_of_array hk) fun x => ?_
    rw [Twins.instr, Instr.exec, Wasm.pop, pure_bind]
    exact (simulates_onHeap _).push (ne_void_of_num rfl)

mutual

/-- **Nodes**: the code of a node does what the node does. -/
lemma emits_performs (hslots : ∀ t ∈ Γ.slots, t ≠ .void) {k : Nat} {L : Wasm.Labels} {n : Node}
    {is : List Instr} : Emits S r k L n is → ∀ {env}, L = env.map (·.1) →
      ChecksAll Γ false env n → Performs Γ S env n r is
  | .applies hn hops, env, hL, h => by
    have hoperands := emitsAll_performs hslots hops hL (h.operands hn)
    rw [hL] at hn
    exact applies_performs hn h hslots hoperands
  | .string _ hdata, env, _, _ => by
    intro K hK st
    rw [← hK.data] at hdata
    rw [Twins.node, Node.exec]
    simp only [Twins.code_cons, Twins.instr, Instr.exec, Twins.code_nil, hdata, Run.orTrap,
      Wasm.pop, pure_bind, bind_assoc]
    rw [addCopied?_text]
    exact (simulates_onHeap _).push nofun
  | @Emits.block _ _ k L l body t v is hv _ hbody, env, hL, h => by
    intro K hK st
    have hops : ∀ m ∈ body, ChecksAll Γ false ((l, t) :: env) m :=
      fun m hm => h.child hm (Node.branchAllIn_iff.mp h.branches m hm)
    obtain ⟨parts, rfl, hparts⟩ := emitsAll_performs hslots hbody (by rw [hL]; rfl) hops
    have hlen : v.toList.length = arity t := by
      rw [hv]
      cases t <;> rfl
    have hbody : Simulates S.globals ((l, t) :: env) Γ.result (Leaves t)
        (Node.execAll K.arithmetic K.byName K.fuel body) (K.code parts.flatten []) :=
      (performs_block hK hparts h.self.1 []).mono fun v st' hst => ⟨by simpa using hst.1, hst.2⟩
    have hnode : K.node (.block l body t) =
        labelled l (Node.execAll K.arithmetic K.byName K.fuel body) := by
      cases l <;> rw [Twins.node, Node.exec] <;> rfl
    rw [hnode, Twins.code_single, Twins.instr, Instr.exec, hlen, ← bind_pure (labelled _ _)]
    refine hbody.leave.bind ?_
    rintro x _ ⟨rfl, hx⟩
    exact .pure ⟨rfl, hx⟩
  | @Emits.loop _ _ k L l body is hbody, env, hL, h => by
    intro K hK st
    have hperforms := emits_performs hslots hbody (by rw [hL]; rfl)
      (h.child (by simp [Node.children]) h.branches)
    have hbody : Simulates S.globals ((some l, .void) :: env) Γ.result (Leaves .void)
        (K.node body) (K.code is []) :=
      (hperforms.effect hK h.self.1 []).mono (by rintro _ _ ⟨rfl, rfl⟩; exact ⟨rfl, rfl⟩)
    rw [Twins.node, Node.exec, Twins.code_single, Twins.instr, Instr.exec]
    refine (hbody.repeated K.fuel).bind ?_
    rintro _ _ rfl
    exact .pure ⟨rfl, rfl⟩
  | .ifThen hc ha, env, hL, h => by
    intro K hK st
    obtain ⟨htest, harm, -⟩ := h.self.1
    have hpc := emits_performs hslots hc hL (h.child (by simp [Node.children]) h.branches.1)
    have hpa := emits_performs hslots ha (by rw [hL]; rfl)
      (h.child (by simp [Node.children]) h.branches.2.1)
    rw [Twins.node, Node.exec, Twins.code_snoc]
    refine (hpc.operand hK (ne_void_of_num htest) st).bind ?_
    rintro x _ rfl
    rw [instr_ifThen]
    refine (simulates_holds x).bind ?_
    rintro t _ rfl
    cases t
    · simp only [Bool.false_eq_true, if_false, Node.execElse, pure_bind]
      exact .pure ⟨rfl, rfl⟩
    · exact (hpa.arm hK harm).bind fun _ _ hst => .pure ⟨by rw [hst]; rfl, rfl⟩
  | @Emits.ifElse _ _ _ _ _ _ e _ _ _ hc ha he, env, hL, h => by
    intro K hK st
    obtain ⟨htest, harm, harm'⟩ := h.self.1
    have hpc := emits_performs hslots hc hL (h.child (by simp [Node.children]) h.branches.1)
    have hpa := emits_performs hslots ha (by rw [hL]; rfl)
      (h.child (by simp [Node.children]) h.branches.2.1)
    have hpe := emits_performs hslots he (by rw [hL]; rfl)
      (h.child (by simp [Node.children]) h.branches.2.2)
    rw [Twins.node, Node.exec, Twins.code_snoc]
    refine (hpc.operand hK (ne_void_of_num htest) st).bind ?_
    rintro x _ rfl
    rw [instr_ifElse]
    refine (simulates_holds x).bind ?_
    rintro t _ rfl
    cases t
    · simp only [Bool.false_eq_true, if_false, Node.execElse]
      exact (hpe.arm hK (harm' e rfl)).bind fun _ _ hst => .pure ⟨by rw [hst]; rfl, rfl⟩
    · exact (hpa.arm hK harm).bind fun _ _ hst => .pure ⟨by rw [hst]; rfl, rfl⟩

lemma emitsAll_performs (hslots : ∀ t ∈ Γ.slots, t ≠ .void) {k : Nat} {L : Wasm.Labels}
    {ns : List Node} {is : List Instr} : EmitsAll S r k L ns is → ∀ {env}, L = env.map (·.1) →
      (∀ n ∈ ns, ChecksAll Γ false env n) → PerformsAll Γ S env ns r is
  | .nil, _, _, _ => ⟨[], rfl, .nil⟩
  | .cons hn hns, env, hL, h => by
    obtain ⟨hfirst, hrest⟩ := List.forall_mem_cons.mp h
    obtain ⟨parts, rfl, hparts⟩ := emitsAll_performs hslots hns hL hrest
    exact ⟨_ :: parts, rfl, .cons (emits_performs hslots hn hL hfirst) hparts⟩

end

end AnnotatedWasm.Exec
