import AnnotatedWasm.Proofs.Wasm.Failures

/-!
The calls in a node, in the order in which they are emitted.

Operands come before the call that takes them, and a choice has its condition last. The list has
every call in the node once (`calls_perm`), and the instructions of the node call the same functions
in the same order (`emit_calls`).
-/

namespace AnnotatedWasm

namespace Ir.Node

mutual

/-- The calls in a node, in the order of emission. -/
def calls : Node → List Node
  | nop | unreachable | const _ | string _ | localGet _ _ | globalGet _ _ | br _ => []
  | localSet _ v | globalSet _ v | unary _ v | drop v | arrayLen v | loop _ v | brIf _ v => calls v
  | binary _ a b | arrayNew _ a b | arrayGet _ a b => calls a ++ calls b
  | select c a b => calls a ++ calls b ++ calls c
  | arraySet _ a i v => calls a ++ calls i ++ calls v
  | block _ body _ | arrayNewFixed _ body => callsAll body
  | n@(call _ args _) => callsAll args ++ [n]
  | ifElse c t e => calls c ++ calls t ++ callsOpt e
  | ret v => callsOpt v

def callsAll : List Node → List Node
  | [] => []
  | n :: ns => calls n ++ callsAll ns

def callsOpt : Option Node → List Node
  | none => []
  | some n => calls n

end

lemma callsAll_eq (ns : List Node) : callsAll ns = ns.flatMap calls := by
  induction ns with
  | nil => rfl
  | cons n ns ih => rw [callsAll, ih]; rfl

lemma callsOpt_eq (e : Option Node) : callsOpt e = e.toList.flatMap calls := by
  cases e <;> simp [callsOpt]

/-- The node itself, if it is a call, and the calls right below it. -/
lemma calls_perm_children (n : Node) :
    n.calls.Perm ((if n.callee?.isSome then [n] else []) ++ n.children.flatMap calls) := by
  cases n
  case select c a b =>
    simp only [calls, callee?, children, List.flatMap_cons, List.flatMap_nil, List.append_nil]
    exact List.perm_append_comm
  case call f args t =>
    simp only [calls, callee?, children, callsAll_eq]
    exact List.perm_append_comm
  all_goals simp [calls, callee?, children, callsAll_eq, callsOpt_eq]

/-- The list has each call in the node as often as it occurs. -/
lemma calls_perm (n : Node) : n.calls.Perm (n.subnodes.filter (·.callee?.isSome)) := by
  refine n.calls_perm_children.trans ?_
  have hchildren : (n.children.flatMap calls).Perm
      (n.children.flatMap fun m => m.subnodes.filter (·.callee?.isSome)) :=
    List.Perm.flatMap_left _ fun m hm => calls_perm m
  rw [subnodes_eq, List.filter_cons, List.filter_flatMap]
  split
  · exact hchildren.append_left [n]
  · exact hchildren
termination_by n.subnodes.length
decreasing_by exact length_subnodes_lt hm

end Ir.Node

namespace Wasm

open Ir (Node)

mutual

/-- The functions that an instruction calls, in order. -/
def Instr.calls : Instr → List Nat
  | .call i => [i]
  | .block _ is | .loop is | .ifThen is => Instr.callsAll is
  | .ifElse is js => Instr.callsAll is ++ Instr.callsAll js
  | _ => []

def Instr.callsAll : List Instr → List Nat
  | [] => []
  | i :: is => i.calls ++ Instr.callsAll is

end

lemma Instr.callsAll_append (is js : List Instr) :
    Instr.callsAll (is ++ js) = Instr.callsAll is ++ Instr.callsAll js := by
  induction is with
  | nil => rfl
  | cons i is ih => simp [Instr.callsAll, ih]

/-! ### What holds of the result -/

/-- If the step succeeds then its result has the property. -/
def Ensures {α : Type} (x : Emit α) (Q : α → Prop) : Prop := ∀ p a q, x.run p = .ok (a, q) → Q a

variable {S : Symbols}

/-- The instructions call the functions that these nodes call, in this order. -/
def CallsInOrder (S : Symbols) (ms : List Node) (is : List Instr) : Prop :=
  (Instr.callsAll is).map (S.functions[·]?) = ms.map Node.callee?

namespace CallsInOrder

variable {ms ms' : List Node} {is js : List Instr}

lemma append (h : CallsInOrder S ms is) (h' : CallsInOrder S ms' js) :
    CallsInOrder S (ms ++ ms') (is ++ js) := by
  unfold CallsInOrder at *
  rw [Instr.callsAll_append, List.map_append, List.map_append, h, h']

/-- Calls within one instruction. -/
lemma inside (h : CallsInOrder S ms is) {i : Instr} (hi : i.calls = Instr.callsAll is) :
    CallsInOrder S ms [i] := by
  unfold CallsInOrder at *
  rw [Instr.callsAll, Instr.callsAll, List.append_nil, hi, h]

end CallsInOrder

/-- Only the node itself is called besides what its operands call. -/
lemma Applies.calls {T : List TypeDef} {L : Labels} {n : Node} {ops : List Node} {i : Instr}
    (h : Applies S T L n ops i) :
    ∃ own, n.calls = Node.callsAll ops ++ own ∧ CallsInOrder S own [i] := by
  cases h
  case call f t j hi =>
    exact ⟨[.call f ops t], by rw [Node.calls], congrArg (fun o => [o]) (getElem?_of_lastIndexOf? hi)⟩
  case select hi =>
    refine ⟨[], by simp [Node.calls, Node.callsAll], ?_⟩
    cases hi <;> rfl
  all_goals exact ⟨[], by simp [Node.calls, Node.callsAll, Node.callsOpt], rfl⟩

mutual

lemma Emits.calls {r : Pool} {k : Nat} {L : Labels} {n : Node} {is : List Instr} :
    Emits S r k L n is → CallsInOrder S n.calls is
  | .applies hn hops => by
    obtain ⟨own, hcalls, hown⟩ := hn.calls
    rw [hcalls]
    exact hops.calls.append hown
  | .string _ _ => rfl
  | .block _ _ hbody => hbody.calls.inside rfl
  | .loop hbody => hbody.calls.inside rfl
  | .ifThen hc ha => by
    rw [Node.calls, Node.callsOpt, List.append_nil]
    exact hc.calls.append (ha.calls.inside rfl)
  | .ifElse hc ha hb => by
    rw [Node.calls, Node.callsOpt, List.append_assoc]
    exact hc.calls.append ((ha.calls.append hb.calls).inside (Instr.callsAll_append _ _).symm)

lemma EmitsAll.calls {r : Pool} {k : Nat} {L : Labels} {ns : List Node} {is : List Instr} :
    EmitsAll S r k L ns is → CallsInOrder S (Node.callsAll ns) is
  | .nil => rfl
  | .cons hn hns => hn.calls.append hns.calls

end

/-- A node is emitted with its calls in order. -/
lemma emit_calls (n : Node) (labels : Labels) :
    Ensures (emit S labels n) (CallsInOrder S n.calls) := fun p is q hrun =>
  ((emit_writes S n labels _ p is q rfl hrun).2.2 q (.refl q)).calls

end Wasm

end AnnotatedWasm
