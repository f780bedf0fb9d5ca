import AnnotatedWasm.Ir.Listing
import AnnotatedWasm.Proofs.Ir.Typing
import AnnotatedWasm.Proofs.Wasm.Emission

/-!
The three ways through a tree of intermediate code.

`subnodes` takes the operands of a node as they are written down. The listing and the instructions
take them as they are evaluated, which differs where a choice has its condition last. The listing
still shows the nodes that `subnodes` gives, and in both no node comes before the one that it is
below. The nodes that have nothing below them, where evaluation starts, have their instructions in
the order of the listing.
-/

namespace AnnotatedWasm

namespace Ir

namespace Node

/-- The nodes right below a node, in the order in which they are evaluated. -/
def operands : Node → List Node
  | select c a b => [a, b, c]
  | n => n.children

lemma operands_perm (n : Node) : n.operands.Perm n.children := by
  cases n
  case select c a b =>
    show ([a, b] ++ [c]).Perm _
    exact List.perm_append_comm
  all_goals exact .rfl

lemma length_subnodes_operand {n m : Node} (h : m ∈ n.operands) :
    m.subnodes.length < n.subnodes.length :=
  length_subnodes_lt (n.operands_perm.mem_iff.mp h)

lemma linesAll_eq (d : Nat) (ns : List Node) : linesAll d ns = ns.flatMap (lines d) := by
  induction ns with
  | nil => rfl
  | cons n ns ih => rw [linesAll, ih]; rfl

lemma linesOpt_eq (d : Nat) (e : Option Node) : linesOpt d e = e.toList.flatMap (lines d) := by
  cases e <;> simp [linesOpt]

/-- The line that shows a node, without its indentation. -/
def opening (n : Node) : String := "(" ++ n.head ++ if n.operands.isEmpty then ")" else ""

lemma lines_eq (d : Nat) (n : Node) :
    n.lines d = (String.ofList (List.replicate (2 * d) ' ') ++ n.opening) ::
      (n.operands.flatMap (lines (d + 1)) ++
        if n.operands.isEmpty then [] else [String.ofList (List.replicate (2 * d) ' ') ++ ")"]) := by
  have hlines (d : Nat) (n : Node) :
      n.lines d = bracket d n.head (n.operands.flatMap (lines (d + 1))) := by
    cases n <;> simp [lines, operands, children, linesAll_eq, linesOpt_eq]
  have hne (m : Node) : m.lines (d + 1) ≠ [] := by
    rw [hlines, bracket]
    split <;> simp
  rw [hlines, opening, bracket]
  rcases n.operands with _ | ⟨m, ns⟩ <;> simp [toString, String.append_assoc, hne]

/-! ### What a listing shows -/

/-- The nodes are this one and then those of its operands, one operand after the other. -/
inductive ParentsFirst : Node → List Node → Prop
  | mk {n ops nss} : ops.Perm n.children → List.Forall₂ ParentsFirst ops nss →
      ParentsFirst n (n :: nss.flatten)

lemma parentsFirst_subnodes (n : Node) : n.ParentsFirst n.subnodes := by
  rw [subnodes_eq]
  refine .mk .rfl (List.forall₂_map_right_iff.mpr (List.forall₂_same.mpr fun m hm => ?_))
  exact parentsFirst_subnodes m
termination_by n.subnodes.length
decreasing_by exact length_subnodes_lt hm

/-- The nodes of a listing, from the first line to the last. -/
def listed (n : Node) : List Node := n :: n.operands.attach.flatMap fun m => listed m.1
termination_by n.subnodes.length
decreasing_by exact length_subnodes_operand m.2

lemma listed_eq (n : Node) : n.listed = n :: n.operands.flatMap listed := by
  rw [listed, List.flatMap_subtype (fun _ _ => rfl), List.unattach_attach]

lemma listed_perm (n : Node) : n.listed.Perm n.subnodes := by
  rw [listed_eq, subnodes_eq]
  refine List.Perm.cons n ((List.Perm.flatMap_left _ fun m hm => ?_).trans
    (n.operands_perm.flatMap_right _))
  exact listed_perm m
termination_by n.subnodes.length
decreasing_by exact length_subnodes_operand hm

/-- The lines that show a node; the others only close one. -/
def openings (ls : List String) : List String :=
  (ls.filter fun l => '(' ∈ l.toList).map fun l => String.ofList (l.toList.dropWhile (· = ' '))

lemma openings_flatMap (f : Node → List String) (ns : List Node) :
    openings (ns.flatMap f) = ns.flatMap fun n => openings (f n) := by
  simp [openings, List.filter_flatMap, List.map_flatMap]

lemma openings_lines (d : Nat) (n : Node) : openings (n.lines d) = n.listed.map opening := by
  have hops : openings (n.operands.flatMap (lines (d + 1))) =
      n.operands.flatMap fun m => m.listed.map opening := by
    rw [openings_flatMap]
    exact List.flatMap_congr fun m hm => openings_lines (d + 1) m
  rw [lines_eq, listed_eq, List.map_cons, List.map_flatMap, ← hops, opening]
  split <;> simp_all [openings, String.append_assoc]
termination_by n.subnodes.length
decreasing_by exact length_subnodes_operand hm

/-- The nodes of a listing that have nothing below them. -/
def leaves (n : Node) : List Node := n.listed.filter (·.operands.isEmpty)

lemma leaves_of_nil {n : Node} (h : n.operands = []) : n.leaves = [n] := by
  rw [leaves, listed_eq, h]
  simp [h]

lemma leaves_of_ne_nil {n : Node} (h : n.operands ≠ []) : n.leaves = n.operands.flatMap leaves := by
  rw [leaves, listed_eq, List.filter_cons_of_neg (by simpa using h), List.filter_flatMap]
  rfl

end Node

end Ir

namespace Wasm

open Ir (Node)

/-! ### What instructions start from -/

/-- The code is that of these nodes, which have nothing below them, in this order. All else in it
is what is applied to operands, or holds a part of the code. -/
inductive InOrder (S : Symbols) (r : Pool) : List Node → List Instr → Prop
  | nil : InOrder S r [] []
  | leaf {k L n is} : n.operands = [] → Emits S r k L n is → InOrder S r [n] is
  | append {ns ms is js} : InOrder S r ns is → InOrder S r ms js → InOrder S r (ns ++ ms) (is ++ js)
  | applied {L n ops i} : ops ≠ [] → Applies S r.types.entries L n ops i → InOrder S r [] [i]
  | block {ns v is} : InOrder S r ns is → InOrder S r ns [.block v is]
  | loop {ns is} : InOrder S r ns is → InOrder S r ns [.loop is]
  | ifThen {ns is} : InOrder S r ns is → InOrder S r ns [.ifThen is]
  | ifElse {ns ms is js} : InOrder S r ns is → InOrder S r ms js →
      InOrder S r (ns ++ ms) [.ifElse is js]

variable {S : Symbols} {r : Pool}

lemma Applies.operands {T : List TypeDef} {L : Labels} {n : Node} {ops : List Node} {i : Instr}
    (h : Applies S T L n ops i) : n.operands = ops := by
  cases h <;> rfl

mutual

lemma Emits.inOrder {k : Nat} {L : Labels} {n : Node} {is : List Instr} (h : Emits S r k L n is) :
    InOrder S r n.leaves is := by
  by_cases hn : n.operands = []
  · rw [Node.leaves_of_nil hn]
    exact .leaf hn h
  · rw [Node.leaves_of_ne_nil hn]
    match h with
    | .applies ha hops =>
      rw [ha.operands] at hn ⊢
      simpa using hops.inOrder.append (.applied hn ha)
    | .string _ _ => exact absurd rfl hn
    | .block _ _ hbody => exact hbody.inOrder.block
    | .loop hbody => simpa [Node.operands, Node.children] using hbody.inOrder.loop
    | .ifThen hc ha =>
      simpa [Node.operands, Node.children] using hc.inOrder.append ha.inOrder.ifThen
    | .ifElse hc ha hb =>
      simpa [Node.operands, Node.children] using hc.inOrder.append (ha.inOrder.ifElse hb.inOrder)

lemma EmitsAll.inOrder {k : Nat} {L : Labels} {ns : List Node} {is : List Instr} :
    EmitsAll S r k L ns is → InOrder S r (ns.flatMap Node.leaves) is
  | .nil => .nil
  | .cons hn hns => hn.inOrder.append hns.inOrder

end

/-- The listing shows the nodes that `subnodes` gives, each as often, and there no node comes before
the one that it is below. The nodes that have nothing below them are shown in the order in which
their instructions are emitted. -/
theorem traversals_agree (n : Node) :
    n.ParentsFirst n.subnodes ∧ n.listed.Perm n.subnodes ∧
      (∀ d, Node.openings (n.lines d) = n.listed.map Node.opening) ∧
      ∀ S L p code q, (emit S L n).run p = .ok (code, q) → InOrder S q n.leaves code := by
  refine ⟨n.parentsFirst_subnodes, n.listed_perm, fun d => n.openings_lines d, ?_⟩
  intro S L p code q hrun
  exact ((emit_writes S n L _ p code q rfl hrun).2.2 q (.refl q)).inOrder

/-- The condition of a choice is a node without operands, and comes last. -/
theorem traversals_agree_select : ∃ code q,
    (emit ⟨["f"], []⟩ [] (.select (.call "f" [] .i32) (.localGet 0 .i32) (.i32 7))).run {} =
        .ok (code, q) ∧
      InOrder ⟨["f"], []⟩ q [.localGet 0 .i32, .i32 7, .call "f" [] .i32] code := by
  refine ⟨_, _, rfl, ?_⟩
  have h := (traversals_agree (.select (.call "f" [] .i32) (.localGet 0 .i32) (.i32 7))).2.2.2
    ⟨["f"], []⟩ [] {} _ _ rfl
  simpa [Node.leaves, Node.listed_eq, Node.operands, Node.children, Node.i32] using h

end Wasm

end AnnotatedWasm
