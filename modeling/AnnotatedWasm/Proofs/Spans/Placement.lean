import AnnotatedWasm.Proofs.Spans.Stream
import AnnotatedWasm.Proofs.Syntax.Nodes

/-!
Nodes that are well placed in a source.

The span of a node is made of whole characters, the nodes right below it stand in it one after the
other, a name or a number is spelled as the source has it there, and a body has a statement in it.
That every node of a tree is well placed can be seen from the top node and from the trees below it,
which is how a parser builds them.
-/

namespace AnnotatedWasm.Syntax

variable {source : String} {lo lo' mid hi hi' : Nat} {n : Node} {ns ms : List Node}

/-- Nodes one after the other, from `lo` on and up to `hi`. -/
def Between (lo hi : Nat) : List Node → Prop
  | [] => lo ≤ hi
  | n :: ns => lo ≤ n.span.start ∧ n.span.start ≤ n.span.stop ∧ Between n.span.stop hi ns

namespace Between

lemma le (h : Between lo hi ns) : lo ≤ hi := by
  induction ns generalizing lo with
  | nil => exact h
  | cons n ns ih => exact h.1.trans (h.2.1.trans (ih h.2.2))

lemma from_le (h : Between lo hi ns) (hle : lo' ≤ lo) : Between lo' hi ns := by
  cases ns with
  | nil => exact hle.trans h
  | cons n ns => exact ⟨hle.trans h.1, h.2⟩

lemma to_le (h : Between lo hi ns) (hle : hi ≤ hi') : Between lo hi' ns := by
  induction ns generalizing lo with
  | nil => exact h.trans hle
  | cons n ns ih => exact ⟨h.1, h.2.1, ih h.2.2⟩

lemma append (h : Between lo mid ns) (h' : Between mid hi ms) : Between lo hi (ns ++ ms) := by
  induction ns generalizing lo with
  | nil => exact h'.from_le h
  | cons n ns ih => exact ⟨h.1, h.2.1, ih h.2.2⟩

/-- Leaving out nodes keeps the others in order. -/
lemma sublist (h : Between lo hi ns) (hms : ms.Sublist ns) : Between lo hi ms := by
  induction hms generalizing lo with
  | slnil => exact h
  | cons n _ ih => exact (ih h.2.2).from_le (h.1.trans h.2.1)
  | cons_cons n _ ih => exact ⟨h.1, h.2.1, ih h.2.2⟩

lemma of_mem (h : Between lo hi ns) (hn : n ∈ ns) : lo ≤ n.span.start ∧ n.span.stop ≤ hi := by
  have hn := h.sublist (List.singleton_sublist.mpr hn)
  exact ⟨hn.1, hn.2.2⟩

/-- Each node stops before any later one starts. -/
lemma pairwise (h : Between lo hi ns) : ns.Pairwise (·.span.stop ≤ ·.span.start) := by
  induction ns generalizing lo with
  | nil => exact .nil
  | cons n ns ih =>
    obtain ⟨-, -, hns⟩ := h
    exact .cons (fun m hm => (hns.of_mem hm).1) (ih hns)

end Between

namespace Node

/-- How the node is spelled in full, for names and numbers. -/
def spelling? : Node → Option String
  | expr (.name _ id) => some id
  | expr (.number _ text) => some text
  | _ => none

/-- What stands in the node itself is as it was read. -/
structure Faithful (source : String) (n : Node) : Prop where
  spelled : ∀ text ∈ n.spelling?, n.span.textIn source = text
  named : ∀ id ∈ n.names, isWord id = true
  filled : ∀ body ∈ n.bodies, body ≠ []

/-- The node itself is well placed. -/
structure Placed (source : String) (n : Node) : Prop extends n.Faithful source where
  valid : n.span.Valid source
  children : Between n.span.start n.span.stop n.children

/-- So are the nodes below it. -/
def WellPlaced (source : String) (n : Node) : Prop := ∀ m ∈ n.subtree, m.Placed source

lemma wellPlaced_iff :
    n.WellPlaced source ↔ n.Placed source ∧ ∀ c ∈ n.children, c.WellPlaced source := by
  rw [WellPlaced, subtree_eq, List.forall_mem_cons, List.forall_mem_flatMap]
  rfl

end Node

/-- Well placed nodes one after the other. -/
structure Laid (source : String) (lo hi : Nat) (ns : List Node) : Prop where
  between : Between lo hi ns
  wellPlaced : ∀ n ∈ ns, n.WellPlaced source

namespace Laid

lemma nil (h : lo ≤ hi) : Laid source lo hi [] := ⟨h, nofun⟩

lemma from_le (h : Laid source lo hi ns) (hle : lo' ≤ lo) : Laid source lo' hi ns :=
  ⟨h.between.from_le hle, h.wellPlaced⟩

lemma to_le (h : Laid source lo hi ns) (hle : hi ≤ hi') : Laid source lo hi' ns :=
  ⟨h.between.to_le hle, h.wellPlaced⟩

lemma append (h : Laid source lo mid ns) (h' : Laid source mid hi ms) :
    Laid source lo hi (ns ++ ms) :=
  ⟨h.between.append h'.between, List.forall_mem_append.mpr ⟨h.wellPlaced, h'.wellPlaced⟩⟩

lemma sublist (h : Laid source lo hi ns) (hms : ms.Sublist ns) : Laid source lo hi ms :=
  ⟨h.between.sublist hms, fun n hn => h.wellPlaced n (hms.subset hn)⟩

/-- A node around well placed nodes. -/
lemma node (h : Laid source lo hi ns) (hspan : n.span = ⟨lo, hi⟩) (hvalid : n.span.Valid source)
    (hchildren : n.children = ns) (hn : n.Faithful source) : Laid source lo hi [n] := by
  have hplaced : n.Placed source := ⟨hn, hvalid, by rw [hspan, hchildren]; exact h.between⟩
  have hbelow : ∀ c ∈ n.children, c.WellPlaced source := by
    rw [hchildren]
    exact h.wellPlaced
  refine ⟨⟨?_, hvalid.le, ?_⟩, List.forall_mem_singleton.mpr
    (Node.wellPlaced_iff.mpr ⟨hplaced, hbelow⟩)⟩
  · rw [hspan]
  · rw [hspan]
    exact le_rfl

end Laid

end AnnotatedWasm.Syntax
