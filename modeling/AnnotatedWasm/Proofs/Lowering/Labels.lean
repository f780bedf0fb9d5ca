import AnnotatedWasm.Proofs.Lowering.Landmarks
import AnnotatedWasm.Proofs.Lowering.ModuleForms

/-!
Labels of lowered code.

What is lowered between two states has labels with the numbers between them, each at most once
(`NewLabels`), so the labels of a whole module differ.
-/

namespace AnnotatedWasm

namespace Lowering

open Ir (Node)
open Ir.Node
open Syntax (Expr Stmt Branch)

variable {env : Env} {b b' : Body} {n : Node}

lemma LowersSimple.newLabels {s : Stmt} (h : LowersSimple env s b n b') :
    NewLabels b b' n.labels := by
  obtain ⟨b₁, hmarks, hb₁⟩ := h.marks
  exact hmarks.newLabels.mono le_rfl hb₁.nextLabel

/-- The families of the labels of a loop. -/
def loopKinds (orelse : List Node) : List LabelKind :=
  if orelse.isEmpty then [.loop, .body] else [.loop, .body, .orelse]

lemma nodup_loopKinds (orelse : List Node) : (loopKinds orelse).Nodup := by
  unfold loopKinds
  split <;> decide

/-- A loop has its own labels and those of its parts. -/
lemma labels_whileNode (id : Nat) (c : Node) (ns ms : List Node) :
    ((loopKinds ms).map (LabelKind.label · id) ++
        (c.labels ++ (ns.flatMap labels ++ ms.flatMap labels))).Perm
      (whileNode id c ns ms).labels := by
  rw [List.perm_iff_count, whileNode, labels_loop]
  intro l
  cases ms with
  | nil =>
    simp [loopKinds, loopLabel_eq, loopBodyLabel_eq, List.count_cons]
    omega
  | cons m ms =>
    simp [loopKinds, loopLabel_eq, loopBodyLabel_eq, loopElseLabel_eq, List.count_cons]
    omega

mutual

/-- Statements get new labels. -/
lemma LowersStmt.newLabels {s : Stmt} {b b' : Body} {n : Node} :
    LowersStmt env s b n b' → NewLabels b b' n.labels
  | .simple h => h.newLabels
  | .retNone _ _ | .breakLoop _ | .continueLoop _ => .nil le_rfl
  | .retSome _ he hc => by
    rw [labels_of_children rfl]
    simpa [children] using (he.marks.coerce hc).newLabels
  | .assert hc => by
    simpa [labels_eq nop, labels_eq unreachable, label?, children] using
      (marks_lowerCondition hc).newLabels
  | .ifElse hc hs he => by
    have hfresh := (marks_lowerCondition hc).newLabels.append (hs.newLabels.append he.newLabels)
    simpa using hfresh
  | .whileLoop hc hs ho => by
    have hparts := (marks_lowerCondition hc).newLabels.append (hs.newLabels.append ho.newLabels)
    -- the number of the loop is taken before the condition is lowered
    refine Fresh.perm (.append ?_ hparts) (labels_whileNode ..)
    exact .single (nodup_loopKinds _) _

lemma LowersStmts.newLabels {ss : List Stmt} {b b' : Body} {ns : List Node} :
    LowersStmts env ss b ns b' → NewLabels b b' (ns.flatMap labels)
  | .nil => .nil le_rfl
  | .cons h hs => h.newLabels.append hs.newLabels

lemma LowersElse.newLabels {orelse : List Stmt} {elifs : List Branch} {b b' : Body} {n : Node} :
    LowersElse env orelse elifs b n b' → NewLabels b b' n.labels
  | .nil hs => by
    rw [labels_of_children rfl]
    exact hs.newLabels
  | .cons hc hs he => by
    have hfresh := (marks_lowerCondition hc).newLabels.append (hs.newLabels.append he.newLabels)
    simpa using hfresh

end

end Lowering

end AnnotatedWasm
