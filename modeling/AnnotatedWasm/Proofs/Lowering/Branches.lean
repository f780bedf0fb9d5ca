import AnnotatedWasm.Proofs.Control.Preservation
import AnnotatedWasm.Proofs.Lowering.Labels
import AnnotatedWasm.Proofs.Wasm.Failures

/-!
Branches of lowered code.

A branch of lowered code goes to a construct around it, because the code of a function stands inside
the loops that the frame lists (`Covers`). Where labels differ, that is the only construct around it
with the label (`Node.Within.filter_eq`), and a binary file has a depth for it.
-/

namespace AnnotatedWasm

/-! ### Constructs around a branch -/

namespace Ir

namespace Enclosing

variable {E : Enclosing} {c : Option Label × Ty} {l : Label}

def labels (E : Enclosing) : List Label := E.filterMap (·.1)

lemma reaches_head : Reaches ((some l, .void) :: E) l := ⟨(some l, .void), by simp, rfl⟩

lemma reaches_cons (hc : c.1 ≠ some l) : Reaches (c :: E) l ↔ E.Reaches l := by
  simp [Reaches, hc]

lemma filter_eq_nil (h : l ∉ E.labels) : E.filter (·.1 = some l) = [] := by
  rw [List.filter_eq_nil_iff]
  exact fun c hc hl => h (List.mem_filterMap.mpr ⟨c, hc, of_decide_eq_true hl⟩)

/-- Where labels differ, no other construct has the label that is reached. -/
lemma Reaches.filter_eq (h : E.Reaches l) (hE : E.labels.Nodup) :
    E.filter (·.1 = some l) = [(some l, .void)] := by
  induction E with
  | nil =>
    obtain ⟨c, hc, -⟩ := h
    cases hc
  | cons d E ih =>
    obtain ⟨k, t⟩ := d
    by_cases hk : k = some l
    · subst hk
      obtain ⟨c, hc, hvoid⟩ := h
      simp only [List.find?_cons, decide_true, Option.some.injEq] at hc
      subst hc
      obtain rfl : t = .void := hvoid
      rw [List.filter_cons_of_pos (by simp), filter_eq_nil (List.nodup_cons.mp hE).1]
    · rw [List.filter_cons_of_neg (by simpa using hk)]
      refine ih ((reaches_cons hk).mp h) (hE.sublist ?_)
      exact (List.sublist_cons_self _ _).filterMap _

end Enclosing

namespace Node

variable {n : Node} {E : Enclosing}

/-- The labels that a node puts around one below it, and those in that node, are labels in the
node. -/
lemma labels_inner {D : Enclosing} {c : Node} (h : (D, c) ∈ n.inner) :
    (D.labels ++ c.labels).Sublist n.labels := by
  have hc : c.labels.Sublist (n.children.flatMap labels) :=
    List.sublist_flatten_of_mem (List.mem_map_of_mem (mem_children h))
  have hD : D.labels.Sublist n.label?.toList := by
    cases n
    case block l body t =>
      obtain ⟨m, -, heq⟩ := List.mem_map.mp h
      cases heq
      cases l <;> exact .refl _
    case loop l body =>
      cases List.mem_singleton.mp h
      exact .refl _
    case ifElse test a e =>
      simp only [inner, List.mem_cons, List.mem_map, Prod.mk.injEq] at h
      obtain ⟨rfl, -⟩ | ⟨rfl, -⟩ | ⟨m, -, rfl, -⟩ := h <;> exact List.nil_sublist _
    all_goals
      obtain ⟨m, -, heq⟩ := List.mem_map.mp h
      cases heq
      exact List.nil_sublist _
  rw [labels_eq n]
  exact hD.append hc

/-- **Targets**: where labels differ, a branch stands inside one construct with its label. -/
lemma Within.filter_eq {E' : Enclosing} {m : Node} {l : Label} (h : Within E n E' m)
    (hn : n.BranchesIn E) (hlabels : (E.labels ++ n.labels).Nodup) (hl : m.target? = some l) :
    E'.filter (·.1 = some l) = [(some l, .void)] := by
  induction h with
  | self => exact ((branchesIn_iff.mp hn).1 l hl).filter_eq hlabels.of_append_left
  | @inner E n D c _ _ hc _ ih =>
    refine ih ((branchesIn_iff.mp hn).2 _ hc) ?_ hl
    have hmove : (E.labels ++ (D.labels ++ c.labels)).Perm
        (Enclosing.labels (D ++ E) ++ c.labels) := by
      rw [← List.append_assoc, Enclosing.labels, Enclosing.labels, Enclosing.labels,
        List.filterMap_append]
      exact List.perm_append_comm.append_right _
    exact hmove.nodup_iff.mp (hlabels.sublist ((labels_inner hc).append_left _))

end Node

end Ir

namespace Lowering

open Ir (Node Label Enclosing)
open Ir.Node
open Syntax (Expr Stmt Branch)

variable {env : Env} {b b' : Body} {n : Node} {E : Enclosing}

/-! ### Code without branches to the outside -/

/-- Every branch in the node goes to a construct in it. -/
def Closed (n : Node) : Prop := ∀ E, n.BranchesIn E

lemma closed_of_children (hn : n.target? = none) (h : ∀ m ∈ n.children, Closed m) : Closed n := by
  refine fun E => branchesIn_iff.mpr ⟨by simp [hn], fun p hp => h p.2 ?_ _⟩
  exact mem_children hp

lemma closed_convert {v : Node} (hv : Closed v) (k : NumKind) : Closed (convert v k) := by
  unfold convert
  split
  · split <;> exact hv
  · exact hv

lemma closed_rangeLoop (s : RangeSlots) (label : Label) (k : NumKind) :
    Closed (rangeLoop s label k) := by
  refine fun E => ⟨⟨trivial, trivial⟩, ?_, trivial⟩
  refine ⟨⟨trivial, trivial, ?_⟩, ⟨trivial, trivial⟩, ⟨trivial, trivial⟩, ?_, trivial⟩
  · have hnext : Closed (slotGet s.next) := fun _ => trivial
    exact closed_convert hnext k _
  · -- past the block and the arm, to the loop
    exact (Enclosing.reaches_cons (by simp)).mpr
      ((Enclosing.reaches_cons (by simp)).mpr Enclosing.reaches_head)

lemma closed_of_landmarks (h : ∀ m ∈ n.landmarks, Closed m) : Closed n := by
  refine of_landmarks (fun m hm => closed_of_children ?_) n h
  cases m
  case br | brIf => cases hm
  all_goals rfl

lemma Mark.closed {opened : List (String × Ty)} (h : Mark opened n) : Closed n := by
  induction h with
  | global _ => exact fun _ => trivial
  | store _ _ ih =>
    exact closed_of_children rfl (List.forall_mem_singleton.mpr (closed_of_landmarks ih))
  | range => exact closed_rangeLoop _ _ _

lemma Marked.closed (h : Marked b b' n.landmarks) : Closed n :=
  closed_of_landmarks fun m hm => (h.each m hm).closed

/-! ### Branches of statements -/

/-- The constructs around hold the loops that the frame lists. -/
structure Covers (E : Enclosing) (b : Body) : Prop where
  old : b.LoopsOld
  reaches : ∀ id ∈ b.frame.loops, E.Reaches (loopLabel id) ∧ E.Reaches (loopBodyLabel id)

namespace Covers

lemma extend (h : Covers E b) (hb : b.Extends b') : Covers E b' :=
  ⟨h.old.extends hb, fun id hid => h.reaches id (hb.loops ▸ hid)⟩

lemma unlabelled (h : Covers E b) (t : Ty) : Covers ((none, t) :: E) b where
  old := h.old
  reaches id hid :=
    ⟨(Enclosing.reaches_cons (by simp)).mpr (h.reaches id hid).1,
      (Enclosing.reaches_cons (by simp)).mpr (h.reaches id hid).2⟩

/-- A construct with a new label hides none of the others. -/
lemma labelled (h : Covers E b) (k : LabelKind) :
    Covers ((some (k.label b.session.nextLabel), .void) :: E) b where
  old := h.old
  reaches id hid := by
    have hne (k' : LabelKind) : some (k.label b.session.nextLabel) ≠ some (k'.label id) := by
      intro heq
      obtain ⟨-, rfl⟩ := LabelKind.label_inj (Option.some.inj heq)
      exact (h.old _ hid).false
    exact ⟨(Enclosing.reaches_cons (hne .loop)).mpr (h.reaches id hid).1,
      (Enclosing.reaches_cons (hne .body)).mpr (h.reaches id hid).2⟩

end Covers

/-- What stands around the arms of the conditional in a loop. -/
def loopArms (id : Nat) (E : Enclosing) : Enclosing :=
  (none, .void) :: (some (loopLabel id), .void) :: E

lemma reaches_loopLabel (id : Nat) (E : Enclosing) :
    Enclosing.Reaches ((some (loopBodyLabel id), .void) :: loopArms id E) (loopLabel id) := by
  have hne : some (loopBodyLabel id) ≠ some (loopLabel id) :=
    fun heq => loopLabel_ne_body _ _ (Option.some.inj heq)
  exact (Enclosing.reaches_cons hne).mpr
    ((Enclosing.reaches_cons (by simp)).mpr Enclosing.reaches_head)

lemma Covers.loopArms (h : Covers E b) : Covers (loopArms b.session.nextLabel E) b :=
  (h.labelled .loop).unlabelled .void

/-- Inside the body of a loop, branches go to the loop and to the body. -/
lemma Covers.enterLoop {b₁ : Body} (h : Covers E b) (hb : (b.grow [] 1 []).Grows b₁) :
    Covers ((some (loopBodyLabel b.session.nextLabel), .void) ::
      Lowering.loopArms b.session.nextLabel E) (b₁.enterLoop b.session.nextLabel) where
  old := h.old.enterLoop (.trans ⟨_, _, _, rfl⟩ hb) hb.nextLabel
  reaches id hid := by
    have hloops : b₁.frame.loops = b.frame.loops := hb.loops
    obtain rfl | hid := List.mem_cons.mp hid
    · exact ⟨reaches_loopLabel _ E, Enclosing.reaches_head⟩
    · exact (h.loopArms.labelled .body).reaches id (hloops ▸ hid)

lemma branchesIn_whileNode {id : Nat} {c : Node} {ns ms : List Node} (hc : Closed c)
    (hns : ∀ n ∈ ns, n.BranchesIn ((some (loopBodyLabel id), .void) :: loopArms id E))
    (hms : ∀ m ∈ ms, m.BranchesIn ((some (loopElseLabel id), .void) :: loopArms id E)) :
    (whileNode id c ns ms).BranchesIn E := by
  refine ⟨hc _, branchAllIn_iff.mpr ?_, branchOptIn_iff.mpr ?_⟩
  · intro n hn
    obtain hn | hn := List.mem_append.mp hn
    · exact hns n hn
    · rw [List.mem_singleton.mp hn]
      exact reaches_loopLabel id E
  · intro n hn
    split at hn
    · cases hn
    · cases hn
      exact branchAllIn_iff.mpr hms

mutual

/-- **Statements**: their branches go to the loops around them. -/
lemma LowersStmt.branchesIn {s : Stmt} {b b' : Body} {n : Node} {E : Enclosing} :
    LowersStmt env s b n b' → Covers E b → n.BranchesIn E
  | .simple h, _ => by
    obtain ⟨b₁, hmarks, -⟩ := h.marks
    exact hmarks.closed E
  | .retNone _ _, _ => trivial
  | .retSome _ he hc, _ => (he.marks.coerce hc).closed E
  | .breakLoop hloops, hE => (hE.reaches _ (hloops ▸ List.mem_cons_self)).2
  | .continueLoop hloops, hE => (hE.reaches _ (hloops ▸ List.mem_cons_self)).1
  | .assert hc, _ => ⟨(marks_lowerCondition hc).closed E, trivial, trivial⟩
  | .ifElse hc hs he, hE => by
    have hE₁ := hE.extend (.of_grows (grows_of_lowerCondition hc))
    refine ⟨(marks_lowerCondition hc).closed E, branchAllIn_iff.mpr ?_, ?_⟩
    · exact hs.branchesIn ((hE₁.unlabelled _).unlabelled _)
    · exact he.branchesIn ((hE₁.extend hs.extends).unlabelled _)
  | .whileLoop hc hs ho, hE => by
    have hgrows := grows_of_lowerCondition hc
    have hext : b.Extends _ := (Body.Extends.of_grows (.trans ⟨_, _, _, rfl⟩ hgrows)).trans
      hs.extends.leaveLoop
    exact branchesIn_whileNode (marks_lowerCondition hc).closed
      (hs.branchesIn (hE.enterLoop hgrows)) (ho.branchesIn ((hE.loopArms.labelled .orelse).extend hext))

lemma LowersStmts.branchesIn {ss : List Stmt} {b b' : Body} {ns : List Node} {E : Enclosing} :
    LowersStmts env ss b ns b' → Covers E b → ∀ n ∈ ns, n.BranchesIn E
  | .nil, _ => nofun
  | .cons h hs, hE =>
    List.forall_mem_cons.mpr ⟨h.branchesIn hE, hs.branchesIn (hE.extend h.extends)⟩

lemma LowersElse.branchesIn {orelse : List Stmt} {elifs : List Branch} {b b' : Body} {n : Node}
    {E : Enclosing} : LowersElse env orelse elifs b n b' → Covers E b → n.BranchesIn E
  | .nil hs, hE => branchAllIn_iff.mpr (hs.branchesIn (hE.unlabelled _))
  | .cons hc hs he, hE => by
    have hE₁ := hE.extend (.of_grows (grows_of_lowerCondition hc))
    have hE₂ := (hE₁.unlabelled .void).unlabelled .void
    refine ⟨⟨(marks_lowerCondition hc).closed _, branchAllIn_iff.mpr ?_, ?_⟩, trivial⟩
    · exact hs.branchesIn (hE₂.unlabelled _)
    · exact he.branchesIn (hE₂.extend hs.extends)

end

end Lowering

/-! ### Labels and branches of modules -/

namespace Ir

/-- The labels in a function, in order. -/
def Function.labels (f : Function) : List Label := f.subnodes.filterMap Node.label?

lemma Function.labels_eq (f : Function) : f.labels = f.body.flatMap Node.labels := by
  rw [labels, subnodes, Node.subnodesAll_eq, List.filterMap_flatMap]
  rfl

def Module.labels (m : Module) : List Label := m.functions.flatMap Function.labels

/-- Every branch of the function has a place, and wherever it stands, one of the constructs around
it has its label, and that one leaves no value. -/
def Function.TargetsOnce (f : Function) : Prop :=
  ∀ n ∈ f.subnodes, ∀ l ∈ n.target?,
    (∃ E, f.Within E n) ∧ ∀ E, f.Within E n → E.filter (·.1 = some l) = [(some l, .void)]

lemma Function.targetsOnce {f : Function} (hlabels : f.labels.Nodup)
    (hbranches : ∀ n ∈ f.body, n.BranchesIn []) : f.TargetsOnce := by
  intro m hm l hl
  constructor
  · rw [subnodes, Node.subnodesAll_eq, List.mem_flatMap] at hm
    obtain ⟨n, hn, hm⟩ := hm
    obtain ⟨E, hE⟩ := n.exists_within [] hm
    exact ⟨E, n, hn, hE⟩
  · rintro E ⟨n, hn, hwithin⟩
    have hsub : n.labels.Sublist f.labels := by
      rw [labels_eq]
      exact List.sublist_flatten_of_mem (List.mem_map_of_mem hn)
    exact hwithin.filter_eq (hbranches n hn) (hlabels.sublist hsub) hl

end Ir

/-- A binary file has a depth for every branch whose target is there. -/
lemma Wasm.encode_ne_unknownLabel {m : Ir.Module} (h : ∀ f ∈ m.functions, f.TargetsOnce)
    (l : Ir.Label) : Wasm.encode m ≠ .error (.unknownLabel l) := by
  intro herror
  obtain ⟨f, hf, hfault⟩ := encode_error herror
  cases hfault with
  | @name E n _ hwithin hmiss =>
    cases hmiss with
    | label hl hnone =>
      have honce := (h f hf n hwithin.mem_subnodes l hl).2 E hwithin
      have htarget : (some l, .void) ∈ E := by
        refine (List.mem_filter.mp (?_ : _ ∈ E.filter (·.1 = some l))).1
        rw [honce]
        exact List.mem_singleton_self _
      exact hnone _ htarget rfl

namespace Lowering

open Syntax (Stmt)

variable {env : Env} {s s' : Session}

/-- The labels of the module so far differ, and the branches of its functions go to constructs
around them. -/
structure Session.Labelled (s : Session) : Prop where
  fresh : Fresh 0 s.nextLabel s.module.labels
  branches : ∀ f ∈ s.module.functions, ∀ n ∈ f.body, n.BranchesIn []

lemma LowersTop.labelled {stmt : Stmt} (h : LowersTop env stmt s s') (hs : s.Labelled) :
    s'.Labelled := by
  cases h with
  | @function _ header _ sig _ ns b _ _ _ hbody =>
    have hfunctions : b.session.module.functions = s.module.functions := hbody.extends.functions
    constructor
    · have hlabels : (b.session.addFunction (b.frame.finish ns)).module.labels =
          s.module.labels ++ ns.flatMap Ir.Node.labels := by
        simp [Session.addFunction, Ir.Module.labels, Ir.Function.labels_eq, Frame.finish,
          hfunctions]
      rw [hlabels]
      exact hs.fresh.append hbody.newLabels
    · intro f hf
      simp only [Session.addFunction, hfunctions, List.mem_append, List.mem_singleton] at hf
      obtain hf | rfl := hf
      · exact hs.branches f hf
      · exact hbody.branchesIn ⟨nofun, nofun⟩
  | unmarked | foreign | assign | augAssign | other => exact hs
  | declare => exact ⟨hs.fresh, hs.branches⟩

lemma LowersAll.labelled {ss : List Stmt} (h : LowersAll env ss s s') (hs : s.Labelled) :
    s'.Labelled := by
  induction h with
  | nil => exact hs
  | cons hstmt _ ih => exact ih (hstmt.labelled hs)

end Lowering

open Lowering

/-- **Labels and branches of a module**: all labels of a module differ, also those of different
functions. Every branch stands inside just one construct of its function that has its label, and
that one leaves no value. So the binary file never lacks a label. -/
theorem lower_targets_once (options : Options) (m : Syntax.Module) (log : List Event)
    (ir : Ir.Module) (log' : List Event) (h : Returns (lower options m) log ir log') :
    ir.labels.Nodup ∧ (∀ f ∈ ir.functions, f.TargetsOnce) ∧
      ∀ l, Wasm.encode ir ≠ .error (.unknownLabel l) := by
  obtain ⟨sigs, log₁, s, -, hall, rfl, -⟩ := returns_lower h
  have hs := hall.labelled ⟨.nil le_rfl, nofun⟩
  have hlabels := hs.fresh.nodup
  have honce : ∀ f ∈ s.module.functions, f.TargetsOnce := fun f hf =>
    Ir.Function.targetsOnce (hlabels.sublist (List.sublist_flatten_of_mem (List.mem_map_of_mem hf)))
      (hs.branches f hf)
  exact ⟨hlabels, honce, Wasm.encode_ne_unknownLabel honce⟩

/-- A loop in a loop, whose `else` part leaves the outer one, and a range in the loop of a second
function. -/
def leavingLoops : Syntax.Module :=
  let p : Span := ⟨0, 0⟩
  let i32 : Syntax.Expr := .name p "i32"
  let n : Syntax.Expr := .name p "n"
  let marker : Syntax.Expr := .name p "wasmfunc"
  let params : List Syntax.Param := [.mk "n" p (some i32) none]
  { body := [
      .importNames p ["wasmfunc"] [("wasmfunc", none), ("i32", none), ("array", none)],
      .funcDef p ⟨"leave", params, none, [marker]⟩ [
        .whileLoop p n [.whileLoop p n [.breakLoop p] [.breakLoop p], .continueLoop p] []],
      .funcDef p ⟨"fill", params, none, [marker]⟩ [
        .whileLoop p n [
          .annAssign p (.name p "xs") (.subscript p (.name p "array") i32)
            (some (.call p (.name p "list") [.call p (.name p "range") [n] []] []))] []]] }

theorem lower_targets_once_nested :
    ∃ ir log', Returns (lower { gc := true } leavingLoops) [] ir log' ∧
      ir.labels = ["loop_0", "loop_body_0", "loop_1", "loop_body_1", "loop_else_1", "loop_2",
        "loop_body_2", "range_3"] ∧
      (∀ f ∈ ir.functions, f.TargetsOnce) ∧ ∀ l, Wasm.encode ir ≠ .error (.unknownLabel l) := by
  have hrun : ((lower { gc := true } leavingLoops).run.run []).1.toOption.map (·.labels) =
      some ["loop_0", "loop_body_0", "loop_1", "loop_body_1", "loop_else_1", "loop_2",
        "loop_body_2", "range_3"] := by decide +kernel
  obtain ⟨ir, hir, hlabels⟩ := Option.map_eq_some_iff.mp hrun
  have h := Returns.of_toOption hir
  obtain ⟨-, honce, hencode⟩ := lower_targets_once _ _ _ _ _ h
  exact ⟨ir, _, h, hlabels, honce, hencode⟩

end AnnotatedWasm
