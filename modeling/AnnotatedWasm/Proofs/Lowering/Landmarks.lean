import AnnotatedWasm.Proofs.Ir.Typing
import AnnotatedWasm.Proofs.Lowering.Numbering
import AnnotatedWasm.Proofs.Lowering.StmtForms

/-!
What lowered code refers to by name.

The landmarks of a node are the outermost nodes in it that name something: a global, or a label
that they carry or branch to. All else in a node is arithmetic around them, so what depends on
names only can be read off the landmarks. Expressions and statements without control structure
have landmarks of three kinds (`LowersExpr.marks`, `LowersSimple.marks`): reads and stores of opened
globals, and the loops of ranges, each under a label of its own.
-/

namespace AnnotatedWasm

namespace Ir.Node

mutual

/-- The outermost nodes in a node that name a global or a label, in order. -/
def landmarks : Node → List Node
  | nop | unreachable | const _ | string _ | localGet _ _ => []
  | n@(globalGet _ _) | n@(globalSet _ _) | n@(br _) | n@(brIf _ _) | n@(loop _ _)
  | n@(block (some _) _ _) => [n]
  | localSet _ v | unary _ v | drop v | arrayLen v => landmarks v
  | binary _ a b | arrayNew _ a b | arrayGet _ a b => landmarks a ++ landmarks b
  | select a b c | arraySet _ a b c => landmarks a ++ landmarks b ++ landmarks c
  | block none body _ | call _ body _ | arrayNewFixed _ body => landmarksAll body
  | ifElse c t e => landmarks c ++ landmarks t ++ landmarksOpt e
  | ret v => landmarksOpt v

def landmarksAll : List Node → List Node
  | [] => []
  | n :: ns => landmarks n ++ landmarksAll ns

def landmarksOpt : Option Node → List Node
  | none => []
  | some n => landmarks n

end

lemma landmarksAll_eq (ns : List Node) : landmarksAll ns = ns.flatMap landmarks := by
  induction ns with
  | nil => rfl
  | cons n ns ih => rw [landmarksAll, ih]; rfl

lemma landmarksOpt_eq (e : Option Node) : landmarksOpt e = e.toList.flatMap landmarks := by
  cases e <;> simp [landmarksOpt]

/-- The node itself names a global or a label. -/
def isLandmark : Node → Bool
  | globalGet _ _ | globalSet _ _ | br _ | brIf _ _ | loop _ _ | block (some _) _ _ => true
  | _ => false

lemma landmarks_self {n : Node} (h : n.isLandmark = true) : n.landmarks = [n] := by
  cases n
  case globalGet | globalSet | br | brIf | loop => rfl
  case block label _ _ =>
    cases label
    · cases h
    · rfl
  all_goals cases h

lemma landmarks_eq {n : Node} (h : n.isLandmark = false) :
    n.landmarks = n.children.flatMap landmarks := by
  cases n
  case block label _ _ =>
    cases label
    · exact landmarksAll_eq _
    · cases h
  case globalGet | globalSet | br | brIf | loop => cases h
  all_goals simp [landmarks, children, landmarksAll_eq, landmarksOpt_eq]

/-- A property that other nodes have if the nodes right below them do, holds if it does for the
landmarks. -/
lemma of_landmarks {P : Node → Prop}
    (hP : ∀ n, n.isLandmark = false → (∀ m ∈ n.children, P m) → P n) (n : Node)
    (h : ∀ m ∈ n.landmarks, P m) : P n := by
  rcases hn : n.isLandmark with _ | _
  · rw [landmarks_eq hn, List.forall_mem_flatMap] at h
    exact hP n hn fun m hm => of_landmarks hP m (h m hm)
  · exact h n (by simp [landmarks_self hn])
termination_by n.subnodes.length
decreasing_by exact length_subnodes_lt hm

/-- A property that other nodes hand down to the nodes right below them holds for the landmarks. -/
lemma forall_landmarks {P : Node → Prop}
    (hP : ∀ n, n.isLandmark = false → P n → ∀ m ∈ n.children, P m) (n : Node) (h : P n) :
    ∀ m ∈ n.landmarks, P m := by
  rcases hn : n.isLandmark with _ | _
  · rw [landmarks_eq hn, List.forall_mem_flatMap]
    exact fun m hm => forall_landmarks hP m (hP n hn h m hm)
  · simpa [landmarks_self hn] using h
termination_by n.subnodes.length
decreasing_by exact length_subnodes_lt hm

/-! ### Labels -/

/-- The label that a node carries. -/
def label? : Node → Option Label
  | loop l _ => some l
  | block l _ _ => l
  | _ => none

/-- The labels in a node, in order. -/
def labels (n : Node) : List Label := n.subnodes.filterMap label?

lemma labels_eq (n : Node) : n.labels = n.label?.toList ++ n.children.flatMap labels := by
  rw [labels, subnodes_eq, List.filterMap_cons, List.filterMap_flatMap]
  cases n.label? <;> rfl

lemma labels_of_children {n : Node} (h : n.label? = none) :
    n.labels = n.children.flatMap labels := by
  rw [labels_eq, h]
  rfl

@[simp] lemma labels_loop (l : Label) (body : Node) : (loop l body).labels = l :: body.labels := by
  rw [labels_eq]
  simp [label?, children]

@[simp] lemma labels_br (l : Label) : (br l).labels = [] := rfl

@[simp] lemma labels_block (l : Option Label) (ns : List Node) (t : Ty) :
    (block l ns t).labels = l.toList ++ ns.flatMap labels :=
  labels_eq (block l ns t)

@[simp] lemma labels_ifElse (c a : Node) (e : Option Node) :
    (ifElse c a e).labels = c.labels ++ (a.labels ++ e.toList.flatMap labels) :=
  labels_eq (ifElse c a e)

lemma label?_eq_none {n : Node} (h : n.isLandmark = false) : n.label? = none := by
  cases n
  case block label _ _ =>
    cases label
    · rfl
    · cases h
  case loop => cases h
  all_goals rfl

lemma labels_landmarks (n : Node) : n.labels = n.landmarks.flatMap labels := by
  rcases hn : n.isLandmark with _ | _
  · rw [labels_of_children (label?_eq_none hn), landmarks_eq hn, List.flatMap_assoc]
    exact List.flatMap_congr fun m hm => labels_landmarks m
  · simp [landmarks_self hn]
termination_by n.subnodes.length
decreasing_by exact length_subnodes_lt hm

end Ir.Node

namespace Lowering

open Ir (Node)
open Ir.Node
open Syntax (Expr Stmt)

/-! ### Steps that only add arithmetic -/

@[simp] lemma landmarks_convert (v : Node) (k : NumKind) :
    (convert v k).landmarks = v.landmarks := by
  unfold convert
  split
  · split <;> rfl
  · rfl

@[simp] lemma landmarks_slotGet (s : Slot) : (slotGet s).landmarks = [] := rfl

@[simp] lemma landmarks_zero (k : NumKind) : (zero k).landmarks = [] := rfl

@[simp] lemma landmarks_i32 (i : Int) : (Node.i32 i).landmarks = [] := rfl

variable {env : Env} {b b' b₀ : Body} {n v : Node}

lemma Adapts.landmarks {t : Ty} (h : Adapts v t n) : n.landmarks = v.landmarks := by
  cases h with
  | same _ => rfl
  | number _ => exact landmarks_convert v _

lemma landmarks_truth {span : Span} (h : Returns (truth v span) b n b') :
    n.landmarks = v.landmarks := by
  obtain ⟨-, k, -, ⟨-, rfl⟩ | ⟨-, rfl⟩⟩ := returns_truth h
  · rfl
  · simp [landmarks]

lemma Signs.landmarks {op : Syntax.UnaryOp} {k : NumKind} (h : Signs op k v n) :
    n.landmarks = v.landmarks := by
  cases h <;> simp [Node.landmarks]

lemma landmarks_floorQuotient (w : Width) (x y r : Slot) (left right : Node) :
    (floorQuotient w x y r left right).landmarks = left.landmarks ++ right.landmarks := by
  simp [floorQuotient, landmarks, landmarksAll]

lemma Combines.landmarks {op : Syntax.BinOp} {k : NumKind} {left right : Node}
    (h : Combines env op k left right b n b') :
    n.landmarks = left.landmarks ++ right.landmarks := by
  cases h
  case floored => exact landmarks_floorQuotient _ _ _ _ _ _
  all_goals simp [Node.landmarks]

lemma landmarks_rangeBlock (s : RangeSlots) (label : Ir.Label) (k : NumKind)
    (start stop step : Node) :
    (rangeBlock s label k start stop step).landmarks =
      start.landmarks ++ (step.landmarks ++ stop.landmarks) ++ [rangeLoop s label k] := by
  have hloop : (rangeLoop s label k).landmarks = [rangeLoop s label k] := rfl
  simp [rangeBlock, rangeLength, landmarks, landmarksAll, landmarksOpt, hloop]

/-- The bounds of a range are evaluated in another order than they are written in. -/
lemma RangeBounds.landmarks_perm {bounds : List Node} {start stop step : Node}
    (h : RangeBounds bounds start stop step) :
    (landmarksAll bounds).Perm (start.landmarks ++ (step.landmarks ++ stop.landmarks)) := by
  cases h <;> simp [landmarksAll]
  exact List.perm_append_comm.append_left _

/-! ### Landmarks of expressions -/

@[simp] lemma labels_rangeLoop (s : RangeSlots) (label : Ir.Label) (k : NumKind) :
    (rangeLoop s label k).labels = [label] := by
  rw [rangeLoop, labels_loop, labels_landmarks]
  simp [landmarks, landmarksAll, landmarksOpt]

/-- A global that is open is read or set, or a range is filled in a loop. -/
inductive Mark (opened : List (String × Ty)) : Node → Prop
  | global {g ty} : lookupLast? g opened = some ty → Mark opened (.globalGet g ty)
  | store {g ty v} : lookupLast? g opened = some ty → (∀ m ∈ v.landmarks, Mark opened m) →
      Mark opened (.globalSet g v)
  | range {s l k} : Mark opened (rangeLoop s l k)

/-- Landmarks of code that is made between two states; their labels are new. -/
structure Marked (b b' : Body) (ms : List Node) : Prop where
  globals : b'.frame.globals = b.frame.globals
  each : ∀ m ∈ ms, Mark b.frame.globals m
  labels : NewLabels b b' (ms.flatMap labels)

namespace Marked

lemma nil (b : Body) : Marked b b [] := ⟨rfl, nofun, .nil le_rfl⟩

lemma mono {ms : List Node} {b'' : Body} (h : Marked b b' ms) (hg : b'.Grows b'') :
    Marked b b'' ms where
  globals := by
    obtain ⟨_, _, _, rfl⟩ := hg
    exact h.globals
  each := h.each
  labels := h.labels.mono le_rfl hg.nextLabel

lemma perm {ms ms' : List Node} (h : Marked b b' ms) (hp : ms.Perm ms') : Marked b b' ms' where
  globals := h.globals
  each m hm := h.each m (hp.mem_iff.mpr hm)
  labels := h.labels.perm (hp.flatMap_right _)

lemma append {ms ms' : List Node} {b₁ : Body} (h : Marked b b₁ ms) (h' : Marked b₁ b' ms') :
    Marked b b' (ms ++ ms') where
  globals := h'.globals.trans h.globals
  each m hm := by
    rcases List.mem_append.mp hm with hm | hm
    · exact h.each m hm
    · exact h.globals ▸ h'.each m hm
  labels := by
    rw [List.flatMap_append]
    exact h.labels.append h'.labels

/-- A loop for a range gets the next label. -/
lemma range (b : Body) (temps : List Ty) (s : RangeSlots) (k : NumKind) :
    Marked b (b.grow temps 1 []) [rangeLoop s (rangeLabel b.session.nextLabel) k] where
  globals := rfl
  each := List.forall_mem_singleton.mpr .range
  labels := by
    rw [List.flatMap_singleton, labels_rangeLoop]
    exact .single (List.nodup_singleton LabelKind.range) _

lemma coerce {t : Ty} {span : Span} {b₁ : Body} (h : Marked b b₁ v.landmarks)
    (hc : Returns (coerce v t span) b₁ n b') : Marked b b' n.landmarks := by
  obtain ⟨hnotes, hadapts⟩ := returns_coerce hc
  rw [hadapts.landmarks]
  exact h.mono hnotes.grows

lemma newLabels (h : Marked b b' n.landmarks) : NewLabels b b' n.labels := by
  rw [labels_landmarks]
  exact h.labels

end Marked

mutual

/-- Expressions read opened globals and fill ranges. -/
lemma LowersExpr.marks {hint : Option Ty} {e : Expr} {b b' : Body} {n : Node} :
    LowersExpr env hint e b n b' → Marked b b' n.landmarks
  | .slot _ | .number _ | .bool | .string _ => .nil _
  | .global _ hg => ⟨rfl, List.forall_mem_singleton.mpr (.global hg), .nil le_rfl⟩
  | .unary he hn => by
    obtain ⟨rfl, k, -, hs⟩ := returns_unary hn
    rw [hs.landmarks]
    exact he.marks
  | .binary hl hr hn => by
    obtain ⟨i, j, b₃, -, -, hg, hc⟩ := returns_binary hn
    rw [hc.landmarks, landmarks_convert, landmarks_convert]
    exact (hl.marks.append hr.marks).mono (hg.grows.trans hc.grows)
  | .compare _ hl hr hu => by
    obtain ⟨hg, i, j, -, -, rfl, rfl, rfl⟩ := returns_unifyOperands hu
    rw [landmarks, landmarks_convert, landmarks_convert]
    exact (hl.marks.append hr.marks).mono hg.grows
  | .ifElse ht hc hx hy hn => by
    obtain ⟨hg, hn⟩ := returns_choose hn
    have hlandmarks := landmarks_truth hc
    obtain ⟨rfl, -⟩ := returns_truth hc
    have hmarks := ((ht.marks.append hx.marks).append hy.marks).mono hg.grows
    rcases hn with ⟨-, -, rfl⟩ | ⟨i, j, -, -, rfl⟩
    · rwa [landmarks, hlandmarks]
    · rwa [landmarks, hlandmarks, landmarks_convert, landmarks_convert]
  | .call _ _ hs => hs.marks
  | .range _ _ hs hn => by
    obtain ⟨start, stop, step, hbounds, rfl, rfl⟩ := returns_rangeOf hn
    rw [landmarks_rangeBlock]
    exact (hs.marks.perm hbounds.landmarks_perm).append (.range _ _ _ _)
  | .len _ _ ha _ => ha.marks
  | .subscript _ ha _ hi hc => ha.marks.append (hi.marks.coerce hc)
  | .list _ hs => hs.marks

lemma LowersArgs.marks {tys : List Ty} {args : List Expr} {b b' : Body} {ns : List Node} :
    LowersArgs env tys args b ns b' → Marked b b' (landmarksAll ns)
  | .nil => .nil _
  | .cons hv hc hs => (hv.marks.coerce hc).append hs.marks

lemma LowersEach.marks {ty : Ty} {es : List Expr} {b b' : Body} {ns : List Node} :
    LowersEach env ty es b ns b' → Marked b b' (landmarksAll ns)
  | .nil => .nil _
  | .cons hv hc hs => (hv.marks.coerce hc).append hs.marks

end

lemma marks_lowerCondition {test : Expr} (h : Returns (lowerCondition env test) b n b') :
    Marked b b' n.landmarks := by
  obtain ⟨v, hv, ht⟩ := returns_lowerCondition h
  rw [landmarks_truth ht]
  exact hv.marks

/-! ### Landmarks of statements without control structure -/

/-- A value that is stored was lowered before its target. -/
lemma StoresName.marks {name : String} (h : StoresName name v b n b')
    (hv : Marked b₀ b v.landmarks) : Marked b₀ b' n.landmarks := by
  cases h with
  | slot _ ha hnotes =>
    rw [landmarks, ha.landmarks]
    exact hv.mono hnotes.grows
  | @global _ v' _ _ _ hg ha hnotes =>
    rw [← ha.landmarks] at hv
    have hlabels := (hv.mono hnotes.grows).newLabels
    refine ⟨(hv.mono hnotes.grows).globals, List.forall_mem_singleton.mpr ?_, ?_⟩
    · rw [Frame.global?, hv.globals] at hg
      exact .store hg hv.each
    · simpa [landmarks, labels_eq (globalSet ..), label?, children] using hlabels
  | fresh _ _ _ => exact ⟨hv.globals, hv.each, hv.labels⟩

lemma Stores.marks {target : Expr} (h : Stores env v target b n b')
    (hv : Marked b₀ b v.landmarks) : Marked b₀ b' n.landmarks := by
  cases h with
  | name hs => exact hs.marks hv
  | element _ ha _ hi hc hn =>
    have hmarks := (hv.append (ha.marks.append (hi.marks.coerce hc))).perm List.perm_append_comm
    rw [landmarks, (returns_coerce hn).2.landmarks]
    exact hmarks.mono (returns_coerce hn).1.grows

lemma StoresAll.marks {targets : List Expr} {ns : List Node} (h : StoresAll env v targets b ns b')
    (hv : v.landmarks = []) : Marked b b' (landmarksAll ns) := by
  induction h with
  | nil => exact .nil _
  | cons hs _ ih => exact (hs.marks (hv ▸ .nil _)).append ih

/-- A `global` statement opens globals, but its node names none. -/
lemma LowersSimple.marks {s : Stmt} (h : LowersSimple env s b n b') :
    ∃ b₁, Marked b b₁ n.landmarks ∧ b₁.Extends b' := by
  have hextends := h.extends
  cases h with
  | comment | pass | importModule | importNames | declare | global => exact ⟨b, .nil b, hextends⟩
  | effect he _ | drop he _ => exact ⟨_, he.marks, .refl _⟩
  | assign he hs => exact ⟨_, hs.marks he.marks, .refl _⟩
  | assignAll _ he _ hs =>
    exact ⟨_, (he.marks.mono ⟨_, _, _, rfl⟩).append (hs.marks rfl), .refl _⟩
  | annAssign _ _ _ _ he hc hs => exact ⟨_, hs.marks (he.marks.coerce hc), .refl _⟩
  | augAssign he hs => exact ⟨_, hs.marks he.marks, .refl _⟩

end Lowering

end AnnotatedWasm
