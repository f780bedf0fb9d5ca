import AnnotatedWasm.Lowering.Stmt
import AnnotatedWasm.Proofs.Returns

/-!
What the small steps of lowering do to the state and to the node at hand.

Expressions only ever make unnamed slots, use up labels and report events: the state after one
is `Body.grow` of the state before. Each step has one lemma that says all it can do; later
arguments use these lemmas and do not open the steps again.
-/

namespace AnnotatedWasm.Lowering

open Ir (Node)
open Syntax (Expr BinOp UnaryOp)

/-- The state with some unnamed slots more, a number of labels used up, and events reported. -/
def Body.grow (b : Body) (temps : List Ty) (labels : Nat) (events : List Event) : Body where
  session :=
    { b.session with
      nextLabel := b.session.nextLabel + labels
      log := b.session.log ++ events }
  frame := { b.frame with extra := b.frame.extra ++ temps }

/-- What an expression does to the state. -/
def Body.Grows (b b' : Body) : Prop := ∃ temps labels events, b' = b.grow temps labels events

namespace Body.Grows

lemma refl (b : Body) : b.Grows b := ⟨[], 0, [], by simp [grow]⟩

lemma trans {a b c : Body} (h : a.Grows b) (h' : b.Grows c) : a.Grows c := by
  obtain ⟨ts, k, es, rfl⟩ := h
  obtain ⟨ts', k', es', rfl⟩ := h'
  exact ⟨ts ++ ts', k + k', es ++ es', by simp [grow, Nat.add_assoc]⟩

variable {b b' : Body}

lemma slot? (h : b.Grows b') (name : String) : b'.frame.slot? name = b.frame.slot? name := by
  obtain ⟨_, _, _, rfl⟩ := h; rfl

lemma global? (h : b.Grows b') (name : String) :
    b'.frame.global? name = b.frame.global? name := by
  obtain ⟨_, _, _, rfl⟩ := h; rfl

lemma loops (h : b.Grows b') : b'.frame.loops = b.frame.loops := by
  obtain ⟨_, _, _, rfl⟩ := h; rfl

lemma returns (h : b.Grows b') : b'.frame.returns = b.frame.returns := by
  obtain ⟨_, _, _, rfl⟩ := h; rfl

lemma module (h : b.Grows b') : b'.session.module = b.session.module := by
  obtain ⟨_, _, _, rfl⟩ := h; rfl

lemma declared (h : b.Grows b') : b'.session.declared = b.session.declared := by
  obtain ⟨_, _, _, rfl⟩ := h; rfl

lemma nextLabel (h : b.Grows b') : b.session.nextLabel ≤ b'.session.nextLabel := by
  obtain ⟨_, _, _, rfl⟩ := h; exact Nat.le_add_right _ _

end Body.Grows

/-- Events are reported, and that is all. -/
def Body.Notes (b b' : Body) : Prop := ∃ events, b' = b.grow [] 0 events

namespace Body.Notes

variable {b b' : Body}

lemma refl (b : Body) : b.Notes b := ⟨[], by simp [grow]⟩

lemma grows (h : b.Notes b') : b.Grows b' := ⟨[], 0, h⟩

lemma frame (h : b.Notes b') : b'.frame = b.frame := by
  obtain ⟨_, rfl⟩ := h
  simp [grow]

end Body.Notes

variable {env : Env} {b b' : Body} {n : Node} {span : Span}

/-! ### Slots, labels, events -/

/-- The binding made last hides the others. -/
lemma lookupLast?_snoc {α : Type} (name key : String) (a : α) (l : List (String × α)) :
    lookupLast? name (l ++ [(key, a)]) = if key = name then some a else lookupLast? name l := by
  induction l with
  | nil => rfl
  | cons x l ih =>
    rw [List.cons_append, lookupLast?, ih, lookupLast?]
    by_cases hk : key = name <;> simp [hk]

@[simp] lemma returns_frame {f : Frame} : Returns frame b f b' ↔ f = b.frame ∧ b' = b := by
  simp only [frame, Returns.bind_iff, Returns.get_iff, Returns.pure_iff]
  constructor
  · rintro ⟨_, _, ⟨rfl, rfl⟩, rfl, rfl⟩; exact ⟨rfl, rfl⟩
  · rintro ⟨rfl, rfl⟩; exact ⟨_, _, ⟨rfl, rfl⟩, rfl, rfl⟩

@[simp] lemma returns_setFrame {f : Frame} {u : Unit} :
    Returns (setFrame f) b u b' ↔ b' = { b with frame := f } := by
  simp [setFrame]

@[simp] lemma returns_note {e : Event} {u : Unit} :
    Returns (note e) b u b' ↔ b' = b.grow [] 0 [e] := by
  simp [note, Body.grow]

@[simp] lemma returns_temporary {ty : Ty} {slot : Slot} :
    Returns (temporary ty) b slot b' ↔
      slot = ⟨b.frame.nextIndex, ty⟩ ∧ b' = b.grow [ty] 0 [] := by
  simp only [temporary, Frame.temporary, Returns.bind_iff, returns_frame, returns_setFrame,
    Returns.pure_iff]
  constructor
  · rintro ⟨_, _, ⟨rfl, rfl⟩, _, _, rfl, rfl, rfl⟩; simp [Body.grow]
  · rintro ⟨rfl, rfl⟩; exact ⟨_, _, ⟨rfl, rfl⟩, (), _, rfl, rfl, by simp [Body.grow]⟩

@[simp] lemma returns_declare {name : String} {ty : Ty} {slot : Slot} :
    Returns (declare name ty) b slot b' ↔
      slot = ⟨b.frame.nextIndex, ty⟩ ∧ b' = { b with frame := (b.frame.declare name ty).2 } := by
  simp only [declare, Frame.declare, Returns.bind_iff, returns_frame, returns_setFrame,
    Returns.pure_iff]
  constructor
  · rintro ⟨_, _, ⟨rfl, rfl⟩, _, _, rfl, rfl, rfl⟩; exact ⟨rfl, rfl⟩
  · rintro ⟨rfl, rfl⟩; exact ⟨_, _, ⟨rfl, rfl⟩, (), _, rfl, rfl, rfl⟩

@[simp] lemma returns_freshLabel {id : Nat} :
    Returns freshLabel b id b' ↔ id = b.session.nextLabel ∧ b' = b.grow [] 1 [] := by
  simp only [freshLabel, Returns.bind_iff, Returns.get_iff, Returns.set_iff, Returns.pure_iff]
  constructor
  · rintro ⟨_, _, ⟨rfl, rfl⟩, _, _, rfl, rfl, rfl⟩; simp [Body.grow]
  · rintro ⟨rfl, rfl⟩; exact ⟨_, _, ⟨rfl, rfl⟩, (), _, rfl, rfl, by simp [Body.grow]⟩

@[simp] lemma returns_requireType {ty : Ty} {u : Unit} :
    Returns (requireType env ty span : Lower Unit) b u b' ↔
      env.options.missing? ty = none ∧ b' = b := by
  unfold requireType
  split <;> simp_all

@[simp] lemma returns_requireArrays {u : Unit} :
    Returns (requireArrays env span) b u b' ↔ env.options.gc = true ∧ b' = b := by
  simp [requireArrays]

lemma isVoid_iff {ty : Ty} : ty.isVoid = true ↔ ty = .void := by cases ty <;> simp [Ty.isVoid]

/-! ### Conversions -/

lemma convert_self {value : Node} {k : NumKind} (h : value.ty = .num k) :
    convert value k = value := by
  simp [convert, h, (Ir.UnaryOp.conversion?_eq_none_iff k k).mpr rfl]

lemma convert_unary {value : Node} {s k : NumKind} {op : Ir.UnaryOp} (h : value.ty = .num s)
    (hop : Ir.UnaryOp.conversion? s k = some op) : convert value k = .unary op value := by
  simp [convert, h, hop]

lemma ty_convert {value : Node} {s k : NumKind} (h : value.ty = .num s) :
    (convert value k).ty = .num k := by
  rcases hc : Ir.UnaryOp.conversion? s k with _ | op
  · rw [(Ir.UnaryOp.conversion?_eq_none_iff s k).mp hc] at h
    rw [convert_self h, h]
  · rw [convert_unary h hc, Node.ty, (Ir.UnaryOp.conversion?_kinds hc).2]

/-- A value as one of the wanted type: it has this type, or both are numbers. -/
inductive Adapts (value : Node) : Ty → Node → Prop
  | same {target} : value.ty = target → Adapts value target value
  | number {s k} : value.ty = .num s → Adapts value (.num k) (convert value k)

lemma Adapts.ty {value : Node} {target : Ty} (h : Adapts value target n) : n.ty = target := by
  cases h with
  | same hty => exact hty
  | number hs => exact ty_convert hs

lemma returns_coerce {value : Node} {target : Ty} (h : Returns (coerce value target span) b n b') :
    b.Notes b' ∧ Adapts value target n := by
  simp only [coerce, Returns.ite_iff, Returns.pure_iff] at h
  rcases h with ⟨hty, rfl, rfl⟩ | ⟨-, h⟩
  · exact ⟨.refl _, .same hty⟩
  · split at h
    · next s k hs =>
      simp at h
      rcases h with ⟨-, h, rfl⟩ | ⟨-, h, rfl⟩ <;> exact ⟨⟨_, h⟩, .number hs⟩
    · simp at h

lemma ty_of_coerce {value : Node} {target : Ty} (h : Returns (coerce value target span) b n b') :
    n.ty = target :=
  (returns_coerce h).2.ty

lemma returns_unifyOperands {left right l r : Node} {k : NumKind}
    (h : Returns (unifyOperands left right span) b (l, r, k) b') :
    b.Notes b' ∧ ∃ i j, left.ty = .num i ∧ right.ty = .num j ∧ k = i.unify j ∧
      l = convert left k ∧ r = convert right k := by
  unfold unifyOperands at h
  split at h
  · next i j hi hj =>
    simp at h
    rcases h with ⟨-, ⟨⟨rfl, rfl, rfl⟩, rfl⟩⟩ | ⟨-, h, rfl, rfl, rfl⟩
    · exact ⟨.refl _, i, j, hi, hj, rfl, rfl, rfl⟩
    · exact ⟨⟨_, h⟩, i, j, hi, hj, rfl, rfl, rfl⟩
  · simp at h

/-- A truth value is the number itself, or says whether it is not zero. -/
lemma returns_truth {value : Node} (h : Returns (truth value span) b n b') :
    b' = b ∧ ∃ k, value.ty = .num k ∧
      ((k = .i32 ∧ n = value) ∨ (k ≠ .i32 ∧ n = .binary (.compare .ne k) value (zero k))) := by
  unfold truth at h
  split at h
  · next hty =>
    rw [Returns.pure_iff] at h
    exact ⟨h.2, .i32, hty, .inl ⟨rfl, h.1⟩⟩
  · next k hk hty =>
    rw [Returns.pure_iff] at h
    exact ⟨h.2, k, hty, .inr ⟨hk, h.1⟩⟩
  · simp at h

/-! ### Operators -/

/-- What an arithmetic operator makes of operands of one kind. -/
inductive Combines (env : Env) : BinOp → NumKind → Node → Node → Body → Node → Body → Prop
  | add {k l r b} : Combines env .add k l r b (.binary (.arith .add k) l r) b
  | sub {k l r b} : Combines env .sub k l r b (.binary (.arith .sub k) l r) b
  | mul {k l r b} : Combines env .mul k l r b (.binary (.arith .mul k) l r) b
  | div {k l r b} : Combines env .div k l r b
      (.binary (.arith .div k.toFloat) (convert l k.toFloat) (convert r k.toFloat)) b
  | floorFloat {w l r b} : Combines env .floorDiv (.float w) l r b
      (.unary (.floor w) (.binary (.arith .div (.float w)) l r)) b
  | truncated {w l r b} : env.options.floorDivision = .truncate →
      Combines env .floorDiv (.int w) l r b (.binary (.arith .div (.int w)) l r) b
  | floored {w l r b} : env.options.floorDivision = .floor →
      Combines env .floorDiv (.int w) l r b
        (floorQuotient w ⟨b.frame.nextIndex, .num (.int w)⟩ ⟨b.frame.nextIndex + 1, .num (.int w)⟩
          ⟨b.frame.nextIndex + 2, .num (.int w)⟩ l r)
        (b.grow [.num (.int w), .num (.int w), .num (.int w)] 0 [])
  | mod {w l r b} : Combines env .mod (.int w) l r b (.binary (.rem w) l r) b

lemma Combines.grows {op : BinOp} {k : NumKind} {l r : Node}
    (h : Combines env op k l r b n b') : b.Grows b' := by
  cases h
  case floored => exact ⟨_, _, _, rfl⟩
  all_goals exact .refl _

lemma nextIndex_grow (b : Body) (temps : List Ty) (labels : Nat) (events : List Event) :
    (b.grow temps labels events).frame.nextIndex = b.frame.nextIndex + temps.length := by
  simp [Body.grow, Frame.nextIndex, Nat.add_assoc]

lemma grow_grow (b : Body) (ts ts' : List Ty) (k k' : Nat) (es es' : List Event) :
    (b.grow ts k es).grow ts' k' es' = b.grow (ts ++ ts') (k + k') (es ++ es') := by
  simp [Body.grow, Nat.add_assoc]

lemma returns_floorDivide {l r : Node} {k : NumKind}
    (h : Returns (floorDivide env l r k) b n b') : Combines env .floorDiv k l r b n b' := by
  rcases k with w | w
  · simp only [floorDivide] at h
    split at h
    · next ht =>
      obtain ⟨rfl, rfl⟩ := Returns.pure_iff.mp h
      exact .truncated ht
    · next hf =>
      simp [nextIndex_grow, grow_grow] at h
      obtain ⟨rfl, rfl⟩ := h
      exact .floored hf
  · obtain ⟨rfl, rfl⟩ := Returns.pure_iff.mp h
    exact .floorFloat

lemma returns_binary {op : BinOp} {left right : Node}
    (h : Returns (binary env op left right span) b n b') :
    ∃ i j b₁, left.ty = .num i ∧ right.ty = .num j ∧ b.Notes b₁ ∧
      Combines env op (i.unify j) (convert left (i.unify j)) (convert right (i.unify j))
        b₁ n b' := by
  simp only [binary, Returns.bind_iff] at h
  obtain ⟨⟨l, r, k⟩, b₁, hu, h⟩ := h
  obtain ⟨hg, i, j, hi, hj, rfl, rfl, rfl⟩ := returns_unifyOperands hu
  refine ⟨i, j, b₁, hi, hj, hg, ?_⟩
  generalize convert left (i.unify j) = l at h ⊢
  generalize convert right (i.unify j) = r at h ⊢
  generalize i.unify j = k at h ⊢
  cases op
  case add => obtain ⟨rfl, rfl⟩ := Returns.pure_iff.mp h; exact .add
  case sub => obtain ⟨rfl, rfl⟩ := Returns.pure_iff.mp h; exact .sub
  case mul => obtain ⟨rfl, rfl⟩ := Returns.pure_iff.mp h; exact .mul
  case div => obtain ⟨rfl, rfl⟩ := Returns.pure_iff.mp h; exact .div
  case floorDiv => exact returns_floorDivide h
  case mod =>
    rcases k with w | w
    · obtain ⟨rfl, rfl⟩ := Returns.pure_iff.mp h; exact .mod
    · simp at h
  all_goals simp at h

/-- What a sign or `not` makes of a number. -/
inductive Signs : UnaryOp → NumKind → Node → Node → Prop
  | pos {k v} : Signs .pos k v v
  | negFloat {w v} : Signs .neg (.float w) v (.unary (.neg w) v)
  | negInt {w v} : Signs .neg (.int w) v
      (.binary (.arith .mul (.int w)) (.const (.ofInt (.int w) (-1))) v)
  | not {k v} : Signs .not k v (.binary (.arith .sub k) (zero k) v)

lemma returns_unary {op : UnaryOp} {value : Node} (h : Returns (unary op value span) b n b') :
    b' = b ∧ ∃ k, value.ty = .num k ∧ Signs op k value n := by
  unfold unary at h
  split at h
  · next k hk =>
    cases op
    case pos => obtain ⟨rfl, rfl⟩ := Returns.pure_iff.mp h; exact ⟨rfl, k, hk, .pos⟩
    case neg =>
      rcases k with w | w <;> obtain ⟨rfl, rfl⟩ := Returns.pure_iff.mp h
      · exact ⟨rfl, _, hk, .negInt⟩
      · exact ⟨rfl, _, hk, .negFloat⟩
    case not => obtain ⟨rfl, rfl⟩ := Returns.pure_iff.mp h; exact ⟨rfl, k, hk, .not⟩
    case invert => simp at h
  · simp at h

lemma returns_choose {c x y : Node} (h : Returns (choose c x y span) b n b') :
    b.Notes b' ∧
      ((x.ty = y.ty ∧ x.ty ≠ .void ∧ n = .select c x y) ∨
        ∃ i j, x.ty = .num i ∧ y.ty = .num j ∧
          n = .select c (convert x (i.unify j)) (convert y (i.unify j))) := by
  simp only [choose, Returns.ite_iff, Returns.pure_iff] at h
  rcases h with ⟨⟨hxy, hv⟩, rfl, rfl⟩ | ⟨-, h⟩
  · exact ⟨.refl _, .inl ⟨hxy, hv, rfl⟩⟩
  · split at h
    · simp only [Returns.bind_iff, Returns.pure_iff] at h
      obtain ⟨⟨l, r, k⟩, b₁, hu, rfl, rfl⟩ := h
      obtain ⟨hg, i, j, hi, hj, rfl, rfl, rfl⟩ := returns_unifyOperands hu
      exact ⟨hg, .inr ⟨i, j, hi, hj, rfl⟩⟩
    · simp at h

/-! ### Ranges -/

/-- The scratch slots of a range from a slot number on. -/
def RangeSlots.from (first : Nat) (element : NumKind) : RangeSlots where
  first := ⟨first, .i32⟩
  stride := ⟨first + 1, .i32⟩
  length := ⟨first + 2, .i32⟩
  array := ⟨first + 3, .array element⟩
  count := ⟨first + 4, .i32⟩
  next := ⟨first + 5, .i32⟩

lemma returns_range {k : NumKind} {start stop step : Node}
    (h : Returns (range k start stop step) b n b') :
    n = rangeBlock (.from b.frame.nextIndex k) (rangeLabel b.session.nextLabel) k start stop step ∧
      b' = b.grow [.i32, .i32, .i32, .array k, .i32, .i32] 1 [] := by
  simp [range, nextIndex_grow, grow_grow] at h
  exact ⟨h.2, h.1⟩

/-- The start, stop and step that one, two or three bounds stand for. -/
inductive RangeBounds : List Node → Node → Node → Node → Prop
  | stop {stop} : RangeBounds [stop] (.i32 0) stop (.i32 1)
  | startStop {start stop} : RangeBounds [start, stop] start stop (.i32 1)
  | startStopStep {start stop step} : RangeBounds [start, stop, step] start stop step

lemma returns_rangeOf {k : NumKind} {bounds : List Node}
    (h : Returns (rangeOf k bounds span) b n b') :
    ∃ start stop step, RangeBounds bounds start stop step ∧
      n = rangeBlock (.from b.frame.nextIndex k) (rangeLabel b.session.nextLabel) k
        start stop step ∧
      b' = b.grow [.i32, .i32, .i32, .array k, .i32, .i32] 1 [] := by
  unfold rangeOf at h
  split at h
  · exact ⟨_, _, _, .stop, returns_range h⟩
  · exact ⟨_, _, _, .startStop, returns_range h⟩
  · exact ⟨_, _, _, .startStopStep, returns_range h⟩
  · simp at h

end AnnotatedWasm.Lowering
